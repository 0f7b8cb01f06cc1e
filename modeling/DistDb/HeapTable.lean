/-
  DistDb.HeapTable — the hash table of `hashtable.c` on the heap.

  `DistDb.Add.Hashtable` has the chains as sequences of records.  Here every bucket is a linked list
  of `DistDb.Add.Nodes`, and all of them lie in one memory: the operations walk along the links,
  overwrite values in place, and release the record of an entry before its node is unlinked.  A node
  or record that is read after its release, or released twice, is a fault.

  `Buckets` says that the memory is `base` and what the chains own, each apart from the others.  An
  operation changes one chain; for it the other ones are part of the rest (`Memory.outside`), and
  `Buckets.set` brings them back.

  Main results:
    * `Buckets.set` — the rule for an edit of one chain,
    * `apply_operation_shows` — every operation does and answers what it does on sequences,
    * `ht_free_eq` — releasing the table leaves `base`,
    * `heap_table_refines_finite_map` — both for every sequence of operations and every allocator.
-/
import DistDb.Add.Owned
import DistDb.TableRuns

namespace DistDb.Nodes.Table

open Lib DoublyLinked

/-! ## §1. The operations. -/

/-- `hashtable_t` for strings, with the memory that its buckets lie in. -/
structure HeapTable where
  mem : Memory
  buckets : List LlList
  size : ℕ
  hmax : UInt32

/-- The list of bucket `i`; there is nothing to be read outside of the array. -/
def HeapTable.bucket (t : HeapTable) (i : ℕ) : Exec LlList :=
  match t.buckets[i]? with
  | none => throw .danglingPointer
  | some list => pure list

/-- An empty list. -/
def ll_create : LlList := ⟨none, none, 0⟩

/-- Link a new node in at slot `n`.  It is given the two pointers of the record and not copies of
the strings, which are its own from then on: in this memory both are a new record. -/
def ll_add_nth_node (mem : Memory) (list : LlList) (n : ℕ) (new_data : Info CString CString)
    (new_node new_info : ℕ) : Exec (Memory × LlList × Option ℕ) :=
  ll_add_nth_node_info mem list n new_data new_node new_info

/-- Release the nodes with their records, from the head on. -/
def ll_free (mem : Memory) (list : LlList) : Exec Memory := free_nodes mem list list.size

/-- `free(data_info)` with its strings -/
def free_record (mem : Memory) (data : ℕ) : Exec Memory := do
  let _ ← mem.info data
  pure { mem with infos := Function.update mem.infos data none }

/-- `free(node)`, which does nothing for NULL -/
def free_cell (mem : Memory) : Option ℕ → Exec Memory
  | none => pure mem
  | some node => do
    let _ ← mem.node (some node)
    pure { mem with nodes := Function.update mem.nodes node none }

def ht_create (mem : Memory) (hmax : UInt32) : HeapTable :=
  { mem := mem, buckets := List.replicate hmax.toNat ll_create, size := 0, hmax := hmax }

section Operations

variable (hash_function : CString → UInt32)

/-- `hash_function(key) % hmax` -/
def hash_index (t : HeapTable) (key : CString) : Exec ℕ :=
  remainder (hash_function key).toNat t.hmax.toNat

/-- The walk along the chain is that of `ll_get_node`. -/
def ht_has_key (t : HeapTable) (key : CString) : Exec Bool := do
  let i ← hash_index hash_function t key
  let list ← t.bucket i
  let node ← find_node t.mem key list.size list.head
  pure node.isSome

/-- The value stored under the key, or NULL. -/
def ht_get (t : HeapTable) (key : CString) : Exec (Option CString) := do
  if ← ht_has_key hash_function t key then
    let i ← hash_index hash_function t key
    let list ← t.bucket i
    match ← find_node t.mem key list.size list.head with
    | none => pure none
    | some node =>
      let n ← t.mem.node (some node)
      let info ← t.mem.info n.data
      pure (some info.value)
  else
    pure none

/-- Overwrite the value of the key in its record, or link a new entry in at the chain's head. -/
def ht_put (malloc : Memory → ℕ × ℕ) (t : HeapTable) (key value : CString) : Exec HeapTable := do
  let i ← hash_index hash_function t key
  let list ← t.bucket i
  let node ←
    if ← ht_has_key hash_function t key then find_node t.mem key list.size list.head
    else pure none
  match node with
  | some node =>
    let n ← t.mem.node (some node)
    let mem ← write_value t.mem n.data value
    pure { t with mem := mem }
  | none =>
    let new := malloc t.mem
    let (mem, list, _) ← ll_add_nth_node t.mem list 0 ⟨key, value⟩ new.1 new.2
    pure { t with mem := mem, buckets := t.buckets.set i list, size := t.size + 1 }

/-- The loop of `ht_remove_entry` from a node on, which is number `node_nr`: the record of the key
is released, then its node is unlinked by its number and released.  The last result says whether
there was one. -/
def remove_entry_loop (mem : Memory) (list : LlList) (key : CString) :
    ℕ → ℕ → Option ℕ → Exec (Memory × LlList × Bool)
  | _, _, none => pure (mem, list, false)
  | 0, _, some _ => throw .outOfFuel
  | rounds + 1, node_nr, some node => do
    let n ← mem.node (some node)
    let info ← mem.info n.data
    if info.key = key then
      let mem ← free_record mem n.data
      let (mem, list, deleted_node) ← ll_remove_nth_node mem list node_nr
      let mem ← free_cell mem deleted_node
      pure (mem, list, true)
    else remove_entry_loop mem list key rounds (node_nr + 1) n.next

/-- Take the first entry of the key out of its chain. -/
def ht_remove_entry (t : HeapTable) (key : CString) : Exec HeapTable := do
  if ← ht_has_key hash_function t key then
    let i ← hash_index hash_function t key
    let list ← t.bucket i
    let (mem, list, removed) ← remove_entry_loop t.mem list key list.size 0 list.head
    pure { t with
      mem := mem
      buckets := t.buckets.set i list
      size := if removed then decrement t.size else t.size }
  else
    pure t

end Operations

/-- The walk of `ht_free` along a chain, which reads every record for the strings to be released.
They go with the record. -/
def free_strings (mem : Memory) : ℕ → Option ℕ → Exec Unit
  | _, none => pure ()
  | 0, some _ => throw .outOfFuel
  | rounds + 1, some node => do
    let n ← mem.node (some node)
    let _ ← mem.info n.data
    free_strings mem rounds n.next

/-- The loop of `ht_free` over the buckets. -/
def free_buckets (mem : Memory) : List LlList → Exec Memory
  | [] => pure mem
  | list :: lists => do
    free_strings mem list.size list.head
    let mem ← ll_free mem list
    free_buckets mem lists

def ht_free (t : HeapTable) : Exec Memory := free_buckets t.mem t.buckets

/-- The code's operation with the allocator's answer. -/
def apply_operation (hash_function : CString → UInt32) (t : HeapTable) :
    TableOperation CString CString × Allocator → Exec (HeapTable × TableResult CString)
  | (.put key value, allocator) => do
    let t ← ht_put hash_function allocator.malloc t key value
    pure (t, .put)
  | (.get key, _) => do
    let value ← ht_get hash_function t key
    pure (t, .get value)
  | (.has_key key, _) => do
    let found ← ht_has_key hash_function t key
    pure (t, .has_key found)
  | (.remove_entry key, _) => do
    let t ← ht_remove_entry hash_function t key
    pure (t, .remove_entry)
  | (.get_size, _) => pure (t, .get_size t.size)

/-! ## §2. Unlinking reads no record. -/

/-- The memory with other records. -/
def withInfos (mem : Memory) (infos : ℕ → Option (Info CString CString)) : Memory :=
  { mem with infos := infos }

section WithInfos

variable {mem : Memory} {infos : ℕ → Option (Info CString CString)}

theorem node_withInfos (a : Option ℕ) : (withInfos mem infos).node a = mem.node a := by
  cases a <;> rfl

theorem write_next_withInfos (a b : Option ℕ) : write_next (withInfos mem infos) a b
    = (fun m => withInfos m infos) <$> write_next mem a b := by
  rw [write_next, write_next, node_withInfos]
  cases mem.node a <;> rfl

theorem write_prev_withInfos (a b : Option ℕ) : write_prev (withInfos mem infos) a b
    = (fun m => withInfos m infos) <$> write_prev mem a b := by
  rw [write_prev, write_prev, node_withInfos]
  cases mem.node a <;> rfl

theorem next_nodes_withInfos (i : ℕ) (a : Option ℕ) :
    next_nodes (withInfos mem infos) i a = next_nodes mem i a := by
  induction i generalizing a with
  | zero => rfl
  | succ i ih =>
    unfold next_nodes
    simp only [node_withInfos, ih]

theorem prev_nodes_withInfos (i : ℕ) (a : Option ℕ) :
    prev_nodes (withInfos mem infos) i a = prev_nodes mem i a := by
  induction i generalizing a with
  | zero => rfl
  | succ i ih =>
    unfold prev_nodes
    simp only [node_withInfos, ih]

theorem ll_get_nth_node_withInfos (list : LlList) (n : ℕ) :
    ll_get_nth_node (withInfos mem infos) list n = ll_get_nth_node mem list n := by
  unfold ll_get_nth_node
  simp only [next_nodes_withInfos, prev_nodes_withInfos]

/-- **A node can be unlinked after its record is released.** -/
theorem ll_remove_nth_node_withInfos (mem : Memory)
    (infos : ℕ → Option (Info CString CString)) (list : LlList) (n : ℕ) :
    ll_remove_nth_node (withInfos mem infos) list n
      = (fun r => (withInfos r.1 infos, r.2)) <$> ll_remove_nth_node mem list n := by
  unfold ll_remove_nth_node
  split_ifs
  · rfl
  · rfl
  all_goals
    simp only [node_withInfos, write_next_withInfos, write_prev_withInfos,
      ll_get_nth_node_withInfos, bind_map_left, map_bind, map_pure, pure_bind]
  -- at the head it depends on the next node whether a link is written
  cases mem.node list.head with
  | error fault => rfl
  | ok removed =>
    rw [ok_bind, ok_bind]
    by_cases hnext : removed.next.isSome = true
    · rw [if_pos hnext, if_pos hnext, map_bind]
      rfl
    · rw [if_neg hnext, if_neg hnext]
      rfl

end WithInfos

/-! ## §3. Chains in one memory. -/

/-- The buckets are well formed lists of the nodes `ess`, no two of which have a node or a record in
common, and the memory is `base` with all of these. -/
structure Buckets (base mem : Memory) (lists : List LlList) (ess : List (List Entry)) : Prop where
  chained : List.Forall₂ (Chained mem) lists ess
  owned : Owned base mem ess.flatten

section Chains

variable {base mem mem' : Memory} {lists lists' lists₁ lists₂ : List LlList} {list list' : LlList}
  {ess ess' ess₁ ess₂ : List (List Entry)} {es es' : List Entry} {i : ℕ}

theorem flatten_perm (hes : ess[i]? = some es) :
    ess.flatten.Perm (es ++ (ess.eraseIdx i).flatten) :=
  (Parallel.perm_cons_eraseIdx hes).flatten

/-- The lists look the same in a memory that has the same nodes and records of theirs. -/
theorem forall₂_frame (h : List.Forall₂ (Chained mem) lists ess)
    (hsame : ∀ y ∈ ess.flatten,
      mem'.nodes y.node = mem.nodes y.node ∧ mem'.infos y.data = mem.infos y.data) :
    List.Forall₂ (Chained mem') lists ess := by
  refine Parallel.forall₂_imp_mem h ?_
  intro list ys hys hchained
  have hmem : ∀ y ∈ ys, y ∈ ess.flatten := fun y hy => List.mem_flatten.mpr ⟨ys, hys, hy⟩
  exact hchained.frame (fun y hy => (hsame y (hmem y hy)).1) fun y hy => (hsame y (hmem y hy)).2

/-- **An edit of one chain**, for which the other ones are part of the rest, leaves the buckets well
formed and apart, and the same `base`. -/
theorem Buckets.set (h : Buckets base mem lists ess) (hlist : lists[i]? = some list)
    (hes : ess[i]? = some es) (hchained : Chained mem' list' es')
    (hover : Over (mem.outside es) mem' es') :
    Buckets base mem' (lists.set i list') (ess.set i es') := by
  have hlist' : (lists.set i list')[i]? = some list' :=
    List.getElem?_set_self (List.getElem?_eq_some_iff.mp hlist).1
  have hes' : (ess.set i es')[i]? = some es' :=
    List.getElem?_set_self (List.getElem?_eq_some_iff.mp hes).1
  have hnew := (Parallel.set_perm_cons_eraseIdx hes es').flatten
  have howned := h.owned.perm (flatten_perm hes).symm
  have howned' := hchained.owned hover
  refine ⟨?_, (howned.replace howned').perm hnew⟩
  rw [Parallel.forall₂_iff_at hlist' hes', List.eraseIdx_set_eq, List.eraseIdx_set_eq]
  exact ⟨hchained, forall₂_frame (Parallel.forall₂_eraseIdx h.chained i)
    fun y hy => howned.frame howned' hy⟩

/-- The first chain is edited. -/
theorem Buckets.set_head (h : Buckets base mem (list :: lists) (es :: ess))
    (hchained : Chained mem' list' es') (hover : Over (mem.outside es) mem' es') :
    Buckets base mem' (list' :: lists) (es' :: ess) :=
  Buckets.set h (i := 0) rfl rfl hchained hover

/-- Some of the chains, for which the other ones are part of the rest, -/
theorem Buckets.focus (h : Buckets base mem (lists₁ ++ lists₂) (ess₁ ++ ess₂))
    (hlen : lists₁.length = ess₁.length) :
    Buckets (mem.outside ess₁.flatten) mem lists₁ ess₁ := by
  have howned := h.owned
  rw [List.flatten_append] at howned
  exact ⟨((Parallel.forall₂_append_iff hlen).mp h.chained).1, howned.focus⟩

/-- and the chains with what these have become. -/
theorem Buckets.replace (h : Buckets base mem (lists₁ ++ lists₂) (ess₁ ++ ess₂))
    (hlen : lists₁.length = ess₁.length)
    (h' : Buckets (mem.outside ess₁.flatten) mem' lists' ess') :
    Buckets base mem' (lists' ++ lists₂) (ess' ++ ess₂) := by
  have howned := h.owned
  rw [List.flatten_append] at howned
  refine ⟨?_, ?_⟩
  · rw [Parallel.forall₂_append_iff h'.chained.length_eq]
    exact ⟨h'.chained, forall₂_frame ((Parallel.forall₂_append_iff hlen).mp h.chained).2
      fun y hy => howned.frame h'.owned hy⟩
  · rw [List.flatten_append]
    exact howned.replace h'.owned

/-- The order of the chains does not matter. -/
theorem Buckets.swap (h : Buckets base mem (lists₁ ++ lists₂) (ess₁ ++ ess₂))
    (hlen : lists₁.length = ess₁.length) :
    Buckets base mem (lists₂ ++ lists₁) (ess₂ ++ ess₁) := by
  obtain ⟨h₁, h₂⟩ := (Parallel.forall₂_append_iff hlen).mp h.chained
  refine ⟨(Parallel.forall₂_append_iff h₂.length_eq).mpr ⟨h₂, h₁⟩, h.owned.perm ?_⟩
  rw [List.flatten_append, List.flatten_append]
  exact List.perm_append_comm

/-- Without some of the chains the others are as they were. -/
theorem Buckets.rest (h : Buckets base mem (lists₁ ++ lists₂) (ess₁ ++ ess₂))
    (hlen : lists₁.length = ess₁.length) :
    Buckets base (mem.outside ess₁.flatten) lists₂ ess₂ := by
  have howned := h.owned
  rw [List.flatten_append] at howned
  exact ⟨forall₂_frame ((Parallel.forall₂_append_iff hlen).mp h.chained).2
    fun y hy => howned.outside_eq hy, howned.rest⟩

end Chains

/-! ## §4. One chain. -/

section Chain

variable {base mem : Memory} {list : LlList} {es xs ys : List Entry} {e new : Entry}

theorem walk_eq (h : Chained mem list es) (key : CString) :
    find_node mem key list.size list.head
      = .ok ((KeyedList.find Entry.key es key).map Entry.node) := by
  rw [h.head_eq, find_node_eq h.linked h.infos key (Nat.le_of_eq h.size_eq.symm)]

/-- A new entry at the head. -/
theorem ll_add_nth_node_head (h : Chained mem list es) (hover : Over base mem es)
    (hfresh : Fresh mem new) :
    ll_add_nth_node mem list 0 new.info new.node new.data
        = .ok (inserted mem [] new es, listOf (new :: es), some new.node) ∧
      Chained (inserted mem [] new es) (listOf (new :: es)) (new :: es) ∧
      Over base (inserted mem [] new es) (new :: es) := by
  have h' : Chained mem list ([] ++ es) := h
  refine ⟨ll_add_nth_node_info_head h hfresh, h'.inserted hfresh, ?_⟩
  exact hover.inserted (fun x hx => hx) hfresh (fun x hx => hfresh.node_ne h hx)
    (fun x hx => hfresh.data_ne h hx) fun x => List.mem_cons

/-- The memory once the record of an entry is released, and then its node unlinked and released. -/
theorem release_after_record (h : Chained mem list (xs ++ e :: ys)) :
    (do
      let mem ← free_record mem e.data
      let (mem, list, deleted_node) ← ll_remove_nth_node mem list xs.length
      let mem ← free_cell mem deleted_node
      pure (mem, list, true))
      = .ok ((joined mem xs ys).release e.node e.data, listOf (xs ++ ys), true) := by
  have hinfo : mem.info e.data = .ok e.info := by
    rw [Memory.info, h.infos e (List.mem_append_right xs List.mem_cons_self)]
    rfl
  have hunlink := ll_remove_nth_node_withInfos mem (Function.update mem.infos e.data none) list
    xs.length
  rw [ll_remove_nth_node_eq h] at hunlink
  have hnode : (withInfos (joined mem xs ys) (Function.update mem.infos e.data none)).node
      (some e.node) = mem.node (some e.node) := by
    rw [node_withInfos, node_joined fun x hx => h.node_ne hx]
  rw [free_record, hinfo]
  show (ll_remove_nth_node (withInfos mem (Function.update mem.infos e.data none)) list xs.length
    >>= _) = _
  rw [hunlink]
  show (free_cell (withInfos (joined mem xs ys) (Function.update mem.infos e.data none))
    (some e.node) >>= _) = _
  rw [free_cell, hnode, h.node_eq]
  rfl

/-- The loop finds the first entry of the key, and has counted the nodes before it. -/
theorem remove_entry_loop_eq {before : List Entry}
    (h : Chained mem list (before ++ (xs ++ e :: ys))) (hkey : ∀ x ∈ xs, x.key ≠ e.key)
    {rounds : ℕ} (hrounds : xs.length < rounds) :
    remove_entry_loop mem list e.key rounds before.length (first (cells (xs ++ e :: ys)) none)
      = .ok ((joined mem (before ++ xs) ys).release e.node e.data, listOf (before ++ xs ++ ys),
        true) := by
  induction xs generalizing before rounds with
  | nil =>
    cases rounds with
    | zero => cases hrounds
    | succ rounds =>
      have hinfo : mem.info e.data = .ok e.info := by
        rw [Memory.info, h.infos e (List.mem_append_right before List.mem_cons_self)]
        rfl
      show remove_entry_loop mem list e.key (rounds + 1) before.length (some e.node) = _
      rw [remove_entry_loop, h.node_eq, ok_bind, hinfo, ok_bind,
        if_pos (show e.info.key = e.key from rfl), List.append_nil]
      exact release_after_record h
  | cons x xs ih =>
    cases rounds with
    | zero => cases hrounds
    | succ rounds =>
      have hinfo : mem.info x.data = .ok x.info := by
        rw [Memory.info, h.infos x (List.mem_append_right before List.mem_cons_self)]
        rfl
      have hx : mem.node (some x.node) = .ok ⟨x.data, _, first (cells (xs ++ e :: ys)) none⟩ :=
        h.node_eq
      have hne : x.info.key ≠ e.key := hkey x List.mem_cons_self
      show remove_entry_loop mem list e.key (rounds + 1) before.length (some x.node) = _
      have h' : Chained mem list (before ++ [x] ++ (xs ++ e :: ys)) := by
        rw [List.append_assoc]
        exact h
      have hrest := ih h' (fun y hy => hkey y (List.mem_cons_of_mem x hy))
        (Nat.lt_of_succ_lt_succ hrounds)
      rw [List.length_append, List.length_singleton] at hrest
      rw [remove_entry_loop, hx, ok_bind, hinfo, ok_bind, if_neg hne, List.append_cons before x xs]
      exact hrest

end Chain

/-! ## §5. The operations against the sequences of records. -/

/-- The table stands on the memory `base`: its chains have the records of `ht` in their order. -/
structure Stands (base : Memory) (t : HeapTable) (ht : Hashtable CString CString)
    (ess : List (List Entry)) : Prop where
  buckets : Buckets base t.mem t.buckets ess
  chains_eq : ht.buckets = ess.map (List.map fun e => e.info)
  size_eq : t.size = ht.size
  hmax_eq : t.hmax = ht.hmax

section Refines

variable {hash : CString → UInt32} {base mem' : Memory} {list list' : LlList} {t : HeapTable}
  {ht : Hashtable CString CString} {ess : List (List Entry)} {es es' : List Entry} {i : ℕ}

theorem Stands.bucket_eq (h : Stands base t ht ess) (hes : ess[i]? = some es) :
    ht.bucket i = es.map fun e => e.info := by
  rw [Hashtable.bucket, h.chains_eq, List.getElem?_map, hes]
  rfl

/-- The chain of a key. -/
theorem Stands.exists_chain (h : Stands base t ht ess) (wf : ht.WF hash) (key : CString) :
    ∃ list es, t.buckets[ht.index hash key]? = some list ∧ ess[ht.index hash key]? = some es ∧
      Chained t.mem list es := by
  have hlength : ht.buckets.length = ess.length := by
    rw [h.chains_eq, List.length_map]
  have hi := hlength ▸ wf.index_lt key
  have hes := List.getElem?_eq_getElem hi
  obtain ⟨list, hlist⟩ := Parallel.exists_of_length_eq h.buckets.chained.length_eq.symm hes
  exact ⟨list, _, hlist, hes, Parallel.forall₂_getElem? h.buckets.chained hlist hes⟩

theorem Stands.hash_index_eq (h : Stands base t ht ess) (wf : ht.WF hash) (key : CString) :
    hash_index hash t key = .ok (ht.index hash key) := by
  rw [hash_index, h.hmax_eq]
  exact wf.hash_index_eq key

theorem bucket_of_getElem? (hlist : t.buckets[i]? = some list) : t.bucket i = .ok list := by
  rw [HeapTable.bucket, hlist]
  rfl

/-- What is found in the chain is what is found among its records. -/
theorem Stands.find_eq (h : Stands base t ht ess) (hes : ess[i]? = some es) (key : CString) :
    KeyedList.find Info.key (ht.bucket i) key
      = (KeyedList.find Entry.key es key).map fun e => e.info := by
  rw [h.bucket_eq hes]
  exact KeyedList.find_map _ es key

theorem Stands.ht_has_key_eq (h : Stands base t ht ess) (wf : ht.WF hash) (key : CString) :
    ht_has_key hash t key = DistDb.ht_has_key hash ht key := by
  obtain ⟨list, es, hlist, hes, hchained⟩ := h.exists_chain wf key
  rw [ht_has_key, h.hash_index_eq wf, ok_bind, bucket_of_getElem? hlist, ok_bind,
    walk_eq hchained, ok_bind, DistDb.ht_has_key, wf.hash_index_eq, ok_bind, h.find_eq hes,
    Option.isSome_map, Option.isSome_map]

theorem Stands.ht_get_eq (h : Stands base t ht ess) (wf : ht.WF hash) (key : CString) :
    ht_get hash t key = DistDb.ht_get hash ht key := by
  obtain ⟨list, es, hlist, hes, hchained⟩ := h.exists_chain wf key
  rw [ht_get, DistDb.ht_get, h.ht_has_key_eq wf, DistDb.ht_has_key, wf.hash_index_eq, ok_bind,
    h.find_eq hes]
  cases hfind : KeyedList.find Entry.key es key with
  | none => rfl
  | some e =>
    obtain ⟨xs, ys, rfl, -⟩ := KeyedList.find_split hfind
    have hinfo : t.mem.info e.data = .ok e.info := by
      rw [Memory.info, hchained.infos e (List.mem_append_right xs List.mem_cons_self)]
      rfl
    have hwalk := walk_eq hchained key
    rw [hfind] at hwalk
    show (hash_index hash t key >>= _) = _
    rw [h.hash_index_eq wf, ok_bind, bucket_of_getElem? hlist, ok_bind, hwalk]
    show (t.mem.node (some e.node) >>= _) = _
    rw [hchained.node_eq, ok_bind, hinfo]
    show Except.ok (some e.info.value)
      = .ok ((KeyedList.find Info.key (ht.bucket (ht.index hash key)) key).map Info.value)
    rw [h.find_eq hes, hfind]
    rfl

/-- An edit of one chain is an edit of the sequence of its records. -/
theorem Stands.setBucket (h : Stands base t ht ess) (hlist : t.buckets[i]? = some list)
    (hes : ess[i]? = some es) (hchained : Chained mem' list' es')
    (hover : Over (t.mem.outside es) mem' es') (size : ℕ) :
    Stands base ⟨mem', t.buckets.set i list', size, t.hmax⟩
      (ht.setBucket i (es'.map fun e => e.info) size) (ess.set i es') where
  buckets := h.buckets.set hlist hes hchained hover
  chains_eq := by
    show ht.buckets.set i _ = _
    rw [h.chains_eq, List.map_set]
  size_eq := rfl
  hmax_eq := h.hmax_eq

/-- The value of a key that is there is overwritten. -/
theorem Stands.put_found (h : Stands base t ht ess) (wf : ht.WF hash) (allocator : Allocator)
    {key : CString} (value : CString) {list : LlList} {es : List Entry} {e : Entry}
    (hlist : t.buckets[ht.index hash key]? = some list)
    (hes : ess[ht.index hash key]? = some es) (hchained : Chained t.mem list es)
    (hfind : KeyedList.find Entry.key es key = some e) :
    ∃ t' ht' ess', ht_put hash allocator.malloc t key value = .ok t' ∧
      DistDb.ht_put hash ht key value = .ok ht' ∧ Stands base t' ht' ess' := by
  have hwalk := walk_eq hchained key
  have hfound := h.find_eq hes key
  rw [hfind] at hwalk hfound
  obtain ⟨-, rfl⟩ := KeyedList.mem_of_find hfind
  obtain ⟨xs, ys, rfl, hxs, -⟩ := KeyedList.find_split hfind
  have hchain : KeyedList.replace Info.key (ht.bucket (ht.index hash e.key)) ⟨e.key, value⟩
      = (xs ++ e.withValue value :: ys).map fun e => e.info := by
    rw [h.bucket_eq hes, List.map_append, List.map_cons, KeyedList.replace_append]
    · rw [KeyedList.replace, if_pos (show e.info.key = e.key from rfl), List.map_append]
      rfl
    · -- the entries before it have other keys
      intro hin
      obtain ⟨info, hinfo, heq⟩ := List.mem_map.mp hin
      obtain ⟨x, hx, rfl⟩ := List.mem_map.mp hinfo
      exact hxs x hx heq
  have h' := h.setBucket hlist hes (hchained.written value)
    ((over_outside t.mem _).written value) t.size
  rw [DistDb.set_of_getElem? hlist] at h'
  refine ⟨_, _, _, ?_, ?_, h'⟩
  · rw [ht_put, h.hash_index_eq wf, ok_bind, bucket_of_getElem? hlist, ok_bind,
      h.ht_has_key_eq wf, DistDb.ht_has_key, wf.hash_index_eq, ok_bind, hfound]
    show (find_node t.mem e.key list.size list.head >>= _) = _
    rw [hwalk]
    show (t.mem.node (some e.node) >>= _) = _
    rw [hchained.node_eq, ok_bind, write_value_eq hchained]
    rfl
  · rw [DistDb.ht_put, DistDb.ht_has_key, wf.hash_index_eq, ok_bind, ok_bind, hfound, ← hchain,
      h.size_eq]
    rfl

/-- A key that is not there is put at the head of its chain. -/
theorem Stands.put_new (hbase : base.Finite) (h : Stands base t ht ess) (wf : ht.WF hash)
    (allocator : Allocator) {key : CString} (value : CString) {list : LlList} {es : List Entry}
    (hlist : t.buckets[ht.index hash key]? = some list)
    (hes : ess[ht.index hash key]? = some es) (hchained : Chained t.mem list es)
    (hfind : KeyedList.find Entry.key es key = none) :
    ∃ t' ht' ess', ht_put hash allocator.malloc t key value = .ok t' ∧
      DistDb.ht_put hash ht key value = .ok ht' ∧ Stands base t' ht' ess' := by
  have hfound := h.find_eq hes key
  rw [hfind] at hfound
  obtain ⟨hadd, hinserted, hover⟩ := ll_add_nth_node_head hchained (over_outside t.mem es)
    (allocator.fresh (h.buckets.owned.memory.finite hbase) ⟨key, value⟩)
  refine ⟨_, _, _, ?_, ?_, h.setBucket hlist hes hinserted hover (t.size + 1)⟩
  · rw [ht_put, h.hash_index_eq wf, ok_bind, bucket_of_getElem? hlist, ok_bind,
      h.ht_has_key_eq wf, DistDb.ht_has_key, wf.hash_index_eq, ok_bind, hfound]
    show (ll_add_nth_node t.mem list 0 ⟨key, value⟩ (allocator.malloc t.mem).1
      (allocator.malloc t.mem).2 >>= _) = _
    rw [show ll_add_nth_node t.mem list 0 ⟨key, value⟩ (allocator.malloc t.mem).1
      (allocator.malloc t.mem).2 = _ from hadd]
    rfl
  · rw [DistDb.ht_put, DistDb.ht_has_key, wf.hash_index_eq, ok_bind, ok_bind, hfound,
      DistDb.ll_add_nth_node_of_le (Nat.zero_le _), List.insertIdx_zero, h.bucket_eq hes,
      h.size_eq]
    rfl

/-- `ht_put` does to the chains what it does to the sequences. -/
theorem Stands.put (hbase : base.Finite) (h : Stands base t ht ess) (wf : ht.WF hash)
    (allocator : Allocator) (key value : CString) :
    ∃ t' ht' ess', ht_put hash allocator.malloc t key value = .ok t' ∧
      DistDb.ht_put hash ht key value = .ok ht' ∧ Stands base t' ht' ess' := by
  obtain ⟨list, es, hlist, hes, hchained⟩ := h.exists_chain wf key
  cases hfind : KeyedList.find Entry.key es key with
  | some e => exact h.put_found wf allocator value hlist hes hchained hfind
  | none => exact h.put_new hbase wf allocator value hlist hes hchained hfind

/-- `ht_remove_entry` does to the chains what it does to the sequences. -/
theorem Stands.remove (h : Stands base t ht ess) (wf : ht.WF hash) (key : CString) :
    ∃ t' ht' ess', ht_remove_entry hash t key = .ok t' ∧
      DistDb.ht_remove_entry hash ht key = .ok ht' ∧ Stands base t' ht' ess' := by
  obtain ⟨list, es, hlist, hes, hchained⟩ := h.exists_chain wf key
  have hfound := h.find_eq hes key
  cases hfind : KeyedList.find Entry.key es key with
  | none =>
    rw [hfind] at hfound
    refine ⟨t, ht, ess, ?_, ?_, h⟩
    · rw [ht_remove_entry, h.ht_has_key_eq wf, DistDb.ht_has_key, wf.hash_index_eq, ok_bind, hfound]
      rfl
    · rw [DistDb.ht_remove_entry, DistDb.ht_has_key, wf.hash_index_eq, ok_bind, hfound]
      rfl
  | some e =>
    rw [hfind] at hfound
    obtain ⟨hmem, rfl⟩ := KeyedList.mem_of_find hfind
    obtain ⟨xs, ys, rfl, hxs, herase⟩ := KeyedList.find_split hfind
    have hin : e.key ∈ (ht.bucket (ht.index hash e.key)).map Info.key := by
      rw [← KeyedList.find_isSome, hfound]
      rfl
    have hchain : KeyedList.erase Info.key (ht.bucket (ht.index hash e.key)) e.key
        = (xs ++ ys).map fun e => e.info := by
      rw [h.bucket_eq hes, KeyedList.erase_map, ← herase]
      rfl
    have hchained₀ : Chained t.mem list ([] ++ (xs ++ e :: ys)) := hchained
    have hrounds : xs.length < list.size := by
      rw [hchained.size_eq, List.length_append, List.length_cons]
      omega
    have hloop := remove_entry_loop_eq hchained₀ hxs hrounds
    have hreleased := hchained.joined.release (fun x hx => hchained.node_ne hx)
      fun x hx => hchained.data_ne hx
    -- the entry is counted, so that the size does not wrap around
    have hentry : e.info ∈ ht.entries := by
      rw [Hashtable.entries, h.chains_eq]
      exact List.mem_flatten.mpr ⟨_, List.mem_map_of_mem (List.mem_of_getElem? hes),
        List.mem_map_of_mem hmem⟩
    have hpos : t.size ≠ 0 := by
      rw [h.size_eq, wf.size_eq]
      exact Nat.ne_of_gt (List.length_pos_of_mem hentry)
    refine ⟨_, _, _, ?_, ?_, h.setBucket hlist hes hreleased (over_outside t.mem _).released
      (t.size - 1)⟩
    · rw [ht_remove_entry, h.ht_has_key_eq wf, DistDb.ht_has_key, wf.hash_index_eq, ok_bind, hfound]
      show (hash_index hash t e.key >>= _) = _
      rw [h.hash_index_eq wf, ok_bind, bucket_of_getElem? hlist, ok_bind, hchained.head_eq]
      show (remove_entry_loop t.mem list e.key list.size 0 _ >>= _) = _
      rw [show remove_entry_loop t.mem list e.key list.size 0 _ = _ from hloop, ok_bind]
      show Except.ok (HeapTable.mk _ _ (decrement t.size) _) = _
      rw [decrement, if_neg hpos]
      rfl
    · rw [DistDb.ht_remove_entry, DistDb.ht_has_key, wf.hash_index_eq, ok_bind, hfound]
      show Except.ok (ht.setBucket (ht.index hash e.key) (DistDb.ll_remove_nth_node
        (ht.bucket (ht.index hash e.key)) ((ht.bucket (ht.index hash e.key)).findIdx
          fun info => decide (info.key = e.key))).2 (ht.size - 1)) = _
      rw [eraseIdx_findIdx_eq_erase _ _ hin, hchain, h.size_eq]

end Refines

/-! ## §6. From `ht_create` to `ht_free`. -/

section Runs

variable {hash : CString → UInt32} {base mem : Memory} {list : LlList} {lists : List LlList}
  {es : List Entry} {ess : List (List Entry)} {t : HeapTable} {hmax : UInt32}

theorem chained_nil (mem : Memory) : Chained mem ll_create [] :=
  ⟨trivial, rfl, rfl, rfl, List.nodup_nil, List.forall_mem_nil _, List.nodup_nil⟩

theorem ht_create_stands (base : Memory) (hmax : UInt32) :
    Stands base (ht_create base hmax) (DistDb.ht_create hmax) (List.replicate hmax.toNat []) where
  buckets := by
    refine ⟨?_, ?_⟩
    · show List.Forall₂ (Chained base) (List.replicate hmax.toNat ll_create) _
      induction hmax.toNat with
      | zero => exact .nil
      | succ n ih => exact .cons (chained_nil base) ih
    · rw [List.flatten_replicate_nil]
      exact Owned.nil base
  chains_eq := by
    rw [List.map_replicate]
    rfl
  size_eq := rfl
  hmax_eq := rfl

/-- The walk for the strings reads every record, and ends. -/
theorem free_strings_eq {before : Option ℕ} (h : Linked mem.nodes before (cells es) none)
    (hinfos : ∀ e ∈ es, mem.infos e.data = some e.info) :
    free_strings mem es.length (first (cells es) none) = .ok () := by
  induction es generalizing before with
  | nil => rfl
  | cons e es ih =>
    obtain ⟨he, hes⟩ := h
    have he : mem.node (some e.node) = .ok ⟨e.data, before, first (cells es) none⟩ :=
      Memory.node_of_eq he
    have hinfo : mem.info e.data = .ok e.info := by
      rw [Memory.info, hinfos e List.mem_cons_self]
      rfl
    show free_strings mem (es.length + 1) (some e.node) = _
    rw [free_strings, he, ok_bind, hinfo, ok_bind]
    exact ih hes fun e' he' => hinfos e' (List.mem_cons_of_mem e he')

/-- The loop releases every chain. -/
theorem free_buckets_eq (h : Buckets base mem lists ess) : free_buckets mem lists = .ok base := by
  induction lists generalizing mem ess with
  | nil =>
    obtain rfl : ess = [] := List.forall₂_nil_left_iff.mp h.chained
    have hmem : mem = base := h.owned.memory.eq_base
    rw [hmem]
    rfl
  | cons list lists ih =>
    obtain ⟨es, ess, hchained, -, rfl⟩ := List.forall₂_cons_left_iff.mp h.chained
    have hstrings : free_strings mem list.size list.head = .ok () := by
      rw [hchained.size_eq, hchained.head_eq]
      exact free_strings_eq hchained.linked hchained.infos
    have hfree : ll_free mem list = .ok (mem.outside es) := by
      rw [ll_free, hchained.size_eq]
      exact free_nodes_eq hchained (over_outside mem es)
    have h₀ : Buckets base mem ([list] ++ lists) ([es] ++ ess) := h
    have hrest := h₀.rest rfl
    rw [List.flatten_singleton] at hrest
    rw [free_buckets, hstrings, ok_bind, hfree, ok_bind]
    exact ih hrest

/-- **`ht_free` leaves nothing behind**: the memory is what it was without the table. -/
theorem ht_free_eq {ht : Hashtable CString CString} (h : Stands base t ht ess) :
    ht_free t = .ok base := free_buckets_eq h.buckets

/-- A table on `base` that holds the map. -/
def HeapTableShows (base : Memory) (hash : CString → UInt32) (hmax : UInt32) (t : HeapTable)
    (m : Finmap fun _ : CString => CString) : Prop :=
  ∃ ht ess, TableShows hash hmax ht m ∧ Stands base t ht ess

/-- **One operation**: it answers what the map says, meets no NULL and no released node or record,
and leaves a table that holds the map. -/
theorem apply_operation_shows (hbase : base.Finite) (t : HeapTable)
    (m : Finmap fun _ : CString => CString) (call : TableOperation CString CString × Allocator)
    (h : HeapTableShows base hash hmax t m) :
    ∃ t', apply_operation hash t call = .ok (t', (map_step m call.1).2) ∧
      HeapTableShows base hash hmax t' (map_step m call.1).1 := by
  obtain ⟨ht, ess, hshows, h⟩ := h
  obtain ⟨operation, allocator⟩ := call
  cases operation with
  | put key value =>
    obtain ⟨ht', hput, hshows'⟩ := hshows.put key value
    obtain ⟨t', ht'', ess', hput_heap, hput', h'⟩ := h.put hbase hshows.wf allocator key value
    cases hput.symm.trans hput'
    refine ⟨t', ?_, ht', ess', hshows', h'⟩
    rw [apply_operation, hput_heap]
    rfl
  | get key =>
    refine ⟨t, ?_, ht, ess, hshows, h⟩
    rw [apply_operation, h.ht_get_eq hshows.wf, ht_get_eq hshows.wf, hshows.lookup_eq]
    rfl
  | has_key key =>
    refine ⟨t, ?_, ht, ess, hshows, h⟩
    rw [apply_operation, h.ht_has_key_eq hshows.wf, ht_has_key_eq hshows.wf, hshows.isSome_lookup]
    rfl
  | remove_entry key =>
    obtain ⟨ht', hremove, hshows'⟩ := hshows.remove key
    obtain ⟨t', ht'', ess', hremove_heap, hremove', h'⟩ := h.remove hshows.wf key
    cases hremove.symm.trans hremove'
    refine ⟨t', ?_, ht', ess', hshows', h'⟩
    rw [apply_operation, hremove_heap]
    rfl
  | get_size =>
    refine ⟨t, ?_, ht, ess, hshows, h⟩
    rw [apply_operation, h.size_eq, hshows.size_eq]
    rfl

/-- **The hash table on the heap is an exact finite map and leaks nothing**: on any memory, from an
empty table of any size up to `2 ^ 31` on, for any hash function and whatever unused addresses
`malloc` gives, every sequence of operations returns and answers what the map answers, and its
buckets are well formed lists, with numbers in the range of an `int`, whose release gives the memory
back as it was. -/
theorem heap_table_refines_finite_map (hbase : base.Finite) (hash : CString → UInt32)
    (hpos : 1 ≤ hmax) (hint : hmax.toNat ≤ 2 ^ 31)
    (calls : List (TableOperation CString CString × Allocator)) :
    ∃ t', Run.run (apply_operation hash) (ht_create base hmax) calls
        = .ok (t', (Run.total map_step ∅ (calls.map Prod.fst)).2) ∧
      (∀ list ∈ t'.buckets, ∃ es, Holds t'.mem list es) ∧
      (∀ key, ∃ i, hash_index hash t' key = .ok i ∧ i < 2 ^ 31) ∧ ht_free t' = .ok base := by
  have hpos' : 0 < hmax.toNat := UInt32.le_iff_toNat_le.mp hpos
  have hempty : HeapTableShows base hash hmax (ht_create base hmax) ∅ :=
    ⟨_, _, table_shows_empty hpos', ht_create_stands base hmax⟩
  obtain ⟨t', hrun, ht, ess, hshows, h'⟩ :=
    Run.run_refines (apply_operation_shows hbase) hempty calls
  rw [← Run.total_map] at hrun
  refine ⟨t', hrun, ?_, ?_, ht_free_eq h'⟩
  · intro list hlist
    obtain ⟨i, hi⟩ := List.getElem?_of_mem hlist
    obtain ⟨es, hes⟩ := Parallel.exists_of_length_eq h'.buckets.chained.length_eq hi
    exact ⟨es, holds_iff_chained.mpr (Parallel.forall₂_getElem? h'.buckets.chained hi hes)⟩
  · intro key
    have hint' : ht.hmax.toNat ≤ 2 ^ 31 := hshows.hmax_eq ▸ hint
    rw [h'.hash_index_eq hshows.wf, ← hshows.wf.hash_index_eq]
    exact hshows.wf.hash_index_int hint' key

end Runs

/-- Three keys in two buckets: one value is overwritten, and an entry is removed. -/
theorem heap_table_refines_finite_map_two_buckets :
    ∃ t', Run.run (apply_operation hash_string) (ht_create Memory.empty 2)
        [(.put (.ofString "a") (.ofString "x"), firstFit),
          (.put (.ofString "b") (.ofString "y"), firstFit),
          (.put (.ofString "c") (.ofString "z"), firstFit),
          (.put (.ofString "a") (.ofString "w"), firstFit),
          (.remove_entry (.ofString "c"), firstFit), (.get (.ofString "a"), firstFit),
          (.get_size, firstFit)]
        = .ok (t', [.put, .put, .put, .put, .remove_entry, .get (some (.ofString "w")),
          .get_size 2]) ∧
      ht_free t' = .ok Memory.empty := by
  obtain ⟨t', hrun, -, -, hfree⟩ := heap_table_refines_finite_map Memory.finite_empty hash_string
    (show (1 : UInt32) ≤ 2 by decide) (by decide) [(.put (.ofString "a") (.ofString "x"), firstFit),
      (.put (.ofString "b") (.ofString "y"), firstFit),
      (.put (.ofString "c") (.ofString "z"), firstFit),
      (.put (.ofString "a") (.ofString "w"), firstFit),
      (.remove_entry (.ofString "c"), firstFit), (.get (.ofString "a"), firstFit),
      (.get_size, firstFit)]
  refine ⟨t', hrun.trans ?_, hfree⟩
  apply congrArg fun results => Except.ok (t', results)
  decide +kernel

end DistDb.Nodes.Table
