/-
  DistDb.HeapCache — the cache of `lru_cache.c` on the heap.

  `DistDb.LruCache` has the order list as the sequence of its nodes, and never releases an
  address.  Here the order list is the linked one of `DistDb.Add.Nodes`: the operations follow and
  write its links, release what `free` releases, and may be given a released address again by the
  next `malloc`.  A node or record that is read after its release, a NULL that is followed and a
  walk that does not end are faults.

  `HeapShows` says that the memory is `base`, what other parts of the program have allocated,
  together with the nodes and records of the list of pairs, and that the table has their addresses.
  The strings of a record are part of it, and the table is a value: neither its chains nor the copies
  of strings that the operations hand out are in this memory.

  Main results:
    * `apply_operation_shows` — every operation answers as `lru_step` does and keeps `HeapShows`,
    * `free_lru_cache_eq` — releasing the cache leaves `base`,
    * `heap_cache_refines_lru_map` — both for every sequence of operations and every allocator.
-/
import DistDb.Add.Owned
import DistDb.CacheRuns

namespace DistDb.Nodes

open Lib DoublyLinked

/-! ## §1. The operations. -/

/-- `lru_cache`, with the memory that its order list lies in. -/
structure HeapCache where
  mem : Memory
  order : LlList
  ht : Hashtable CString ℕ

/-- NULL for the capacity zero. -/
def init_lru_cache (mem : Memory) (cache_capacity : UInt32) : Option HeapCache :=
  if cache_capacity = 0 then none
  else some { mem := mem, order := ⟨none, none, 0⟩, ht := ht_create cache_capacity }

def lru_cache_is_full (cache : HeapCache) : Bool := cache.ht.hmax.toNat == cache.ht.size

/-- Write a pair and make it the most recently used one.  The table is given the first word of the
node, which is the address of its record. -/
def lru_cache_put (malloc : Memory → ℕ × ℕ) (cache : HeapCache) (key value : CString)
    (evicted_key : Bool) : Exec (HeapCache × Bool × Option CString) := do
  if ← ht_has_key hash_string cache.ht key then
    let new := malloc cache.mem
    let (mem, order, node) ← move_node_to_end cache.mem cache.order key new.1 new.2
    let n ← mem.node node
    let mem ← write_value mem n.data value
    let n ← mem.node node
    let ht ← ht_put hash_string cache.ht key n.data
    pure ({ mem := mem, order := order, ht := ht }, false, none)
  else
    let (mem, order, ht, evicted) ←
      if lru_cache_is_full cache then do
        let (mem, order, node) ← ll_remove_nth_node cache.mem cache.order 0
        let n ← mem.node node
        let info ← mem.info n.data
        if evicted_key then do
          let ht ← ht_remove_entry hash_string cache.ht info.key
          let mem ← free_node mem node
          pure (mem, order, ht, some info.key)
        else throw .nullPointer
      else pure (cache.mem, cache.order, cache.ht, none)
    let new := malloc mem
    let (mem, order, node) ← ll_add_nth_node_info mem order order.size ⟨key, value⟩ new.1 new.2
    let n ← mem.node node
    let ht ← ht_put hash_string ht key n.data
    pure ({ mem := mem, order := order, ht := ht }, true, evicted)

/-- The value of the key, which becomes the most recently used one; NULL when it is absent.  The
table's word is followed to the record, not to the node. -/
def lru_cache_get (malloc : Memory → ℕ × ℕ) (cache : HeapCache) (key : CString) :
    Exec (HeapCache × Option CString) := do
  if ← ht_has_key hash_string cache.ht key then
    match ← ht_get hash_string cache.ht key with
    | none => throw .nullPointer
    | some data =>
      let info ← cache.mem.info data
      let new := malloc cache.mem
      let (mem, order, node) ← move_node_to_end cache.mem cache.order key new.1 new.2
      let ht ← ht_remove_entry hash_string cache.ht key
      let n ← mem.node node
      let ht ← ht_put hash_string ht key n.data
      pure ({ mem := mem, order := order, ht := ht }, some info.value)
  else pure (cache, none)

/-- Drop the pair of the key. -/
def lru_cache_remove (cache : HeapCache) (key : CString) : Exec HeapCache := do
  if ← ht_has_key hash_string cache.ht key then
    let node ← ll_get_node cache.mem cache.order key
    let (mem, order, _) ← ll_remove_node cache.mem cache.order node
    let ht ← ht_remove_entry hash_string cache.ht key
    let mem ← free_node mem node
    pure { mem := mem, order := order, ht := ht }
  else pure cache

/-- A round takes one node, so `size` of them are enough. -/
def ll_free_info (mem : Memory) (list : LlList) : Exec Memory := free_nodes mem list list.size

/-- Release the order list of the cache.  The table is a value of the model, and what `ht_free` does
with its chains is in `DistDb.HeapTable`. -/
def free_lru_cache (cache : HeapCache) : Exec Memory := ll_free_info cache.mem cache.order

/-- The code's operation with the allocator's answer; `put` is given a place for the evicted key. -/
def apply_operation (cache : HeapCache) :
    CacheOperation × Allocator → Exec (HeapCache × CacheResult)
  | (.put key value, allocator) => do
    let (cache, is_new, evicted_key) ← lru_cache_put allocator.malloc cache key value true
    pure (cache, .put is_new evicted_key)
  | (.get key, allocator) => do
    let (cache, value) ← lru_cache_get allocator.malloc cache key
    pure (cache, .get value)
  | (.remove key, _) => do
    let cache ← lru_cache_remove cache key
    pure (cache, .remove)

/-! ## §2. The table of the addresses. -/

variable {base mem : Memory} {list : LlList} {es xs ys : List Entry} {e new : Entry}

/-- The table has the key of every node, with the address of the node's record. -/
structure Indexes (ht : Hashtable CString ℕ) (es : List Entry) : Prop where
  ht_wf : ht.WF hash_string
  keys_nodup : (es.map Entry.key).Nodup
  image : ∀ key, ht.lookup hash_string key
    = (KeyedList.find Entry.key es key).map fun e => e.data
  size_eq : ht.size = es.length

variable {ht : Hashtable CString ℕ}

theorem nodup_keys_middle : ((xs ++ e :: ys).map Entry.key).Nodup ↔
    e.key ∉ (xs ++ ys).map Entry.key ∧ ((xs ++ ys).map Entry.key).Nodup := by
  rw [List.map_append, List.map_cons, List.nodup_middle, List.nodup_cons, ← List.map_append]

theorem notMem_keys_left (h : e.key ∉ (xs ++ ys).map Entry.key) : e.key ∉ xs.map Entry.key := by
  rw [List.map_append] at h
  exact fun hmem => h (List.mem_append_left _ hmem)

theorem Indexes.isSome_lookup (h : Indexes ht es) (key : CString) :
    (ht.lookup hash_string key).isSome ↔ key ∈ es.map Entry.key := by
  rw [h.image, Option.isSome_map, KeyedList.find_isSome]

theorem Indexes.isSome_lookup_middle (h : Indexes ht (xs ++ e :: ys)) :
    (ht.lookup hash_string e.key).isSome = true :=
  (h.isSome_lookup e.key).mpr (List.mem_map_of_mem (List.mem_append_right xs List.mem_cons_self))

/-- A new node at the end is put into the table. -/
theorem Indexes.put_new (h : Indexes ht es) (hnew : new.key ∉ es.map Entry.key) :
    ∃ ht', ht_put hash_string ht new.key new.data = .ok ht' ∧ ht'.hmax = ht.hmax ∧
      Indexes ht' (es ++ [new]) := by
  obtain ⟨ht', hht, wf, hmax, hlookup, hsize⟩ := ht_put_spec h.ht_wf new.key new.data
  refine ⟨ht', hht, hmax, wf, ?_, ?_, ?_⟩
  · rw [nodup_keys_middle, List.append_nil]
    exact ⟨hnew, h.keys_nodup⟩
  · intro key
    rw [hlookup, Function.update_apply, KeyedList.find_middle hnew, List.append_nil, h.image]
    by_cases hkey : key = new.key
    · rw [if_pos hkey, if_pos hkey.symm]
      rfl
    · rw [if_neg hkey, if_neg (Ne.symm hkey)]
  · rw [hsize, if_neg fun hin => hnew ((h.isSome_lookup _).mp hin), h.size_eq, List.length_append]
    rfl

/-- A node's key is taken out of the table. -/
theorem Indexes.remove (h : Indexes ht (xs ++ e :: ys)) :
    ∃ ht', ht_remove_entry hash_string ht e.key = .ok ht' ∧ ht'.hmax = ht.hmax ∧
      Indexes ht' (xs ++ ys) := by
  obtain ⟨ht', hht, wf, hmax, hlookup, hsize⟩ := ht_remove_entry_spec h.ht_wf e.key
  obtain ⟨hout, hnodup⟩ := nodup_keys_middle.mp h.keys_nodup
  refine ⟨ht', hht, hmax, wf, hnodup, ?_, ?_⟩
  · intro key
    rw [hlookup, Function.update_apply, h.image, KeyedList.find_middle (notMem_keys_left hout)]
    by_cases hkey : key = e.key
    · -- the key stands nowhere else
      rw [if_pos hkey, hkey, KeyedList.find_eq_none.mpr hout]
      rfl
    · rw [if_neg hkey, if_neg (Ne.symm hkey)]
  · rw [hsize, if_pos h.isSome_lookup_middle, h.size_eq]
    simp

/-- A node's key is given the address of the node that replaces it at the end. -/
theorem Indexes.put_moved (h : Indexes ht (xs ++ e :: ys)) (hkey : new.key = e.key) :
    ∃ ht', ht_put hash_string ht e.key new.data = .ok ht' ∧ ht'.hmax = ht.hmax ∧
      Indexes ht' (xs ++ ys ++ [new]) := by
  obtain ⟨ht', hht, wf, hmax, hlookup, hsize⟩ := ht_put_spec h.ht_wf e.key new.data
  obtain ⟨hout, hnodup⟩ := nodup_keys_middle.mp h.keys_nodup
  have hout' : new.key ∉ (xs ++ ys).map Entry.key := hkey ▸ hout
  refine ⟨ht', hht, hmax, wf, ?_, ?_, ?_⟩
  · rw [nodup_keys_middle, List.append_nil]
    exact ⟨hout', hnodup⟩
  · intro key
    rw [hlookup, Function.update_apply, h.image, KeyedList.find_middle (notMem_keys_left hout),
      KeyedList.find_middle hout', List.append_nil, hkey]
    by_cases hk : key = e.key
    · rw [if_pos hk, if_pos hk.symm]
      rfl
    · rw [if_neg hk, if_neg (Ne.symm hk), if_neg (Ne.symm hk)]
  · rw [hsize, if_pos h.isSome_lookup_middle, h.size_eq]
    simp only [List.length_append, List.length_cons, List.length_nil]
    omega

/-! ## §3. The pairs of the list. -/

theorem keys_pairs (es : List Entry) : Recency.keys (pairs es) = es.map Entry.key := by
  unfold Recency.keys pairs
  rw [List.map_map]
  rfl

theorem pairs_concat (es : List Entry) (e : Entry) :
    pairs (es ++ [e]) = pairs es ++ [(e.info.key, e.info.value)] := List.map_append

/-- Dropping the pair of a node's key. -/
theorem remove_pairs_middle (h : ((xs ++ e :: ys).map Entry.key).Nodup) :
    Recency.remove (pairs (xs ++ e :: ys)) e.key = pairs (xs ++ ys) := by
  obtain ⟨hout, -⟩ := nodup_keys_middle.mp h
  have hkept : Recency.remove (pairs (xs ++ ys)) e.key = pairs (xs ++ ys) := by
    apply List.filter_eq_self.mpr
    intro p hp
    apply decide_eq_true
    intro heq
    apply hout
    rw [← keys_pairs]
    exact List.mem_map.mpr ⟨p, hp, heq⟩
  rw [← hkept]
  unfold Recency.remove pairs
  rw [List.map_append, List.map_append, List.filter_append, List.filter_append, List.map_cons,
    List.filter_cons_of_neg]
  intro htrue
  exact of_decide_eq_true htrue rfl

/-- The node of a key, behind nodes with other keys. -/
theorem exists_middle {key : CString} (hkey : key ∈ es.map Entry.key) :
    ∃ xs e ys, es = xs ++ e :: ys ∧ e.key = key := by
  obtain ⟨e, he, rfl⟩ := List.mem_map.mp hkey
  obtain ⟨xs, ys, rfl⟩ := List.append_of_mem he
  exact ⟨xs, e, ys, rfl, rfl⟩

/-! ## §4. The operations against the list of pairs. -/

/-- The cache stands on the memory `base`: its order list is well formed, its nodes `es` are what
is allocated besides, the table has their addresses, and there are no more than fit. -/
structure StandsOn (base : Memory) (cap : ℕ) (cache : HeapCache) (es : List Entry) : Prop where
  chained : Chained cache.mem cache.order es
  memory : Over base cache.mem es
  indexes : Indexes cache.ht es
  capacity : cache.ht.hmax.toNat = cap
  length_le : es.length ≤ cap

/-- A cache on `base` that shows the list of pairs. -/
def HeapShows (base : Memory) (cap : ℕ) (cache : HeapCache) (l : List (CString × CString)) : Prop :=
  ∃ es, StandsOn base cap cache es ∧ pairs es = l

variable {cap : ℕ} {cache : HeapCache}

theorem StandsOn.isSome_lookup (h : StandsOn base cap cache es) {key : CString} :
    (cache.ht.lookup hash_string key).isSome = decide (key ∈ es.map Entry.key) := by
  rw [Bool.eq_iff_iff, decide_eq_true_iff]
  exact h.indexes.isSome_lookup key

theorem StandsOn.ht_has_key_eq (h : StandsOn base cap cache es) (key : CString) :
    ht_has_key hash_string cache.ht key = .ok (decide (key ∈ es.map Entry.key)) := by
  rw [DistDb.ht_has_key_eq h.indexes.ht_wf, h.isSome_lookup]

theorem StandsOn.ht_has_key_middle (h : StandsOn base cap cache (xs ++ e :: ys)) :
    ht_has_key hash_string cache.ht e.key = .ok true := by
  rw [h.ht_has_key_eq, decide_eq_true]
  exact List.mem_map_of_mem (List.mem_append_right xs List.mem_cons_self)

/-- The table's word for a key is the address of a record that is alive. -/
theorem StandsOn.ht_get_middle (h : StandsOn base cap cache (xs ++ e :: ys)) :
    ht_get hash_string cache.ht e.key = .ok (some e.data) ∧ cache.mem.info e.data = .ok e.info := by
  obtain ⟨hout, -⟩ := nodup_keys_middle.mp h.indexes.keys_nodup
  constructor
  · rw [ht_get_eq h.indexes.ht_wf, h.indexes.image, KeyedList.find_middle (notMem_keys_left hout),
      if_pos rfl]
    rfl
  · rw [Memory.info, h.chained.infos e (List.mem_append_right xs List.mem_cons_self)]
    rfl

/-- The first node is the only one with its key. -/
theorem StandsOn.key_ne (h : StandsOn base cap cache (xs ++ e :: ys)) :
    ∀ x ∈ xs, x.key ≠ e.key := by
  obtain ⟨hout, -⟩ := nodup_keys_middle.mp h.indexes.keys_nodup
  intro x hx heq
  exact notMem_keys_left hout (heq ▸ List.mem_map_of_mem hx)

theorem node_last (h : Chained mem list (es ++ [e])) :
    ∃ n, mem.node (some e.node) = .ok n ∧ n.data = e.data :=
  ⟨_, h.node_eq, rfl⟩

theorem length_moved (xs ys : List Entry) (e new : Entry) :
    (xs ++ ys ++ [new]).length = (xs ++ e :: ys).length := by
  simp only [List.length_append, List.length_cons, List.length_nil]
  omega

/-- A hit of `put`: the node is moved to the end, and its new record is given the value. -/
theorem lru_cache_put_hit (hbase : base.Finite) (h : StandsOn base cap cache (xs ++ e :: ys))
    (allocator : Allocator) (value : CString) (evicted_key : Bool) :
    ∃ cache' new, lru_cache_put allocator.malloc cache e.key value evicted_key
        = .ok (cache', false, none) ∧ new.info = ⟨e.key, value⟩ ∧
      StandsOn base cap cache' (xs ++ ys ++ [new]) := by
  have hfresh := allocator.fresh (h.memory.finite hbase) e.info
  obtain ⟨hmove, hchained⟩ := move_node_to_end_moved h.chained h.key_ne hfresh rfl
  have hover := h.memory.moved h.chained hfresh
  generalize hnew : allocator.entry cache.mem e.info = new at *
  have hinfo : new.info = e.info := by rw [← hnew]; rfl
  obtain ⟨n, hn, hdata⟩ := node_last hchained
  have hkey : (new.withValue value).key = e.key := by
    show new.info.key = e.info.key
    rw [hinfo]
  obtain ⟨ht, hput, hmax, hindexes⟩ := h.indexes.put_moved hkey
  -- the value is written through the new node, which stays where it is
  have hwrite := write_value_eq hchained value
  have hn' : (written (moved cache.mem xs e ys new) new value).node (some new.node) = .ok n := hn
  refine ⟨⟨written (moved cache.mem xs e ys new) new value, listOf (xs ++ ys ++ [new]), ht⟩,
    new.withValue value, ?_, congrArg (fun key => Info.mk key value) hkey,
    ⟨hchained.written value, hover.written value, hindexes, ?_, ?_⟩⟩
  · have haddress : allocator.malloc cache.mem = (new.node, new.data) := by rw [← hnew]; rfl
    rw [lru_cache_put, h.ht_has_key_middle, ok_bind, if_pos rfl, haddress]
    show (move_node_to_end cache.mem cache.order e.key new.node new.data >>= _) = _
    rw [hmove, ok_bind]
    show ((moved cache.mem xs e ys new).node (some new.node) >>= _) = _
    rw [hn, ok_bind, hdata, hwrite, ok_bind, hn', ok_bind, hdata]
    show (ht_put hash_string cache.ht e.key new.data >>= _) = _
    rw [show ht_put hash_string cache.ht e.key new.data = .ok ht from hput]
    rfl
  · rw [hmax]
    exact h.capacity
  · rw [length_moved xs ys e]
    exact h.length_le

/-- A hit of `get`: the record of the table's word is read before the node is moved. -/
theorem lru_cache_get_hit (hbase : base.Finite) (h : StandsOn base cap cache (xs ++ e :: ys))
    (allocator : Allocator) :
    ∃ cache' new, lru_cache_get allocator.malloc cache e.key
        = .ok (cache', some e.info.value) ∧ new.info = e.info ∧
      StandsOn base cap cache' (xs ++ ys ++ [new]) := by
  have hfresh := allocator.fresh (h.memory.finite hbase) e.info
  obtain ⟨hmove, hchained⟩ := move_node_to_end_moved h.chained h.key_ne hfresh rfl
  have hover := h.memory.moved h.chained hfresh
  generalize hnew : allocator.entry cache.mem e.info = new at *
  have hinfo : new.info = e.info := by rw [← hnew]; rfl
  have hkey : new.key = e.key := congrArg Info.key hinfo
  obtain ⟨n, hn, hdata⟩ := node_last hchained
  obtain ⟨hget, hread⟩ := h.ht_get_middle
  -- the key goes out of the table and comes back in with the new address
  obtain ⟨ht, hremove, hmax, hindexes⟩ := h.indexes.remove
  have hout : new.key ∉ (xs ++ ys).map Entry.key :=
    hkey ▸ (nodup_keys_middle.mp h.indexes.keys_nodup).1
  obtain ⟨ht', hput, hmax', hindexes'⟩ := hindexes.put_new hout
  rw [hkey] at hput
  refine ⟨⟨moved cache.mem xs e ys new, listOf (xs ++ ys ++ [new]), ht'⟩, new, ?_, hinfo,
    ⟨hchained, hover, hindexes', ?_, ?_⟩⟩
  · have haddress : allocator.malloc cache.mem = (new.node, new.data) := by rw [← hnew]; rfl
    rw [lru_cache_get, h.ht_has_key_middle, ok_bind, if_pos rfl, hget, ok_bind, haddress]
    show (cache.mem.info e.data >>= _) = _
    rw [hread, ok_bind]
    show (move_node_to_end cache.mem cache.order e.key new.node new.data >>= _) = _
    rw [hmove, ok_bind]
    show (ht_remove_entry hash_string cache.ht e.key >>= _) = _
    rw [hremove, ok_bind]
    show ((moved cache.mem xs e ys new).node (some new.node) >>= _) = _
    rw [hn, ok_bind, hdata, hput]
    rfl
  · rw [hmax', hmax]
    exact h.capacity
  · rw [length_moved xs ys e]
    exact h.length_le

/-- A node is unlinked and taken out of the table, and released with its record. -/
theorem StandsOn.released (h : StandsOn base cap cache (xs ++ e :: ys)) :
    ∃ ht', ht_remove_entry hash_string cache.ht e.key = .ok ht' ∧
      (joined cache.mem xs ys).node (some e.node)
        = .ok ⟨e.data, last none (cells xs), first (cells ys) none⟩ ∧
      (joined cache.mem xs ys).info e.data = .ok e.info ∧
      free_node (joined cache.mem xs ys) (some e.node)
        = .ok ((joined cache.mem xs ys).release e.node e.data) ∧
      StandsOn base cap ⟨(joined cache.mem xs ys).release e.node e.data, listOf (xs ++ ys), ht'⟩
        (xs ++ ys) := by
  obtain ⟨ht, hremove, hmax, hindexes⟩ := h.indexes.remove
  have hnode : (joined cache.mem xs ys).node (some e.node)
      = .ok ⟨e.data, last none (cells xs), first (cells ys) none⟩ := by
    rw [node_joined fun x hx => h.chained.node_ne hx, h.chained.node_eq]
  have hinfo : (joined cache.mem xs ys).info e.data = .ok e.info := by
    have hrecord : (joined cache.mem xs ys).infos e.data = some e.info :=
      h.chained.infos e (List.mem_append_right xs List.mem_cons_self)
    rw [Memory.info, hrecord]
    rfl
  have hchained := h.chained.joined.release (fun x hx => h.chained.node_ne hx)
    fun x hx => h.chained.data_ne hx
  refine ⟨ht, hremove, hnode, hinfo, ?_, hchained, h.memory.released, hindexes, ?_, ?_⟩
  · rw [free_node, hnode, ok_bind, hinfo]
    rfl
  · rw [hmax]
    exact h.capacity
  · have hle := h.length_le
    simp only [List.length_append, List.length_cons] at hle ⊢
    omega

/-- A pair with a new key is linked in at the end and put into the table. -/
theorem StandsOn.added (hbase : base.Finite) (h : StandsOn base cap cache es)
    (allocator : Allocator) {key : CString} (value : CString) (hkey : key ∉ es.map Entry.key)
    (hroom : es.length < cap) :
    ∃ mem' order' ht' node n new,
      ll_add_nth_node_info cache.mem cache.order cache.order.size ⟨key, value⟩
        (allocator.malloc cache.mem).1 (allocator.malloc cache.mem).2 = .ok (mem', order', node) ∧
      mem'.node node = .ok n ∧ ht_put hash_string cache.ht key n.data = .ok ht' ∧
      new.info = ⟨key, value⟩ ∧ StandsOn base cap ⟨mem', order', ht'⟩ (es ++ [new]) := by
  have hfresh := allocator.fresh (h.memory.finite hbase) ⟨key, value⟩
  have hchained : Chained cache.mem cache.order (es ++ []) := by
    rw [List.append_nil]
    exact h.chained
  have hadd := ll_add_nth_node_info_eq hchained hfresh
  have hinserted := hchained.inserted hfresh
  rw [← h.chained.size_eq] at hadd
  obtain ⟨n, hn, hdata⟩ := node_last hinserted
  have hnew : (allocator.entry cache.mem ⟨key, value⟩).key ∉ es.map Entry.key := hkey
  obtain ⟨ht', hput, hmax, hindexes⟩ := h.indexes.put_new hnew
  refine ⟨_, _, ht', _, n, allocator.entry cache.mem ⟨key, value⟩, hadd, hn, ?_, rfl, hinserted,
    h.memory.inserted (by simp) hfresh (fun x hx => hfresh.node_ne h.chained hx)
      (fun x hx => hfresh.data_ne h.chained hx) (by simp [or_comm]), hindexes, ?_, ?_⟩
  · rw [hdata]
    exact hput
  · rw [hmax]
    exact h.capacity
  · rw [List.length_append, List.length_singleton]
    exact hroom

/-- A miss of `put` with room. -/
theorem lru_cache_put_miss (hbase : base.Finite) (h : StandsOn base cap cache es)
    (allocator : Allocator) {key : CString} (value : CString) (evicted_key : Bool)
    (hkey : key ∉ es.map Entry.key) (hroom : es.length < cap) :
    ∃ cache' new, lru_cache_put allocator.malloc cache key value evicted_key
        = .ok (cache', true, none) ∧ new.info = ⟨key, value⟩ ∧
      StandsOn base cap cache' (es ++ [new]) := by
  obtain ⟨mem', order', ht', node, n, new, hadd, hn, hput, hinfo, h'⟩ :=
    h.added hbase allocator value hkey hroom
  have hfull : lru_cache_is_full cache = false := by
    rw [lru_cache_is_full, h.capacity, h.indexes.size_eq]
    exact beq_false_of_ne (Nat.ne_of_gt hroom)
  refine ⟨_, new, ?_, hinfo, h'⟩
  rw [lru_cache_put, h.ht_has_key_eq, decide_eq_false hkey, hfull]
  show (ll_add_nth_node_info cache.mem cache.order cache.order.size ⟨key, value⟩
    (allocator.malloc cache.mem).1 (allocator.malloc cache.mem).2 >>= _) = _
  rw [hadd, ok_bind]
  show (mem'.node node >>= _) = _
  rw [hn, ok_bind, hput]
  rfl

/-- A miss of `put` on a full cache: the head is released before the new pair is allocated. -/
theorem lru_cache_put_evict (hbase : base.Finite) (h : StandsOn base cap cache (e :: es))
    (allocator : Allocator) {key : CString} (value : CString)
    (hkey : key ∉ (e :: es).map Entry.key) (hfull : (e :: es).length = cap) :
    ∃ cache' new, lru_cache_put allocator.malloc cache key value true
        = .ok (cache', true, some e.key) ∧ new.info = ⟨key, value⟩ ∧
      StandsOn base cap cache' (es ++ [new]) := by
  have h₀ : StandsOn base cap cache ([] ++ e :: es) := h
  obtain ⟨ht, hremove, hnode, hread, hfree, h₁⟩ := h₀.released
  have hkey' : key ∉ es.map Entry.key := fun hmem => hkey (List.mem_cons_of_mem _ hmem)
  have hroom : es.length < cap := hfull ▸ Nat.lt_succ_self _
  obtain ⟨mem', order', ht', node, n, new, hadd, hn, hput, hinfo, h'⟩ :=
    h₁.added hbase allocator value hkey' hroom
  have his_full : lru_cache_is_full cache = true := by
    rw [lru_cache_is_full, h.capacity, h.indexes.size_eq, hfull]
    exact beq_self_eq_true cap
  have hunlink := ll_remove_nth_node_eq h₀.chained
  refine ⟨_, new, ?_, hinfo, h'⟩
  -- the code reads the key and frees the record through the node that is unlinked already
  rw [lru_cache_put, h.ht_has_key_eq, decide_eq_false hkey, his_full]
  show (ll_remove_nth_node cache.mem cache.order 0 >>= _) = _
  rw [show ll_remove_nth_node cache.mem cache.order 0 = _ from hunlink, ok_bind]
  show ((joined cache.mem [] es).node (some e.node) >>= _) = _
  rw [hnode, ok_bind]
  show ((joined cache.mem [] es).info e.data >>= _) = _
  rw [hread, ok_bind]
  show (ht_remove_entry hash_string cache.ht e.key >>= _) = _
  rw [hremove, ok_bind, hfree, ok_bind]
  show (ll_add_nth_node_info ((joined cache.mem [] es).release e.node e.data) (listOf es) es.length
    ⟨key, value⟩ (allocator.malloc ((joined cache.mem [] es).release e.node e.data)).1
    (allocator.malloc ((joined cache.mem [] es).release e.node e.data)).2 >>= _) = _
  rw [show ll_add_nth_node_info ((joined cache.mem [] es).release e.node e.data) (listOf es)
    es.length _ _ _ = _ from hadd, ok_bind]
  show (mem'.node node >>= _) = _
  rw [hn, ok_bind, show ht_put hash_string ht key n.data = _ from hput]
  rfl

/-- `remove` of a key that is there. -/
theorem lru_cache_remove_middle (h : StandsOn base cap cache (xs ++ e :: ys)) :
    ∃ cache', lru_cache_remove cache e.key = .ok cache' ∧ StandsOn base cap cache' (xs ++ ys) := by
  obtain ⟨ht, hremove, -, -, hfree, h'⟩ := h.released
  have hfind : ll_get_node cache.mem cache.order e.key = .ok (some e.node) :=
    h.chained.find_eq h.key_ne
  refine ⟨_, ?_, h'⟩
  rw [lru_cache_remove, h.ht_has_key_middle, ok_bind, if_pos rfl, hfind, ok_bind,
    ll_remove_node_eq h.chained, ok_bind]
  show (ht_remove_entry hash_string cache.ht e.key >>= _) = _
  rw [hremove, ok_bind]
  show (free_node (joined cache.mem xs ys) (some e.node) >>= _) = _
  rw [hfree]
  rfl

/-- The list of pairs once a pair has gone from the middle and one has come at the end. -/
theorem pairs_moved (h : ((xs ++ e :: ys).map Entry.key).Nodup) {value : CString}
    (hnew : new.info = ⟨e.key, value⟩) :
    pairs (xs ++ ys ++ [new]) = Recency.put cap (pairs (xs ++ e :: ys)) e.key value := by
  have hkey : e.key ∈ Recency.keys (pairs (xs ++ e :: ys)) := by
    rw [keys_pairs]
    exact List.mem_map_of_mem (List.mem_append_right xs List.mem_cons_self)
  rw [pairs_concat, hnew, Recency.put_of_mem hkey, remove_pairs_middle h]

theorem length_pairs (es : List Entry) : (pairs es).length = es.length := List.length_map _

/-- **`lru_cache_put` is `Recency.put`**: the key is there, or the cache has room, or it is full. -/
theorem lru_cache_put_spec (hbase : base.Finite) (h : StandsOn base cap cache es)
    (allocator : Allocator) (key value : CString) :
    ∃ cache' es', lru_cache_put allocator.malloc cache key value true
        = .ok (cache', (Recency.outcome cap (pairs es) key).isNew,
            (Recency.outcome cap (pairs es) key).victim) ∧
      StandsOn base cap cache' es' ∧ pairs es' = Recency.put cap (pairs es) key value := by
  by_cases hkey : key ∈ es.map Entry.key
  · have hnodup := h.indexes.keys_nodup
    rw [Recency.outcome_of_mem (by rwa [keys_pairs])]
    obtain ⟨xs, e, ys, rfl, rfl⟩ := exists_middle hkey
    obtain ⟨cache', new, hput, hnew, h'⟩ := lru_cache_put_hit hbase h allocator value true
    exact ⟨cache', _, hput, h', pairs_moved hnodup hnew⟩
  · have hkey' : key ∉ Recency.keys (pairs es) := by rwa [keys_pairs]
    rcases Nat.lt_or_eq_of_le h.length_le with hroom | hfull
    · obtain ⟨cache', new, hput, hnew, h'⟩ :=
        lru_cache_put_miss hbase h allocator value true hkey hroom
      rw [← length_pairs] at hroom
      rw [Recency.outcome_of_room hkey' hroom, Recency.put_of_room hkey' hroom]
      refine ⟨cache', _, hput, h', ?_⟩
      rw [pairs_concat, hnew]
    · cases es with
      | nil =>
        -- a capacity is not zero
        have hpos := h.indexes.ht_wf.hmax_pos
        rw [h.capacity, ← hfull] at hpos
        exact absurd hpos (Nat.lt_irrefl 0)
      | cons e es =>
        obtain ⟨cache', new, hput, hnew, h'⟩ :=
          lru_cache_put_evict hbase h allocator value hkey hfull
        rw [← length_pairs] at hfull
        have hcons : pairs (e :: es) = (e.info.key, e.info.value) :: pairs es := rfl
        rw [hcons] at hkey' hfull ⊢
        rw [Recency.outcome_of_full hkey' hfull, Recency.put_of_full hkey' hfull]
        refine ⟨cache', _, hput, h', ?_⟩
        rw [pairs_concat, hnew]

/-- **`lru_cache_get` reads the value and makes the key the most recently used one.** -/
theorem lru_cache_get_spec (hbase : base.Finite) (h : StandsOn base cap cache es)
    (allocator : Allocator) {key value : CString} (hmem : (key, value) ∈ pairs es) :
    ∃ cache' es', lru_cache_get allocator.malloc cache key = .ok (cache', some value) ∧
      StandsOn base cap cache' es' ∧ pairs es' = Recency.put cap (pairs es) key value := by
  have hnodup := h.indexes.keys_nodup
  obtain ⟨e, he, heq⟩ := List.mem_map.mp hmem
  cases heq
  obtain ⟨xs, ys, rfl⟩ := List.append_of_mem he
  obtain ⟨cache', new, hget, hnew, h'⟩ := lru_cache_get_hit hbase h allocator
  exact ⟨cache', _, hget, h', pairs_moved hnodup hnew⟩

/-- `get` of a key that is not there answers NULL and changes nothing. -/
theorem lru_cache_get_miss (h : StandsOn base cap cache es) (allocator : Allocator)
    {key : CString} (hkey : key ∉ es.map Entry.key) :
    lru_cache_get allocator.malloc cache key = .ok (cache, none) := by
  rw [lru_cache_get, h.ht_has_key_eq, decide_eq_false hkey]
  rfl

/-- **`lru_cache_remove` drops the pair of its key**, and does nothing when there is none. -/
theorem lru_cache_remove_spec (h : StandsOn base cap cache es) (key : CString) :
    ∃ cache' es', lru_cache_remove cache key = .ok cache' ∧ StandsOn base cap cache' es' ∧
      pairs es' = Recency.remove (pairs es) key := by
  by_cases hkey : key ∈ es.map Entry.key
  · have hnodup := h.indexes.keys_nodup
    obtain ⟨xs, e, ys, rfl, rfl⟩ := exists_middle hkey
    obtain ⟨cache', hremove, h'⟩ := lru_cache_remove_middle h
    exact ⟨cache', _, hremove, h', (remove_pairs_middle hnodup).symm⟩
  · refine ⟨cache, es, ?_, h, ?_⟩
    · rw [lru_cache_remove, h.ht_has_key_eq, decide_eq_false hkey]
      rfl
    · -- no pair has the key, so that none is filtered out
      symm
      apply List.filter_eq_self.mpr
      intro p hp
      apply decide_eq_true
      rintro rfl
      rw [← keys_pairs] at hkey
      exact hkey (List.mem_map_of_mem hp)

/-- **One operation**: it answers what the list of pairs says, meets no NULL and no released node
or record, and leaves a cache with those pairs. -/
theorem apply_operation_shows (hbase : base.Finite) (cache : HeapCache)
    (l : List (CString × CString)) (call : CacheOperation × Allocator)
    (h : HeapShows base cap cache l) :
    ∃ cache', apply_operation cache call = .ok (cache', (lru_step cap l call.1).2) ∧
      HeapShows base cap cache' (lru_step cap l call.1).1 := by
  obtain ⟨es, h, rfl⟩ := h
  obtain ⟨operation, allocator⟩ := call
  cases operation with
  | put key value =>
    obtain ⟨cache', es', hput, h', hpairs⟩ := lru_cache_put_spec hbase h allocator key value
    have hpos : 0 < cap := h.capacity ▸ h.indexes.ht_wf.hmax_pos
    rw [lru_step_put hpos (by rw [length_pairs]; exact h.length_le)]
    refine ⟨cache', ?_, es', h', hpairs⟩
    rw [apply_operation, hput]
    rfl
  | get key =>
    by_cases hkey : key ∈ Recency.keys (pairs es)
    · -- a hit refreshes the key
      obtain ⟨⟨_, value⟩, hmem, rfl⟩ := List.mem_map.mp hkey
      obtain ⟨cache', es', hget, h', hpairs⟩ := lru_cache_get_spec hbase h allocator hmem
      have hnodup : (Recency.keys (pairs es)).Nodup := keys_pairs es ▸ h.indexes.keys_nodup
      rw [lru_step_get_of_mem hnodup hmem]
      refine ⟨cache', ?_, es', h', hpairs⟩
      rw [apply_operation, hget]
      rfl
    · rw [lru_step_get_of_notMem hkey]
      refine ⟨cache, ?_, es, h, rfl⟩
      rw [keys_pairs] at hkey
      rw [apply_operation, lru_cache_get_miss h allocator hkey]
      rfl
  | remove key =>
    obtain ⟨cache', es', hremove, h', hpairs⟩ := lru_cache_remove_spec h key
    refine ⟨cache', ?_, es', h', hpairs⟩
    rw [apply_operation, hremove]
    rfl

/-! ## §5. From `init_lru_cache` to `free_lru_cache`. -/

theorem init_lru_cache_shows (base : Memory) {cache_capacity : UInt32} (hpos : cache_capacity ≠ 0) :
    ∃ cache, init_lru_cache base cache_capacity = some cache ∧
      HeapShows base cache_capacity.toNat cache [] := by
  have hpos' : 0 < cache_capacity.toNat :=
    Nat.pos_of_ne_zero fun h => hpos (UInt32.toNat_inj.mp h)
  refine ⟨_, if_neg hpos, [], ⟨?_, Over.nil base, ?_, rfl, Nat.zero_le _⟩, rfl⟩
  · exact ⟨trivial, rfl, rfl, rfl, List.nodup_nil, by simp, List.nodup_nil⟩
  · refine ⟨ht_create_wf hpos', List.nodup_nil, ?_, rfl⟩
    intro key
    exact lookup_ht_create cache_capacity key

/-- **`free_lru_cache` leaves nothing behind**: the memory is what it was without the cache. -/
theorem free_lru_cache_eq {l : List (CString × CString)} (h : HeapShows base cap cache l) :
    free_lru_cache cache = .ok base := by
  obtain ⟨es, h, -⟩ := h
  unfold free_lru_cache ll_free_info
  rw [h.chained.size_eq]
  exact free_nodes_eq h.chained h.memory

/-- **The cache with its order list on the heap is an exact LRU map, and the list leaks nothing**: on
any memory, from an empty cache of any capacity on and whatever unused addresses `malloc` gives,
every sequence of operations returns, answers what the list of pairs answers, and leads to a cache
whose linked list holds those pairs and whose release gives the memory back as it was. -/
theorem heap_cache_refines_lru_map {base : Memory} (hbase : base.Finite) {cache_capacity : UInt32}
    (hpos : 1 ≤ cache_capacity) :
    ∃ cache, init_lru_cache base cache_capacity = some cache ∧
      ∀ calls : List (CacheOperation × Allocator), ∃ cache' es,
        Run.run apply_operation cache calls = .ok (cache',
          (Run.total (lru_step cache_capacity.toNat) [] (calls.map Prod.fst)).2) ∧
        Holds cache'.mem cache'.order es ∧
        pairs es = (Run.total (lru_step cache_capacity.toNat) [] (calls.map Prod.fst)).1 ∧
        free_lru_cache cache' = .ok base := by
  have hne : cache_capacity ≠ 0 := by
    rintro rfl
    exact absurd hpos (by decide)
  obtain ⟨cache, hinit, hshows⟩ := init_lru_cache_shows base hne
  refine ⟨cache, hinit, ?_⟩
  intro calls
  obtain ⟨cache', hrun, h'⟩ := Run.run_refines (apply_operation_shows hbase) hshows calls
  rw [← Run.total_map] at hrun h'
  have hfree := free_lru_cache_eq h'
  obtain ⟨es, h', hpairs⟩ := h'
  exact ⟨cache', es, hrun, holds_iff_chained.mpr h'.chained, hpairs, hfree⟩

/-- The third key evicts the first one, whose node and record it may be given. -/
theorem heap_cache_refines_lru_map_three_keys :
    ∃ cache, init_lru_cache Memory.empty 2 = some cache ∧ ∃ cache' es,
      Run.run apply_operation cache [(.put (.ofString "a") (.ofString "x"), firstFit),
          (.put (.ofString "b") (.ofString "y"), firstFit),
          (.put (.ofString "c") (.ofString "z"), firstFit), (.get (.ofString "b"), firstFit),
          (.remove (.ofString "c"), firstFit)]
        = .ok (cache', [.put true none, .put true none, .put true (some (.ofString "a")),
            .get (some (.ofString "y")), .remove]) ∧
      Holds cache'.mem cache'.order es ∧ pairs es = [(.ofString "b", .ofString "y")] ∧
      free_lru_cache cache' = .ok Memory.empty := by
  obtain ⟨cache, hinit, hrefines⟩ :=
    heap_cache_refines_lru_map Memory.finite_empty (show (1 : UInt32) ≤ 2 by decide)
  obtain ⟨cache', es, hrun, hholds, hpairs, hfree⟩ :=
    hrefines [(.put (.ofString "a") (.ofString "x"), firstFit),
      (.put (.ofString "b") (.ofString "y"), firstFit),
      (.put (.ofString "c") (.ofString "z"), firstFit), (.get (.ofString "b"), firstFit),
      (.remove (.ofString "c"), firstFit)]
  refine ⟨cache, hinit, cache', es, hrun.trans ?_, hholds, hpairs.trans (by decide +kernel), hfree⟩
  apply congrArg fun results => Except.ok (cache', results)
  decide +kernel

end DistDb.Nodes
