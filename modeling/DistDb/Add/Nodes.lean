/-
  DistDb.Add.Nodes — the lists of `linked_list.c` and `specific_linked_list.c`, node by node.

  `DistDb.Add.LinkedList` has a list as the sequence of its nodes.  Here the nodes and their
  records lie in a memory, a list is its head, its tail and its size, and the functions follow and
  write the links as the source does.  What they do depends on both directions being right:
  `ll_get_nth_node` walks backward when that is shorter.

  `Holds mem list es` says that the list is well formed and what its nodes are; `Chained` says the
  same cell by cell (`holds_iff_chained`), which is what the edits are proved from.  The walks find
  the node of every slot (`ll_get_nth_node_eq`).
-/
import DistDb.Lib.DoublyLinked
import DistDb.Add.LinkedList
import DistDb.Utils

namespace DistDb.Nodes

open Lib DoublyLinked

/-! ## §1. The memory. -/

/-- `ll_node_t`, whose data is the address of an `info_t` record. -/
abbrev LlNode := Cell ℕ ℕ

/-- The nodes and the records that are allocated. -/
structure Memory where
  nodes : Store ℕ ℕ
  infos : ℕ → Option (Info CString CString)

/-- `ll_list_t` -/
structure LlList where
  head : Option ℕ
  tail : Option ℕ
  size : ℕ

/-- Follow a pointer to a node. -/
def Memory.node (mem : Memory) : Option ℕ → Exec LlNode
  | none => throw .nullPointer
  | some a =>
    match mem.nodes a with
    | none => throw .danglingPointer
    | some node => pure node

/-- Follow a pointer to a record. -/
def Memory.info (mem : Memory) (a : ℕ) : Exec (Info CString CString) :=
  match mem.infos a with
  | none => throw .danglingPointer
  | some info => pure info

/-- The memory with a new forward link in the node. -/
def Memory.linkNext (mem : Memory) (node next : Option ℕ) : Memory :=
  { mem with nodes := DoublyLinked.linkNext mem.nodes node next }

/-- The memory with a new backward link in the node. -/
def Memory.linkPrev (mem : Memory) (node prev : Option ℕ) : Memory :=
  { mem with nodes := DoublyLinked.linkPrev mem.nodes node prev }

/-- `node->next = next` -/
def write_next (mem : Memory) (node next : Option ℕ) : Exec Memory := do
  let _ ← mem.node node
  pure (mem.linkNext node next)

/-- `node->prev = prev` -/
def write_prev (mem : Memory) (node prev : Option ℕ) : Exec Memory := do
  let _ ← mem.node node
  pure (mem.linkPrev node prev)

/-- A new node with NULL links and a new record with a copy of `new_data`, at the addresses that
the allocator returns. -/
def Memory.create_node (mem : Memory) (new_data : Info CString CString)
    (new_node new_info : ℕ) : Memory where
  nodes := Function.update mem.nodes new_node (some ⟨new_info, none, none⟩)
  infos := Function.update mem.infos new_info (some new_data)

/-- The memory without a node and its record. -/
def Memory.release (mem : Memory) (node data : ℕ) : Memory where
  nodes := Function.update mem.nodes node none
  infos := Function.update mem.infos data none

/-- One less, of an `unsigned int`. -/
def decrement (size : ℕ) : ℕ := if size = 0 then 2 ^ 32 - 1 else size - 1

/-! ## §2. The functions. -/

/-- `i` steps forward. -/
def next_nodes (mem : Memory) : ℕ → Option ℕ → Exec (Option ℕ)
  | 0, node => pure node
  | i + 1, node => do
    let n ← mem.node node
    next_nodes mem i n.next

/-- `i` steps backward. -/
def prev_nodes (mem : Memory) : ℕ → Option ℕ → Exec (Option ℕ)
  | 0, node => pure node
  | i + 1, node => do
    let n ← mem.node node
    prev_nodes mem i n.prev

/-- The `n`-th node, from the nearer end. -/
def ll_get_nth_node (mem : Memory) (list : LlList) (n : ℕ) : Exec (Option ℕ) :=
  let len := decrement list.size
  if n > len then pure none
  else if n ≤ len / 2 then next_nodes mem n list.head
  else prev_nodes mem (len - n) list.tail

/-- Link a new node in at slot `n`, with a copy of the record. -/
def ll_add_nth_node_info (mem : Memory) (list : LlList) (n : ℕ)
    (new_data : Info CString CString) (new_node new_info : ℕ) :
    Exec (Memory × LlList × Option ℕ) :=
  if n > list.size then pure (mem, list, none)
  else do
    let mem := mem.create_node new_data new_node new_info
    let (mem, list) ←
      if n = 0 then do
        let mem ← write_next mem (some new_node) list.head
        let mem ← if list.head.isSome then write_prev mem list.head (some new_node) else pure mem
        let tail := if list.tail.isNone then some new_node else list.tail
        pure (mem, { list with head := some new_node, tail := tail })
      else if n = list.size then do
        let mem ← write_prev mem (some new_node) list.tail
        let mem ← write_next mem list.tail (some new_node)
        pure (mem, { list with tail := some new_node })
      else do
        let prev_node ← ll_get_nth_node mem list (n - 1)
        let mem ← write_prev mem (some new_node) prev_node
        let prev ← mem.node prev_node
        let mem ← write_next mem (some new_node) prev.next
        let prev ← mem.node prev_node
        let mem ← write_prev mem prev.next (some new_node)
        let mem ← write_next mem prev_node (some new_node)
        pure (mem, list)
    pure (mem, { list with size := list.size + 1 }, some new_node)

/-- Unlink the node at slot `n` and return it. -/
def ll_remove_nth_node (mem : Memory) (list : LlList) (n : ℕ) :
    Exec (Memory × LlList × Option ℕ) :=
  if list.size = 0 then pure (mem, list, none)
  else if n ≥ list.size then pure (mem, list, none)
  else do
    let (mem, list, removed_node) ←
      if n = 0 then do
        let removed_node := list.head
        let removed ← mem.node removed_node
        let list := { list with head := removed.next }
        let mem ← if list.head.isSome then write_prev mem list.head none else pure mem
        let tail := if removed_node = list.tail then none else list.tail
        pure (mem, { list with tail := tail }, removed_node)
      else if n = decrement list.size then do
        let removed_node := list.tail
        let removed ← mem.node removed_node
        let list := { list with tail := removed.prev }
        let mem ← write_next mem list.tail none
        pure (mem, list, removed_node)
      else do
        let prev_node ← ll_get_nth_node mem list (n - 1)
        let prev ← mem.node prev_node
        let removed_node := prev.next
        let removed ← mem.node removed_node
        let mem ← write_next mem prev_node removed.next
        let prev ← mem.node prev_node
        let mem ← write_prev mem prev.next prev_node
        pure (mem, list, removed_node)
    pure (mem, { list with size := decrement list.size }, removed_node)

/-- Unlink a node and return it. -/
def ll_remove_node (mem : Memory) (list : LlList) (node : Option ℕ) :
    Exec (Memory × LlList × Option ℕ) :=
  if node.isNone then pure (mem, list, none)
  else do
    let (mem, list) ←
      if node = list.head then do
        let n ← mem.node node
        let list := { list with head := n.next }
        let mem ← if list.head.isSome then write_prev mem list.head none else pure mem
        pure (mem, list)
      else do
        let n ← mem.node node
        let mem ← write_next mem n.prev n.next
        pure (mem, list)
    let (mem, list) ←
      if node = list.tail then do
        let n ← mem.node node
        let list := { list with tail := n.prev }
        let mem ← if list.tail.isSome then write_next mem list.tail none else pure mem
        pure (mem, list)
      else do
        let n ← mem.node node
        let mem ← write_prev mem n.next n.prev
        pure (mem, list)
    pure (mem, { list with size := decrement list.size }, node)

/-- The first node from `node` on whose record has the key, for at most `rounds` rounds. -/
def find_node (mem : Memory) (key : CString) (rounds : ℕ) (node : Option ℕ) :
    Exec (Option ℕ) :=
  match node with
  | none => pure none
  | some a =>
    match rounds with
    | 0 => throw .outOfFuel
    | rounds + 1 => do
      let n ← mem.node (some a)
      let info ← mem.info n.data
      if info.key = key then pure (some a) else find_node mem key rounds n.next

/-- The first node with the key. -/
def ll_get_node (mem : Memory) (list : LlList) (key : CString) : Exec (Option ℕ) :=
  find_node mem key list.size list.head

/-- The part of `move_node_to_end` that takes a node out, from between `prev` and `next`. -/
def unlink_node (mem : Memory) (list : LlList) (prev next : Option ℕ) :
    Exec (Memory × LlList) := do
  let (mem, list) ←
    if prev.isSome then do
      let mem ← write_next mem prev next
      pure (mem, list)
    else pure (mem, { list with head := next })
  let (mem, list) ←
    if next.isSome then do
      let mem ← write_prev mem next prev
      pure (mem, list)
    else pure (mem, { list with tail := prev })
  pure (mem, { list with size := decrement list.size })

/-- Unlink the first node with the key, link a copy of it in at the end, and release the old one.
A list of `size` nodes is searched in as many rounds. -/
def move_node_to_end (mem : Memory) (list : LlList) (key : CString) (new_node new_info : ℕ) :
    Exec (Memory × LlList × Option ℕ) := do
  match ← find_node mem key list.size list.head with
  | none => pure (mem, list, none)
  | some node =>
    let n ← mem.node (some node)
    let (mem, list) ← unlink_node mem list n.prev n.next
    let n ← mem.node (some node)
    let info ← mem.info n.data
    let (mem, list, moved) ← ll_add_nth_node_info mem list list.size info new_node new_info
    let n ← mem.node (some node)
    pure (mem.release node n.data, list, moved)

/-! ## §3. Well-formed lists. -/

/-- A node of a list: its address, that of its record, and the record. -/
structure Entry extends InfoNode CString CString where
  node : ℕ

/-- What the memory holds at the node. -/
def Entry.cell (e : Entry) : ℕ × ℕ := (e.node, e.data)

/-- What the memory holds at the nodes. -/
def cells (es : List Entry) : List (ℕ × ℕ) := es.map Entry.cell

/-- The keys and values of the nodes. -/
def pairs (es : List Entry) : List (CString × CString) := es.map fun e => e.toInfoNode.pair

/-- The list is well formed, and `es` are its nodes: the walk from the head along `next` and the
walk from the tail along `prev` both end, and visit them in opposite orders; `size` is their number,
and each owns its record. -/
structure Holds (mem : Memory) (list : LlList) (es : List Entry) : Prop where
  forward : Path mem.nodes Cell.next list.head (es.map Entry.node) none
  backward : Path mem.nodes Cell.prev list.tail (es.map Entry.node).reverse none
  size_eq : list.size = es.length
  data : ∀ e ∈ es, ∃ n, mem.nodes e.node = some n ∧ n.data = e.data
  infos : ∀ e ∈ es, mem.infos e.data = some e.info
  data_nodup : (es.map fun e => e.data).Nodup

/-- The same, cell by cell. -/
structure Chained (mem : Memory) (list : LlList) (es : List Entry) : Prop where
  linked : Linked mem.nodes none (cells es) none
  head_eq : list.head = first (cells es) none
  tail_eq : list.tail = last none (cells es)
  size_eq : list.size = es.length
  nodup : (addresses (cells es)).Nodup
  infos : ∀ e ∈ es, mem.infos e.data = some e.info
  data_nodup : (es.map fun e => e.data).Nodup

variable {mem : Memory} {list : LlList} {es xs ys : List Entry} {e : Entry}

theorem addresses_cells (es : List Entry) : addresses (cells es) = es.map Entry.node := by
  rw [addresses, cells, List.map_map]
  rfl

theorem cells_append (xs ys : List Entry) : cells (xs ++ ys) = cells xs ++ cells ys :=
  List.map_append

theorem holds_iff_chained : Holds mem list es ↔ Chained mem list es := by
  constructor
  · intro h
    have hforward := h.forward
    have hbackward := h.backward
    rw [← addresses_cells] at hforward hbackward
    have hhead := hforward.start
    have htail := hbackward.start_reverse
    refine ⟨linked_iff_paths.mpr ⟨hhead ▸ hforward, htail ▸ hbackward, ?_⟩, hhead, htail,
      h.size_eq, hforward.nodup, h.infos, h.data_nodup⟩
    intro x hx
    obtain ⟨e, he, rfl⟩ := List.mem_map.mp hx
    exact h.data e he
  · intro h
    obtain ⟨hforward, hbackward, hdata⟩ := linked_iff_paths.mp h.linked
    rw [addresses_cells, ← h.head_eq] at hforward
    rw [addresses_cells, ← h.tail_eq] at hbackward
    exact ⟨hforward, hbackward, h.size_eq,
      fun e he => hdata e.cell (List.mem_map_of_mem he), h.infos, h.data_nodup⟩

/-! ### Reading and writing the nodes of a list. -/

theorem Memory.node_of_eq {a : ℕ} {n : LlNode} (h : mem.nodes a = some n) :
    mem.node (some a) = .ok n := by
  unfold Memory.node
  simp only [h]
  rfl

variable {p p' r r' : Option ℕ} {n : LlNode}

theorem write_next_eq (h : mem.node p = .ok n) (r : Option ℕ) :
    write_next mem p r = .ok (mem.linkNext p r) := by
  rw [write_next, h]
  rfl

theorem write_prev_eq (h : mem.node p = .ok n) (r : Option ℕ) :
    write_prev mem p r = .ok (mem.linkPrev p r) := by
  rw [write_prev, h]
  rfl

theorem node_linkNext_of_ne (hne : p ≠ p') : (mem.linkNext p r).node p' = mem.node p' := by
  cases p' with
  | none => rfl
  | some a =>
    unfold Memory.node Memory.linkNext
    simp only [linkNext_of_ne hne]

theorem node_linkPrev_of_ne (hne : p ≠ p') : (mem.linkPrev p r).node p' = mem.node p' := by
  cases p' with
  | none => rfl
  | some a =>
    unfold Memory.node Memory.linkPrev
    simp only [linkPrev_of_ne hne]

theorem nodes_of_node_eq {a : ℕ} (h : mem.node (some a) = .ok n) : mem.nodes a = some n := by
  unfold Memory.node at h
  cases ha : mem.nodes a with
  | none =>
    simp only [ha] at h
    cases h
  | some m =>
    simp only [ha] at h
    cases h
    rfl

theorem node_linkNext_self (h : mem.node p = .ok n) :
    (mem.linkNext p r).node p = .ok { n with next := r } := by
  cases p with
  | none => cases h
  | some a =>
    apply Memory.node_of_eq
    show DoublyLinked.linkNext mem.nodes (some a) r a = _
    rw [linkNext_self, nodes_of_node_eq h]
    rfl

theorem node_linkPrev_self (h : mem.node p = .ok n) :
    (mem.linkPrev p r).node p = .ok { n with prev := r } := by
  cases p with
  | none => cases h
  | some a =>
    apply Memory.node_of_eq
    show DoublyLinked.linkPrev mem.nodes (some a) r a = _
    rw [linkPrev_self, nodes_of_node_eq h]
    rfl

@[simp] theorem Memory.linkNext_none (mem : Memory) (r : Option ℕ) :
    mem.linkNext none r = mem := rfl

@[simp] theorem Memory.linkPrev_none (mem : Memory) (r : Option ℕ) :
    mem.linkPrev none r = mem := rfl

/-- Writing the link that is there changes nothing. -/
theorem Memory.linkNext_eq_self (h : mem.node p = .ok n) : mem.linkNext p n.next = mem := by
  cases p with
  | none => rfl
  | some a =>
    unfold Memory.linkNext
    rw [DoublyLinked.linkNext_eq_self (nodes_of_node_eq h)]

theorem Memory.linkPrev_eq_self (h : mem.node p = .ok n) : mem.linkPrev p n.prev = mem := by
  cases p with
  | none => rfl
  | some a =>
    unfold Memory.linkPrev
    rw [DoublyLinked.linkPrev_eq_self (nodes_of_node_eq h)]

theorem Memory.linkNext_linkPrev (mem : Memory) (p p' r r' : Option ℕ) :
    (mem.linkPrev p' r').linkNext p r = (mem.linkNext p r).linkPrev p' r' := by
  unfold Memory.linkPrev Memory.linkNext
  rw [DoublyLinked.linkNext_linkPrev]

@[simp] theorem Memory.linkNext_linkNext (mem : Memory) (p r r' : Option ℕ) :
    (mem.linkNext p r).linkNext p r' = mem.linkNext p r' := by
  unfold Memory.linkNext
  rw [DoublyLinked.linkNext_linkNext]

@[simp] theorem Memory.linkPrev_linkPrev (mem : Memory) (p r r' : Option ℕ) :
    (mem.linkPrev p r).linkPrev p r' = mem.linkPrev p r' := by
  unfold Memory.linkPrev
  rw [DoublyLinked.linkPrev_linkPrev]

theorem last_cells_concat (xs : List Entry) (p : Entry) :
    last none (cells (xs ++ [p])) = some p.node := by
  rw [cells_append]
  exact last_concat none (cells xs) p.cell

/-- The ends of a list in two parts. -/
theorem first_cells_append (hxs : xs ≠ []) (ys : List Entry) :
    first (cells (xs ++ ys)) none = first (cells xs) none := by
  cases xs with
  | nil => exact absurd rfl hxs
  | cons x xs => rfl

theorem last_cells_append (xs : List Entry) (hys : ys ≠ []) :
    last none (cells (xs ++ ys)) = last none (cells ys) := by
  rw [cells_append, last_append]
  cases ys with
  | nil => exact absurd rfl hys
  | cons y ys => rfl

/-- A node in the middle of a list. -/
theorem Chained.node_eq (h : Chained mem list (xs ++ e :: ys)) :
    mem.node (some e.node)
      = .ok ⟨e.data, last none (cells xs), first (cells ys) none⟩ := by
  have hlinked := h.linked
  rw [cells_append] at hlinked
  exact Memory.node_of_eq (linked_append.mp hlinked).2.1

/-! ## §4. The walks. -/

theorem next_nodes_eq {zs : List (ℕ × ℕ)} {before after : Option ℕ}
    (h : Linked mem.nodes before zs after) {n : ℕ} (hn : n ≤ zs.length) :
    next_nodes mem n (first zs after) = .ok (first (zs.drop n) after) := by
  induction n generalizing before zs with
  | zero => rfl
  | succ n ih =>
    cases zs with
    | nil => cases hn
    | cons z zs =>
      rw [first, next_nodes, Memory.node_of_eq h.1]
      exact ih h.2 (Nat.le_of_succ_le_succ hn)

theorem prev_nodes_eq {zs : List (ℕ × ℕ)} {before after : Option ℕ}
    (h : Linked mem.nodes before zs after) {n : ℕ} (hn : n ≤ zs.length) :
    prev_nodes mem n (last before zs) = .ok (last before (zs.take (zs.length - n))) := by
  induction n generalizing after zs with
  | zero =>
    rw [Nat.sub_zero, List.take_length]
    rfl
  | succ n ih =>
    rcases List.eq_nil_or_concat' zs with rfl | ⟨init, z, rfl⟩
    · cases hn
    · rw [List.length_append, List.length_singleton] at hn ⊢
      obtain ⟨hinit, hz, -⟩ := linked_append.mp h
      rw [last_concat, prev_nodes, Memory.node_of_eq hz, Nat.add_sub_add_right,
        List.take_append_of_le_length (Nat.sub_le _ _)]
      exact ih hinit (Nat.le_of_succ_le_succ hn)

/-- **`ll_get_nth_node` finds the node**, from whichever end it walks. -/
theorem ll_get_nth_node_eq (h : Chained mem list (xs ++ e :: ys)) :
    ll_get_nth_node mem list xs.length = .ok (some e.node) := by
  have hsize : list.size = xs.length + (ys.length + 1) := by
    rw [h.size_eq, List.length_append, List.length_cons]
  have hlength : (cells (xs ++ e :: ys)).length = list.size := by
    rw [cells, List.length_map, h.size_eq]
  have hlen : decrement list.size = xs.length + ys.length := by
    rw [decrement, if_neg (by omega)]
    omega
  have hxs : (cells xs).length = xs.length := List.length_map _
  unfold ll_get_nth_node
  rw [hlen, if_neg (by omega)]
  split_ifs with hnear
  · rw [h.head_eq, next_nodes_eq h.linked (by omega), cells_append, ← hxs, List.drop_left]
    rfl
  · have hback : (cells (xs ++ e :: ys)).length - (xs.length + ys.length - xs.length)
        = (cells (xs ++ [e])).length := by
      rw [hlength, cells, List.length_map, List.length_append, List.length_singleton]
      omega
    have hsplit : cells (xs ++ e :: ys) = cells (xs ++ [e]) ++ cells ys := by
      rw [← cells_append, List.append_assoc]
      rfl
    rw [h.tail_eq, prev_nodes_eq h.linked (by omega), hback, hsplit, List.take_left, cells_append]
    exact congrArg Except.ok (last_concat none (cells xs) e.cell)

end DistDb.Nodes
