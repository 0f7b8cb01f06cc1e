/-
  DistDb.Add.Links — the edits of `linked_list.c` and `specific_linked_list.c` on a list of nodes.

  An edit writes the links of the neighbours, the ends of the list and its size, with branches for
  the head, the tail, a node in the middle and the only node.  Whatever the branch, the memory is
  the same: `joined`, in which two parts of the list are linked to each other, or `inserted`, in
  which a new node stands between them.

  Main results:
    * `Chained.joined`, `Chained.inserted` — what is left is well formed,
    * `Chained.around` — what an edit reads around a node,
    * `ll_remove_node_eq`, `ll_remove_nth_node_eq`, `ll_add_nth_node_info_eq`,
      `move_node_to_end_eq` — what the functions leave.
-/
import DistDb.Add.Nodes

namespace DistDb.Nodes

open Lib DoublyLinked

variable {mem : Memory} {list : LlList} {es xs ys : List Entry} {e : Entry}

/-! ## §1. Unlinking. -/

/-- The memory once the ends of `xs` and `ys` are linked to each other. -/
def joined (mem : Memory) (xs ys : List Entry) : Memory :=
  (mem.linkNext (last none (cells xs)) (first (cells ys) none)).linkPrev
    (first (cells ys) none) (last none (cells xs))

/-- The list of the nodes `es`. -/
def listOf (es : List Entry) : LlList where
  head := first (cells es) none
  tail := last none (cells es)
  size := es.length

/-- **Without one of its nodes** the list is well formed. -/
theorem Chained.joined (h : Chained mem list (xs ++ e :: ys)) :
    Chained (joined mem xs ys) (listOf (xs ++ ys)) (xs ++ ys) where
  linked := by
    have hlinked := h.linked
    have hnodup := h.nodup
    rw [cells_append] at hlinked hnodup ⊢
    exact hlinked.unlink hnodup
  head_eq := rfl
  tail_eq := rfl
  size_eq := rfl
  nodup := by
    have hsub : (cells (xs ++ ys)).Sublist (cells (xs ++ e :: ys)) :=
      ((List.Sublist.refl xs).append (List.sublist_cons_self e ys)).map _
    exact h.nodup.sublist (hsub.map _)
  infos := by
    intro e' he'
    apply h.infos
    rcases List.mem_append.mp he' with hmem | hmem
    · exact List.mem_append_left _ hmem
    · exact List.mem_append_right _ (List.mem_cons_of_mem _ hmem)
  data_nodup :=
    h.data_nodup.sublist (((List.Sublist.refl xs).append (List.sublist_cons_self e ys)).map _)

/-- Two nodes of the list have different addresses. -/
theorem Chained.node_ne (h : Chained mem list (xs ++ e :: ys)) {e' : Entry}
    (he' : e' ∈ xs ++ ys) : e'.node ≠ e.node := by
  have hnodup := h.nodup
  rw [addresses_cells, List.map_append, List.map_cons, List.nodup_middle, List.nodup_cons,
    ← List.map_append] at hnodup
  intro heq
  exact hnodup.1 (heq ▸ List.mem_map_of_mem he')

theorem Chained.prev_ne_next {p q : Entry} (h : Chained mem list (xs ++ [p] ++ e :: q :: ys)) :
    some p.node ≠ some q.node := by
  rw [List.append_assoc] at h
  have hmem : q ∈ xs ++ e :: q :: ys := by simp
  intro heq
  exact h.node_ne hmem (Option.some.inj heq).symm

theorem decrement_length (xs ys : List Entry) (e : Entry) :
    decrement (xs ++ e :: ys).length = (xs ++ ys).length := by
  rw [decrement, if_neg (by simp)]
  simp

/-- The node is the head only when none stands before it. -/
theorem Chained.head_ne (h : Chained mem list (xs ++ e :: ys)) (hxs : xs ≠ []) :
    list.head ≠ some e.node := by
  cases xs with
  | nil => exact absurd rfl hxs
  | cons x xs =>
    rw [h.head_eq]
    intro heq
    exact h.node_ne (List.mem_append_left ys List.mem_cons_self) (Option.some.inj heq)

/-- The node is the tail only when none stands behind it. -/
theorem Chained.tail_ne (h : Chained mem list (xs ++ e :: ys)) (hys : ys ≠ []) :
    list.tail ≠ some e.node := by
  rcases List.eq_nil_or_concat' ys with rfl | ⟨ys, y, rfl⟩
  · exact absurd rfl hys
  · have htail : list.tail = some y.node := by
      rw [h.tail_eq, ← List.cons_append, ← List.append_assoc, cells_append]
      exact last_concat ..
    rw [htail]
    intro heq
    exact h.node_ne (List.mem_append_right xs (List.mem_append_right ys List.mem_cons_self))
      (Option.some.inj heq)

/-- The node before. -/
theorem Chained.prev_eq {p : Entry} (h : Chained mem list (xs ++ [p] ++ e :: ys)) :
    mem.node (some p.node) = .ok ⟨p.data, last none (cells xs), some e.node⟩ := by
  rw [List.append_assoc] at h
  exact h.node_eq

/-- The node behind. -/
theorem Chained.next_eq {q : Entry} (h : Chained mem list (xs ++ e :: q :: ys)) :
    mem.node (some q.node) = .ok ⟨q.data, some e.node, first (cells ys) none⟩ := by
  rw [← List.singleton_append, ← List.append_assoc] at h
  rw [← last_cells_concat xs e]
  exact h.node_eq

/-- What an edit reads around a node: its links, which end of the list it is, and that the nodes
next to it are there and are others. -/
structure Around (mem : Memory) (list : LlList) (e : Entry) (prev next : Option ℕ) : Prop where
  node : mem.node (some e.node) = .ok ⟨e.data, prev, next⟩
  head : if prev = none then list.head = some e.node else list.head ≠ some e.node
  tail : if next = none then list.tail = some e.node else list.tail ≠ some e.node
  prev_node : prev ≠ none → prev ≠ some e.node ∧ ∃ n, mem.node prev = .ok n
  next_node : next ≠ none → next ≠ some e.node ∧ ∃ n, mem.node next = .ok n
  prev_ne : prev ≠ none → prev ≠ next

theorem Chained.around (h : Chained mem list (xs ++ e :: ys)) :
    Around mem list e (last none (cells xs)) (first (cells ys) none) := by
  have hne : ∀ e' ∈ xs ++ ys, some e'.node ≠ some e.node :=
    fun e' he' heq => h.node_ne he' (Option.some.inj heq)
  have hhead := h.head_eq
  have htail := h.tail_eq.trans (last_cells_append xs (List.cons_ne_nil e ys))
  -- `prev` is NULL exactly when `xs` is empty, `next` exactly when `ys` is
  constructor
  · exact h.node_eq
  · rcases List.eq_nil_or_concat' xs with rfl | ⟨xs, p, rfl⟩
    · exact hhead
    · rw [last_cells_concat, if_neg (Option.some_ne_none _)]
      exact h.head_ne (List.concat_ne_nil p xs)
  · cases ys with
    | nil => exact htail
    | cons q ys => exact h.tail_ne (List.cons_ne_nil q ys)
  · intro hprev
    rcases List.eq_nil_or_concat' xs with rfl | ⟨xs, p, rfl⟩
    · exact absurd rfl hprev
    · rw [last_cells_concat]
      exact ⟨hne p (by simp), _, h.prev_eq⟩
  · intro hnext
    cases ys with
    | nil => exact absurd rfl hnext
    | cons q ys => exact ⟨hne q (by simp), _, h.next_eq⟩
  · intro hprev
    rcases List.eq_nil_or_concat' xs with rfl | ⟨xs, p, rfl⟩
    · exact absurd rfl hprev
    · rw [last_cells_concat]
      cases ys with
      | nil => exact Option.some_ne_none _
      | cons q ys => exact h.prev_ne_next

/-- What is left when a node is taken out: an end that it was is now its neighbour. -/
theorem Chained.listOf_append (h : Chained mem list (xs ++ e :: ys)) :
    listOf (xs ++ ys) =
      { head := if last none (cells xs) = none then first (cells ys) none else list.head
        tail := if first (cells ys) none = none then last none (cells xs) else list.tail
        size := decrement list.size } := by
  have hhead := h.head_eq
  have htail := h.tail_eq.trans (last_cells_append xs (List.cons_ne_nil e ys))
  rw [listOf, h.size_eq, decrement_length]
  congr 1
  · rcases List.eq_nil_or_concat' xs with rfl | ⟨xs, p, rfl⟩
    · rfl
    · rw [last_cells_concat, if_neg (Option.some_ne_none _), hhead,
        first_cells_append (List.concat_ne_nil p xs), first_cells_append (List.concat_ne_nil p xs)]
  · cases ys with
    | nil => rw [List.append_nil]; rfl
    | cons q ys =>
      rw [last_cells_append xs (List.cons_ne_nil q ys), htail]
      rfl

/-- **`ll_remove_node` unlinks the node.** -/
theorem ll_remove_node_eq (h : Chained mem list (xs ++ e :: ys)) :
    ll_remove_node mem list (some e.node)
      = .ok (joined mem xs ys, listOf (xs ++ ys), some e.node) := by
  obtain ⟨he, hhead, htail, hprev, hnext, hne⟩ := h.around
  rw [ll_remove_node, joined, h.listOf_append]
  generalize last none (cells xs) = prev at *
  generalize first (cells ys) none = next at *
  cases prev with
  | none =>
    have hhead : list.head = some e.node := hhead
    cases next with
    | none =>
      -- the only node
      have htail : list.tail = some e.node := htail
      simp [hhead, htail, he]
    | some q =>
      -- the head: NULL is written to the next node twice
      have htail : list.tail ≠ some e.node := htail
      obtain ⟨hne_q, n, hq⟩ := hnext (Option.some_ne_none q)
      simp [hhead, htail.symm, he, write_prev_eq hq, node_linkPrev_of_ne hne_q,
        write_prev_eq (node_linkPrev_self hq)]
  | some p =>
    have hhead : list.head ≠ some e.node := hhead
    obtain ⟨hne_p, m, hp⟩ := hprev (Option.some_ne_none p)
    cases next with
    | none =>
      -- the tail: NULL is written to the previous node twice
      have htail : list.tail = some e.node := htail
      simp [hhead.symm, htail, he, write_next_eq hp, node_linkNext_of_ne hne_p,
        write_next_eq (node_linkNext_self hp)]
    | some q =>
      have htail : list.tail ≠ some e.node := htail
      obtain ⟨hne_q, n, hq⟩ := hnext (Option.some_ne_none q)
      have hne_pq := hne (Option.some_ne_none p)
      simp [hhead.symm, htail.symm, he, write_next_eq hp, node_linkNext_of_ne hne_p,
        write_prev_eq ((node_linkNext_of_ne hne_pq).trans hq)]

/-- **`ll_remove_nth_node` unlinks the node of its slot.** -/
theorem ll_remove_nth_node_eq (h : Chained mem list (xs ++ e :: ys)) :
    ll_remove_nth_node mem list xs.length
      = .ok (joined mem xs ys, listOf (xs ++ ys), some e.node) := by
  obtain ⟨he, hhead, htail, -, hnext, hne⟩ := h.around
  have hlength : list.size = xs.length + (ys.length + 1) := by
    rw [h.size_eq, List.length_append, List.length_cons]
  have hlast : decrement list.size = xs.length + ys.length := by
    rw [h.size_eq, decrement_length, List.length_append]
  rw [ll_remove_nth_node, if_neg (by omega), if_neg (by omega), joined, h.listOf_append]
  rcases List.eq_nil_or_concat' xs with rfl | ⟨xs, p, rfl⟩
  · -- the head, which may be the tail as well
    have hnone : last none (cells []) = none := rfl
    rw [hnone] at he hhead ⊢
    have hhead : list.head = some e.node := hhead
    generalize first (cells ys) none = next at *
    cases next with
    | none =>
      have htail : list.tail = some e.node := htail
      simp [hhead, htail, he]
    | some q =>
      have htail : list.tail ≠ some e.node := htail
      obtain ⟨-, n, hq⟩ := hnext (Option.some_ne_none q)
      simp [hhead, htail.symm, he, write_prev_eq hq]
  · have hp := h.prev_eq
    rw [last_cells_concat] at he hne ⊢
    rw [if_neg (by simp)]
    cases ys with
    | nil =>
      -- the tail
      have hnone : first (cells []) none = none := rfl
      rw [hnone] at he htail ⊢
      have htail : list.tail = some e.node := htail
      rw [if_pos (by rw [hlast]; rfl)]
      simp [htail, he, write_next_eq hp]
    | cons q ys =>
      -- a node in the middle, found from the one before it
      have hq := h.next_eq
      have hnext : first (cells (q :: ys)) none = some q.node := rfl
      have hne_pq := hne (Option.some_ne_none p.node)
      have hprev : ll_get_nth_node mem list ((xs ++ [p]).length - 1) = .ok (some p.node) := by
        rw [List.length_append, List.length_singleton, Nat.add_sub_cancel]
        rw [List.append_assoc] at h
        exact ll_get_nth_node_eq h
      rw [hnext] at he hne_pq ⊢
      rw [if_neg (by rw [hlast]; simp), hprev]
      simp [he, hp, write_next_eq hp, node_linkNext_self hp,
        write_prev_eq ((node_linkNext_of_ne hne_pq).trans hq)]

theorem ll_remove_nth_node_of_ge {n : ℕ} (hn : list.size ≤ n) :
    ll_remove_nth_node mem list n = .ok (mem, list, none) := by
  unfold ll_remove_nth_node
  split_ifs <;> rfl

/-! ## §2. Linking in. -/

/-- A list looks at its own nodes and records only. -/
theorem Chained.frame {mem' : Memory} (h : Chained mem list es)
    (hnodes : ∀ e ∈ es, mem'.nodes e.node = mem.nodes e.node)
    (hinfos : ∀ e ∈ es, mem'.infos e.data = mem.infos e.data) : Chained mem' list es where
  linked := by
    apply h.linked.frame
    intro a ha
    rw [addresses_cells] at ha
    obtain ⟨e, he, rfl⟩ := List.mem_map.mp ha
    exact hnodes e he
  head_eq := h.head_eq
  tail_eq := h.tail_eq
  size_eq := h.size_eq
  nodup := h.nodup
  infos := fun e he => (hinfos e he).trans (h.infos e he)
  data_nodup := h.data_nodup

/-- What the allocator returns is not in use. -/
structure Fresh (mem : Memory) (e : Entry) : Prop where
  node : mem.nodes e.node = none
  info : mem.infos e.data = none

/-- The addresses of a new node and a new record are not those of the list. -/
theorem Fresh.node_ne (hfresh : Fresh mem e) (h : Chained mem list es) {e' : Entry}
    (he' : e' ∈ es) : e'.node ≠ e.node := by
  have hmem : e'.node ∈ addresses (cells es) := by
    rw [addresses_cells]
    exact List.mem_map_of_mem he'
  obtain ⟨cell, hcell⟩ := h.linked.exists_cell hmem
  intro heq
  rw [heq, hfresh.node] at hcell
  cases hcell

theorem Fresh.data_ne (hfresh : Fresh mem e) (h : Chained mem list es) {e' : Entry}
    (he' : e' ∈ es) : e'.data ≠ e.data := by
  intro heq
  have hinfo := h.infos e' he'
  rw [heq, hfresh.info] at hinfo
  cases hinfo

/-- The memory with the node linked in between `xs` and `ys`. -/
def inserted (mem : Memory) (xs : List Entry) (e : Entry) (ys : List Entry) : Memory where
  nodes := splice mem.nodes (last none (cells xs)) e.cell (first (cells ys) none)
  infos := Function.update mem.infos e.data (some e.info)

theorem Chained.create_node (h : Chained mem list es) (hfresh : Fresh mem e) :
    Chained (mem.create_node e.info e.node e.data) list es := by
  apply h.frame
  · intro e' he'
    exact Function.update_of_ne (hfresh.node_ne h he') ..
  · intro e' he'
    exact Function.update_of_ne (hfresh.data_ne h he') ..

/-- **With a new node** the list is well formed. -/
theorem Chained.inserted (h : Chained mem list (xs ++ ys)) (hfresh : Fresh mem e) :
    Chained (inserted mem xs e ys) (listOf (xs ++ e :: ys)) (xs ++ e :: ys) where
  linked := by
    have hlinked := h.linked
    have hnodup := h.nodup
    have hnew : e.node ∉ addresses (cells (xs ++ ys)) := by
      rw [addresses_cells]
      intro hmem
      obtain ⟨e', he', heq⟩ := List.mem_map.mp hmem
      exact hfresh.node_ne h he' heq
    rw [cells_append] at hlinked hnodup hnew ⊢
    exact hlinked.insert hnodup hnew
  head_eq := rfl
  tail_eq := rfl
  size_eq := rfl
  nodup := by
    have hnodup := h.nodup
    rw [addresses_cells] at hnodup ⊢
    rw [List.map_append, List.map_cons, List.nodup_middle, List.nodup_cons, ← List.map_append]
    refine ⟨?_, hnodup⟩
    intro hmem
    obtain ⟨e', he', heq⟩ := List.mem_map.mp hmem
    exact hfresh.node_ne h he' heq
  infos := by
    intro e' he'
    rcases List.mem_cons.mp (List.perm_middle.mem_iff.mp he') with rfl | he'
    · exact Function.update_self ..
    · exact (Function.update_of_ne (hfresh.data_ne h he') ..).trans (h.infos e' he')
  data_nodup := by
    rw [List.map_append, List.map_cons, List.nodup_middle, List.nodup_cons, ← List.map_append]
    refine ⟨?_, h.data_nodup⟩
    intro hmem
    obtain ⟨e', he', heq⟩ := List.mem_map.mp hmem
    exact hfresh.data_ne h he' heq

theorem node_create_node (mem : Memory) (e : Entry) :
    (mem.create_node e.info e.node e.data).node (some e.node) = .ok ⟨e.data, none, none⟩ :=
  Memory.node_of_eq (Function.update_self ..)

/-- Linking a new node in, write by write. -/
theorem inserted_eq (mem : Memory) (xs : List Entry) (e : Entry) (ys : List Entry) :
    DistDb.Nodes.inserted mem xs e ys
      = ((((mem.create_node e.info e.node e.data).linkPrev (some e.node) (last none (cells xs))
          ).linkNext (some e.node) (first (cells ys) none)
          ).linkNext (last none (cells xs)) (some e.node)
          ).linkPrev (first (cells ys) none) (some e.node) := by
  unfold inserted splice Memory.linkPrev Memory.linkNext Memory.create_node
  simp only [linkPrev_update, linkNext_update, Entry.cell]

/-- Before the head. -/
theorem ll_add_nth_node_info_head (h : Chained mem list ys) (hfresh : Fresh mem e) :
    ll_add_nth_node_info mem list 0 e.info e.node e.data
      = .ok (DistDb.Nodes.inserted mem [] e ys, listOf (e :: ys), some e.node) := by
  have hsize : list.size + 1 = (e :: ys).length := by
    rw [h.size_eq, List.length_cons]
  have halloc := h.create_node hfresh
  have he := node_create_node mem e
  have hhead := h.head_eq
  have htail := h.tail_eq
  have hnone : last none (cells []) = none := rfl
  rw [ll_add_nth_node_info, if_neg (Nat.not_lt_zero _), inserted_eq, hnone,
    Memory.linkPrev_eq_self he]
  generalize mem.create_node e.info e.node e.data = mem' at *
  rw [Memory.linkNext_none]
  cases ys with
  | nil =>
    have hhead : list.head = none := hhead
    have htail : list.tail = none := htail
    simp [hhead, htail, write_next_eq he, hsize, cells, first, last, listOf, Entry.cell]
  | cons q ys =>
    have halloc : Chained mem' list ([] ++ q :: ys) := halloc
    have hq := halloc.node_eq
    have hne_q : some q.node ≠ some e.node :=
      fun heq => hfresh.node_ne h List.mem_cons_self (Option.some.inj heq)
    have hhead : list.head = some q.node := hhead
    have htail_some : list.tail.isNone = false := by
      rw [htail]
      exact isNone_last_some _ _
    have htail' : list.tail = last none (cells (e :: q :: ys)) := htail
    have hnext : first (cells (q :: ys)) none = some q.node := rfl
    rw [hnext, listOf, ← htail']
    simp [hhead, htail_some, write_next_eq he, hsize, cells, first, Entry.cell,
      write_prev_eq ((node_linkNext_of_ne hne_q.symm).trans hq)]

/-- Behind the tail. -/
theorem ll_add_nth_node_info_tail {p : Entry} (h : Chained mem list (xs ++ [p]))
    (hfresh : Fresh mem e) :
    ll_add_nth_node_info mem list (xs ++ [p]).length e.info e.node e.data
      = .ok (DistDb.Nodes.inserted mem (xs ++ [p]) e [], listOf (xs ++ [p] ++ [e]),
        some e.node) := by
  have hsize : list.size + 1 = (xs ++ [p] ++ [e]).length := by simp [h.size_eq]
  have hp := (h.create_node hfresh).node_eq
  have he := node_create_node mem e
  have hne_p : some e.node ≠ some p.node :=
    fun heq => hfresh.node_ne h (by simp) (Option.some.inj heq).symm
  have hfirst : list.head = first (cells (xs ++ [p] ++ [e])) none := by
    rw [h.head_eq, first_cells_append (List.concat_ne_nil p xs)]
  have htail : list.tail = some p.node := by
    rw [h.tail_eq, last_cells_concat]
  have hnone : first (cells []) none = none := rfl
  have hlast : last none (cells (xs ++ [p] ++ [e])) = some e.node := last_cells_concat _ e
  rw [ll_add_nth_node_info, if_neg (by rw [h.size_eq]; exact Nat.lt_irrefl _), inserted_eq,
    last_cells_concat, hnone]
  generalize mem.create_node e.info e.node e.data = mem' at *
  have hown : (mem'.linkPrev (some e.node) (some p.node)).linkNext (some e.node) none
      = mem'.linkPrev (some e.node) (some p.node) :=
    Memory.linkNext_eq_self (node_linkPrev_self he)
  rw [if_neg (by simp), if_pos h.size_eq.symm, hown, listOf, ← hfirst, hlast]
  simp [htail, write_prev_eq he, hsize, write_next_eq ((node_linkPrev_of_ne hne_p).trans hp)]

/-- Between two nodes, found from the one before. -/
theorem ll_add_nth_node_info_middle {p q : Entry} (h : Chained mem list (xs ++ [p] ++ q :: ys))
    (hfresh : Fresh mem e) :
    ll_add_nth_node_info mem list (xs ++ [p]).length e.info e.node e.data
      = .ok (DistDb.Nodes.inserted mem (xs ++ [p]) e (q :: ys), listOf (xs ++ [p] ++ e :: q :: ys),
        some e.node) := by
  have hlength : list.size = (xs ++ [p]).length + (ys.length + 1) := by
    rw [h.size_eq]
    exact List.length_append
  have hsize : list.size + 1 = (xs ++ [p] ++ e :: q :: ys).length := by
    simp only [hlength, List.length_append, List.length_cons, Nat.add_assoc]
  have halloc := h.create_node hfresh
  have he := node_create_node mem e
  have hne : ∀ e' ∈ xs ++ [p] ++ q :: ys, some e.node ≠ some e'.node :=
    fun e' he' heq => hfresh.node_ne h he' (Option.some.inj heq).symm
  have hne_p := hne p (by simp)
  have hne_q := hne q (by simp)
  have hfirst : list.head = first (cells (xs ++ [p] ++ e :: q :: ys)) none := by
    rw [h.head_eq, first_cells_append (List.concat_ne_nil p xs),
      first_cells_append (List.concat_ne_nil p xs)]
  have hlast : list.tail = last none (cells (xs ++ [p] ++ e :: q :: ys)) := by
    rw [h.tail_eq, last_cells_append _ (List.cons_ne_nil q ys),
      last_cells_append _ (List.cons_ne_nil e (q :: ys))]
    rfl
  have hnext : first (cells (q :: ys)) none = some q.node := rfl
  rw [ll_add_nth_node_info, if_neg (by omega), inserted_eq, last_cells_concat, hnext]
  generalize mem.create_node e.info e.node e.data = mem' at *
  have hprev : ll_get_nth_node mem' list ((xs ++ [p]).length - 1) = .ok (some p.node) := by
    rw [List.length_append, List.length_singleton, Nat.add_sub_cancel]
    rw [List.append_assoc] at halloc
    exact ll_get_nth_node_eq halloc
  have hq : mem'.node (some q.node) = .ok ⟨q.data, some p.node, first (cells ys) none⟩ := by
    rw [← last_cells_concat xs p]
    exact halloc.node_eq
  rw [List.append_assoc, List.singleton_append] at halloc
  have hp : mem'.node (some p.node) = .ok ⟨p.data, last none (cells xs), some q.node⟩ :=
    halloc.node_eq
  -- the new node's own links leave the neighbours as they were
  have hp₁ := (node_linkPrev_of_ne (r := some p.node) hne_p).trans hp
  have hp₂ := (node_linkNext_of_ne (r := some q.node) hne_p).trans hp₁
  have hq₂ := (node_linkNext_of_ne (r := some q.node) hne_q).trans
    ((node_linkPrev_of_ne (r := some p.node) hne_q).trans hq)
  have hne_pq : some q.node ≠ some p.node := by
    have hmem : p ∈ xs ++ [p] ++ ys := by simp
    exact fun heq => h.node_ne hmem (Option.some.inj heq).symm
  have hp₃ := (node_linkPrev_of_ne (r := some e.node) hne_pq).trans hp₂
  rw [if_neg (by simp), if_neg (by omega), hprev, listOf, ← hfirst, ← hlast,
    ← Memory.linkNext_linkPrev]
  simp [write_prev_eq he, hp₁, write_next_eq (node_linkPrev_self he), hp₂, write_prev_eq hq₂,
    write_next_eq hp₃, hsize]

/-- **`ll_add_nth_node_info` links the node in at its slot.** -/
theorem ll_add_nth_node_info_eq (h : Chained mem list (xs ++ ys)) (hfresh : Fresh mem e) :
    ll_add_nth_node_info mem list xs.length e.info e.node e.data
      = .ok (DistDb.Nodes.inserted mem xs e ys, listOf (xs ++ e :: ys), some e.node) := by
  rcases List.eq_nil_or_concat' xs with rfl | ⟨xs, p, rfl⟩
  · exact ll_add_nth_node_info_head h hfresh
  · cases ys with
    | nil =>
      rw [List.append_nil] at h
      exact ll_add_nth_node_info_tail h hfresh
    | cons q ys => exact ll_add_nth_node_info_middle h hfresh

/-! ## §3. Moving a node to the end. -/

/-- The key of a node's record. -/
def Entry.key (e : Entry) : CString := e.info.key

/-- The search from a node of the list on finds the first one with the key, and ends within as many
rounds as there are nodes. -/
theorem find_node_eq {before : Option ℕ} (h : Linked mem.nodes before (cells es) none)
    (hinfos : ∀ e ∈ es, mem.infos e.data = some e.info) (key : CString) {rounds : ℕ}
    (hrounds : es.length ≤ rounds) :
    find_node mem key rounds (first (cells es) none)
      = .ok ((KeyedList.find Entry.key es key).map Entry.node) := by
  induction es generalizing before rounds with
  | nil => cases rounds <;> rfl
  | cons e es ih =>
    obtain ⟨he, hes⟩ := h
    have he : mem.node (some e.node) = .ok ⟨e.data, before, first (cells es) none⟩ :=
      Memory.node_of_eq he
    obtain ⟨hinfo, hinfos⟩ := List.forall_mem_cons.mp hinfos
    obtain ⟨rounds, rfl⟩ : ∃ r, rounds = r + 1 :=
      ⟨rounds - 1, by rw [List.length_cons] at hrounds; omega⟩
    have hread : mem.info e.data = .ok e.info := by
      rw [Memory.info, hinfo]
      rfl
    have hstep : find_node mem key (rounds + 1) (some e.node)
        = if e.info.key = key then .ok (some e.node)
          else find_node mem key rounds (first (cells es) none) := by
      rw [find_node, he, ok_bind]
      show (mem.info e.data >>= _) = _
      rw [hread, ok_bind]
      rfl
    show find_node mem key (rounds + 1) (some e.node) = _
    rw [hstep, KeyedList.find_cons, ih hes hinfos (Nat.le_of_succ_le_succ hrounds)]
    by_cases hkey : e.info.key = key
    · rw [if_pos hkey, if_pos (show e.key = key from hkey)]
      rfl
    · rw [if_neg hkey, if_neg (show e.key ≠ key from hkey)]

/-- The node is unlinked. -/
theorem unlink_node_eq (h : Chained mem list (xs ++ e :: ys)) :
    unlink_node mem list (last none (cells xs)) (first (cells ys) none)
      = .ok (joined mem xs ys, listOf (xs ++ ys)) := by
  obtain ⟨-, -, -, hprev, hnext, hne⟩ := h.around
  rw [unlink_node, joined, h.listOf_append]
  generalize last none (cells xs) = prev at *
  generalize first (cells ys) none = next at *
  cases prev with
  | none =>
    cases next with
    | none => simp
    | some q =>
      obtain ⟨-, n, hq⟩ := hnext (Option.some_ne_none q)
      simp [write_prev_eq hq]
  | some p =>
    obtain ⟨-, m, hp⟩ := hprev (Option.some_ne_none p)
    cases next with
    | none => simp [write_next_eq hp]
    | some q =>
      obtain ⟨-, n, hq⟩ := hnext (Option.some_ne_none q)
      have hne_pq := hne (Option.some_ne_none p)
      simp [write_next_eq hp, write_prev_eq ((node_linkNext_of_ne hne_pq).trans hq)]

theorem first_ne {a : ℕ} (ha : ∀ e ∈ es, e.node ≠ a) : first (cells es) none ≠ some a := by
  intro heq
  have hmem := mem_addresses_of_first heq
  rw [addresses_cells] at hmem
  obtain ⟨e, he, heq⟩ := List.mem_map.mp hmem
  exact ha e he heq

theorem last_ne {a : ℕ} (ha : ∀ e ∈ es, e.node ≠ a) : last none (cells es) ≠ some a := by
  intro heq
  have hmem := mem_addresses_of_last heq
  rw [addresses_cells] at hmem
  obtain ⟨e, he, heq⟩ := List.mem_map.mp hmem
  exact ha e he heq

/-- A node that is not in the list is not touched when two parts of the list are joined, -/
theorem node_joined {a : ℕ} (ha : ∀ e ∈ xs ++ ys, e.node ≠ a) :
    (joined mem xs ys).node (some a) = mem.node (some a) := by
  rw [joined, node_linkPrev_of_ne (first_ne fun e he => ha e (List.mem_append_right xs he)),
    node_linkNext_of_ne (last_ne fun e he => ha e (List.mem_append_left ys he))]

/-- nor when another one is linked in. -/
theorem node_inserted {a : ℕ} (ha : ∀ e ∈ xs ++ ys, e.node ≠ a) (hnew : a ≠ e.node) :
    (inserted mem xs e ys).node (some a) = mem.node (some a) := by
  have hne : some e.node ≠ some a := fun heq => hnew (Option.some.inj heq).symm
  rw [inserted_eq, node_linkPrev_of_ne (first_ne fun e he => ha e (List.mem_append_right xs he)),
    node_linkNext_of_ne (last_ne fun e he => ha e (List.mem_append_left ys he)),
    node_linkNext_of_ne hne, node_linkPrev_of_ne hne]
  have hcell : (mem.create_node e.info e.node e.data).nodes a = mem.nodes a :=
    Function.update_of_ne hnew ..
  unfold Memory.node
  simp only [hcell]

theorem Fresh.joined (hfresh : Fresh mem e) (xs ys : List Entry) :
    Fresh (joined mem xs ys) e where
  node := linkPrev_eq_none (linkNext_eq_none hfresh.node)
  info := hfresh.info

/-- A node and a record that are not of the list can be released. -/
theorem Chained.release (h : Chained mem list es) {node data : ℕ}
    (hnode : ∀ e ∈ es, e.node ≠ node) (hdata : ∀ e ∈ es, e.data ≠ data) :
    Chained (mem.release node data) list es := by
  apply h.frame
  · intro e he
    exact Function.update_of_ne (hnode e he) ..
  · intro e he
    exact Function.update_of_ne (hdata e he) ..

/-- Two nodes of the list own different records. -/
theorem Chained.data_ne (h : Chained mem list (xs ++ e :: ys)) {e' : Entry}
    (he' : e' ∈ xs ++ ys) : e'.data ≠ e.data := by
  have hdata := h.data_nodup
  rw [List.map_append, List.map_cons, List.nodup_middle, List.nodup_cons, ← List.map_append]
    at hdata
  intro heq
  exact hdata.1 (heq ▸ List.mem_map_of_mem he')

/-- The first node with the key is found. -/
theorem Chained.find_eq (h : Chained mem list (xs ++ e :: ys)) (hkey : ∀ x ∈ xs, x.key ≠ e.key) :
    find_node mem e.key list.size list.head = .ok (some e.node) := by
  have hxs : KeyedList.find Entry.key xs e.key = none := by
    apply KeyedList.find_eq_none.mpr
    intro hmem
    obtain ⟨x, hx, heq⟩ := List.mem_map.mp hmem
    exact hkey x hx heq
  rw [h.head_eq, find_node_eq h.linked h.infos e.key (Nat.le_of_eq h.size_eq.symm),
    KeyedList.find_append, hxs, KeyedList.find_cons, if_pos rfl]
  rfl

/-- The memory with a node taken out and released, and another one linked in at the end. -/
def moved (mem : Memory) (xs : List Entry) (e : Entry) (ys : List Entry) (new : Entry) : Memory :=
  (inserted (joined mem xs ys) (xs ++ ys) new []).release e.node e.data

/-- What `move_node_to_end` leaves when the first node with the key is `e`. -/
theorem move_node_to_end_moved (h : Chained mem list (xs ++ e :: ys))
    (hkey : ∀ x ∈ xs, x.key ≠ e.key) {new : Entry} (hfresh : Fresh mem new)
    (hinfo : new.info = e.info) :
    move_node_to_end mem list e.key new.node new.data
        = .ok (moved mem xs e ys new, listOf (xs ++ ys ++ [new]), some new.node) ∧
      Chained (moved mem xs e ys new) (listOf (xs ++ ys ++ [new])) (xs ++ ys ++ [new]) := by
  have hmem : e ∈ xs ++ e :: ys := List.mem_append_right xs List.mem_cons_self
  have he := h.node_eq
  have hne : ∀ e' ∈ xs ++ ys, e'.node ≠ e.node := fun e' he' => h.node_ne he'
  have hne_new := hfresh.node_ne h hmem
  -- the list without the node, to which the copy is added
  have hjoined : Chained (joined mem xs ys) (listOf (xs ++ ys)) (xs ++ ys ++ []) := by
    rw [List.append_nil]
    exact h.joined
  have hfresh' := hfresh.joined xs ys
  have hread : (joined mem xs ys).info e.data = .ok e.info := by
    have hinfo : (joined mem xs ys).infos e.data = some e.info := h.infos e hmem
    rw [Memory.info, hinfo]
    rfl
  have hadd := ll_add_nth_node_info_eq hjoined hfresh'
  have hinserted := hjoined.inserted hfresh'
  have hold : (inserted (joined mem xs ys) (xs ++ ys) new []).node (some e.node)
      = .ok ⟨e.data, last none (cells xs), first (cells ys) none⟩ := by
    rw [node_inserted (by rwa [List.append_nil]) hne_new, node_joined hne, he]
  constructor
  · rw [hinfo] at hadd
    rw [move_node_to_end, h.find_eq hkey, ok_bind]
    show (mem.node (some e.node) >>= _) = _
    rw [he, ok_bind]
    show (unlink_node mem list (last none (cells xs)) (first (cells ys) none) >>= _) = _
    rw [unlink_node_eq h, ok_bind]
    show ((joined mem xs ys).node (some e.node) >>= _) = _
    rw [node_joined hne, he, ok_bind]
    show ((joined mem xs ys).info e.data >>= _) = _
    rw [hread, ok_bind]
    show (ll_add_nth_node_info (joined mem xs ys) (listOf (xs ++ ys)) (xs ++ ys).length e.info
      new.node new.data >>= _) = _
    rw [hadd, ok_bind]
    show ((inserted (joined mem xs ys) (xs ++ ys) new []).node (some e.node) >>= _) = _
    rw [hold]
    rfl
  · -- neither the old node nor its record is one of the list
    apply hinserted.release
    · intro e' he'
      rcases List.mem_append.mp he' with he' | he'
      · exact hne e' he'
      · rw [List.mem_singleton.mp he']
        exact hne_new.symm
    · intro e' he'
      rcases List.mem_append.mp he' with he' | he'
      · exact h.data_ne he'
      · rw [List.mem_singleton.mp he']
        exact (hfresh.data_ne h hmem).symm

/-- **`move_node_to_end` moves the first node with the key**: a copy of it stands at the end, and
the old one is released. -/
theorem move_node_to_end_eq (h : Chained mem list (xs ++ e :: ys)) (hkey : ∀ x ∈ xs, x.key ≠ e.key)
    {new : Entry} (hfresh : Fresh mem new) (hinfo : new.info = e.info) :
    ∃ mem', move_node_to_end mem list e.key new.node new.data
        = .ok (mem', listOf (xs ++ ys ++ [new]), some new.node) ∧
      Chained mem' (listOf (xs ++ ys ++ [new])) (xs ++ ys ++ [new]) :=
  ⟨_, move_node_to_end_moved h hkey hfresh hinfo⟩

/-- Without the key in the list nothing happens. -/
theorem move_node_to_end_of_notMem (h : Chained mem list es) {key : CString}
    (hkey : key ∉ es.map Entry.key) (new_node new_info : ℕ) :
    move_node_to_end mem list key new_node new_info = .ok (mem, list, none) := by
  have hfind : find_node mem key list.size list.head = .ok none := by
    rw [h.head_eq, find_node_eq h.linked h.infos key (Nat.le_of_eq h.size_eq.symm),
      KeyedList.find_eq_none.mpr hkey]
    rfl
  rw [move_node_to_end, hfind]
  rfl

end DistDb.Nodes
