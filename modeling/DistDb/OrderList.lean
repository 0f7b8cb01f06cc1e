/-
  DistDb.OrderList — the order list of a cache, as a doubly linked list.

  Every function of the order list keeps a well-formed list well formed, and acts on its nodes as
  its namesake of `DistDb.Add.LinkedList` acts on their sequence.

  Main results:
    * `ll_get_nth_node_spec`, `ll_add_nth_node_info_spec`, `ll_remove_nth_node_spec`,
      `ll_remove_node_spec`, `move_node_to_end_spec` — one for each function,
    * `functions_refine_sequence` — the functions on the sequence of the nodes,
    * `order_list_stays_well_formed` — the functions on the sequence of keys and values.
-/
import Mathlib.Data.List.InsertIdx
import DistDb.Add.Links

namespace DistDb.Nodes

open Lib DoublyLinked

variable {mem : Memory} {list : LlList} {es : List Entry} {e : Entry}

/-! ## §1. The functions on well-formed lists. -/

/-- A list in two parts around a slot. -/
theorem exists_split {n : ℕ} (he : es[n]? = some e) :
    ∃ xs ys, es = xs ++ e :: ys ∧ xs.length = n := by
  obtain ⟨hn, rfl⟩ := List.getElem?_eq_some_iff.mp he
  refine ⟨es.take n, es.drop (n + 1), ?_, List.length_take_of_le (Nat.le_of_lt hn)⟩
  rw [List.getElem_cons_drop, List.take_append_drop]

theorem insertIdx_middle {β : Type*} (xs ys : List β) (b : β) :
    (xs ++ ys).insertIdx xs.length b = xs ++ b :: ys := by
  induction xs with
  | nil => rfl
  | cons x xs ih => exact congrArg (x :: ·) ih

theorem eraseIdx_middle {β : Type*} (xs ys : List β) (b : β) :
    (xs ++ b :: ys).eraseIdx xs.length = xs ++ ys := by
  rw [List.eraseIdx_append_of_length_le (Nat.le_refl _), Nat.sub_self]
  rfl

theorem ll_get_nth_node_spec (h : Holds mem list es) {n : ℕ} (he : es[n]? = some e) :
    ll_get_nth_node mem list n = .ok (some e.node) := by
  obtain ⟨xs, ys, rfl, rfl⟩ := exists_split he
  exact ll_get_nth_node_eq (holds_iff_chained.mp h)

/-- A new node goes in at its slot; past the end nothing happens. -/
theorem ll_add_nth_node_info_spec (h : Holds mem list es) (n : ℕ) (hfresh : Fresh mem e) :
    ∃ mem' list', ll_add_nth_node_info mem list n e.info e.node e.data
        = .ok (mem', list', if n ≤ es.length then some e.node else none) ∧
      Holds mem' list' (es.insertIdx n e) := by
  rcases Nat.lt_or_ge es.length n with hpast | hn
  · refine ⟨mem, list, ?_, ?_⟩
    · rw [ll_add_nth_node_info, if_pos (by rw [h.size_eq]; exact hpast),
        if_neg (Nat.not_le.mpr hpast)]
      rfl
    · rw [List.insertIdx_of_length_lt hpast]
      exact h
  · obtain ⟨xs, ys, rfl, rfl⟩ : ∃ xs ys, es = xs ++ ys ∧ xs.length = n :=
      ⟨es.take n, es.drop n, (List.take_append_drop n es).symm, List.length_take_of_le hn⟩
    have hchained := holds_iff_chained.mp h
    rw [if_pos hn, insertIdx_middle]
    exact ⟨_, _, ll_add_nth_node_info_eq hchained hfresh,
      holds_iff_chained.mpr (hchained.inserted hfresh)⟩

/-- The node goes out. -/
theorem ll_remove_node_spec (h : Holds mem list es) {n : ℕ} (he : es[n]? = some e) :
    ∃ mem' list', ll_remove_node mem list (some e.node) = .ok (mem', list', some e.node) ∧
      Holds mem' list' (es.eraseIdx n) := by
  obtain ⟨xs, ys, rfl, rfl⟩ := exists_split he
  have hchained := holds_iff_chained.mp h
  rw [eraseIdx_middle]
  exact ⟨_, _, ll_remove_node_eq hchained, holds_iff_chained.mpr hchained.joined⟩

/-- The node of the slot goes out; past the end nothing happens. -/
theorem ll_remove_nth_node_spec (h : Holds mem list es) (n : ℕ) :
    ∃ mem' list', ll_remove_nth_node mem list n
        = .ok (mem', list', (es[n]?).map Entry.node) ∧
      Holds mem' list' (es.eraseIdx n) := by
  cases he : es[n]? with
  | none =>
    have hn : es.length ≤ n := List.getElem?_eq_none_iff.mp he
    rw [List.eraseIdx_of_length_le hn]
    exact ⟨mem, list, ll_remove_nth_node_of_ge (h.size_eq.trans_le hn), h⟩
  | some e =>
    obtain ⟨xs, ys, rfl, rfl⟩ := exists_split he
    have hchained := holds_iff_chained.mp h
    rw [eraseIdx_middle]
    exact ⟨_, _, ll_remove_nth_node_eq hchained, holds_iff_chained.mpr hchained.joined⟩

/-- The first node with the key goes to the end, as a new node. -/
theorem move_node_to_end_spec (h : Holds mem list es) {key : CString}
    (he : KeyedList.find Entry.key es key = some e) {new : Entry} (hfresh : Fresh mem new)
    (hinfo : new.info = e.info) :
    ∃ mem' list', move_node_to_end mem list key new.node new.data
        = .ok (mem', list', some new.node) ∧
      Holds mem' list' (KeyedList.erase Entry.key es key ++ [new]) := by
  obtain ⟨-, rfl⟩ := KeyedList.mem_of_find he
  obtain ⟨xs, ys, rfl, hxs, herase⟩ := KeyedList.find_split he
  obtain ⟨mem', hmove, hmoved⟩ := move_node_to_end_eq (holds_iff_chained.mp h) hxs hfresh hinfo
  rw [herase]
  exact ⟨mem', _, hmove, holds_iff_chained.mpr hmoved⟩

/-! ## §2. The sequence of the nodes. -/

/-- The nodes without their addresses, as `DistDb.Add.LinkedList` has them. -/
def sequence (es : List Entry) : List (InfoNode CString CString) := es.map Entry.toInfoNode

/-- **The functions act on the nodes as on their sequence.** -/
theorem functions_refine_sequence (h : Holds mem list es) :
    (∀ n info new_node new_info, mem.nodes new_node = none → mem.infos new_info = none →
      ∃ mem' list' p es', ll_add_nth_node_info mem list n info new_node new_info
          = .ok (mem', list', p) ∧ Holds mem' list' es' ∧
        sequence es' = (DistDb.ll_add_nth_node_info (sequence es) n info new_info).2) ∧
    (∀ n, ∃ mem' list' p es', ll_remove_nth_node mem list n = .ok (mem', list', p) ∧
        Holds mem' list' es' ∧ sequence es' = (DistDb.ll_remove_nth_node (sequence es) n).2) ∧
    (∀ e ∈ es, ∃ mem' list' p es', ll_remove_node mem list (some e.node) = .ok (mem', list', p) ∧
        Holds mem' list' es' ∧
        sequence es' = DistDb.ll_remove_node (sequence es) e.toInfoNode) ∧
    (∀ key new_node new_info, mem.nodes new_node = none → mem.infos new_info = none →
      ∃ mem' list' p es', move_node_to_end mem list key new_node new_info
          = .ok (mem', list', p) ∧ Holds mem' list' es' ∧
        sequence es' = (DistDb.move_node_to_end (sequence es) key new_info).2) := by
  have hlength : (sequence es).length = es.length := List.length_map _
  refine ⟨?_, ?_, ?_, ?_⟩
  · intro n info new_node new_info hnode hinfo
    obtain ⟨mem', list', hadd, hholds⟩ :=
      ll_add_nth_node_info_spec (e := ⟨⟨new_info, info⟩, new_node⟩) h n ⟨hnode, hinfo⟩
    refine ⟨mem', list', _, _, hadd, hholds, ?_⟩
    rw [sequence, List.map_insertIdx, DistDb.ll_add_nth_node_info]
    split_ifs with hn
    · exact List.insertIdx_of_length_lt hn
    · rfl
  · intro n
    obtain ⟨mem', list', hremove, hholds⟩ := ll_remove_nth_node_spec h n
    refine ⟨mem', list', _, _, hremove, hholds, ?_⟩
    rw [sequence, ← List.eraseIdx_map, DistDb.ll_remove_nth_node]
    split_ifs with hn
    · exact List.eraseIdx_of_length_le hn
    · rfl
  · intro e he
    have hfind : KeyedList.find (fun e : Entry => e.data) es e.data = some e :=
      (KeyedList.find_eq_some h.data_nodup).mpr ⟨he, rfl⟩
    obtain ⟨xs, ys, hsplit, -, herase⟩ := KeyedList.find_split hfind
    have hslot : es[xs.length]? = some e := by
      rw [hsplit, List.getElem?_append_right (Nat.le_refl _), Nat.sub_self]
      rfl
    obtain ⟨mem', list', hremove, hholds⟩ := ll_remove_node_spec h hslot
    refine ⟨mem', list', _, _, hremove, hholds, ?_⟩
    rw [sequence, sequence, DistDb.ll_remove_node, KeyedList.erase_map]
    apply congrArg (List.map Entry.toInfoNode)
    rw [herase, hsplit, eraseIdx_middle]
  · intro key new_node new_info hnode hinfo
    have hsequence : KeyedList.find InfoNode.key (sequence es) key
        = (KeyedList.find Entry.key es key).map Entry.toInfoNode :=
      KeyedList.find_map _ es key
    cases hfind : KeyedList.find Entry.key es key with
    | none =>
      rw [hfind] at hsequence
      refine ⟨mem, list, _, es, move_node_to_end_of_notMem (holds_iff_chained.mp h)
        (KeyedList.find_eq_none.mp hfind) new_node new_info, h, ?_⟩
      simp only [DistDb.move_node_to_end, hsequence, Option.map_none]
    | some e =>
      rw [hfind] at hsequence
      have hfresh : Fresh mem ⟨⟨new_info, e.info⟩, new_node⟩ := ⟨hnode, hinfo⟩
      obtain ⟨mem', list', hmove, hholds⟩ := move_node_to_end_spec h hfind hfresh rfl
      refine ⟨mem', list', _, _, hmove, hholds, ?_⟩
      rw [move_node_to_end_of_find hsequence, sequence, sequence, KeyedList.erase_map]
      exact List.map_append

/-! ## §3. The sequence of keys and values. -/

/-- Move the first pair with the key to the end. -/
def move_first_to_end (l : List (CString × CString)) (key : CString) : List (CString × CString) :=
  match KeyedList.find Prod.fst l key with
  | none => l
  | some pair => KeyedList.erase Prod.fst l key ++ [pair]

theorem pairs_eraseIdx (es : List Entry) (n : ℕ) : pairs (es.eraseIdx n) = (pairs es).eraseIdx n :=
  (List.eraseIdx_map ..).symm

theorem pairs_insertIdx (es : List Entry) (n : ℕ) (e : Entry) :
    pairs (es.insertIdx n e) = (pairs es).insertIdx n (e.info.key, e.info.value) :=
  List.map_insertIdx ..

theorem pairs_move {key : CString} (he : KeyedList.find Entry.key es key = some e) {new : Entry}
    (hinfo : new.info = e.info) :
    pairs (KeyedList.erase Entry.key es key ++ [new]) = move_first_to_end (pairs es) key := by
  have hfind : KeyedList.find Prod.fst (pairs es) key
      = (KeyedList.find Entry.key es key).map fun e => e.toInfoNode.pair :=
    KeyedList.find_map _ es key
  have hpair : new.toInfoNode.pair = e.toInfoNode.pair := by
    unfold InfoNode.pair
    rw [hinfo]
  rw [he] at hfind
  rw [move_first_to_end, hfind, pairs, pairs, KeyedList.erase_map, List.map_append, List.map_cons,
    hpair]
  rfl

/-- **The list stays a well-formed doubly linked list**, whatever is done to it: every function
returns and leaves a well-formed list, on whose keys and values it acts as on a sequence; and the
`n`-th node is found from either end. -/
theorem order_list_stays_well_formed (h : Holds mem list es) :
    (∀ n < list.size, ∃ e, es[n]? = some e ∧ ll_get_nth_node mem list n = .ok (some e.node)) ∧
    (∀ n info new_node new_info, mem.nodes new_node = none → mem.infos new_info = none →
      ∃ mem' list' es', ll_add_nth_node_info mem list n info new_node new_info
          = .ok (mem', list', if n ≤ es.length then some new_node else none) ∧
        Holds mem' list' es' ∧ pairs es' = (pairs es).insertIdx n (info.key, info.value)) ∧
    (∀ n, ∃ mem' list' es', ll_remove_nth_node mem list n
          = .ok (mem', list', (es[n]?).map Entry.node) ∧
        Holds mem' list' es' ∧ pairs es' = (pairs es).eraseIdx n) ∧
    (∀ n e, es[n]? = some e → ∃ mem' list' es',
        ll_remove_node mem list (some e.node) = .ok (mem', list', some e.node) ∧
        Holds mem' list' es' ∧ pairs es' = (pairs es).eraseIdx n) ∧
    (∀ key new_node new_info, mem.nodes new_node = none → mem.infos new_info = none →
      ∃ mem' list' moved es', move_node_to_end mem list key new_node new_info
          = .ok (mem', list', moved) ∧
        Holds mem' list' es' ∧ pairs es' = move_first_to_end (pairs es) key) := by
  refine ⟨?_, ?_, ?_, ?_, ?_⟩
  · intro n hn
    have he := List.getElem?_eq_getElem (h.size_eq ▸ hn)
    exact ⟨_, he, ll_get_nth_node_spec h he⟩
  · intro n info new_node new_info hnode hinfo
    obtain ⟨mem', list', hadd, hholds⟩ :=
      ll_add_nth_node_info_spec (e := ⟨⟨new_info, info⟩, new_node⟩) h n ⟨hnode, hinfo⟩
    exact ⟨mem', list', _, hadd, hholds, pairs_insertIdx ..⟩
  · intro n
    obtain ⟨mem', list', hremove, hholds⟩ := ll_remove_nth_node_spec h n
    exact ⟨mem', list', _, hremove, hholds, pairs_eraseIdx ..⟩
  · intro n e he
    obtain ⟨mem', list', hremove, hholds⟩ := ll_remove_node_spec h he
    exact ⟨mem', list', _, hremove, hholds, pairs_eraseIdx ..⟩
  · intro key new_node new_info hnode hinfo
    cases hfind : KeyedList.find Entry.key es key with
    | none =>
      have hnone : KeyedList.find Prod.fst (pairs es) key = none := by
        rw [pairs, KeyedList.find_map]
        exact congrArg _ hfind
      refine ⟨mem, list, none, es, move_node_to_end_of_notMem (holds_iff_chained.mp h)
        (KeyedList.find_eq_none.mp hfind) new_node new_info, h, ?_⟩
      rw [move_first_to_end, hnone]
    | some e =>
      have hfresh : Fresh mem ⟨⟨new_info, e.info⟩, new_node⟩ := ⟨hnode, hinfo⟩
      obtain ⟨mem', list', hmove, hholds⟩ := move_node_to_end_spec h hfind hfresh rfl
      exact ⟨mem', list', _, _, hmove, hholds, pairs_move hfind rfl⟩

/-- A list of two nodes. -/
theorem order_list_stays_well_formed_two_nodes :
    ∃ mem list es, Holds mem list es ∧ list.size = 2 ∧
      ∃ mem' list' moved es', move_node_to_end mem list (.ofString "a") 2 12
          = .ok (mem', list', moved) ∧ Holds mem' list' es' ∧
        pairs es' = [(.ofString "b", .ofString "y"), (.ofString "a", .ofString "x")] := by
  let a : Entry := ⟨⟨10, ⟨.ofString "a", .ofString "x"⟩⟩, 0⟩
  let b : Entry := ⟨⟨11, ⟨.ofString "b", .ofString "y"⟩⟩, 1⟩
  let mem : Memory :=
    { nodes := fun p => if p = 0 then some ⟨10, none, some 1⟩
        else if p = 1 then some ⟨11, some 0, none⟩ else none
      infos := fun p => if p = 10 then some a.info else if p = 11 then some b.info else none }
  have hholds : Holds mem ⟨some 0, some 1, 2⟩ [a, b] := by
    refine ⟨⟨rfl, _, rfl, rfl, _, rfl, rfl⟩, ⟨rfl, _, rfl, rfl, _, rfl, rfl⟩, rfl, ?_, ?_, ?_⟩
    · simp [mem, a, b]
    · simp [mem, a, b]
    · simp [a, b]
  obtain ⟨-, -, -, -, hmove⟩ := order_list_stays_well_formed hholds
  obtain ⟨mem', list', moved, es', hmove, hholds', hpairs⟩ := hmove (.ofString "a") 2 12 rfl rfl
  exact ⟨mem, _, _, hholds, rfl, mem', list', moved, es', hmove, hholds',
    hpairs.trans (by decide +kernel)⟩

end DistDb.Nodes
