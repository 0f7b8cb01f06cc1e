/-
  DistDb.Add.LinkedList — the doubly linked lists of `linked_list.c` and
  `specific_linked_list.c`, as the sequence of their nodes from head to tail.

  The servers of the ring and the buckets of a hash table are lists of plain data
  (`ll_get_nth_node`, `ll_add_nth_node`, `ll_remove_nth_node`).  The order list of a cache is a
  list of nodes that own an `info_t` record: such a node carries the address of its record, since
  the cache's table refers to the record by that address.
-/
import DistDb.Lib.KeyedList

namespace DistDb

open Lib

/-- `info_t`: a key and its value. -/
structure Info (κ ν : Type) where
  key : κ
  value : ν
  deriving DecidableEq

/-! ## §1. Lists of plain data. -/

section Plain

variable {α : Type}

/-- The `n`-th node; NULL past the end.  On the empty list `size - 1` wraps around, and the walk
from the head yields the NULL head. -/
def ll_get_nth_node (list : List α) (n : ℕ) : Option α := list[n]?

/-- Put a node in at slot `n`; past the end nothing happens. -/
def ll_add_nth_node (list : List α) (n : ℕ) (new_data : α) : List α :=
  if n > list.length then list else list.insertIdx n new_data

/-- Take the node at slot `n` out and return it; past the end nothing happens. -/
def ll_remove_nth_node (list : List α) (n : ℕ) : Option α × List α :=
  if n ≥ list.length then (none, list) else (list[n]?, list.eraseIdx n)

/-- Writing the data that a slot holds changes nothing. -/
theorem set_of_getElem? {list : List α} {n : ℕ} {a : α} (h : list[n]? = some a) :
    list.set n a = list := by
  obtain ⟨hn, rfl⟩ := List.getElem?_eq_some_iff.mp h
  exact List.set_getElem_self hn

theorem ll_add_nth_node_of_le {list : List α} {n : ℕ} (hn : n ≤ list.length) (a : α) :
    ll_add_nth_node list n a = list.insertIdx n a := if_neg (Nat.not_lt.mpr hn)

theorem ll_remove_nth_node_of_lt {list : List α} {n : ℕ} (hn : n < list.length) :
    ll_remove_nth_node list n = (list[n]?, list.eraseIdx n) := if_neg (Nat.not_le.mpr hn)

end Plain

/-! ## §2. Lists whose nodes own a record. -/

section Owned

variable {κ ν : Type}

/-- A node with the address of its `info_t` record and the record itself. -/
structure InfoNode (κ ν : Type) where
  data : ℕ
  info : Info κ ν
  deriving DecidableEq

/-- The key of a node's record. -/
def InfoNode.key (node : InfoNode κ ν) : κ := node.info.key

/-- The pair a node stands for. -/
def InfoNode.pair (node : InfoNode κ ν) : κ × ν := (node.info.key, node.info.value)

/-- Put a node in at slot `n`, with a copy of the record at the address `malloc` returned. -/
def ll_add_nth_node_info (list : List (InfoNode κ ν)) (n : ℕ) (new_data : Info κ ν)
    (malloc : ℕ) : Option (InfoNode κ ν) × List (InfoNode κ ν) :=
  if n > list.length then (none, list)
  else (some ⟨malloc, new_data⟩, list.insertIdx n ⟨malloc, new_data⟩)

theorem ll_add_nth_node_info_length (list : List (InfoNode κ ν)) (info : Info κ ν) (malloc : ℕ) :
    ll_add_nth_node_info list list.length info malloc
      = (some ⟨malloc, info⟩, list ++ [⟨malloc, info⟩]) := by
  simp [ll_add_nth_node_info]

/-- Unlink a node of the list. -/
def ll_remove_node (list : List (InfoNode κ ν)) (node : InfoNode κ ν) : List (InfoNode κ ν) :=
  KeyedList.erase InfoNode.data list node.data

variable [DecidableEq κ]

/-- The first node whose record has the key. -/
def ll_get_node (list : List (InfoNode κ ν)) (key : κ) : Option (InfoNode κ ν) :=
  KeyedList.find InfoNode.key list key

/-- Unlink the first node whose record has the key and append a copy of it; the old node and its
record are released. -/
def move_node_to_end (list : List (InfoNode κ ν)) (key : κ) (malloc : ℕ) :
    Option (InfoNode κ ν) × List (InfoNode κ ν) :=
  match KeyedList.find InfoNode.key list key with
  | none => (none, list)
  | some node =>
    let list := KeyedList.erase InfoNode.key list key
    ll_add_nth_node_info list list.length node.info malloc

theorem move_node_to_end_of_find {list : List (InfoNode κ ν)} {key : κ} {node : InfoNode κ ν}
    (h : KeyedList.find InfoNode.key list key = some node) (malloc : ℕ) :
    move_node_to_end list key malloc
      = (some ⟨malloc, node.info⟩,
          KeyedList.erase InfoNode.key list key ++ [⟨malloc, node.info⟩]) := by
  simp [move_node_to_end, h, ll_add_nth_node_info_length]

end Owned

end DistDb
