/-
  DistDb.Add.Queue — the circular buffer of `queue.c` and `specific_queue.c`.

  A queue has `max_size` slots, of which `size` hold a pending element, from `read_idx` on and
  around the end of the buffer.  A slot is `none` before it is first written and after its element
  was released.

  `Queue.Repr q xs` says that `q` holds the elements `xs`, oldest first.  The operations are those
  of a bounded first-in first-out list: `Queue.Repr.enqueue`, `Queue.Repr.front`,
  `Queue.Repr.dequeue`; on a full queue an enqueue is rejected and nothing changes
  (`q_enqueue_request_of_full`).
-/
import Mathlib.Data.List.Basic
import Mathlib.Data.List.Induction
import Mathlib.Tactic.SplitIfs
import DistDb.Utils

namespace DistDb

variable {α : Type}

/-- `queue_t` -/
structure Queue (α : Type) where
  max_size : ℕ
  size : ℕ
  read_idx : ℕ
  write_idx : ℕ
  buff : List (Option α)
  deriving DecidableEq

/-! ## §1. The operations. -/

def q_create (max_size : ℕ) : Queue α :=
  { max_size := max_size, size := 0, read_idx := 0, write_idx := 0,
    buff := List.replicate max_size none }

def q_is_empty (q : Queue α) : Bool := q.size == 0

/-- The oldest element, or NULL. -/
def q_front (q : Queue α) : Option α := if q.size = 0 then none else q.buff[q.read_idx]?.join

/-- Release the oldest element; `1` when there was one. -/
def q_dequeue_request (q : Queue α) : Queue α × ℕ :=
  if q.size = 0 then (q, 0)
  else
    ({ q with
        buff := q.buff.set q.read_idx none
        read_idx := (q.read_idx + 1) % q.max_size
        size := q.size - 1 }, 1)

/-- Append a copy of the request; `1` when there was room for it. -/
def q_enqueue_request (q : Queue α) (req : α) : Queue α × ℕ :=
  if q.size = q.max_size then (q, 0)
  else
    ({ q with
        buff := q.buff.set q.write_idx (some req)
        write_idx := (q.write_idx + 1) % q.max_size
        size := q.size + 1 }, 1)

/-- The loop of `q_free_request` from the slot `i` on, for at most `rounds` rounds: the slots whose
requests it releases, in the order in which it does. -/
def q_free_request_loop (q : Queue α) (rounds i : ℕ) : Exec (List ℕ) :=
  if i = q.write_idx then pure []
  else
    match rounds with
    | 0 => throw .outOfFuel
    | rounds + 1 =>
      match q.buff[i]?.join with
      -- the slot was never written, or its request has been released
      | none => throw .danglingPointer
      | some _ => do
        let released ← q_free_request_loop q rounds ((i + 1) % q.max_size)
        pure (i :: released)

/-- Discard a queue, with the requests from `read_idx` to `write_idx`. -/
def q_free_request (q : Queue α) : Exec (List ℕ) := q_free_request_loop q q.max_size q.read_idx

/-! ## §2. The list a queue holds. -/

namespace Queue

/-- The slot of the `i`-th oldest element. -/
def slot (q : Queue α) (i : ℕ) : ℕ := (q.read_idx + i) % q.max_size

/-- The pending elements, oldest first. -/
def contents (q : Queue α) : List α :=
  (List.range q.size).filterMap (fun i => q.buff[q.slot i]?.join)

/-- `q` holds the elements `xs`, oldest first. -/
structure Repr (q : Queue α) (xs : List α) : Prop where
  max_size_pos : 0 < q.max_size
  buff_length : q.buff.length = q.max_size
  read_lt : q.read_idx < q.max_size
  write_eq : q.write_idx = q.slot q.size
  size_eq : q.size = xs.length
  size_le : q.size ≤ q.max_size
  slots : ∀ i (hi : i < xs.length), q.buff[q.slot i]? = some (some xs[i])

/-- A queue as its operations leave it. -/
def WF (q : Queue α) : Prop := q.Repr q.contents

variable {q : Queue α} {xs : List α}

/-- Reading a list slot by slot gives the list back. -/
theorem filterMap_getElem?_range (xs : List α) :
    (List.range xs.length).filterMap (fun i => xs[i]?) = xs := by
  induction xs using List.reverseRecOn with
  | nil => rfl
  | append_singleton xs x ih =>
    have hinit : ∀ i ∈ List.range xs.length, (xs ++ [x])[i]? = xs[i]? := by
      intro i hi
      exact List.getElem?_append_left (List.mem_range.mp hi)
    rw [List.length_append, List.length_singleton, List.range_succ, List.filterMap_append,
      List.filterMap_congr hinit, ih]
    simp

theorem Repr.contents_eq (h : q.Repr xs) : q.contents = xs := by
  have hslot : ∀ i ∈ List.range q.size, q.buff[q.slot i]?.join = xs[i]? := by
    intro i hi
    have hlt : i < xs.length := h.size_eq ▸ List.mem_range.mp hi
    rw [h.slots i hlt, List.getElem?_eq_getElem hlt]
    rfl
  rw [contents, List.filterMap_congr hslot, h.size_eq, filterMap_getElem?_range]

theorem Repr.wf (h : q.Repr xs) : q.WF := by
  rw [WF, h.contents_eq]
  exact h

theorem slot_lt (hpos : 0 < q.max_size) (i : ℕ) : q.slot i < q.max_size := Nat.mod_lt _ hpos

/-- Two elements of a queue have different slots. -/
theorem slot_inj (hread : q.read_idx < q.max_size) {i j : ℕ} (hi : i < q.max_size)
    (hj : j < q.max_size) (h : q.slot i = q.slot j) : i = j := by
  -- the remainder is taken at most once around the buffer
  have unfold_slot : ∀ k, k < q.max_size → q.slot k = if q.read_idx + k < q.max_size
      then q.read_idx + k else q.read_idx + k - q.max_size := by
    intro k hk
    unfold slot
    split_ifs with hlt
    · exact Nat.mod_eq_of_lt hlt
    · rw [Nat.mod_eq_sub_mod (by omega), Nat.mod_eq_of_lt (by omega)]
  rw [unfold_slot i hi, unfold_slot j hj] at h
  split_ifs at h <;> omega

/-! ## §3. The operations on the list. -/

theorem repr_create {max_size : ℕ} (hpos : 0 < max_size) :
    (q_create max_size : Queue α).Repr [] where
  max_size_pos := hpos
  buff_length := List.length_replicate
  read_lt := hpos
  write_eq := by simp [q_create, slot]
  size_eq := rfl
  size_le := Nat.zero_le _
  slots := by simp

theorem Repr.is_empty (h : q.Repr xs) : q_is_empty q = xs.isEmpty := by
  rw [q_is_empty, h.size_eq]
  cases xs <;> simp

theorem Repr.front {x : α} (h : q.Repr (x :: xs)) : q_front q = some x := by
  have hslot := h.slots 0 (by simp)
  rw [slot, Nat.add_zero, Nat.mod_eq_of_lt h.read_lt] at hslot
  have hsize := h.size_eq
  rw [q_front, if_neg (by simp at hsize; omega), hslot]
  rfl

/-- **A dequeue drops the oldest element.** -/
theorem Repr.dequeue {x : α} (h : q.Repr (x :: xs)) : (q_dequeue_request q).1.Repr xs := by
  have hsize : q.size = xs.length + 1 := h.size_eq
  have hle := h.size_le
  -- what was the element `i + 1` is the element `i` from the new `read_idx` on
  have hshift : ∀ i, ((q.read_idx + 1) % q.max_size + i) % q.max_size = q.slot (i + 1) := by
    intro i
    rw [Nat.mod_add_mod, slot]
    congr 1
    omega
  rw [q_dequeue_request, if_neg (by omega)]
  refine ⟨h.max_size_pos, by simpa using h.buff_length, Nat.mod_lt _ h.max_size_pos, ?_,
    by simp [hsize], by simp; omega, ?_⟩
  · show q.write_idx = ((q.read_idx + 1) % q.max_size + (q.size - 1)) % q.max_size
    rw [hshift, h.write_eq]
    congr 1
    omega
  · intro i hi
    show (q.buff.set q.read_idx none)[((q.read_idx + 1) % q.max_size + i) % q.max_size]? = _
    have hne : q.read_idx ≠ q.slot (i + 1) := by
      intro e
      have h0 : q.slot 0 = q.slot (i + 1) := by
        rw [← e, slot, Nat.add_zero, Nat.mod_eq_of_lt h.read_lt]
      have := slot_inj h.read_lt h.max_size_pos (by omega) h0
      omega
    rw [hshift, List.getElem?_set_ne hne, h.slots (i + 1) (by simpa using hi)]
    simp

/-- **An enqueue appends the element** while there is room. -/
theorem Repr.enqueue (h : q.Repr xs) (hroom : q.size < q.max_size) (x : α) :
    (q_enqueue_request q x).1.Repr (xs ++ [x]) := by
  have hsize := h.size_eq
  rw [q_enqueue_request, if_neg (by omega)]
  refine ⟨h.max_size_pos, by simpa using h.buff_length, h.read_lt, ?_, by simp [hsize],
    hroom, ?_⟩
  · show (q.write_idx + 1) % q.max_size = (q.read_idx + (q.size + 1)) % q.max_size
    rw [h.write_eq, slot, Nat.mod_add_mod, Nat.add_assoc]
  · intro i hi
    show (q.buff.set q.write_idx (some x))[q.slot i]? = _
    rw [List.length_append, List.length_singleton] at hi
    rcases Nat.lt_or_eq_of_le (Nat.le_of_lt_succ hi) with hlt | heq
    · have hne : q.write_idx ≠ q.slot i := by
        rw [h.write_eq]
        intro e
        have := slot_inj h.read_lt hroom (by omega) e
        omega
      rw [List.getElem?_set_ne hne, h.slots i hlt, List.getElem_append_left hlt]
    · have hw : q.write_idx = q.slot i := by rw [h.write_eq, hsize, heq]
      have hlt : q.slot i < q.buff.length := by
        rw [h.buff_length]
        exact slot_lt h.max_size_pos i
      rw [hw, List.getElem?_set_self hlt]
      simp [heq]

/-- A full queue rejects the element and stays as it is. -/
theorem q_enqueue_request_of_full (hfull : q.size = q.max_size) (x : α) :
    q_enqueue_request q x = (q, 0) := if_pos hfull

@[simp] theorem max_size_enqueue (q : Queue α) (x : α) :
    (q_enqueue_request q x).1.max_size = q.max_size := by
  unfold q_enqueue_request
  split_ifs <;> rfl

@[simp] theorem max_size_dequeue (q : Queue α) :
    (q_dequeue_request q).1.max_size = q.max_size := by
  unfold q_dequeue_request
  split_ifs <;> rfl

end Queue

end DistDb
