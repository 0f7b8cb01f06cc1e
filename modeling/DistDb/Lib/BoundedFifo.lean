/-
  DistDb.Lib.BoundedFifo — bounded first-in first-out lists.

  The elements of the list stand from the oldest to the newest one.  An enqueue appends while there
  are fewer than `max` elements and is refused otherwise, `front` reads the oldest element and a
  dequeue drops it.  Statuses are `1` for yes and `0` for no.

  Main results:
    * `length_held_le` — the bound is kept,
    * `taken_append_held` — the elements that were dropped, followed by those still there, are
      the accepted ones in the order of their acceptance.
-/
import DistDb.Lib.Run

namespace DistDb.Lib.BoundedFifo

variable {α : Type*}

/-! ## §1. The list. -/

/-- A call on the list. -/
inductive Operation (α : Type*)
  | enqueue (x : α)
  | front
  | dequeue
  deriving DecidableEq

/-- What a call answers. -/
inductive Answer (α : Type*)
  | enqueue (status : ℕ)
  | front (x : Option α)
  | dequeue (status : ℕ)
  deriving DecidableEq

/-- One call. -/
def step (max : ℕ) (xs : List α) : Operation α → List α × Answer α
  | .enqueue x => if xs.length < max then (xs ++ [x], .enqueue 1) else (xs, .enqueue 0)
  | .front => (xs, .front xs.head?)
  | .dequeue => (xs.tail, .dequeue (if xs.isEmpty then 0 else 1))

theorem step_enqueue_of_room {max : ℕ} {xs : List α} (h : xs.length < max) (x : α) :
    step max xs (.enqueue x) = (xs ++ [x], .enqueue 1) := if_pos h

theorem step_enqueue_of_full {max : ℕ} {xs : List α} (h : ¬ xs.length < max) (x : α) :
    step max xs (.enqueue x) = (xs, .enqueue 0) := if_neg h

/-- The list after any number of calls. -/
def held (max : ℕ) (xs : List α) (operations : List (Operation α)) : List α :=
  (Run.total (step max) xs operations).1

/-! ## §2. What went in and what came out. -/

/-- The elements that a call puts in. -/
def accepts : Operation α → Answer α → List α
  | .enqueue x, .enqueue 1 => [x]
  | _, _ => []

/-- The elements that the calls put in, by their answers. -/
def accepted (operations : List (Operation α)) (answers : List (Answer α)) : List α :=
  (List.zipWith accepts operations answers).flatten

/-- The elements that a call takes out. -/
def takes (xs : List α) : Operation α → List α
  | .dequeue => xs.head?.toList
  | _ => []

/-- The elements that the calls take out, in the order in which they go. -/
def taken (max : ℕ) (xs : List α) : List (Operation α) → List α
  | [] => []
  | op :: ops => takes xs op ++ taken max (step max xs op).1 ops

theorem length_step_le {max : ℕ} {xs : List α} (h : xs.length ≤ max) (op : Operation α) :
    (step max xs op).1.length ≤ max := by
  cases op with
  | enqueue x =>
    by_cases hroom : xs.length < max
    · rw [step_enqueue_of_room hroom, List.length_append, List.length_singleton]
      exact hroom
    · rw [step_enqueue_of_full hroom]
      exact h
  | front => exact h
  | dequeue =>
    show xs.tail.length ≤ max
    rw [List.length_tail]
    omega

/-- **The bound is kept.** -/
theorem length_held_le {max : ℕ} {xs : List α} (h : xs.length ≤ max)
    (operations : List (Operation α)) : (held max xs operations).length ≤ max := by
  induction operations generalizing xs with
  | nil => exact h
  | cons op ops ih => exact ih (length_step_le h op)

/-- One call takes from the front what it takes, and puts at the end what it puts. -/
theorem takes_append_step (max : ℕ) (xs : List α) (op : Operation α) :
    takes xs op ++ (step max xs op).1 = xs ++ accepts op (step max xs op).2 := by
  cases op with
  | enqueue x =>
    by_cases hroom : xs.length < max
    · rw [step_enqueue_of_room hroom]
      rfl
    · rw [step_enqueue_of_full hroom]
      exact (List.append_nil xs).symm
  | front => exact (List.append_nil xs).symm
  | dequeue =>
    cases xs with
    | nil => rfl
    | cons x xs => exact (List.append_nil (x :: xs)).symm

/-- **Nothing is lost, reordered or handed out twice.** -/
theorem taken_append_held (max : ℕ) (xs : List α) (operations : List (Operation α)) :
    taken max xs operations ++ held max xs operations
      = xs ++ accepted operations (Run.total (step max) xs operations).2 := by
  induction operations generalizing xs with
  | nil => exact (List.append_nil xs).symm
  | cons op ops ih =>
    calc taken max xs (op :: ops) ++ held max xs (op :: ops)
        = takes xs op ++ (taken max (step max xs op).1 ops ++ held max (step max xs op).1 ops) := by
          rw [taken, List.append_assoc]
          rfl
      _ = (takes xs op ++ (step max xs op).1)
            ++ accepted ops (Run.total (step max) (step max xs op).1 ops).2 := by
          rw [ih, List.append_assoc]
      _ = xs ++ accepted (op :: ops) (Run.total (step max) xs (op :: ops)).2 := by
          rw [takes_append_step, List.append_assoc]
          rfl

end DistDb.Lib.BoundedFifo
