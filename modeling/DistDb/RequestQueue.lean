/-
  DistDb.RequestQueue — the life of a queue, from `q_create` to `q_free_request`.

  Between the two a queue is driven by any sequence of `q_enqueue_request`, `q_front` and
  `q_dequeue_request`.  It is a bounded first-in first-out list (`Lib.BoundedFifo`), however often
  the indices go around the buffer: `queue_refines_fifo`.

  The loop that discards a queue goes from `read_idx` to `write_idx` and does not look at `size`.
  The two indices are equal in an empty queue and in a full one alike, so that the requests of a
  full queue stay behind: `q_free_request_releases_iff`.
-/
import DistDb.Add.Queue
import DistDb.Main
import DistDb.Lib.BoundedFifo

namespace DistDb

open Lib BoundedFifo

variable {α : Type}

/-! ## §1. A queue in use. -/

/-- The code's operation. -/
def apply_queue_operation (q : Queue α) : Operation α → Queue α × Answer α
  | .enqueue req => ((q_enqueue_request q req).1, .enqueue (q_enqueue_request q req).2)
  | .front => (q, .front (q_front q))
  | .dequeue => ((q_dequeue_request q).1, .dequeue (q_dequeue_request q).2)

/-- The queue after any number of operations on a new one. -/
def queue_after (max_size : ℕ) (operations : List (Operation α)) : Queue α :=
  (Run.total apply_queue_operation (q_create max_size) operations).1

namespace Queue

variable {q : Queue α} {xs : List α}

theorem q_enqueue_request_status (hroom : q.size ≠ q.max_size) (req : α) :
    (q_enqueue_request q req).2 = 1 := by
  rw [q_enqueue_request, if_neg hroom]

theorem q_dequeue_request_status (hsize : q.size ≠ 0) : (q_dequeue_request q).2 = 1 := by
  rw [q_dequeue_request, if_neg hsize]

theorem q_front_of_empty (hsize : q.size = 0) : q_front q = none := if_pos hsize

theorem q_dequeue_request_of_empty (hsize : q.size = 0) : q_dequeue_request q = (q, 0) :=
  if_pos hsize

/-- The queue shows the list, and no slot but those of its elements holds a request. -/
structure Shows (max_size : ℕ) (q : Queue α) (xs : List α) : Prop where
  repr : q.Repr xs
  max_size_eq : q.max_size = max_size
  pending_only : ∀ i req, q.buff[i]? = some (some req) → ∃ k < q.size, q.slot k = i

variable {max_size : ℕ}

theorem shows_create (hpos : 0 < max_size) :
    Shows max_size (q_create max_size : Queue α) [] where
  repr := repr_create hpos
  max_size_eq := rfl
  pending_only := by
    intro i req h
    have hempty : some req = none := List.eq_of_mem_replicate (List.mem_of_getElem? h)
    cases hempty

/-- An enqueue writes to the slot behind the newest element. -/
theorem Shows.enqueue (h : Shows max_size q xs) (hroom : q.size < q.max_size) (req : α) :
    Shows max_size (q_enqueue_request q req).1 (xs ++ [req]) where
  repr := h.repr.enqueue hroom req
  max_size_eq := (max_size_enqueue q req).trans h.max_size_eq
  pending_only := by
    intro i r hr
    rw [q_enqueue_request, if_neg (Nat.ne_of_lt hroom)] at hr ⊢
    by_cases hi : q.write_idx = i
    · -- the slot that is written is that of the new element
      exact ⟨q.size, Nat.lt_succ_self _, h.repr.write_eq ▸ hi⟩
    · rw [List.getElem?_set_ne hi] at hr
      obtain ⟨k, hk, hslot⟩ := h.pending_only i r hr
      exact ⟨k, Nat.lt_succ_of_lt hk, hslot⟩

/-- A dequeue releases the slot at `read_idx`, from where the others are counted. -/
theorem Shows.dequeue {x : α} (h : Shows max_size q (x :: xs)) :
    Shows max_size (q_dequeue_request q).1 xs where
  repr := h.repr.dequeue
  max_size_eq := (max_size_dequeue q).trans h.max_size_eq
  pending_only := by
    intro i r hr
    have hsize : q.size = xs.length + 1 := h.repr.size_eq
    rw [q_dequeue_request, if_neg (by omega)] at hr ⊢
    -- the slot that is released holds nothing now
    have hi : q.read_idx ≠ i := by
      rintro rfl
      rw [List.getElem?_set_self (h.repr.buff_length ▸ h.repr.read_lt)] at hr
      cases hr
    rw [List.getElem?_set_ne hi] at hr
    obtain ⟨k, hk, hslot⟩ := h.pending_only i r hr
    cases k with
    | zero =>
      -- the oldest element stood at `read_idx`
      rw [slot, Nat.add_zero, Nat.mod_eq_of_lt h.repr.read_lt] at hslot
      exact absurd hslot hi
    | succ k =>
      refine ⟨k, by simp only; omega, ?_⟩
      rw [← hslot]
      show ((q.read_idx + 1) % q.max_size + k) % q.max_size = (q.read_idx + (k + 1)) % q.max_size
      rw [Nat.mod_add_mod, Nat.add_right_comm, Nat.add_assoc]

end Queue

open Queue

/-! ## §2. The queue is a bounded list. -/

/-- **One operation** answers what the list answers, and leaves the queue with the list's
elements. -/
theorem apply_queue_operation_refines {max_size : ℕ} (q : Queue α) (xs : List α)
    (operation : Operation α) (h : Shows max_size q xs) :
    (apply_queue_operation q operation).2 = (step max_size xs operation).2 ∧
      Shows max_size (apply_queue_operation q operation).1 (step max_size xs operation).1 := by
  have hsize := h.repr.size_eq
  have hle := h.repr.size_le
  have hmax := h.max_size_eq
  cases operation with
  | enqueue req =>
    by_cases hroom : xs.length < max_size
    · rw [step_enqueue_of_room hroom]
      exact ⟨congrArg Answer.enqueue (q_enqueue_request_status (by omega) req),
        h.enqueue (by omega) req⟩
    · rw [step_enqueue_of_full hroom, apply_queue_operation,
        q_enqueue_request_of_full (by omega)]
      exact ⟨rfl, h⟩
  | front =>
    refine ⟨?_, h⟩
    cases xs with
    | nil => exact congrArg Answer.front (q_front_of_empty hsize)
    | cons x xs => exact congrArg Answer.front h.repr.front
  | dequeue =>
    cases xs with
    | nil =>
      rw [apply_queue_operation, q_dequeue_request_of_empty hsize]
      exact ⟨rfl, h⟩
    | cons x xs =>
      rw [List.length_cons] at hsize
      exact ⟨congrArg Answer.dequeue (q_dequeue_request_status (by omega)), h.dequeue⟩

/-- Any number of operations. -/
theorem run_queue_refines {max_size : ℕ} (hpos : 0 < max_size) (operations : List (Operation α)) :
    (Run.total apply_queue_operation (q_create max_size) operations).2
        = (Run.total (step max_size) [] operations).2 ∧
      Shows max_size (queue_after max_size operations) (held max_size [] operations) :=
  Run.total_refines apply_queue_operation_refines (shows_create hpos) operations

/-- **The queue is an exact bounded FIFO**: from `q_create` on, every sequence of operations
answers what the bounded list answers and leaves the queue with the elements of the list, which
has at most `max_size` of them.  What the dequeues dropped and what is still there are the accepted
requests, in the order in which they were accepted; and a full queue rejects a request and stays
as it is. -/
theorem queue_refines_fifo {max_size : ℕ} (hpos : 1 ≤ max_size)
    (operations : List (Operation α)) :
    (Run.total apply_queue_operation (q_create max_size) operations).2
        = (Run.total (step max_size) [] operations).2 ∧
      (queue_after max_size operations).contents = held max_size [] operations ∧
      (held max_size [] operations).length ≤ max_size ∧
      taken max_size [] operations ++ (queue_after max_size operations).contents
        = accepted operations
            (Run.total apply_queue_operation (q_create max_size) operations).2 ∧
      ((held max_size [] operations).length = max_size → ∀ req,
        q_enqueue_request (queue_after max_size operations) req
          = (queue_after max_size operations, 0)) := by
  obtain ⟨hanswers, hshows⟩ := run_queue_refines hpos operations
  have hcontents := hshows.repr.contents_eq
  refine ⟨hanswers, hcontents, length_held_le (Nat.zero_le _) operations, ?_, ?_⟩
  · rw [hcontents, hanswers]
    exact taken_append_held max_size [] operations
  · intro hfull req
    have hsize := hshows.repr.size_eq
    exact q_enqueue_request_of_full (hsize.trans (hfull.trans hshows.max_size_eq.symm)) req

/-- Two slots, and a third request that is rejected until the first one is gone. -/
theorem queue_refines_fifo_two_slots :
    (queue_after 2 [.enqueue 1, .enqueue 2, .enqueue 3, .dequeue, .enqueue 4]).contents
      = [2, 4] := by
  obtain ⟨-, hcontents, -⟩ := queue_refines_fifo (show 1 ≤ 2 by decide)
    [.enqueue 1, .enqueue 2, .enqueue 3, .dequeue, .enqueue 4]
  exact hcontents

/-! ## §3. The requests that are discarded with a queue. -/

namespace Queue

variable {q : Queue α} {xs : List α}

theorem slot_succ (q : Queue α) (k : ℕ) : (q.slot k + 1) % q.max_size = q.slot (k + 1) := by
  rw [slot, Nat.mod_add_mod, slot, Nat.add_assoc]

theorem Repr.slot_zero (h : q.Repr xs) : q.slot 0 = q.read_idx := Nat.mod_eq_of_lt h.read_lt

/-- While the queue is not full the loop goes from element to element. -/
theorem Repr.free_loop (h : q.Repr xs) (hroom : q.size < q.max_size) :
    ∀ d k rounds, k + d = q.size → d ≤ rounds →
      q_free_request_loop q rounds (q.slot k) = .ok ((List.range' k d).map q.slot) := by
  -- `d` elements are left from the element `k` on
  intro d
  induction d with
  | zero =>
    intro k rounds hk _
    rw [q_free_request_loop.eq_def, if_pos]
    · rfl
    · rw [h.write_eq, ← hk]
      rfl
  | succ d ih =>
    intro k rounds hk hrounds
    obtain ⟨rounds, rfl⟩ : ∃ r, rounds = r + 1 := ⟨rounds - 1, by omega⟩
    have hlt : k < xs.length := by
      rw [← h.size_eq]
      omega
    have hne : q.slot k ≠ q.write_idx := by
      rw [h.write_eq]
      intro e
      have := slot_inj h.read_lt (by omega) hroom e
      omega
    rw [q_free_request_loop, if_neg hne, h.slots k hlt, slot_succ,
      ih (k + 1) rounds (by omega) (by omega)]
    rfl

/-- The loop does not enter a full queue. -/
theorem Repr.free_loop_of_full (h : q.Repr xs) (hfull : q.size = q.max_size) (rounds : ℕ) :
    q_free_request_loop q rounds q.read_idx = .ok [] := by
  rw [q_free_request_loop.eq_def, if_pos]
  · rfl
  · rw [h.write_eq, hfull, slot, Nat.add_mod_right, Nat.mod_eq_of_lt h.read_lt]

/-- The loop of `q_free_request` ends, and it releases every slot that holds a request, once. -/
def ReleasesPending (q : Queue α) : Prop :=
  ∃ released, (∀ rounds, q.max_size ≤ rounds →
      q_free_request_loop q rounds q.read_idx = .ok released) ∧
    released.Nodup ∧ released.length = q.size ∧
    ∀ i, i ∈ released ↔ ∃ req, q.buff[i]? = some (some req)

theorem Shows.nodup_slots {max_size : ℕ} (h : Shows max_size q xs) :
    ((List.range q.size).map q.slot).Nodup := by
  apply List.nodup_range.map_on
  intro i hi j hj hij
  have hle := h.repr.size_le
  rw [List.mem_range] at hi hj
  exact slot_inj h.repr.read_lt (by omega) (by omega) hij

theorem Shows.mem_slots_iff {max_size : ℕ} (h : Shows max_size q xs) (i : ℕ) :
    i ∈ (List.range q.size).map q.slot ↔ ∃ req, q.buff[i]? = some (some req) := by
  rw [List.mem_map]
  constructor
  · rintro ⟨k, hk, rfl⟩
    exact ⟨_, h.repr.slots k (h.repr.size_eq ▸ List.mem_range.mp hk)⟩
  · rintro ⟨req, hreq⟩
    obtain ⟨k, hk, hslot⟩ := h.pending_only i req hreq
    exact ⟨k, List.mem_range.mpr hk, hslot⟩

theorem Shows.releasesPending {max_size : ℕ} (h : Shows max_size q xs)
    (hroom : q.size < q.max_size) : q.ReleasesPending := by
  refine ⟨(List.range q.size).map q.slot, ?_, h.nodup_slots, by simp, h.mem_slots_iff⟩
  intro rounds hrounds
  rw [← h.repr.slot_zero, h.repr.free_loop hroom q.size 0 rounds (by omega) (by omega),
    List.range_eq_range']

end Queue

/-- **A queue is discarded with its requests exactly when it is not full.**  In a full queue the
indices are equal, and the loop of `q_free_request` ends before its first round. -/
theorem q_free_request_releases_iff {max_size : ℕ} (hpos : 1 ≤ max_size)
    (operations : List (Operation α)) :
    (queue_after max_size operations).ReleasesPending
      ↔ (queue_after max_size operations).size < max_size := by
  have h := (run_queue_refines hpos operations).2
  generalize queue_after max_size operations = q at h ⊢
  have hmax := h.max_size_eq
  rw [← hmax]
  refine ⟨?_, h.releasesPending⟩
  rintro ⟨released, hloop, -, hlength, -⟩
  apply Nat.lt_of_le_of_ne h.repr.size_le
  intro hfull
  -- nothing is released, while every slot holds a request
  have hreleased := hloop _ (Nat.le_refl _)
  rw [h.repr.free_loop_of_full hfull] at hreleased
  cases hreleased
  rw [List.length_nil] at hlength
  omega

/-- One of two slots is taken. -/
theorem q_free_request_releases_iff_two_slots :
    (queue_after 2 [.enqueue (editRequest (.ofString "a") (.ofString "x"))]).ReleasesPending :=
  (q_free_request_releases_iff (show 1 ≤ 2 by decide) _).mpr (by decide)

/-- **The requests of a full queue are not released**: the only slot holds one. -/
theorem full_queue_keeps_requests :
    ¬ ∀ (max_size : ℕ) (operations : List (Operation Request)), 1 ≤ max_size →
      (queue_after max_size operations).ReleasesPending := by
  intro claim
  obtain ⟨released, hloop, -, hlength, -⟩ :=
    claim 1 [.enqueue (editRequest (.ofString "a") (.ofString "x"))] (by decide)
  cases hloop 1 (by decide)
  exact absurd hlength (by decide)

end DistDb
