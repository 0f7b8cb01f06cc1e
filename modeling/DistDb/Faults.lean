/-
  DistDb.Faults — which command sequences crash the load balancer.

  `init_server` returns NULL for the cache size zero and `ll_get_nth_node` on an empty list, and
  the load balancer dereferences what they return.  A run is free of that exactly when no server
  is added with an empty cache and no other command meets an empty ring; only the number of
  servers matters, so that this can be read off the commands (`Safe`).

  Main results:
    * `run_faults` — how a run from any ring ends,
    * `no_crash_iff_safe` — the runs from the empty ring,
    * `completes_iff` — the runs that return.
-/
import DistDb.Routing

namespace DistDb

open Lib HashRing

/-! ## §1. Crashes and the commands that cause none. -/

/-- A NULL server or a NULL node is dereferenced, or a remainder is taken by zero. -/
def Fault.IsCrash (fault : Fault) : Prop :=
  fault = .nullServer ∨ fault = .nullNode ∨ fault = .zeroRemainder

/-- On a ring of `n` servers: servers are added with a cache, and the other commands meet a
server; the program may end before, at a negative cache size. -/
def Safe : ℕ → List Command → Prop
  | _, [] => True
  | n, .ADD_SERVER _ cache_size :: commands =>
    cache_size < 0 ∨ (cache_size ≠ 0 ∧ Safe (n + 1) commands)
  | n, .REMOVE_SERVER _ :: commands => 0 < n ∧ Safe (n - 1) commands
  | n, .EDIT _ _ :: commands => 0 < n ∧ Safe n commands
  | n, .GET _ :: commands => 0 < n ∧ Safe n commands

/-- The number of servers after a command. -/
def serversAfter (n : ℕ) : Command → ℕ
  | .ADD_SERVER _ _ => n + 1
  | .REMOVE_SERVER _ => n - 1
  | _ => n

theorem length_step {ring ring' : HashRing} {command : Command} {out : Output}
    (hstep : Step ring command ring' out) : ring'.length = serversAfter ring.length command := by
  cases hstep with
  | addFirst => rfl
  | add _ hnext => exact length_afterAdd (ne_nil_of_getElem? hnext) _ _ _
  | removeOnly => rfl
  | remove _ hv _ => exact length_afterRemove (ne_nil_of_getElem? hv) _ _ _
  | edit => exact List.length_set
  | get => exact List.length_set

/-- A sequence is safe when its first command does not crash, and the rest is safe if it returns. -/
theorem safe_cons_iff (ring : HashRing) (command : Command) (commands : List Command) :
    Safe ring.length (command :: commands) ↔
      (Enabled ring command ∧ Safe (serversAfter ring.length command) commands) ∨
        faultOf command = .die := by
  have hring : 0 < ring.length ↔ ring ≠ [] := List.length_pos_iff
  cases command with
  | ADD_SERVER id cache_size =>
    rw [Safe, Enabled, faultOf, serversAfter]
    by_cases hneg : cache_size < 0
    · simp [hneg]
    · simp [hneg, one_le_iff hneg]
  | REMOVE_SERVER id => simp [Safe, Enabled, faultOf, serversAfter, hring]
  | EDIT d c => simp [Safe, Enabled, faultOf, serversAfter, hring]
  | GET d => simp [Safe, Enabled, faultOf, serversAfter, hring]

theorem faultOf_cases (command : Command) :
    faultOf command = .die ∨ faultOf command = .nullServer ∨ faultOf command = .nullNode := by
  cases command with
  | ADD_SERVER id cache_size =>
    by_cases hneg : cache_size < 0
    · exact .inl (if_pos hneg)
    · exact .inr (.inl (if_neg hneg))
  | REMOVE_SERVER id => exact .inr (.inr rfl)
  | EDIT d c => exact .inr (.inr rfl)
  | GET d => exact .inr (.inr rfl)

theorem faultOf_ne_die {ring : HashRing} {command : Command}
    (henabled : Enabled ring command) : faultOf command ≠ .die := by
  cases command with
  | ADD_SERVER id cache_size =>
    have hnull : faultOf (.ADD_SERVER id cache_size) = .nullServer :=
      if_neg (not_neg_of_pos henabled)
    rw [hnull]
    intro h
    cases h
  | REMOVE_SERVER id => intro h; cases h
  | EDIT d c => intro h; cases h
  | GET d => intro h; cases h

/-! ## §2. Runs. -/

/-- A run whose first command returns fails when the rest does. -/
theorem run_fault_cons_iff {main main' : LoadBalancer} {command : Command} {out : Output}
    (happly : apply_request main command = .ok (main', out)) (commands : List Command)
    (fault : Fault) : Run.run apply_request main (command :: commands) = .error fault ↔
      Run.run apply_request main' commands = .error fault := by
  rw [Run.run_cons_eq_error, happly]
  simp

/-- A run that does not return ends in `DIE` when its commands are safe, and else dereferences a
NULL server or a NULL node. -/
theorem run_faults (commands : List Command) {main : LoadBalancer} (wf : main.WF) :
    (Safe main.ring.length commands ∧
      ∀ fault, Run.run apply_request main commands = .error fault → fault = .die) ∨
    (¬ Safe main.ring.length commands ∧
      ∃ fault, Run.run apply_request main commands = .error fault ∧
        (fault = .nullServer ∨ fault = .nullNode)) := by
  induction commands generalizing main with
  | nil =>
    left
    refine ⟨trivial, ?_⟩
    intro fault h
    cases h
  | cons command commands ih =>
    rw [safe_cons_iff]
    by_cases henabled : Enabled main.ring command
    · -- the command returns, and the rest of the run decides
      obtain ⟨main', out, happly, wf', hstep⟩ := apply_request_spec wf henabled
      have hsafe : ((Enabled main.ring command ∧
          Safe (serversAfter main.ring.length command) commands) ∨ faultOf command = .die) ↔
          Safe main'.ring.length commands := by
        rw [length_step hstep, and_iff_right henabled]
        exact or_iff_left (faultOf_ne_die henabled)
      simp only [hsafe, run_fault_cons_iff happly]
      exact ih wf'
    · -- the command faults
      have hfault : ∀ fault, Run.run apply_request main (command :: commands) = .error fault ↔
          fault = faultOf command := by
        intro fault
        rw [Run.run_cons_eq_error, apply_request_of_not_enabled henabled]
        simp [eq_comm]
      have hsafe : ((Enabled main.ring command ∧
          Safe (serversAfter main.ring.length command) commands) ∨ faultOf command = .die) ↔
          faultOf command = .die := or_iff_right fun h => henabled h.1
      simp only [hsafe, hfault, forall_eq, exists_eq_left]
      rcases faultOf_cases command with hdie | hnull
      · -- a negative cache size ends the program, whatever comes after
        exact .inl ⟨hdie, hdie⟩
      · right
        refine ⟨?_, hnull⟩
        intro hdie
        rw [hdie] at hnull
        rcases hnull with h | h <;> cases h

/-- **Which sequences of commands crash the load balancer**: those that add a server with an empty
cache, or send another command to an empty ring, and did not end in `DIE` before.  No remainder by
zero is ever taken. -/
theorem no_crash_iff_safe (commands : List Command) :
    ((∀ fault, apply_requests commands = .error fault → ¬ fault.IsCrash) ↔ Safe 0 commands) ∧
      ∀ fault, apply_requests commands = .error fault →
        fault = .die ∨ fault = .nullServer ∨ fault = .nullNode := by
  have hinit : init_load_balancer.WF := List.forall_mem_nil _
  have hrun := run_faults commands hinit
  rw [show init_load_balancer.ring.length = 0 from rfl] at hrun
  show ((∀ fault, Run.run apply_request init_load_balancer commands = .error fault →
    ¬ fault.IsCrash) ↔ Safe 0 commands) ∧ ∀ fault,
      Run.run apply_request init_load_balancer commands = .error fault → _
  rcases hrun with ⟨hsafe, hdie⟩ | ⟨hnotsafe, fault, hfault, hnull⟩
  · refine ⟨⟨fun _ => hsafe, ?_⟩, fun fault h => .inl (hdie fault h)⟩
    intro _ fault h hcrash
    rw [hdie fault h] at hcrash
    rcases hcrash with h | h | h <;> cases h
  · refine ⟨⟨?_, fun h => absurd h hnotsafe⟩, ?_⟩
    · intro h
      exact absurd (hnull.elim .inl fun h => .inr (.inl h)) (h fault hfault)
    · intro fault' h
      rw [hfault] at h
      cases h
      exact .inr hnull

/-- A read of the empty ring dereferences a NULL node. -/
theorem get_before_first_server_crashes :
    ¬ ∀ commands : List Command, (∀ id cache_size, .ADD_SERVER id cache_size ∈ commands →
        0 ≤ cache_size) →
      ∀ fault, apply_requests commands = .error fault → ¬ fault.IsCrash := by
  intro h
  refine h [.GET (.ofString "a")] ?_ .nullNode rfl (.inr (.inl rfl))
  simp

/-! ## §3. Runs that return. -/

/-- On a ring of `n` servers, every command returns: servers are added with a positive cache size,
and the other commands meet a server. -/
def Completes : ℕ → List Command → Prop
  | _, [] => True
  | n, .ADD_SERVER _ cache_size :: commands => 1 ≤ cache_size ∧ Completes (n + 1) commands
  | n, .REMOVE_SERVER _ :: commands => 0 < n ∧ Completes (n - 1) commands
  | n, .EDIT _ _ :: commands => 0 < n ∧ Completes n commands
  | n, .GET _ :: commands => 0 < n ∧ Completes n commands

theorem completes_cons_iff (ring : HashRing) (command : Command) (commands : List Command) :
    Completes ring.length (command :: commands) ↔
      Enabled ring command ∧ Completes (serversAfter ring.length command) commands := by
  have hring : 0 < ring.length ↔ ring ≠ [] := List.length_pos_iff
  cases command with
  | ADD_SERVER id cache_size => rfl
  | REMOVE_SERVER id => simp only [Completes, Enabled, serversAfter, hring]
  | EDIT d c => simp only [Completes, Enabled, serversAfter, hring]
  | GET d => simp only [Completes, Enabled, serversAfter, hring]

/-- **A run returns when every command in it does**, which is read off the commands. -/
theorem completes_iff (commands : List Command) {main : LoadBalancer} (wf : main.WF) :
    Completes main.ring.length commands ↔
      ∃ main' outs, Run.run apply_request main commands = .ok (main', outs) := by
  induction commands generalizing main with
  | nil => exact iff_of_true trivial ⟨main, [], rfl⟩
  | cons command commands ih =>
    rw [completes_cons_iff]
    by_cases henabled : Enabled main.ring command
    · obtain ⟨main', out, happly, wf', hstep⟩ := apply_request_spec wf henabled
      rw [and_iff_right henabled, ← length_step hstep, ih wf', Run.run, happly]
      dsimp only
      cases Run.run apply_request main' commands with
      | error fault => simp
      | ok result =>
        obtain ⟨main'', outs⟩ := result
        exact iff_of_true ⟨_, _, rfl⟩ ⟨_, _, rfl⟩
    · rw [Run.run, apply_request_of_not_enabled henabled]
      simp [henabled]

end DistDb
