/-
  DistDb.Routing — which server serves a document, before and after a step.

  The list of the ring is in the order of the positions (`Ascending`) in every state reached, so
  that `get_server` is successor routing on a circle.  Adding or removing a server changes the
  routing of one arc, and the server that loses or gains the arc is the one whose queue the code
  executes.  Hence no pending edit is ever on a server that its document is not routed to.

  Main results:
    * `route_afterAdd_other` / `_taken` / `_kept`, `route_afterRemove_other` / `_self` — the
      routing after a step,
    * `Ascending.step`, `routed_queued_step` — what every step keeps,
    * `ring_order_and_routing` — the order of the ring and what `get_server` computes,
    * `pending_edits_are_routed` — pending edits are where a read of their document goes.
-/
import DistDb.HashRing

namespace DistDb

open Lib

namespace HashRing

/-! ## §1. The routing after a step. -/

/-- The servers stand in the order of their positions. -/
def Ascending (ring : HashRing) : Prop := (positions ring).Pairwise (· ≤ ·)

theorem positions_set {ring : HashRing} {j : ℕ} {v w : ServerView} (hv : ring[j]? = some v)
    (hid : w.id = v.id) : positions (ring.set j w) = positions ring := by
  rw [positions, List.map_set, set_of_getElem?]
  · rfl
  · rw [List.getElem?_map, hv, hid]
    rfl

theorem route_set {ring : HashRing} {j : ℕ} {v w : ServerView} (hv : ring[j]? = some v)
    (hid : w.id = v.id) (d : CString) : route (ring.set j w) d = route ring d := by
  rw [route, slot, positions_set hv hid]
  rfl

section Add

variable {ring : HashRing} {id cache_size : Int32} {next : ServerView}

theorem ne_nil_of_getElem? {j : ℕ} {v : ServerView} (hv : ring[j]? = some v) : ring ≠ [] := by
  rintro rfl
  simp at hv

theorem positions_afterAdd (hnext : ring[addNextSlot ring id]? = some next) :
    positions (afterAdd ring id cache_size next)
      = (positions ring).insertIdx (addSlot ring id) (hash_uint id) := by
  have hset := positions_set (w := next.drained.without (goes ring id next)) hnext
    (ServerView.id_drained next)
  rw [afterAdd, positions, List.map_insertIdx, ← hset]
  rfl

/-- The new server's slot keeps the list in order. -/
theorem isInsertSlot_addSlot (asc : Ascending ring) (hne : ring ≠ []) (id : Int32) :
    SuccessorRing.IsInsertSlot (positions ring) (hash_uint id) (addSlot ring id) :=
  SuccessorRing.isInsertSlot_insertSlot asc (positions_ne_nil hne) _

theorem route_eq_iff (hne : ring ≠ []) {d : CString} {j : ℕ} :
    route ring d = j ↔ SuccessorRing.Serves (positions ring) (hash_string d) j :=
  SuccessorRing.slotOf_eq_iff (positions_ne_nil hne)

theorem afterAdd_ne_nil (hnext : ring[addNextSlot ring id]? = some next) :
    afterAdd ring id cache_size next ≠ [] := by
  have hlen := length_afterAdd (ne_nil_of_getElem? hnext) id cache_size next
  intro hnil
  rw [hnil] at hlen
  simp at hlen

/-- The documents of the other servers stay where they are. -/
theorem route_afterAdd_other (cache_size : Int32) (asc : Ascending ring)
    (hnext : ring[addNextSlot ring id]? = some next) {d : CString}
    (hd : route ring d ≠ addNextSlot ring id) :
    route (afterAdd ring id cache_size next) d
      = SuccessorRing.slotAfterInsert (addSlot ring id) (route ring d) := by
  have hne := ne_nil_of_getElem? hnext
  apply (route_eq_iff (afterAdd_ne_nil hnext)).mpr
  rw [positions_afterAdd hnext]
  refine SuccessorRing.serves_insertIdx_other (isInsertSlot_addSlot asc hne id)
    ((route_eq_iff hne).mp rfl) ?_
  rwa [length_positions]

/-- The documents of the next server that the new one takes over. -/
def Takes (ring : HashRing) (id : Int32) (d : CString) : Prop :=
  SuccessorRing.Takes (positions ring) (hash_uint id) (addSlot ring id) (hash_string d)

theorem route_afterAdd_taken (cache_size : Int32) (asc : Ascending ring)
    (hnext : ring[addNextSlot ring id]? = some next) {d : CString}
    (hd : route ring d = addNextSlot ring id) (ht : Takes ring id d) :
    route (afterAdd ring id cache_size next) d = addSlot ring id := by
  have hne := ne_nil_of_getElem? hnext
  apply (route_eq_iff (afterAdd_ne_nil hnext)).mpr
  rw [positions_afterAdd hnext]
  have hslot := isInsertSlot_addSlot asc hne id
  refine SuccessorRing.serves_insertIdx_taken hslot (positions_ne_nil hne) ?_ ht
  rw [length_positions]
  exact (route_eq_iff hne).mp hd

theorem route_afterAdd_kept (cache_size : Int32) (asc : Ascending ring)
    (hnext : ring[addNextSlot ring id]? = some next) {d : CString}
    (hd : route ring d = addNextSlot ring id) (ht : ¬ Takes ring id d) :
    route (afterAdd ring id cache_size next) d
      = SuccessorRing.slotAfterInsert (addSlot ring id) (addNextSlot ring id) := by
  have hne := ne_nil_of_getElem? hnext
  apply (route_eq_iff (afterAdd_ne_nil hnext)).mpr
  rw [positions_afterAdd hnext, addNextSlot, ← length_positions]
  have hslot := isInsertSlot_addSlot asc hne id
  refine SuccessorRing.serves_insertIdx_kept hslot (positions_ne_nil hne) ?_ ht
  rw [length_positions]
  exact (route_eq_iff hne).mp hd

/-- The servers of the ring after an addition, by slot. -/
theorem getElem?_afterAdd {j : ℕ} {w : ServerView} (hne : ring ≠ [])
    (hw : (afterAdd ring id cache_size next)[j]? = some w) :
    (j = addSlot ring id ∧ w = added ring id cache_size next) ∨
      ∃ i, j = SuccessorRing.slotAfterInsert (addSlot ring id) i ∧
        ((i = addNextSlot ring id ∧ w = next.drained.without (goes ring id next)) ∨
          (i ≠ addNextSlot ring id ∧ ring[i]? = some w)) := by
  unfold afterAdd at hw
  by_cases hj : j = addSlot ring id
  · subst hj
    rw [List.getElem?_insertIdx_self, if_pos (by simpa using addSlot_le ring hne id)] at hw
    exact .inl ⟨rfl, (Option.some.inj hw).symm⟩
  · obtain ⟨i, rfl, hi⟩ := SuccessorRing.getElem?_insertIdx_of_ne
      (l := ring.set (addNextSlot ring id) (next.drained.without (goes ring id next)))
      (b := added ring id cache_size next) hj
    rw [hi, List.getElem?_set] at hw
    refine .inr ⟨i, rfl, ?_⟩
    split_ifs at hw with hnext hlt
    · exact .inl ⟨hnext.symm, (Option.some.inj hw).symm⟩
    · exact .inr ⟨fun h => hnext h.symm, hw⟩

end Add

section Remove

variable {ring : HashRing} {id : Int32} {v next : ServerView}

theorem positions_afterRemove (hnext : ring[removeNextSlot ring id]? = some next) :
    positions (afterRemove ring id v next)
      = (positions ring).eraseIdx (slot ring (hash_uint id)) := by
  have hset := positions_set (w := next.absorb v.drained.docs) hnext rfl
  rw [afterRemove, positions, ← List.eraseIdx_map, ← hset]
  rfl

theorem afterRemove_ne_nil (hlen : 2 ≤ ring.length) : afterRemove ring id v next ≠ [] := by
  have hne : ring ≠ [] := List.length_pos_iff.mp (by omega)
  have := length_afterRemove hne id v next
  intro hnil
  rw [hnil] at this
  simp at this
  omega

/-- The documents of the other servers stay where they are. -/
theorem route_afterRemove_other (hlen : 2 ≤ ring.length)
    (hnext : ring[removeNextSlot ring id]? = some next) {d : CString}
    (hd : route ring d ≠ slot ring (hash_uint id)) :
    route (afterRemove ring id v next) d
      = SuccessorRing.slotAfterErase (slot ring (hash_uint id)) (route ring d) := by
  have hne := ne_nil_of_getElem? hnext
  apply (route_eq_iff (afterRemove_ne_nil hlen)).mpr
  rw [positions_afterRemove hnext]
  apply SuccessorRing.serves_eraseIdx_other ((route_eq_iff hne).mp rfl) hd
  rw [length_positions]
  exact slot_lt hne _

/-- The documents of the removed server go to the next one. -/
theorem route_afterRemove_self (asc : Ascending ring) (hlen : 2 ≤ ring.length)
    (hnext : ring[removeNextSlot ring id]? = some next) {d : CString}
    (hd : route ring d = slot ring (hash_uint id)) :
    route (afterRemove ring id v next) d
      = SuccessorRing.slotAfterErase (slot ring (hash_uint id)) (removeNextSlot ring id) := by
  have hne := ne_nil_of_getElem? hnext
  have hlt := slot_lt hne (hash_uint id)
  have hserves := SuccessorRing.serves_eraseIdx_self asc ((route_eq_iff hne).mp hd)
    (by rwa [length_positions])
  rw [length_positions] at hserves
  apply (route_eq_iff (afterRemove_ne_nil hlen)).mpr
  rw [positions_afterRemove hnext, removeNextSlot]
  convert hserves using 1
  -- after the last slot the next server is the head, which no removal behind it shifts
  unfold SuccessorRing.slotAfterErase
  by_cases hlast : slot ring (hash_uint id) + 1 < ring.length
  · rw [if_pos hlast, Nat.mod_eq_of_lt hlast, if_neg (by omega)]
    rfl
  · have hwrap : slot ring (hash_uint id) + 1 = ring.length := by omega
    rw [if_neg hlast, hwrap, Nat.mod_self]
    split_ifs <;> rfl

theorem removeNextSlot_ne (hlen : 2 ≤ ring.length) :
    removeNextSlot ring id ≠ slot ring (hash_uint id) := by
  have hlt : slot ring (hash_uint id) < ring.length :=
    slot_lt (List.length_pos_iff.mp (by omega)) _
  unfold removeNextSlot
  rcases Nat.lt_or_eq_of_le (Nat.succ_le_of_lt hlt) with h | h
  · rw [Nat.mod_eq_of_lt h]
    omega
  · rw [Nat.succ_eq_add_one] at h
    rw [h, Nat.mod_self]
    omega

/-- The servers of the ring after a removal, by slot. -/
theorem getElem?_afterRemove {j : ℕ} {w : ServerView}
    (hw : (afterRemove ring id v next)[j]? = some w) :
    ∃ i, j = SuccessorRing.slotAfterErase (slot ring (hash_uint id)) i ∧
      i ≠ slot ring (hash_uint id) ∧
      ((i = removeNextSlot ring id ∧ w = next.absorb v.drained.docs) ∨
        (i ≠ removeNextSlot ring id ∧ ring[i]? = some w)) := by
  rw [afterRemove, List.getElem?_eraseIdx] at hw
  have hset : ∀ {i : ℕ}, (ring.set (removeNextSlot ring id) (next.absorb v.drained.docs))[i]?
      = some w → (i = removeNextSlot ring id ∧ w = next.absorb v.drained.docs) ∨
        (i ≠ removeNextSlot ring id ∧ ring[i]? = some w) := by
    intro i hi
    rw [List.getElem?_set] at hi
    split_ifs at hi with hnext hlt
    · exact .inl ⟨hnext.symm, (Option.some.inj hi).symm⟩
    · exact .inr ⟨fun h => hnext h.symm, hi⟩
  split_ifs at hw with hlt
  · exact ⟨j, by rw [SuccessorRing.slotAfterErase, if_pos hlt], by omega, hset hw⟩
  · exact ⟨j + 1, by rw [SuccessorRing.slotAfterErase, if_neg (by omega), Nat.add_sub_cancel],
      by omega, hset hw⟩

end Remove

/-! ## §2. Documents that stay with their server. -/

/-- Every document that a server has, in the sense of `has`, is routed to it. -/
def Routed (has : ServerView → CString → Prop) (ring : HashRing) : Prop :=
  ∀ j v, ring[j]? = some v → ∀ d, has v d → route ring d = j

section Routed

variable {has : ServerView → CString → Prop} {ring : HashRing}

/-- A server that gains only documents routed to it. -/
theorem Routed.set (h : Routed has ring) {j : ℕ} {v w : ServerView} (hv : ring[j]? = some v)
    (hid : w.id = v.id) (hw : ∀ d, has w d → has v d ∨ route ring d = j) :
    Routed has (ring.set j w) := by
  intro i u hu d hd
  rw [route_set hv hid]
  rw [List.getElem?_set] at hu
  split_ifs at hu with hij hlt
  · cases hu
    subst hij
    exact (hw d hd).elim (h j v hv d) id
  · exact h i u hu d hd

/-- An addition after which the new server has what it takes over and the next one the rest. -/
theorem Routed.afterAdd (h : Routed has ring) (asc : Ascending ring) {id cache_size : Int32}
    {next : ServerView} (hnext : ring[addNextSlot ring id]? = some next)
    (htaken : ∀ d, has (added ring id cache_size next) d →
      route ring d = addNextSlot ring id ∧ Takes ring id d)
    (hkept : ∀ d, has (next.drained.without (goes ring id next)) d →
      route ring d = addNextSlot ring id ∧ ¬ Takes ring id d) :
    Routed has (afterAdd ring id cache_size next) := by
  intro j w hw d hd
  -- the server is the new one, the next one or another one
  rcases getElem?_afterAdd (ne_nil_of_getElem? hnext) hw with
    ⟨rfl, rfl⟩ | ⟨i, rfl, ⟨rfl, rfl⟩ | ⟨hi, hw⟩⟩
  · obtain ⟨hroute, ht⟩ := htaken d hd
    exact route_afterAdd_taken _ asc hnext hroute ht
  · obtain ⟨hroute, ht⟩ := hkept d hd
    exact route_afterAdd_kept _ asc hnext hroute ht
  · have hroute := h i w hw d hd
    rw [← hroute] at hi ⊢
    exact route_afterAdd_other _ asc hnext hi

/-- A removal after which the next server has what the two had before. -/
theorem Routed.afterRemove (h : Routed has ring) (asc : Ascending ring) (hlen : 2 ≤ ring.length)
    {id : Int32} {v next : ServerView} (hv : ring[slot ring (hash_uint id)]? = some v)
    (hnext : ring[removeNextSlot ring id]? = some next)
    (habsorb : ∀ d, has (next.absorb v.drained.docs) d → has next d ∨ has v d) :
    Routed has (afterRemove ring id v next) := by
  intro j w hw d hd
  obtain ⟨i, rfl, hi, ⟨rfl, rfl⟩ | ⟨_, hw⟩⟩ := getElem?_afterRemove hw
  · -- what the next server has it had before, or the removed one had it
    rcases habsorb d hd with hd | hd
    · have hroute := h _ next hnext d hd
      rw [← hroute] at hi ⊢
      exact route_afterRemove_other hlen hnext hi
    · exact route_afterRemove_self asc hlen hnext (h _ v hv d hd)
  · have hroute := h i w hw d hd
    rw [← hroute] at hi ⊢
    exact route_afterRemove_other hlen hnext hi

end Routed

/-! ## §3. What every step keeps. -/

/-- **Every step keeps the list in the order of the positions.** -/
theorem Ascending.step {ring ring' : HashRing} {command : Command} {out : Output}
    (asc : Ascending ring) (hstep : Step ring command ring' out) : Ascending ring' := by
  cases hstep with
  | addFirst => exact List.pairwise_singleton _ _
  | add _ hnext =>
    rw [Ascending, positions_afterAdd hnext]
    exact (isInsertSlot_addSlot asc (ne_nil_of_getElem? hnext) _).sorted asc
  | removeOnly => exact List.Pairwise.nil
  | remove _ _ hnext =>
    rw [Ascending, positions_afterRemove hnext]
    exact asc.sublist (List.eraseIdx_sublist ..)
  | edit hv =>
    rw [Ascending, positions_set hv (ServerView.id_accept _ _)]
    exact asc
  | get hv =>
    rw [Ascending, positions_set hv (by simp)]
    exact asc

/-- **Every step keeps the pending edits with their servers.** -/
theorem routed_queues_step {ring ring' : HashRing} {command : Command} {out : Output}
    (asc : Ascending ring) (h : Routed ServerView.Queues ring)
    (hstep : Step ring command ring' out) : Routed ServerView.Queues ring' := by
  -- a server whose arc has changed was drained, so that it queues nothing
  have hnone : ∀ {v : ServerView} {d : CString}, v.pending = [] → ¬ v.Queues d := by
    rintro v d hv ⟨r, hr, _⟩
    rw [hv] at hr
    cases hr
  cases hstep with
  | addFirst =>
    intro j v hv d hd
    rw [List.mem_singleton.mp (List.mem_of_getElem? hv)] at hd
    exact absurd hd (hnone rfl)
  | add _ hnext =>
    exact h.afterAdd asc hnext (fun d hd => absurd hd (hnone rfl))
      (fun d hd => absurd hd (hnone rfl))
  | removeOnly =>
    intro j v hv
    simp at hv
  | remove hlen hv hnext => exact h.afterRemove asc hlen hv hnext fun d hd => .inl hd
  | edit hv =>
    apply h.set hv (ServerView.id_accept _ _)
    intro d' hd'
    obtain ⟨r, hr, rfl⟩ := hd'
    rcases ServerView.mem_pending_accept hr with hr | rfl
    · exact .inl ⟨r, hr, rfl⟩
    · exact .inr rfl
  | get hv => exact h.set hv (by simp) fun d' hd' => absurd hd' (hnone (by simp; rfl))

/-- Once a GET is answered, no edit of its document is pending anywhere. -/
theorem not_queues_of_get {ring ring' : HashRing} {d : CString} {out : Output}
    (asc : Ascending ring) (h : Routed ServerView.Queues ring)
    (hstep : Step ring (.GET d) ring' out) : ∀ v ∈ ring', ¬ v.Queues d := by
  intro w hw hd
  obtain ⟨j, hj⟩ := List.getElem?_of_mem hw
  have hroute := routed_queues_step asc h hstep j w hj d hd
  cases hstep with
  | get hv =>
    -- the server that `d` is routed to is the one that was drained
    rw [route_set hv (by simp)] at hroute
    rw [← hroute, List.getElem?_set_self (List.getElem?_eq_some_iff.mp hv).1] at hj
    obtain ⟨r, hr, -⟩ := hd
    rw [← Option.some.inj hj, ServerView.pending_get] at hr
    cases hr

end HashRing

/-! ## §4. The states reached. -/

open HashRing

/-- The states that `commands` lead to, each of them enabled when it is issued. -/
abbrev Reachable (commands : List Command) (main : LoadBalancer) : Prop :=
  Run.Reaches apply_request init_load_balancer (fun main command => Enabled main.ring command)
    commands main

section Reached

variable {admissible : LoadBalancer → Command → Prop} {commands : List Command}
  {main : LoadBalancer}

/-- The invariant rule for the ring: what every step keeps holds in every state reached. -/
theorem ring_invariant {I : List Command → HashRing → Prop} (hinit : I [] [])
    (hstep : ∀ commands (main : LoadBalancer) command ring' out, main.WF → I commands main.ring →
      admissible main command → Step main.ring command ring' out →
      I (commands ++ [command]) ring')
    (h : Run.Reaches apply_request init_load_balancer admissible commands main) :
    main.WF ∧ I commands main.ring := by
  refine h.invariant (I := fun commands main => main.WF ∧ I commands main.ring)
    ⟨List.forall_mem_nil _, hinit⟩ ?_
  rintro commands main command main' out ⟨wf, hinv⟩ hc happly
  obtain ⟨_, wf', hring⟩ := step_of_apply_request wf happly
  exact ⟨wf', hstep commands main command main'.ring out wf hinv hc hring⟩

/-- What holds in every state reached, whatever the commands. -/
theorem reached_invariant
    (h : Run.Reaches apply_request init_load_balancer admissible commands main) :
    main.WF ∧ Ascending main.ring ∧ Routed ServerView.Queues main.ring := by
  refine ring_invariant (I := fun _ ring => Ascending ring ∧ Routed ServerView.Queues ring)
    ⟨List.Pairwise.nil, ?_⟩ ?_ h
  · intro j v hv
    simp at hv
  · rintro _ _ _ _ _ _ ⟨asc, hqueues⟩ _ hstep
    exact ⟨asc.step hstep, routed_queues_step asc hqueues hstep⟩

/-- A command that returns was enabled. -/
theorem reachable_of_reaches
    (h : Run.Reaches apply_request init_load_balancer admissible commands main) :
    Reachable commands main := by
  induction h with
  | nil => exact .nil
  | snoc hcommands _ happly ih =>
    exact .snoc ih (step_of_apply_request (reached_invariant hcommands).1 happly).1 happly

/-- Commands that a stricter rule allows in well-formed states. -/
theorem reaches_of_allowed {allowed : LoadBalancer → Command → Prop}
    (hallowed : ∀ main command, main.WF → allowed main command → admissible main command)
    (h : Run.Reaches apply_request init_load_balancer allowed commands main) :
    Run.Reaches apply_request init_load_balancer admissible commands main := by
  induction h with
  | nil => exact .nil
  | snoc hcommands hc happly ih =>
    exact .snoc ih (hallowed _ _ (reached_invariant hcommands).1 hc) happly

/-- The state that a list of commands leads to, when each of them is allowed and returns and the
state passes a test. -/
theorem exists_reaches (commands : List Command) (allowed : LoadBalancer → Command → Bool)
    (test : LoadBalancer → Bool)
    (hallowed : ∀ main command, main.WF → allowed main command = true → admissible main command)
    (h : (Run.checkedRun apply_request allowed init_load_balancer commands).any test = true) :
    ∃ main, Run.Reaches apply_request init_load_balancer admissible commands main ∧
      test main = true := by
  obtain ⟨main, hreaches, htest⟩ := Run.exists_reaches_of_checkedRun _ _ h
  exact ⟨main, reaches_of_allowed hallowed hreaches, htest⟩

/-- The state that commands lead to from the empty ring. -/
theorem exists_reachable (commands : List Command) (test : LoadBalancer → Bool)
    (h : (Run.checkedRun apply_request (fun _ _ => true) init_load_balancer commands).any test
      = true) :
    ∃ main, Reachable commands main ∧ test main = true := by
  obtain ⟨main, hreaches, htest⟩ := Run.exists_reaches_of_checkedRun _ _ h
  exact ⟨main, reachable_of_reaches hreaches, htest⟩

end Reached

/-! ## §5. The order of the ring. -/

/-- The slot of the first server whose position is the least one at or after the hash; slot `0`
when every position lies before it. -/
def ServedAt (servers : List Server) (hash : UInt32) (slot : ℕ) : Prop :=
  (∃ s, servers[slot]? = some s ∧ hash ≤ hash_uint s.id ∧
      (∀ t ∈ servers, hash ≤ hash_uint t.id → hash_uint s.id ≤ hash_uint t.id) ∧
      ∀ i t, i < slot → servers[i]? = some t → hash_uint t.id ≠ hash_uint s.id) ∨
    (slot = 0 ∧ ∀ t ∈ servers, hash_uint t.id < hash)

theorem getElem?_positions {main : LoadBalancer} {j : ℕ} {s : Server}
    (hs : main.servers[j]? = some s) : (positions main.ring)[j]? = some (hash_uint s.id) := by
  rw [positions, List.getElem?_map, LoadBalancer.getElem?_ring hs]
  rfl

theorem exists_of_getElem?_positions {main : LoadBalancer} {j : ℕ} {p : UInt32}
    (hp : (positions main.ring)[j]? = some p) :
    ∃ s, main.servers[j]? = some s ∧ hash_uint s.id = p := by
  rw [positions, List.getElem?_map, LoadBalancer.ring, List.getElem?_map] at hp
  obtain ⟨v, hv, rfl⟩ := Option.map_eq_some_iff.mp hp
  obtain ⟨s, hs, rfl⟩ := Option.map_eq_some_iff.mp hv
  exact ⟨s, hs, rfl⟩

/-- On a ring in order, `get_server` finds the slot described by `ServedAt`. -/
theorem servedAt_get_server {main : LoadBalancer} (asc : Ascending main.ring) (hash : UInt32) :
    ServedAt main.servers hash (get_server main hash) := by
  rw [get_server_eq]
  by_cases hnil : main.servers = []
  · have hring : main.ring = [] := by rw [LoadBalancer.ring, hnil]; rfl
    rw [hring, hnil]
    exact .inr ⟨rfl, List.forall_mem_nil _⟩
  have hne : main.ring ≠ [] := servers_ne_nil_iff.mp hnil
  cases SuccessorRing.serves_slotOf (positions main.ring) hash (positions_ne_nil hne) with
  | wrap hzero _ all =>
    refine .inr ⟨hzero, ?_⟩
    intro t ht
    obtain ⟨j, hj⟩ := List.getElem?_of_mem ht
    exact all _ (List.mem_of_getElem? (getElem?_positions hj))
  | next p hp hle before =>
    obtain ⟨s, hs, rfl⟩ := exists_of_getElem?_positions hp
    refine .inl ⟨s, hs, hle, ?_, ?_⟩
    · -- a position at or after the hash is not before the slot, so the order bounds it
      intro t ht hle'
      obtain ⟨j, hj⟩ := List.getElem?_of_mem ht
      have hj' := getElem?_positions hj
      refine SuccessorRing.le_of_next asc hp (le_refl _) ?_ hj'
      by_contra hlt
      exact absurd (before j _ (by omega) hj') (not_lt.mpr hle')
    · intro i t hi ht
      exact ne_of_lt (lt_of_lt_of_le (before i _ hi (getElem?_positions ht)) hle)

/-- The slot that serves the position of an id on the ring holds a server with that id. -/
theorem slot_carries_id {ring : HashRing} (asc : Ascending ring) {id : Int32}
    (hmem : ∃ v ∈ ring, v.id = id) :
    ∃ v, ring[slot ring (hash_uint id)]? = some v ∧ v.id = id := by
  obtain ⟨w, hw, rfl⟩ := hmem
  obtain ⟨j, hj⟩ := List.getElem?_of_mem hw
  have hne := ne_nil_of_getElem? hj
  have hpj : (positions ring)[j]? = some (hash_uint w.id) := by
    rw [positions, List.getElem?_map, hj]
    rfl
  have hserves := SuccessorRing.serves_slotOf (positions ring) (hash_uint w.id)
    (positions_ne_nil hne)
  have hslot := hserves.le_slot hpj
  -- the position at the slot is the least one at or after `hash_uint w.id`, which is itself one
  cases hserves with
  | wrap _ _ all => exact absurd (all _ (List.mem_of_getElem? hpj)) (lt_irrefl _)
  | next p hp hle _ =>
    obtain ⟨v, hv, rfl⟩ := Option.map_eq_some_iff.mp ((List.getElem?_map ..).symm.trans hp)
    have hge := SuccessorRing.le_of_next asc hp (le_refl _) hslot hpj
    exact ⟨v, hv, hash_uint_injective (le_antisymm hge hle)⟩

/-- Removing an id that is on the ring takes out the one node at `k`, which carries the id, and
keeps the other servers; the next one takes over documents, the rest stay as they are. -/
def RemovesNode (main : LoadBalancer) (id : Int32) (main' : LoadBalancer) (k : ℕ) : Prop :=
  (∃ s, main.servers[k]? = some s ∧ s.id = id) ∧
    main'.servers.map Server.id = (main.servers.map Server.id).eraseIdx k ∧
    ∀ j, j ≠ k → j ≠ (k + 1) % main.servers.length →
      main'.servers[SuccessorRing.slotAfterErase k j]? = main.servers[j]?

/-- Whatever the id, the server that serves its position goes; the next one keeps its id and takes
over documents, and the others stay as they are. -/
theorem loader_remove_server_erases {main : LoadBalancer} (wf : main.WF)
    (hne : main.servers ≠ []) (id : Int32) :
    ∃ main' executed, loader_remove_server main id = .ok (main', executed) ∧
      main'.servers.map Server.id
        = (main.servers.map Server.id).eraseIdx (get_server main (hash_uint id)) ∧
      ∀ j, j ≠ get_server main (hash_uint id) →
        j ≠ (get_server main (hash_uint id) + 1) % main.servers.length →
        main'.servers[SuccessorRing.slotAfterErase (get_server main (hash_uint id)) j]?
          = main.servers[j]? := by
  have hring : main.ring ≠ [] := servers_ne_nil_iff.mp hne
  have hlt := slot_lt hring (hash_uint id)
  obtain ⟨s, hs⟩ := exists_server hlt
  rw [get_server_eq]
  rw [LoadBalancer.length_ring] at hlt
  rcases Nat.lt_or_ge main.servers.length 2 with hone | hlen
  · -- the only server goes, and none is left
    obtain ⟨t, ht⟩ := List.length_eq_one_iff.mp (show main.servers.length = 1 by omega)
    have hzero : slot main.ring (hash_uint id) = 0 := by omega
    refine ⟨_, _, loader_remove_server_only ht id, ?_, ?_⟩
    · rw [hzero, ht]
      rfl
    · intro j hj _
      have hpos : 1 ≤ j := by omega
      rw [ht, List.getElem?_nil, List.getElem?_eq_none (by simpa using hpos)]
  · -- the next server keeps its id, whatever it takes over
    obtain ⟨next_s, hnext⟩ := exists_server (j := removeNextSlot main.ring id)
      (Nat.mod_lt _ (by rw [LoadBalancer.length_ring]; omega))
    obtain ⟨next_s', hremove, -, hview⟩ := loader_remove_server_spec wf hlen hs hnext
    have hnext_id : next_s'.id = next_s.id := congrArg ServerView.id hview
    refine ⟨_, _, hremove, ?_, ?_⟩
    · have hids : (main.servers.map Server.id).set (removeNextSlot main.ring id) next_s.id
          = main.servers.map Server.id :=
        set_of_getElem? (by rw [List.getElem?_map, hnext]; rfl)
      rw [← List.eraseIdx_map, List.map_set, hnext_id, hids]
    · intro j hj hjnext
      rw [removeNextSlot, LoadBalancer.length_ring]
      rw [SuccessorRing.getElem?_slotAfterErase _ hj, List.getElem?_set_ne (Ne.symm hjnext)]

theorem loader_remove_server_removes {main : LoadBalancer} (wf : main.WF)
    (asc : Ascending main.ring) {id : Int32} (hmem : ∃ s ∈ main.servers, s.id = id) :
    ∃ main' executed, loader_remove_server main id = .ok (main', executed) ∧
      RemovesNode main id main' (get_server main (hash_uint id)) := by
  have hmem' : ∃ v ∈ main.ring, v.id = id := by
    obtain ⟨s, hs, rfl⟩ := hmem
    exact ⟨s.view, List.mem_map_of_mem hs, rfl⟩
  have hne : main.servers ≠ [] := by
    obtain ⟨s, hs, -⟩ := hmem
    exact List.ne_nil_of_mem hs
  obtain ⟨v, hv, hid⟩ := slot_carries_id asc hmem'
  rw [← get_server_eq] at hv
  obtain ⟨s, hs, rfl⟩ := LoadBalancer.exists_server_of_ring hv
  obtain ⟨main', executed, hremove, hids, hothers⟩ := loader_remove_server_erases wf hne id
  exact ⟨main', executed, hremove, ⟨s, hs, hid⟩, hids, hothers⟩

/-- **The order of the ring and what `get_server` computes**, in every state that additions and
removals (and requests) lead to. -/
theorem ring_order_and_routing {commands : List Command} {main : LoadBalancer}
    (h : Reachable commands main) :
    (∀ command, Enabled main.ring command →
      ∃ main' out, apply_request main command = .ok (main', out)) ∧
    main.servers.Pairwise (fun s t => hash_uint s.id ≤ hash_uint t.id) ∧
    (∀ a b : Int32, hash_uint a = hash_uint b → a = b) ∧
    (∀ hash, ServedAt main.servers hash (get_server main hash)) ∧
    ∀ id, (∃ s ∈ main.servers, s.id = id) →
      ∃ main' executed, loader_remove_server main id = .ok (main', executed) ∧
        RemovesNode main id main' (get_server main (hash_uint id)) := by
  obtain ⟨wf, asc, _⟩ := reached_invariant h
  refine ⟨?_, ?_, ?_, servedAt_get_server asc, ?_⟩
  · intro command hc
    obtain ⟨main', out, hok, _⟩ := apply_request_spec wf hc
    exact ⟨main', out, hok⟩
  · rw [Ascending, main.positions_ring] at asc
    exact List.pairwise_map.mp asc
  · intro a b hab
    exact hash_uint_injective hab
  · intro id hmem
    exact loader_remove_server_removes wf asc hmem

/-- Two servers stand in the order of their positions, and the one that is removed goes. -/
theorem ring_order_and_routing_two_servers :
    ∃ main, Reachable [.ADD_SERVER 2 1, .ADD_SERVER 1 1] main ∧
      main.servers.map Server.id = [1, 2] ∧
      main.servers.Pairwise (fun s t => hash_uint s.id ≤ hash_uint t.id) ∧
      (∀ hash, ServedAt main.servers hash (get_server main hash)) ∧
      ∃ main' executed, loader_remove_server main 1 = .ok (main', executed) ∧
        RemovesNode main 1 main' (get_server main (hash_uint 1)) := by
  obtain ⟨main, h, htest⟩ := exists_reachable [.ADD_SERVER 2 1, .ADD_SERVER 1 1]
    (fun main => decide (main.servers.map Server.id = [1, 2] ∧ ∃ s ∈ main.servers, s.id = 1))
    (by decide +kernel)
  obtain ⟨hids, hmem⟩ := of_decide_eq_true htest
  obtain ⟨-, hsorted, -, hserved, hremoves⟩ := ring_order_and_routing h
  exact ⟨main, h, hids, hsorted, hserved, hremoves 1 hmem⟩

/-! ## §6. Pending edits. -/

/-- **Pending edits are where reads of their document look**: every pending edit is on the server
that `get_server` maps its document to, and once a GET of a document is answered no edit of it is
pending anywhere. -/
theorem pending_edits_are_routed {commands : List Command} {main : LoadBalancer}
    (h : Reachable commands main) :
    (∀ j s, main.servers[j]? = some s → ∀ r ∈ s.tasks.contents,
      get_server main (hash_string r.doc_name) = j) ∧
    ∀ d, main.servers ≠ [] → ∃ main' out, apply_request main (.GET d) = .ok (main', out) ∧
      ∀ s ∈ main'.servers, ∀ r ∈ s.tasks.contents, r.doc_name ≠ d := by
  obtain ⟨wf, asc, hqueues⟩ := reached_invariant h
  refine ⟨?_, ?_⟩
  · intro j s hs r hr
    rw [get_server_eq]
    exact hqueues j s.view (LoadBalancer.getElem?_ring hs) r.doc_name ⟨r, hr, rfl⟩
  · intro d hne
    have henabled : Enabled main.ring (.GET d) := by simpa [Enabled, LoadBalancer.ring] using hne
    obtain ⟨main', out, hok, wf', hstep⟩ := apply_request_spec wf henabled
    refine ⟨main', out, hok, ?_⟩
    intro s hs r hr hd
    exact not_queues_of_get asc hqueues hstep s.view (List.mem_map_of_mem hs) ⟨r, hr, hd⟩

/-- An edit that waits on the first of two servers, until its document is read. -/
theorem pending_edits_are_routed_two_servers :
    ∃ main, Reachable [.ADD_SERVER 1 1, .ADD_SERVER 2 1,
        .EDIT (.ofString "a") (.ofString "x")] main ∧
      (main.servers.map fun s => s.tasks.contents.map Request.doc_name) = [[.ofString "a"], []] ∧
      (∀ j s, main.servers[j]? = some s → ∀ r ∈ s.tasks.contents,
        get_server main (hash_string r.doc_name) = j) ∧
      ∃ main' out, apply_request main (.GET (.ofString "a")) = .ok (main', out) ∧
        ∀ s ∈ main'.servers, ∀ r ∈ s.tasks.contents, r.doc_name ≠ .ofString "a" := by
  obtain ⟨main, h, htest⟩ := exists_reachable [.ADD_SERVER 1 1, .ADD_SERVER 2 1,
    .EDIT (.ofString "a") (.ofString "x")]
    (fun main => decide (main.servers ≠ [] ∧
      (main.servers.map fun s => s.tasks.contents.map Request.doc_name) = [[.ofString "a"], []]))
    (by decide +kernel)
  obtain ⟨hne, hpending⟩ := of_decide_eq_true htest
  obtain ⟨hrouted, hread⟩ := pending_edits_are_routed h
  exact ⟨main, h, hpending, hrouted, hread (.ofString "a") hne⟩

end DistDb
