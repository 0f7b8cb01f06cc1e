/-
  DistDb.Locality — commands that reach different servers do not see each other.

  The load balancer sends an EDIT or a GET to one server, and adding or removing a server involves
  the neighbour on the ring.  Between the commands that involve different servers the order does
  not matter.

  Main results:
    * `reordered_requests_answer_alike` — of a list of requests only the order in which each server
      receives its own one matters,
    * `request_commutes` — a request and another command, when they involve different servers,
    * `request_passes_run` — a request and any number of commands that involve other servers.
-/
import DistDb.Lib.Shards
import DistDb.Topology

namespace DistDb

open Lib HashRing

/-! ## §1. The servers that a command involves. -/

namespace LoadBalancer

/-- The slot of the server that a request is sent to. -/
def slotOf (main : LoadBalancer) (req : Request) : ℕ := get_server main (hash_string req.doc_name)

/-- The slots of the servers that a command reads or writes: the one that serves its document, the
one that a new server takes documents from, or the one that is removed and the next one. -/
def involved (main : LoadBalancer) : Command → List ℕ
  | .ADD_SERVER server_id _ => [get_server main (hash_uint server_id)]
  | .REMOVE_SERVER server_id =>
    [get_server main (hash_uint server_id),
      (get_server main (hash_uint server_id) + 1) % main.servers.length]
  | .EDIT doc_name _ => [get_server main (hash_string doc_name)]
  | .GET doc_name => [get_server main (hash_string doc_name)]

end LoadBalancer

variable {main main' main₁ main₂ : LoadBalancer} {req req' : Request} {s s' : Server}

theorem slotOf_eq (main : LoadBalancer) (req : Request) :
    main.slotOf req = route main.ring req.doc_name := get_server_eq main _

/-- A request leaves the server's id. -/
theorem server_handle_request_keeps {r : Option Response × List Executed} (wf : s.WF)
    (h : server_handle_request s req = .ok (s', r)) : s'.WF ∧ s'.id = s.id := by
  by_cases hget : req.type = .GET_DOCUMENT
  · obtain ⟨s₁, hhandle, wf₁, hview⟩ := server_handle_get_spec wf req hget
    cases h.symm.trans hhandle
    refine ⟨wf₁, ?_⟩
    show s'.view.id = s.view.id
    rw [hview, ServerView.id_get, ServerView.id_drained]
  · by_cases hedit : req.type = .EDIT_DOCUMENT
    · obtain ⟨s₁, hhandle, wf₁, hview⟩ := server_handle_edit_spec wf req hedit
      cases h.symm.trans hhandle
      refine ⟨wf₁, ?_⟩
      show s'.view.id = s.view.id
      rw [hview, ServerView.id_accept]
    · -- a request of another type is not looked at
      have hother : server_handle_request s req = .ok (s, none, []) := by
        unfold server_handle_request
        cases htype : req.type with
        | GET_DOCUMENT => exact absurd htype hget
        | EDIT_DOCUMENT => exact absurd htype hedit
        | ADD_SERVER => rfl
        | REMOVE_SERVER => rfl
      cases h.symm.trans hother
      exact ⟨wf, rfl⟩

/-- What a forwarded request does. -/
theorem loader_forward_request_eq_ok {r : Option Response × List Executed} :
    loader_forward_request main req = .ok (main', r) ↔
      ∃ s s', main.servers[main.slotOf req]? = some s ∧
        server_handle_request s req = .ok (s', r) ∧
        main' = { servers := main.servers.set (main.slotOf req) s' } := by
  obtain ⟨res, executed⟩ := r
  constructor
  · intro h
    unfold loader_forward_request at h
    dsimp only at h
    split at h
    · cases h
    · rename_i s hs
      obtain ⟨⟨s', r'⟩, hhandle, h⟩ := bind_eq_ok.mp h
      cases h
      exact ⟨s, s', hs, hhandle, rfl⟩
  · intro h
    obtain ⟨s, s', hs, hhandle, rfl⟩ := h
    rw [slotOf_eq] at hs ⊢
    exact loader_forward_request_spec req hs hhandle

/-! ### Slots once a server has handled a request. -/

section Set

variable {ring : HashRing} {j : ℕ} {v w : ServerView}

theorem slot_set (hv : ring[j]? = some v) (hid : w.id = v.id) (hash : UInt32) :
    slot (ring.set j w) hash = slot ring hash := by
  rw [slot, positions_set hv hid]
  rfl

theorem addSlot_set (hv : ring[j]? = some v) (hid : w.id = v.id) (id : Int32) :
    addSlot (ring.set j w) id = addSlot ring id := by
  rw [addSlot, positions_set hv hid]
  rfl

theorem addNextSlot_set (hv : ring[j]? = some v) (hid : w.id = v.id) (id : Int32) :
    addNextSlot (ring.set j w) id = addNextSlot ring id := by
  rw [addNextSlot, addSlot_set hv hid, List.length_set]
  rfl

theorem removeNextSlot_set (hv : ring[j]? = some v) (hid : w.id = v.id) (id : Int32) :
    removeNextSlot (ring.set j w) id = removeNextSlot ring id := by
  rw [removeNextSlot, slot_set hv hid, List.length_set]
  rfl

end Set

/-- After a request the servers have the same ids in the same order. -/
theorem ring_of_forwarded {r : Option Response × List Executed} (wf : main.WF)
    (h : loader_forward_request main req = .ok (main', r)) :
    main'.WF ∧ ∃ v w : ServerView, main.ring[main.slotOf req]? = some v ∧ w.id = v.id ∧
      main'.ring = main.ring.set (main.slotOf req) w := by
  obtain ⟨s, s', hs, hhandle, rfl⟩ := loader_forward_request_eq_ok.mp h
  obtain ⟨wf', hid⟩ := server_handle_request_keeps (wf.of_getElem? hs) hhandle
  exact ⟨wf.set _ wf', s.view, s'.view, LoadBalancer.getElem?_ring hs, hid,
    LoadBalancer.ring_set main _ s'⟩

theorem slotOf_of_forwarded {r : Option Response × List Executed} (wf : main.WF)
    (h : loader_forward_request main req = .ok (main', r)) : main'.slotOf = main.slotOf := by
  obtain ⟨-, v, w, hv, hid, hring⟩ := ring_of_forwarded wf h
  funext req'
  rw [slotOf_eq, slotOf_eq, hring, route_set hv hid]

/-! ## §2. Lists of requests. -/

/-- A run of requests is one of independent servers. -/
theorem run_requests_iff {reqs : List Request} {outs : List (Option Response × List Executed)}
    (wf : main.WF) : Run.run loader_forward_request main reqs = .ok (main', outs) ↔
      Run.run (Shards.shardStep server_handle_request main.slotOf .nullNode) main.servers reqs
        = .ok (main'.servers, outs) := by
  have hstep : ∀ (main main' : LoadBalancer) (req : Request) r,
      loader_forward_request main req = .ok (main', r) ↔
        Shards.shardStep server_handle_request main.slotOf .nullNode main.servers req
          = .ok (main'.servers, r) := by
    intro main main' req r
    rw [loader_forward_request_eq_ok, Shards.shardStep_eq_ok]
    have hmain : ∀ servers, main' = { servers := servers } ↔ main'.servers = servers := by
      intro servers
      cases main'
      exact LoadBalancer.mk.injEq _ _ ▸ Iff.rfl
    simp only [hmain]
  induction reqs generalizing main outs with
  | nil =>
    cases main
    cases main'
    simp [Run.run]
  | cons req reqs ih =>
    rw [Run.run_cons_eq_ok, Run.run_cons_eq_ok]
    constructor
    · intro h
      obtain ⟨main₁, r, outs', hreq, hrest, rfl⟩ := h
      have hrest := (ih (ring_of_forwarded wf hreq).1).mp hrest
      rw [slotOf_of_forwarded wf hreq] at hrest
      exact ⟨main₁.servers, r, outs', (hstep _ _ _ _).mp hreq, hrest, rfl⟩
    · intro h
      obtain ⟨servers₁, r, outs', hreq, hrest, rfl⟩ := h
      have hreq := (hstep main ⟨servers₁⟩ req r).mpr hreq
      refine ⟨⟨servers₁⟩, r, outs', hreq, (ih (ring_of_forwarded wf hreq).1).mpr ?_, rfl⟩
      rw [slotOf_of_forwarded wf hreq]
      exact hrest

/-- **Only the order at each server matters**: in every state reached, two lists of requests that
every server receives in the same order lead to the same servers, and every server gives its
requests the same answers, with the same edits executed on the way. -/
theorem reordered_requests_answer_alike {commands : List Command} (h : Reachable commands main)
    {reqs reqs' : List Request}
    (hsame : ∀ slot, Shards.sentTo main.slotOf slot reqs = Shards.sentTo main.slotOf slot reqs')
    {outs : List (Option Response × List Executed)}
    (hrun : Run.run loader_forward_request main reqs = .ok (main', outs)) :
    ∃ outs', Run.run loader_forward_request main reqs' = .ok (main', outs') ∧
      ∀ slot, slot < main.servers.length →
        Shards.answersOf main.slotOf slot reqs' outs'
          = Shards.answersOf main.slotOf slot reqs outs := by
  have wf := (reached_invariant h).1
  obtain ⟨outs', hrun', hanswers⟩ :=
    Shards.run_eq_of_same_order hsame ((run_requests_iff wf).mp hrun)
  exact ⟨outs', (run_requests_iff wf).mpr hrun', hanswers⟩

/-- A read of one server overtakes an edit on its way to another one. -/
theorem reordered_requests_answer_alike_three_servers :
    ∃ main main' outs outs', Reachable [.ADD_SERVER 1 2, .ADD_SERVER 2 2, .ADD_SERVER 3 2] main ∧
      Run.run loader_forward_request main [editRequest (.ofString "summary") (.ofString "x"),
        getRequest (.ofString "a"), getRequest (.ofString "summary")] = .ok (main', outs) ∧
      Run.run loader_forward_request main [getRequest (.ofString "a"),
        editRequest (.ofString "summary") (.ofString "x"), getRequest (.ofString "summary")]
        = .ok (main', outs') ∧
      ∀ slot, slot < main.servers.length →
        Shards.answersOf main.slotOf slot [getRequest (.ofString "a"),
            editRequest (.ofString "summary") (.ofString "x"), getRequest (.ofString "summary")]
            outs'
          = Shards.answersOf main.slotOf slot [editRequest (.ofString "summary") (.ofString "x"),
            getRequest (.ofString "a"), getRequest (.ofString "summary")] outs := by
  obtain ⟨main, h, htest⟩ := exists_reachable [.ADD_SERVER 1 2, .ADD_SERVER 2 2, .ADD_SERVER 3 2]
    (fun main => decide (main.slotOf (editRequest (.ofString "summary") (.ofString "x"))
        ≠ main.slotOf (getRequest (.ofString "a"))) &&
      (Run.run loader_forward_request main [editRequest (.ofString "summary") (.ofString "x"),
        getRequest (.ofString "a"), getRequest (.ofString "summary")]).toOption.isSome)
    (by decide +kernel)
  obtain ⟨hne, hsome⟩ := Bool.and_eq_true_iff.mp htest
  obtain ⟨⟨main', outs⟩, hrun⟩ := exists_ok_of_isSome hsome
  obtain ⟨outs', hrun', hanswers⟩ := reordered_requests_answer_alike h
    (fun slot => Shards.sentTo_swap (of_decide_eq_true hne) slot _) hrun
  exact ⟨main, main', outs, outs', h, hrun, hrun', hanswers⟩

/-! ## §3. A request and another command. -/

/-- Two requests to different servers. -/
theorem requests_commute {r r' : Option Response × List Executed} (wf : main.WF)
    (hreq : loader_forward_request main req = .ok (main₁, r))
    (hreq' : loader_forward_request main req' = .ok (main₂, r'))
    (hother : main.slotOf req ≠ main.slotOf req') :
    ∃ main₃, loader_forward_request main₁ req' = .ok (main₃, r') ∧
      loader_forward_request main₂ req = .ok (main₃, r) := by
  have hslot₁ := slotOf_of_forwarded wf hreq
  have hslot₂ := slotOf_of_forwarded wf hreq'
  obtain ⟨s, s₁, hs, hhandle, rfl⟩ := loader_forward_request_eq_ok.mp hreq
  obtain ⟨s', s₁', hs', hhandle', rfl⟩ := loader_forward_request_eq_ok.mp hreq'
  refine ⟨_, loader_forward_request_eq_ok.mpr ⟨s', s₁', ?_, hhandle', rfl⟩,
    loader_forward_request_eq_ok.mpr ⟨s, s₁, ?_, hhandle, ?_⟩⟩
  · rw [hslot₁, List.getElem?_set_ne hother]
    exact hs'
  · rw [hslot₂, List.getElem?_set_ne (Ne.symm hother)]
    exact hs
  · rw [hslot₁, hslot₂, List.set_comm _ _ hother]

/-- A request and the addition of a server that takes no documents from the request's one. -/
theorem request_commutes_with_addition {id cache_size : Int32} {executed : List Executed}
    {r : Option Response × List Executed} (wf : main.WF) (asc : Ascending main.ring)
    (hsize : 1 ≤ cache_size) (hreq : loader_forward_request main req = .ok (main₁, r))
    (hadd : loader_add_server main id cache_size = .ok (main₂, executed))
    (hother : main.slotOf req ≠ get_server main (hash_uint id)) :
    ∃ main₃, loader_add_server main₁ id cache_size = .ok (main₃, executed) ∧
      loader_forward_request main₂ req = .ok (main₃, r) := by
  obtain ⟨-, v, w, hv, hid, hring₁⟩ := ring_of_forwarded wf hreq
  obtain ⟨s, s', hs, hhandle, rfl⟩ := loader_forward_request_eq_ok.mp hreq
  have hne := ne_nil_of_getElem? hv
  rw [get_server_eq, ← addNextSlot_eq_slot asc hne] at hother
  obtain ⟨next_s, hnext⟩ := exists_server (j := addNextSlot main.ring id)
    (Nat.mod_lt _ (List.length_pos_iff.mpr hne))
  obtain ⟨drained, new, next_s', new_s, hexec, hnew, hloop, hadd', -, hdrained, -, -, -, -⟩ :=
    loader_add_server_spec wf hsize hnext
  obtain ⟨main₂', hadd_ring, -, hring₂⟩ := loader_add_server_ring wf hsize hnext
  cases hadd.symm.trans hadd_ring
  have hservers₂ := (Prod.mk.inj (Except.ok.inj (hadd.symm.trans hadd'))).1
  refine ⟨⟨main₂.servers.set (SuccessorRing.slotAfterInsert (addSlot main.ring id)
    (main.slotOf req)) s'⟩, ?_, ?_⟩
  · -- the slots and the next server are what they were
    have hnext_slot₁ : addNextSlot (LoadBalancer.ring ⟨main.servers.set (main.slotOf req) s'⟩) id
        = addNextSlot main.ring id := by
      rw [hring₁, addNextSlot_set hv hid]
    have hdrained_id : drained.id = next_s.id := by
      show drained.view.id = next_s.view.id
      rw [hdrained, ServerView.id_drained]
    have hgoes : goes (LoadBalancer.ring ⟨main.servers.set (main.slotOf req) s'⟩) id next_s.view
        = goes main.ring id next_s.view := by
      unfold goes
      rw [hnext_slot₁]
    rw [← hgoes] at hloop
    rw [← List.getElem?_set_ne hother, ← hnext_slot₁] at hnext
    rw [loader_add_server_eq hnext hnew hexec hdrained_id hloop, hnext_slot₁, hring₁,
      addSlot_set hv hid, hservers₂, SuccessorRing.set_slotAfterInsert, List.set_comm _ _ hother]
  · -- the server of the request moves up when the new one comes before it
    have hslot₂ : main₂.slotOf req
        = SuccessorRing.slotAfterInsert (addSlot main.ring id) (main.slotOf req) := by
      rw [slotOf_eq] at hother
      rw [slotOf_eq, slotOf_eq, hring₂,
        route_afterAdd_other cache_size asc (LoadBalancer.getElem?_ring hnext) hother]
    refine loader_forward_request_eq_ok.mpr ⟨s, s', ?_, hhandle, by rw [hslot₂]⟩
    rw [hslot₂, hservers₂]
    show (List.insertIdx _ _ _)[_]? = _
    rw [SuccessorRing.getElem?_slotAfterInsert, List.getElem?_set_ne (Ne.symm hother)]
    exact hs

/-- A request and the removal of a server that hands its documents to another one than the
request's. -/
theorem request_commutes_with_removal {id : Int32} {executed : List Executed}
    {r : Option Response × List Executed} (wf : main.WF)
    (hreq : loader_forward_request main req = .ok (main₁, r))
    (hremove : loader_remove_server main id = .ok (main₂, executed))
    (hother : main.slotOf req ≠ get_server main (hash_uint id))
    (hother_next : main.slotOf req ≠ (get_server main (hash_uint id) + 1) % main.servers.length) :
    ∃ main₃, loader_remove_server main₁ id = .ok (main₃, executed) ∧
      loader_forward_request main₂ req = .ok (main₃, r) := by
  obtain ⟨-, v, w, hv, hid, hring₁⟩ := ring_of_forwarded wf hreq
  obtain ⟨s, s', hs, hhandle, rfl⟩ := loader_forward_request_eq_ok.mp hreq
  have hne := ne_nil_of_getElem? hv
  rw [get_server_eq] at hother
  rw [get_server_eq, ← LoadBalancer.length_ring] at hother_next
  have hother_next : main.slotOf req ≠ removeNextSlot main.ring id := hother_next
  -- the slots differ, so that there are two servers
  have hj := (List.getElem?_eq_some_iff.mp hs).1
  have hi := slot_lt hne (hash_uint id)
  have hlen : 2 ≤ main.servers.length := by
    rw [LoadBalancer.length_ring] at hi
    omega
  obtain ⟨gone, hgone⟩ := exists_server hi
  obtain ⟨next_s, hnext⟩ := exists_server (j := removeNextSlot main.ring id)
    (Nat.mod_lt _ (List.length_pos_iff.mpr hne))
  obtain ⟨drained, hexec, drained_wf, -⟩ := execute_queue_spec (wf.of_getElem? hgone)
  obtain ⟨db, hmerge, -, -⟩ := merge_db_spec drained_wf.db (wf.of_getElem? hnext).db
  have hremove' := loader_remove_server_eq hlen hgone hnext hexec hmerge
  obtain ⟨main₂', hremove_ring, -, hring₂⟩ := loader_remove_server_ring wf hlen hgone hnext
  cases hremove.symm.trans hremove_ring
  have hservers₂ := (Prod.mk.inj (Except.ok.inj (hremove.symm.trans hremove'))).1
  refine ⟨⟨main₂.servers.set (SuccessorRing.slotAfterErase (slot main.ring (hash_uint id))
    (main.slotOf req)) s'⟩, ?_, ?_⟩
  · -- the slots and the two servers are what they were
    have hslot₁ : slot (LoadBalancer.ring ⟨main.servers.set (main.slotOf req) s'⟩) (hash_uint id)
        = slot main.ring (hash_uint id) := by
      rw [hring₁, slot_set hv hid]
    have hnext_slot₁ : removeNextSlot (LoadBalancer.ring ⟨main.servers.set (main.slotOf req) s'⟩) id
        = removeNextSlot main.ring id := by
      rw [hring₁, removeNextSlot_set hv hid]
    have hlen₁ : 2 ≤ (main.servers.set (main.slotOf req) s').length := by
      rwa [List.length_set]
    rw [← List.getElem?_set_ne hother, ← hslot₁] at hgone
    rw [← List.getElem?_set_ne hother_next] at hnext
    rw [loader_remove_server_eq hlen₁ hgone (hnext_slot₁ ▸ hnext) hexec hmerge, hnext_slot₁,
      hslot₁, hservers₂, SuccessorRing.set_slotAfterErase _ _ hother, List.set_comm _ _ hother_next]
  · -- the server of the request moves down when the removed one stood before it
    have hslot₂ : main₂.slotOf req
        = SuccessorRing.slotAfterErase (slot main.ring (hash_uint id)) (main.slotOf req) := by
      rw [slotOf_eq] at hother
      rw [slotOf_eq, slotOf_eq, hring₂, route_afterRemove_other (by rwa [LoadBalancer.length_ring])
        (LoadBalancer.getElem?_ring hnext) hother]
    refine loader_forward_request_eq_ok.mpr ⟨s, s', ?_, hhandle, by rw [hslot₂]⟩
    rw [hslot₂, hservers₂]
    show (List.eraseIdx _ _)[_]? = _
    rw [SuccessorRing.getElem?_slotAfterErase _ hother,
      List.getElem?_set_ne (Ne.symm hother_next)]
    exact hs

/-- **A request and a command that involves other servers**: whichever comes first, the state they
lead to and what each of them prints are the same. -/
theorem request_commutes {command : Command} {out : Output}
    {r : Option Response × List Executed} (wf : main.WF) (asc : Ascending main.ring)
    (hreq : loader_forward_request main req = .ok (main₁, r))
    (hcommand : apply_request main command = .ok (main₂, out))
    (hother : main.slotOf req ∉ main.involved command) :
    ∃ main₃, apply_request main₁ command = .ok (main₃, out) ∧
      loader_forward_request main₂ req = .ok (main₃, r) := by
  cases command with
  | ADD_SERVER id cache_size =>
    have hsize : 1 ≤ cache_size := (step_of_apply_request wf hcommand).1
    rw [apply_request] at hcommand ⊢
    rw [if_neg (not_neg_of_pos hsize)] at hcommand ⊢
    obtain ⟨⟨main₂, executed⟩, hadd, hout⟩ := bind_eq_ok.mp hcommand
    cases hout
    obtain ⟨main₃, hadd₁, hreq₂⟩ := request_commutes_with_addition wf asc hsize hreq hadd
      (List.ne_of_not_mem_cons hother)
    exact ⟨main₃, bind_eq_ok.mpr ⟨_, hadd₁, rfl⟩, hreq₂⟩
  | REMOVE_SERVER id =>
    rw [apply_request] at hcommand ⊢
    obtain ⟨⟨main₂, executed⟩, hremove, hout⟩ := bind_eq_ok.mp hcommand
    cases hout
    obtain ⟨main₃, hremove₁, hreq₂⟩ := request_commutes_with_removal wf hreq hremove
      (List.ne_of_not_mem_cons hother)
      (List.ne_of_not_mem_cons (List.not_mem_of_not_mem_cons hother))
    exact ⟨main₃, bind_eq_ok.mpr ⟨_, hremove₁, rfl⟩, hreq₂⟩
  | EDIT d c =>
    rw [apply_request] at hcommand ⊢
    obtain ⟨⟨main₂, res, executed⟩, hedit, hout⟩ := bind_eq_ok.mp hcommand
    cases hout
    obtain ⟨main₃, hedit₁, hreq₂⟩ :=
      requests_commute wf hreq hedit (List.ne_of_not_mem_cons hother)
    exact ⟨main₃, bind_eq_ok.mpr ⟨_, hedit₁, rfl⟩, hreq₂⟩
  | GET d =>
    rw [apply_request] at hcommand ⊢
    obtain ⟨⟨main₂, res, executed⟩, hget, hout⟩ := bind_eq_ok.mp hcommand
    cases hout
    obtain ⟨main₃, hget₁, hreq₂⟩ :=
      requests_commute wf hreq hget (List.ne_of_not_mem_cons hother)
    exact ⟨main₃, bind_eq_ok.mpr ⟨_, hget₁, rfl⟩, hreq₂⟩

/-- **A request can wait**: in every state reached, when none of the commands that follow involves
the server of a request, the request gets the same answer after them as before them, they print
what they print without it, and the state in the end is the same. -/
theorem request_passes_run {commands : List Command} (h : Reachable commands main)
    {r : Option Response × List Executed} {cs : List Command} {outs : List Output}
    (hreq : loader_forward_request main req = .ok (main₁, r))
    (hother : Run.Along apply_request (fun main command => main.slotOf req ∉ main.involved command)
      main cs)
    (hrun : Run.run apply_request main cs = .ok (main₂, outs)) :
    ∃ main₃, Run.run apply_request main₁ cs = .ok (main₃, outs) ∧
      loader_forward_request main₂ req = .ok (main₃, r) := by
  obtain ⟨wf, asc, -⟩ := reached_invariant h
  have hstep : ∀ (main main' : LoadBalancer) (command : Command) (main₁ : LoadBalancer)
      (out : Output), (main.WF ∧ Ascending main.ring ∧
        loader_forward_request main req = .ok (main', r)) →
      main.slotOf req ∉ main.involved command → apply_request main command = .ok (main₁, out) →
      ∃ main₁', apply_request main' command = .ok (main₁', out) ∧ main₁.WF ∧
        Ascending main₁.ring ∧ loader_forward_request main₁ req = .ok (main₁', r) := by
    -- the request would be answered now as it was then
    intro main main' command main₁ out hinv hother hcommand
    obtain ⟨wf, asc, hreq⟩ := hinv
    obtain ⟨main₁', hcommand', hreq'⟩ := request_commutes wf asc hreq hcommand hother
    obtain ⟨-, wf₁, hstep⟩ := step_of_apply_request wf hcommand
    exact ⟨main₁', hcommand', wf₁, asc.step hstep, hreq'⟩
  obtain ⟨main₃, hrun₁, -, -, hreq₂⟩ := hother.simulation hstep ⟨wf, asc, hreq⟩ hrun
  exact ⟨main₃, hrun₁, hreq₂⟩

/-- A read is answered before or after a server has come and gone elsewhere on the ring. -/
theorem request_passes_run_four_servers :
    ∃ main main₁ main₂ main₃ r outs, Reachable [.ADD_SERVER 1 2, .ADD_SERVER 2 2, .ADD_SERVER 3 2,
        .EDIT (.ofString "a") (.ofString "x")] main ∧
      loader_forward_request main (getRequest (.ofString "a")) = .ok (main₁, r) ∧
      Run.run apply_request main [.ADD_SERVER 4 2, .EDIT (.ofString "summary") (.ofString "y"),
        .REMOVE_SERVER 4] = .ok (main₂, outs) ∧
      Run.run apply_request main₁ [.ADD_SERVER 4 2, .EDIT (.ofString "summary") (.ofString "y"),
        .REMOVE_SERVER 4] = .ok (main₃, outs) ∧
      loader_forward_request main₂ (getRequest (.ofString "a")) = .ok (main₃, r) := by
  obtain ⟨main, h, htest⟩ := exists_reachable [.ADD_SERVER 1 2, .ADD_SERVER 2 2, .ADD_SERVER 3 2,
      .EDIT (.ofString "a") (.ofString "x")]
    (fun main => decide (Run.Along apply_request (fun main command =>
        main.slotOf (getRequest (.ofString "a")) ∉ main.involved command) main
        [.ADD_SERVER 4 2, .EDIT (.ofString "summary") (.ofString "y"), .REMOVE_SERVER 4]) &&
      (loader_forward_request main (getRequest (.ofString "a"))).toOption.isSome &&
      (Run.run apply_request main [.ADD_SERVER 4 2, .EDIT (.ofString "summary") (.ofString "y"),
        .REMOVE_SERVER 4]).toOption.isSome) (by decide +kernel)
  obtain ⟨htest, hsome⟩ := Bool.and_eq_true_iff.mp htest
  obtain ⟨hother, hsome_req⟩ := Bool.and_eq_true_iff.mp htest
  obtain ⟨⟨main₁, r⟩, hreq⟩ := exists_ok_of_isSome hsome_req
  obtain ⟨⟨main₂, outs⟩, hrun⟩ := exists_ok_of_isSome hsome
  obtain ⟨main₃, hrun₁, hreq₂⟩ := request_passes_run h hreq (of_decide_eq_true hother) hrun
  exact ⟨main, main₁, main₂, main₃, r, outs, h, hreq, hrun, hrun₁, hreq₂⟩

end DistDb
