/-
  DistDb.LazyExecution — the load balancer against one that never puts an EDIT off.

  Every server queues its EDITs and executes them when a GET arrives, when it hands documents to a
  new server or when it is removed.  In the reference a ring executes an EDIT when it comes, so that
  no queue is ever filled.  The state of the reference is the ring of the code with every queue
  executed, and what a server has not printed yet is what its queue owes.

  Putting an EDIT off shows in one case: the next server takes over the documents of a removed one
  before it executes its own queue.  `RemovalClear` excludes that they meet.

  Main results:
    * `drained_absorb`, `executed_absorb` — a queue that does not meet what is taken over,
    * `map_drained_step` — a step of the ring is one of the reference,
    * `owes_step` — and each server's responses stay those of the reference,
    * `lazy_execution_refines_eager` — every run, with topology changes.
-/
import DistDb.EagerServer
import DistDb.Coherence

namespace DistDb

open Lib

namespace ServerView

/-! ## §1. A queue and documents that are taken over. -/

section Absorb

variable {v : ServerView} {docs : CString → Option CString}

theorem edit_absorb {d : CString} (hd : docs d = none) (c : CString) :
    (v.absorb docs).edit d c = (v.edit d c).absorb docs := by
  refine ServerView.ext rfl rfl (funext fun d' => ?_) rfl rfl
  show Function.update (fun d => (docs d).or (v.docs d)) d (some c) d'
    = (docs d').or (Function.update v.docs d (some c) d')
  rw [Function.update_apply, Function.update_apply]
  split_ifs with h
  · rw [h, hd]
    rfl
  · rfl

theorem editResponse_absorb {d : CString} (hd : docs d = none) :
    (v.absorb docs).editResponse d = v.editResponse d := by
  have hdocs : (v.absorb docs).docs d = v.docs d := by
    show (docs d).or (v.docs d) = v.docs d
    rw [hd]
    rfl
  unfold editResponse
  rw [hdocs]
  rfl

theorem edits_absorb {rs : List Request} (h : ∀ r ∈ rs, docs r.doc_name = none) :
    (v.absorb docs).edits rs = (v.edits rs).absorb docs := by
  induction rs generalizing v with
  | nil => rfl
  | cons r rs ih =>
    rw [edits_cons, edits_cons, edit_absorb (h r List.mem_cons_self)]
    exact ih fun r' hr' => h r' (List.mem_cons_of_mem r hr')

theorem executed_absorb {rs : List Request} (h : ∀ r ∈ rs, docs r.doc_name = none) :
    (v.absorb docs).executed rs = v.executed rs := by
  induction rs generalizing v with
  | nil => rfl
  | cons r rs ih =>
    have hr := h r List.mem_cons_self
    rw [executed, executed, editResponse_absorb hr, edit_absorb hr,
      ih fun r' hr' => h r' (List.mem_cons_of_mem r hr')]

/-- **The queue can be executed before or after**, when no document of it is taken over. -/
theorem drained_absorb (h : ∀ r ∈ v.pending, docs r.doc_name = none) :
    (v.absorb docs).drained = v.drained.absorb docs := by
  show { (v.absorb docs).edits v.pending with pending := [] } = _
  rw [edits_absorb h]
  rfl

theorem owed_absorb (h : ∀ r ∈ v.pending, docs r.doc_name = none) :
    (v.absorb docs).owed = v.owed :=
  congrArg (List.map Executed.res) (executed_absorb h)

end Absorb

theorem owed_drained (v : ServerView) : v.drained.owed = [] := owed_of_pending_nil rfl

/-- What a server owes it answers itself. -/
theorem server_id_of_mem_executed {v : ServerView} {rs : List Request} {e : Executed}
    (he : e ∈ v.executed rs) : e.res.server_id = v.id := by
  induction rs generalizing v with
  | nil => cases he
  | cons r rs ih =>
    rcases List.mem_cons.mp he with rfl | he
    · rfl
    · have hid := ih he
      exact hid

theorem server_id_of_mem_owed {v : ServerView} {res : Response} (hres : res ∈ v.owed) :
    res.server_id = v.id := by
  obtain ⟨e, he, rfl⟩ := List.mem_map.mp hres
  exact server_id_of_mem_executed he

theorem server_id_get (v : ServerView) (d : CString) : (v.get d).2.server_id = v.id := by
  unfold get
  split <;> rfl

end ServerView

/-- The responses to a command but for the acknowledgement of an EDIT. -/
def Output.answers (out : Output) : Command → List Response
  | .EDIT _ _ => out.executed.map Executed.res
  | _ => out.executed.map Executed.res ++ out.response.toList

theorem Output.answers_none (executed : List Executed) (command : Command) :
    Output.answers ⟨executed, none⟩ command = executed.map Executed.res := by
  cases command with
  | EDIT d c => rfl
  | ADD_SERVER id cache_size => exact List.append_nil _
  | REMOVE_SERVER id => exact List.append_nil _
  | GET d => exact List.append_nil _

namespace HashRing

/-! ## §2. The reference. -/

/-- What a command does to a ring without pending EDITs, and the responses to EDITs and GETs. -/
def eagerStep (ring : HashRing) : Command → HashRing × List Response
  | .ADD_SERVER id cache_size =>
    match ring[addNextSlot ring id]? with
    | some next => (afterAdd ring id cache_size next, [])
    | none => ([fresh id cache_size], [])
  | .REMOVE_SERVER id =>
    match ring[slot ring (hash_uint id)]?, ring[removeNextSlot ring id]? with
    | some v, some next => (afterRemove ring id v next, [])
    | _, _ => (ring, [])
  | .EDIT d c =>
    match ring[route ring d]? with
    | some v => (ring.set (route ring d) (v.edit d c), [v.editResponse d])
    | none => (ring, [])
  | .GET d =>
    match ring[route ring d]? with
    | some v => (ring.set (route ring d) (v.get d).1, [(v.get d).2])
    | none => (ring, [])

/-- Servers come and go without a response. -/
theorem responses_eagerStep_add (ring : HashRing) (id cache_size : Int32) :
    (eagerStep ring (.ADD_SERVER id cache_size)).2 = [] := by
  rw [eagerStep]
  split <;> rfl

theorem responses_eagerStep_remove (ring : HashRing) (id : Int32) :
    (eagerStep ring (.REMOVE_SERVER id)).2 = [] := by
  rw [eagerStep]
  split <;> rfl

/-- The ring with every queue executed. -/
def drained (ring : HashRing) : HashRing := ring.map ServerView.drained

section Drained

variable {ring : HashRing} {j : ℕ} {v : ServerView}

theorem getElem?_drained (hv : ring[j]? = some v) : (drained ring)[j]? = some v.drained := by
  rw [drained, List.getElem?_map, hv]
  rfl

theorem drained_set (ring : HashRing) (j : ℕ) (v : ServerView) :
    drained (ring.set j v) = (drained ring).set j v.drained := List.map_set

theorem length_drained (ring : HashRing) : (drained ring).length = ring.length :=
  List.length_map _

theorem positions_drained (ring : HashRing) : positions (drained ring) = positions ring := by
  unfold positions drained
  rw [List.map_map]
  exact List.map_congr_left fun v _ => congrArg hash_uint v.id_drained

/-- Queues have no part in what is found on the ring. -/
theorem slot_drained (ring : HashRing) : slot (drained ring) = slot ring := by
  funext hash
  rw [slot, slot, positions_drained]

theorem route_drained (ring : HashRing) (d : CString) : route (drained ring) d = route ring d := by
  rw [route, route, slot_drained]

theorem addSlot_drained (ring : HashRing) (id : Int32) :
    addSlot (drained ring) id = addSlot ring id := by
  rw [addSlot, addSlot, positions_drained]

theorem addNextSlot_drained (ring : HashRing) (id : Int32) :
    addNextSlot (drained ring) id = addNextSlot ring id := by
  rw [addNextSlot, addNextSlot, addSlot_drained, length_drained]

theorem removeNextSlot_drained (ring : HashRing) (id : Int32) :
    removeNextSlot (drained ring) id = removeNextSlot ring id := by
  rw [removeNextSlot, removeNextSlot, slot_drained, length_drained]

end Drained

/-! ## §3. The state of the reference. -/

/-- What the removed server brings does not meet what is pending on the next one. -/
def ClearRemoval (ring : HashRing) : Command → Prop
  | .REMOVE_SERVER id => 2 ≤ ring.length ∧
      ∀ v ∈ ring[slot ring (hash_uint id)]?, ∀ next ∈ ring[removeNextSlot ring id]?,
        ∀ r ∈ next.pending, v.latest r.doc_name = none
  | _ => True

section Step

variable {ring ring' : HashRing} {command : Command} {out : Output} {id cache_size : Int32}
  {v next : ServerView}

theorem drained_afterAdd (ring : HashRing) (id cache_size : Int32) (next : ServerView) :
    drained (afterAdd ring id cache_size next)
      = afterAdd (drained ring) id cache_size next.drained := by
  have hgoes : goes (drained ring) id next.drained = goes ring id next := by
    rw [goes, goes, addNextSlot_drained, ServerView.id_drained]
  -- the next server has executed its queue, and that of the new one is empty
  have hnext : next.drained.drained = next.drained := ServerView.drained_of_pending_nil rfl
  have hwithout : (next.drained.without (goes ring id next)).drained
      = next.drained.drained.without (goes ring id next) := by
    rw [hnext]
    exact ServerView.drained_of_pending_nil rfl
  have hadded : (added ring id cache_size next).drained
      = (fresh id cache_size).absorb (next.drained.drained.departing (goes ring id next)) := by
    rw [hnext]
    exact ServerView.drained_of_pending_nil rfl
  show (afterAdd ring id cache_size next).map ServerView.drained = _
  unfold afterAdd
  rw [List.map_insertIdx, List.map_set, hwithout, hadded, ← hgoes, addNextSlot_drained,
    addSlot_drained]
  rfl

theorem drained_afterRemove (ring : HashRing) (id : Int32)
    (hclear : ∀ r ∈ next.pending, v.latest r.doc_name = none) :
    drained (afterRemove ring id v next)
      = afterRemove (drained ring) id v.drained next.drained := by
  have habsorb : (next.absorb v.drained.docs).drained = next.drained.absorb v.drained.docs :=
    ServerView.drained_absorb hclear
  show (afterRemove ring id v next).map ServerView.drained = _
  unfold afterRemove
  rw [slot_drained, removeNextSlot_drained, ← List.eraseIdx_map, List.map_set, habsorb]
  rfl

/-- **A step of the ring is a step of the reference**, with every queue executed. -/
theorem map_drained_step (hroom : RoomyEdit ring command) (hclear : ClearRemoval ring command)
    (hstep : Step ring command ring' out) :
    drained ring' = (eagerStep (drained ring) command).1 := by
  cases hstep with
  | @addFirst id cache_size =>
    have hnone : (drained [])[addNextSlot (drained []) id]? = none := List.getElem?_nil
    rw [eagerStep, hnone]
    rfl
  | @add _ id cache_size next _ hnext =>
    have hnext' := getElem?_drained hnext
    rw [← addNextSlot_drained] at hnext'
    rw [eagerStep, hnext']
    exact drained_afterAdd ring id cache_size next
  | @removeOnly v id =>
    -- the documents of the last server go with it
    exact absurd hclear.1 (Nat.not_succ_le_self 1)
  | @remove _ id v next hlen hv hnext =>
    have hv' := getElem?_drained hv
    have hnext' := getElem?_drained hnext
    rw [← slot_drained] at hv'
    rw [← removeNextSlot_drained] at hnext'
    rw [eagerStep, hv', hnext']
    exact drained_afterRemove ring id (hclear.2 v hv next hnext)
  | @edit _ d c v hv =>
    have hv' := getElem?_drained hv
    rw [← route_drained] at hv'
    have haccept : v.accept (editRequest d c) = v.enqueue (editRequest d c) :=
      if_pos (hroom v hv)
    have hdrained : (v.enqueue (editRequest d c)).drained = v.drained.edit d c :=
      ServerView.drained_enqueue v _
    rw [eagerStep, hv', drained_set, haccept, hdrained, route_drained]
  | @get _ d v hv =>
    have hv' := getElem?_drained hv
    rw [← route_drained] at hv'
    rw [eagerStep, hv', drained_set, route_drained,
      ServerView.drained_of_pending_nil (ServerView.pending_get _ _)]

/-! ## §4. The responses of the reference. -/

/-- The responses of the server with the id. -/
def responsesOf (id : Int32) (responses : List Response) : List Response :=
  responses.filter fun res => decide (res.server_id = id)

theorem responsesOf_append (id : Int32) (responses responses' : List Response) :
    responsesOf id (responses ++ responses')
      = responsesOf id responses ++ responsesOf id responses' :=
  List.filter_append _ _

theorem responsesOf_self {id : Int32} {responses : List Response}
    (h : ∀ res ∈ responses, res.server_id = id) : responsesOf id responses = responses :=
  List.filter_eq_self.mpr fun res hres => decide_eq_true (h res hres)

theorem responsesOf_other {id id' : Int32} (hid : id' ≠ id) {responses : List Response}
    (h : ∀ res ∈ responses, res.server_id = id) : responsesOf id' responses = [] :=
  List.filter_eq_nil_iff.mpr fun res hres hres' =>
    hid ((of_decide_eq_true hres').symm.trans (h res hres))

/-- No two servers have the same id. -/
def Distinct (ring : HashRing) : Prop := (ring.map ServerView.id).Nodup

/-- What each server has answered, followed by what its queue owes, is what the reference has
answered for it; a server that is gone owes nothing. -/
structure Owes (ring : HashRing) (answers eager : List Response) : Prop where
  here : ∀ v ∈ ring, responsesOf v.id answers ++ v.owed = responsesOf v.id eager
  gone : ∀ id, (∀ v ∈ ring, v.id ≠ id) → responsesOf id answers = responsesOf id eager

section Owed

variable {answers eager : List Response} {j : ℕ} {v w : ServerView}

/-- The ids of the others. -/
theorem Distinct.ne_of_mem_eraseIdx (h : Distinct ring) (hv : ring[j]? = some v)
    (hw : w ∈ ring.eraseIdx j) : w.id ≠ v.id := by
  have hperm := (Parallel.perm_cons_eraseIdx hv).map ServerView.id
  have hnodup := hperm.nodup_iff.mp h
  rw [List.map_cons, List.nodup_cons] at hnodup
  intro hid
  exact hnodup.1 (hid ▸ List.mem_map_of_mem hw)

theorem mem_set_iff (hv : ring[j]? = some v) {u : ServerView} :
    u ∈ ring.set j w ↔ u = w ∨ u ∈ ring.eraseIdx j := by
  rw [(Parallel.set_perm_cons_eraseIdx hv w).mem_iff, List.mem_cons]

theorem Distinct.set (h : Distinct ring) (hv : ring[j]? = some v) (hid : w.id = v.id) :
    Distinct (ring.set j w) := by
  have hids : (ring.map ServerView.id)[j]? = some w.id := by
    rw [List.getElem?_map, hv, hid]
    rfl
  rw [Distinct, List.map_set, set_of_getElem? hids]
  exact h

theorem Distinct.insertIdx (h : Distinct ring) {k : ℕ} (hk : k ≤ ring.length)
    (hfresh : ∀ v ∈ ring, v.id ≠ w.id) : Distinct (ring.insertIdx k w) := by
  have hperm := (List.perm_insertIdx w ring hk).map ServerView.id
  refine hperm.nodup_iff.mpr (List.nodup_cons.mpr ⟨?_, h⟩)
  intro hmem
  obtain ⟨v, hv, hid⟩ := List.mem_map.mp hmem
  exact hfresh v hv hid

theorem Distinct.eraseIdx (h : Distinct ring) (j : ℕ) : Distinct (ring.eraseIdx j) :=
  h.sublist ((List.eraseIdx_sublist ..).map ServerView.id)

/-- **One server answers**, and its queue changes with what it has answered. -/
theorem Owes.set (hdistinct : Distinct ring) (h : Owes ring answers eager)
    (hv : ring[j]? = some v) (hid : w.id = v.id) {answers' eager' : List Response}
    (hanswers : ∀ res ∈ answers', res.server_id = v.id)
    (heager : ∀ res ∈ eager', res.server_id = v.id)
    (howed : answers' ++ w.owed = v.owed ++ eager') :
    Owes (ring.set j w) (answers ++ answers') (eager ++ eager') where
  here := by
    intro u hu
    rw [responsesOf_append, responsesOf_append]
    rcases (mem_set_iff hv).mp hu with rfl | hu
    · rw [hid, responsesOf_self hanswers, responsesOf_self heager, List.append_assoc, howed,
        ← List.append_assoc, h.here v (List.mem_of_getElem? hv)]
    · have hne := hdistinct.ne_of_mem_eraseIdx hv hu
      rw [responsesOf_other hne hanswers, responsesOf_other hne heager, List.append_nil,
        List.append_nil]
      exact h.here u (List.mem_of_mem_eraseIdx hu)
  gone := by
    intro id hgone
    have hne : id ≠ v.id := by
      intro heq
      exact hgone w ((mem_set_iff hv).mpr (.inl rfl)) (hid.trans heq.symm)
    rw [responsesOf_append, responsesOf_append, responsesOf_other hne hanswers,
      responsesOf_other hne heager, List.append_nil, List.append_nil]
    apply h.gone id
    intro u hu hid'
    rw [(Parallel.perm_cons_eraseIdx hv).mem_iff, List.mem_cons] at hu
    rcases hu with rfl | hu
    · exact hne hid'.symm
    · exact hgone u ((mem_set_iff hv).mpr (.inr hu)) hid'

/-- A server comes with an empty queue and an id of its own. -/
theorem Owes.insertIdx (h : Owes ring answers eager) {k : ℕ} (hk : k ≤ ring.length)
    (hfresh : ∀ v ∈ ring, v.id ≠ w.id) (howed : w.owed = []) :
    Owes (ring.insertIdx k w) answers eager where
  here := by
    intro u hu
    rcases (List.mem_insertIdx hk).mp hu with rfl | hu
    · rw [howed, List.append_nil]
      exact h.gone u.id hfresh
    · exact h.here u hu
  gone := by
    intro id hgone
    exact h.gone id fun u hu => hgone u ((List.mem_insertIdx hk).mpr (.inr hu))

/-- A server goes when it owes nothing. -/
theorem Owes.eraseIdx (h : Owes ring answers eager) (hv : ring[j]? = some v) (howed : v.owed = []) :
    Owes (ring.eraseIdx j) answers eager where
  here := fun u hu => h.here u (List.mem_of_mem_eraseIdx hu)
  gone := by
    intro id hgone
    by_cases hid : id = v.id
    · have hhere := h.here v (List.mem_of_getElem? hv)
      rw [howed, List.append_nil] at hhere
      rw [hid]
      exact hhere
    · apply h.gone id
      intro u hu hid'
      rw [(Parallel.perm_cons_eraseIdx hv).mem_iff, List.mem_cons] at hu
      rcases hu with rfl | hu
      · exact hid hid'.symm
      · exact hgone u hu hid'

end Owed

/-- A server is added under an id that no other one has. -/
def FreshAddition (ring : HashRing) : Command → Prop
  | .ADD_SERVER id _ => ∀ v ∈ ring, v.id ≠ id
  | _ => True

theorem Distinct.step (h : Distinct ring) (hfresh : FreshAddition ring command)
    (hstep : Step ring command ring' out) : Distinct ring' := by
  cases hstep with
  | addFirst => exact List.nodup_singleton _
  | @add _ id cache_size next _ hnext =>
    have hle : addSlot ring id
        ≤ (ring.set (addNextSlot ring id) (next.drained.without (goes ring id next))).length := by
      rw [List.length_set]
      exact addSlot_le ring (ne_nil_of_getElem? hnext) id
    have hset : Distinct
        (ring.set (addNextSlot ring id) (next.drained.without (goes ring id next))) :=
      h.set hnext (ServerView.id_drained next)
    refine hset.insertIdx hle ?_
    intro u hu
    rcases List.mem_or_eq_of_mem_set hu with hu | rfl
    · exact hfresh u hu
    · exact (ServerView.id_drained next).trans_ne (hfresh next (List.mem_of_getElem? hnext))
  | removeOnly => exact List.nodup_nil
  | @remove _ id v next _ _ hnext =>
    have hset : Distinct (ring.set (removeNextSlot ring id) (next.absorb v.drained.docs)) :=
      h.set hnext rfl
    exact hset.eraseIdx _
  | edit hv => exact h.set hv (ServerView.id_accept _ _)
  | @get _ d v hv => exact h.set hv ((ServerView.id_get _ d).trans (ServerView.id_drained v))

/-- The next server executes its queue and hands documents over, then the new one comes. -/
theorem owes_afterAdd {answers eager : List Response} (hdistinct : Distinct ring)
    (h : Owes ring answers eager) (hfresh : ∀ v ∈ ring, v.id ≠ id)
    (hnext : ring[addNextSlot ring id]? = some next) :
    Owes (afterAdd ring id cache_size next) (answers ++ next.owed) eager := by
  have hid : (next.drained.without (goes ring id next)).id = next.id := ServerView.id_drained next
  have hset := h.set hdistinct hnext hid (fun _ => ServerView.server_id_of_mem_owed)
    (List.forall_mem_nil _) (List.append_nil next.owed ▸ rfl)
  rw [List.append_nil] at hset
  refine hset.insertIdx ?_ ?_ rfl
  · rw [List.length_set]
    exact addSlot_le ring (ne_nil_of_getElem? hnext) id
  · intro u hu
    rcases List.mem_or_eq_of_mem_set hu with hu | rfl
    · exact hfresh u hu
    · exact hid.trans_ne (hfresh next (List.mem_of_getElem? hnext))

/-- The removed server executes its queue, the next one takes its documents over, then it goes. -/
theorem owes_afterRemove {answers eager : List Response} (hdistinct : Distinct ring)
    (h : Owes ring answers eager) (hlen : 2 ≤ ring.length)
    (hv : ring[slot ring (hash_uint id)]? = some v)
    (hnext : ring[removeNextSlot ring id]? = some next)
    (hclear : ∀ r ∈ next.pending, v.latest r.doc_name = none) :
    Owes (afterRemove ring id v next) (answers ++ v.owed) eager := by
  have hslots : removeNextSlot ring id ≠ slot ring (hash_uint id) := removeNextSlot_ne hlen
  have hexecuted := h.set hdistinct hv (ServerView.id_drained v)
    (fun _ => ServerView.server_id_of_mem_owed) (List.forall_mem_nil _)
    (ServerView.owed_drained v ▸ rfl)
  have hnext₁ : (ring.set (slot ring (hash_uint id)) v.drained)[removeNextSlot ring id]?
      = some next := by
    rw [List.getElem?_set_ne hslots.symm, hnext]
  have hid : (next.absorb v.drained.docs).id = next.id := rfl
  have hclear : ∀ r ∈ next.pending, v.drained.docs r.doc_name = none := hclear
  have howed : [] ++ (next.absorb v.drained.docs).owed = next.owed ++ [] := by
    rw [ServerView.owed_absorb hclear, List.append_nil, List.nil_append]
  have htaken := hexecuted.set (hdistinct.set hv (ServerView.id_drained v)) hnext₁ hid
    (List.forall_mem_nil _) (List.forall_mem_nil _) howed
  have hv₂ : ((ring.set (slot ring (hash_uint id)) v.drained).set (removeNextSlot ring id)
      (next.absorb v.drained.docs))[slot ring (hash_uint id)]? = some v.drained := by
    rw [List.getElem?_set_ne hslots,
      List.getElem?_set_self (List.getElem?_eq_some_iff.mp hv).1]
  have hgone := htaken.eraseIdx hv₂ (ServerView.owed_drained v)
  rw [List.set_comm _ _ hslots.symm, List.eraseIdx_set_eq, List.append_nil, List.append_nil,
    List.append_nil] at hgone
  exact hgone

/-- **A step keeps every server's responses** those of the reference. -/
theorem owes_step {answers eager : List Response} (hdistinct : Distinct ring)
    (h : Owes ring answers eager) (hfresh : FreshAddition ring command)
    (hroom : RoomyEdit ring command) (hclear : ClearRemoval ring command)
    (hstep : Step ring command ring' out) :
    Owes ring' (answers ++ out.answers command)
      (eager ++ (eagerStep (drained ring) command).2) := by
  cases hstep with
  | @addFirst id cache_size =>
    have hinsert : Owes (List.insertIdx [] 0 (fresh id cache_size)) answers eager :=
      h.insertIdx (Nat.zero_le 0) (List.forall_mem_nil _) rfl
    rw [Output.answers_none, responses_eagerStep_add, List.append_nil]
    show Owes [fresh id cache_size] (answers ++ []) eager
    rw [List.append_nil]
    exact hinsert
  | @add _ id cache_size next _ hnext =>
    rw [Output.answers_none, responses_eagerStep_add, List.append_nil]
    exact owes_afterAdd hdistinct h hfresh hnext
  | @removeOnly v id => exact absurd hclear.1 (Nat.not_succ_le_self 1)
  | @remove _ id v next hlen hv hnext =>
    rw [Output.answers_none, responses_eagerStep_remove, List.append_nil]
    exact owes_afterRemove hdistinct h hlen hv hnext (hclear.2 v hv next hnext)
  | @edit _ d c v hv =>
    have hv' := getElem?_drained hv
    rw [← route_drained] at hv'
    have haccept : v.accept (editRequest d c) = v.enqueue (editRequest d c) :=
      if_pos (hroom v hv)
    have hid : (v.enqueue (editRequest d c)).id = v.id := rfl
    have hedited : (v.drained.editResponse d).server_id = v.id := ServerView.id_drained v
    rw [eagerStep, hv', haccept]
    refine h.set hdistinct hv hid (List.forall_mem_nil _) ?_ ?_
    · intro res hres
      rw [List.mem_singleton.mp hres]
      exact hedited
    · exact ServerView.owed_enqueue v _
  | @get _ d v hv =>
    have hv' := getElem?_drained hv
    rw [← route_drained] at hv'
    rw [eagerStep, hv']
    have hid : (v.drained.get d).1.id = v.id :=
      (ServerView.id_get _ d).trans (ServerView.id_drained v)
    have hread : (v.drained.get d).2.server_id = v.id :=
      (ServerView.server_id_get _ d).trans (ServerView.id_drained v)
    refine h.set hdistinct hv hid ?_ ?_ ?_
    · intro res hres
      rcases List.mem_append.mp hres with hres | hres
      · exact ServerView.server_id_of_mem_owed hres
      · rw [List.mem_singleton.mp hres]
        exact hread
    · intro res hres
      rw [List.mem_singleton.mp hres]
      exact hread
    · rw [ServerView.owed_of_pending_nil (ServerView.pending_get _ _), List.append_nil]
      rfl

end Step

end HashRing

open HashRing

/-! ## §5. Runs of the code. -/

/-- One round of the command loop, with the responses that are compared. -/
def answer (main : LoadBalancer) (command : Command) : Exec (LoadBalancer × List Response) := do
  let (main, out) ← apply_request main command
  pure (main, out.answers command)

/-- No document that is pending on the next server is on the server to be removed. -/
def RemovalClear (main : LoadBalancer) : Command → Prop
  | .REMOVE_SERVER id =>
    ∀ s ∈ main.servers[get_server main (hash_uint id)]?,
      ∀ next_s ∈ main.servers[(get_server main (hash_uint id) + 1) % main.servers.length]?,
        ∀ r ∈ next_s.tasks.contents, s.newest r.doc_name = none
  | _ => True

instance (main : LoadBalancer) : DecidablePred (RemovalClear main)
  | .REMOVE_SERVER _ => inferInstanceAs (Decidable (∀ s ∈ _, _))
  | .ADD_SERVER _ _ => inferInstanceAs (Decidable True)
  | .EDIT _ _ => inferInstanceAs (Decidable True)
  | .GET _ => inferInstanceAs (Decidable True)

section Conditions

variable {main : LoadBalancer} {command : Command}

theorem freshAddition_of_legal (h : Legal main command) : FreshAddition main.ring command := by
  cases command with
  | ADD_SERVER id cache_size => exact LoadBalancer.ring_id_ne h.1
  | REMOVE_SERVER id => trivial
  | EDIT d c => trivial
  | GET d => trivial

theorem clearRemoval_of_removalClear (hlegal : Legal main command)
    (h : RemovalClear main command) : ClearRemoval main.ring command := by
  cases command with
  | REMOVE_SERVER id =>
    refine ⟨main.length_ring.symm ▸ hlegal.2, ?_⟩
    intro v hv next hnext r hr
    obtain ⟨s, hs, rfl⟩ := LoadBalancer.exists_server_of_ring hv
    obtain ⟨next_s, hnext_s, rfl⟩ := LoadBalancer.exists_server_of_ring hnext
    rw [← get_server_eq] at hs
    rw [← LoadBalancer.removeNextSlot_eq] at hnext_s
    rw [← Server.newest_eq]
    exact h s hs next_s hnext_s r hr
  | ADD_SERVER id cache_size => trivial
  | EDIT d c => trivial
  | GET d => trivial

end Conditions

/-- What holds of a run next to that of the reference. -/
structure Follows (commands : List Command) (main : LoadBalancer) : Prop where
  wf : main.WF
  distinct : Distinct main.ring
  drained_eq : drained main.ring = (Run.total eagerStep [] commands).1
  answers : ∃ answers, Run.run answer init_load_balancer commands = .ok (main, answers) ∧
    Owes main.ring answers.flatten (Run.total eagerStep [] commands).2.flatten

theorem Follows.step {commands : List Command} {main main' : LoadBalancer} {command : Command}
    {out : Output} (h : Follows commands main) (hlegal : Legal main command)
    (hroom : HasRoom main command) (hclear : RemovalClear main command)
    (hstep : apply_request main command = .ok (main', out)) :
    Follows (commands ++ [command]) main' := by
  obtain ⟨-, wf', hring⟩ := step_of_apply_request h.wf hstep
  have hfresh := freshAddition_of_legal hlegal
  have hroomy := hasRoom_iff.mp hroom
  have hclear := clearRemoval_of_removalClear hlegal hclear
  obtain ⟨answers, hrun, howes⟩ := h.answers
  have hanswer : answer main command = .ok (main', out.answers command) := by
    rw [answer, hstep]
    rfl
  refine ⟨wf', h.distinct.step hfresh hring, ?_, ?_⟩
  · rw [Run.total_snoc, ← h.drained_eq]
    exact map_drained_step hroomy hclear hring
  · refine ⟨_, Run.run_snoc hrun hanswer, ?_⟩
    rw [Run.total_snoc, ← h.drained_eq, List.flatten_append, List.flatten_append,
      List.flatten_singleton, List.flatten_singleton]
    exact owes_step h.distinct howes hfresh hroomy hclear hring

/-- **Putting EDITs off does not show.**  In every run in which ids are used properly, EDITs find
room and removals are clear, each server on the ring has given the responses of the reference to
its executed EDITs and its GETs, but for those that executing its queue then gives, and that brings
it to the server of the reference; a server that is gone has given all of them. -/
theorem lazy_execution_refines_eager {commands : List Command} {main : LoadBalancer}
    (h : Run.Reaches apply_request init_load_balancer (fun main command =>
      Legal main command ∧ HasRoom main command ∧ RemovalClear main command) commands main) :
    ∃ answers, Run.run answer init_load_balancer commands = .ok (main, answers) ∧
      (∀ (j : ℕ) s, main.servers[j]? = some s → ∃ s' executed,
        execute_queue s = .ok (s', executed) ∧
        (Run.total eagerStep [] commands).1[j]? = some s'.view ∧
        responsesOf s.id answers.flatten ++ executed.map Executed.res
          = responsesOf s.id (Run.total eagerStep [] commands).2.flatten) ∧
      ∀ id, (∀ s ∈ main.servers, s.id ≠ id) →
        responsesOf id answers.flatten
          = responsesOf id (Run.total eagerStep [] commands).2.flatten := by
  have hinit : Follows [] init_load_balancer :=
    ⟨List.forall_mem_nil _, List.nodup_nil, rfl, [], rfl, List.forall_mem_nil _, fun _ _ => rfl⟩
  have hfollows : Follows commands main := h.invariant hinit
    fun _ _ _ _ _ hfollows hc hstep => hfollows.step hc.1 hc.2.1 hc.2.2 hstep
  obtain ⟨answers, hrun, howes⟩ := hfollows.answers
  refine ⟨answers, hrun, ?_, ?_⟩
  · intro j s hs
    obtain ⟨s', hexec, -, hview⟩ := execute_queue_spec (hfollows.wf.of_getElem? hs)
    refine ⟨s', _, hexec, ?_, howes.here s.view (List.mem_map_of_mem (List.mem_of_getElem? hs))⟩
    rw [← hfollows.drained_eq, hview]
    exact getElem?_drained (LoadBalancer.getElem?_ring hs)
  · intro id hgone
    apply howes.gone id
    intro v hv
    obtain ⟨s, hs, rfl⟩ := List.mem_map.mp hv
    exact hgone s hs

/-- Server `3` is removed while EDITs of its own are pending. -/
theorem lazy_execution_refines_eager_three_servers :
    ∃ main, Run.Reaches apply_request init_load_balancer (fun main command =>
        Legal main command ∧ HasRoom main command ∧ RemovalClear main command)
        [.ADD_SERVER 1 1, .ADD_SERVER 2 1, .ADD_SERVER 3 1, .EDIT (.ofString "a") (.ofString "x"),
          .EDIT (.ofString "summary") (.ofString "y"), .REMOVE_SERVER 3,
          .EDIT (.ofString "a") (.ofString "z"), .ADD_SERVER 4 1,
          .GET (.ofString "summary")] main ∧
      ∃ answers, Run.run answer init_load_balancer
          [.ADD_SERVER 1 1, .ADD_SERVER 2 1, .ADD_SERVER 3 1,
            .EDIT (.ofString "a") (.ofString "x"), .EDIT (.ofString "summary") (.ofString "y"),
            .REMOVE_SERVER 3, .EDIT (.ofString "a") (.ofString "z"), .ADD_SERVER 4 1,
            .GET (.ofString "summary")] = .ok (main, answers) ∧
        responsesOf 3 answers.flatten
          = [⟨LOG_MISS (.ofString "summary"), some (MSG_C (.ofString "summary")), 3⟩] := by
  obtain ⟨main, hreaches, htest⟩ := exists_reaches
    [.ADD_SERVER 1 1, .ADD_SERVER 2 1, .ADD_SERVER 3 1, .EDIT (.ofString "a") (.ofString "x"),
      .EDIT (.ofString "summary") (.ofString "y"), .REMOVE_SERVER 3,
      .EDIT (.ofString "a") (.ofString "z"), .ADD_SERVER 4 1, .GET (.ofString "summary")]
    (fun main command => decide (Legal main command ∧ HasRoom main command ∧
      RemovalClear main command))
    (fun main => decide (∀ s ∈ main.servers, s.id ≠ 3)) (fun _ _ _ h => of_decide_eq_true h)
    (by decide +kernel)
  obtain ⟨answers, hrun, -, hgone⟩ := lazy_execution_refines_eager hreaches
  refine ⟨main, hreaches, answers, hrun, (hgone 3 (of_decide_eq_true htest)).trans ?_⟩
  decide +kernel

end DistDb
