/-
  DistDb.Contents — what a read of a document returns, before and after a step.

  The content of a document on the ring is the latest one, stored or pending, on the server that
  the document is routed to.  While every document is where it is routed to and every cache is
  coherent, that is what a GET answers (`get_content_eq`), and removing a server leaves it
  unchanged for every document:
    * `content_afterRemove`, `Coherent.afterRemove` — a removal on the ring,
    * `remove_server_invisible` — what this says of the code.
-/
import DistDb.Placement

namespace DistDb

open Lib

namespace ServerView

/-! ## §1. Servers whose documents were exchanged. -/

theorem latest_absorb (v : ServerView) (docs : CString → Option CString) (d : CString) :
    (v.absorb docs).latest d = overwrite v.pending d ((docs d).or (v.docs d)) := latest_eq _ d

theorem has_absorb_iff (v : ServerView) (docs : CString → Option CString) (d : CString) :
    (v.absorb docs).Has d ↔ (docs d).isSome ∨ v.Has d := by
  have hstores : (v.absorb docs).Stores d ↔ (docs d).isSome ∨ v.Stores d := by
    simp [Stores, absorb]
  rw [Has, hstores, or_assoc]
  rfl

theorem Coherent.without {v : ServerView} (h : v.Coherent) (goes : CString → Bool) :
    (v.without goes).Coherent := by
  intro e he
  obtain ⟨hmem, hkept⟩ := List.mem_filter.mp he
  have hdoc := h e hmem
  show (if goes e.1 then none else v.docs e.1) = some e.2
  unfold departing at hkept
  split_ifs at hkept ⊢
  · rw [hdoc] at hkept
    cases hkept
  · exact hdoc

/-- Documents written over a database keep the cache in front of it coherent exactly when they
agree with it. -/
theorem Coherent.absorb_iff {v : ServerView} (h : v.Coherent) (docs : CString → Option CString) :
    (v.absorb docs).Coherent ↔ ∀ e ∈ v.cached, ∀ c, docs e.1 = some c → c = e.2 := by
  constructor
  · intro hafter e he c hc
    have : (docs e.1).or (v.docs e.1) = some e.2 := hafter e he
    rw [hc] at this
    exact Option.some.inj this
  · intro hagree e he
    show (docs e.1).or (v.docs e.1) = some e.2
    cases hc : docs e.1 with
    | none => exact h e he
    | some c => exact congrArg some (hagree e he c hc)

end ServerView

namespace HashRing

/-! ## §2. The contents of a ring. -/

/-- The content of a document: the latest one on the server it is routed to. -/
def content (ring : HashRing) (d : CString) : Option CString :=
  ring[route ring d]?.bind fun v => v.latest d

/-- Every cached document is stored on its server with the same content. -/
def Coherent (ring : HashRing) : Prop := ∀ v ∈ ring, v.Coherent

theorem content_of_route {ring : HashRing} {d : CString} {j : ℕ} {v : ServerView}
    (hd : route ring d = j) (hv : ring[j]? = some v) : content ring d = v.latest d := by
  rw [content, hd, hv]
  rfl

section Add

variable {ring : HashRing} {id cache_size : Int32} {next : ServerView}

theorem latest_added (d : CString) : (added ring id cache_size next).latest d
    = next.drained.departing (goes ring id next) d := added_docs d

theorem latest_without (v : ServerView) (goes : CString → Bool) (d : CString) :
    (v.drained.without goes).latest d = if goes d then none else v.latest d := rfl

/-- A document of the next server is found again when the comparison that moves documents agrees
with the one that finds them. -/
theorem content_afterAdd_of_agree (asc : Ascending ring)
    (hnext : ring[addNextSlot ring id]? = some next) {d : CString}
    (hroute : route ring d = addNextSlot ring id)
    (hagree : goes ring id next d = true ↔ Takes ring id d) :
    content (afterAdd ring id cache_size next) d = content ring d := by
  rw [content_of_route hroute hnext]
  by_cases htakes : Takes ring id d
  · -- looked up on the new server from now on, where it has gone
    rw [content_of_route (route_afterAdd_taken cache_size asc hnext hroute htakes)
      (getElem?_afterAdd_added (ne_nil_of_getElem? hnext)), latest_added, ServerView.departing,
      if_pos (hagree.mpr htakes)]
    rfl
  · -- looked up on the next server as before, where it has stayed
    rw [content_of_route (route_afterAdd_kept cache_size asc hnext hroute htakes)
      (getElem?_afterAdd_next hnext), latest_without, if_neg (mt hagree.mp htakes)]

/-- It is not found when they disagree. -/
theorem content_afterAdd_of_disagree (asc : Ascending ring)
    (hnext : ring[addNextSlot ring id]? = some next) {d : CString}
    (hroute : route ring d = addNextSlot ring id)
    (hdisagree : ¬ (goes ring id next d = true ↔ Takes ring id d)) :
    content (afterAdd ring id cache_size next) d = none := by
  by_cases htakes : Takes ring id d
  · -- looked up on the new server, while it has stayed
    have hgoes : ¬ goes ring id next d = true := fun h => hdisagree ⟨fun _ => htakes, fun _ => h⟩
    rw [content_of_route (route_afterAdd_taken cache_size asc hnext hroute htakes)
      (getElem?_afterAdd_added (ne_nil_of_getElem? hnext)), latest_added, ServerView.departing,
      if_neg hgoes]
  · -- looked up on the next server, while it has gone
    have hgoes : goes ring id next d = true := by
      by_contra hgoes
      exact hdisagree ⟨fun h => absurd h hgoes, fun h => absurd h htakes⟩
    rw [content_of_route (route_afterAdd_kept cache_size asc hnext hroute htakes)
      (getElem?_afterAdd_next hnext), latest_without, if_pos hgoes]

/-- **An addition leaves the content of every document unchanged** when the two comparisons agree
on every document of the next server. -/
theorem content_afterAdd (asc : Ascending ring) (hnext : ring[addNextSlot ring id]? = some next)
    (hagree : ∀ d, next.Has d → (goes ring id next d = true ↔ Takes ring id d)) (d : CString) :
    content (afterAdd ring id cache_size next) d = content ring d := by
  by_cases hroute : route ring d = addNextSlot ring id
  · by_cases h : goes ring id next d = true ↔ Takes ring id d
    · exact content_afterAdd_of_agree asc hnext hroute h
    · -- it is not on the next server
      have hnot : ¬ next.Has d := fun hd => h (hagree d hd)
      rw [content_afterAdd_of_disagree asc hnext hroute h, content_of_route hroute hnext,
        ServerView.latest_eq_none.mpr hnot]
  · -- on a server that the addition does not touch
    rw [content, route_afterAdd_other cache_size asc hnext hroute, getElem?_afterAdd_other hroute]
    rfl

/-- An addition keeps documents with their servers when the two comparisons agree on every
document of the next server. -/
theorem routed_has_afterAdd (h : Routed ServerView.Has ring) (asc : Ascending ring)
    (hnext : ring[addNextSlot ring id]? = some next)
    (hagree : ∀ d, next.Has d → (goes ring id next d = true ↔ Takes ring id d)) :
    Routed ServerView.Has (afterAdd ring id cache_size next) := by
  refine h.afterAdd asc hnext ?_ ?_
  · intro d hd
    rw [← ServerView.latest_isSome, latest_added, ServerView.departing] at hd
    split_ifs at hd with hgoes
    · have hhas := (ServerView.latest_isSome next d).mp hd
      exact ⟨h _ next hnext d hhas, (hagree d hhas).mp hgoes⟩
    · cases hd
  · intro d hd
    rw [← ServerView.latest_isSome, latest_without] at hd
    split_ifs at hd with hgoes
    · cases hd
    · have hhas := (ServerView.latest_isSome next d).mp hd
      exact ⟨h _ next hnext d hhas, fun ht => hgoes ((hagree d hhas).mpr ht)⟩

/-- An addition keeps the caches coherent. -/
theorem Coherent.afterAdd (h : Coherent ring) (hnext : ring[addNextSlot ring id]? = some next) :
    Coherent (afterAdd ring id cache_size next) := by
  intro w hw
  rcases List.eq_or_mem_of_mem_insertIdx hw with rfl | hw
  · intro e he
    cases he
  · rcases List.mem_or_eq_of_mem_set hw with hw | rfl
    · exact h w hw
    · exact (h next (List.mem_of_getElem? hnext)).drained.without _

end Add

section Remove

variable {ring : HashRing} {id : Int32} {v next : ServerView}

theorem getElem?_afterRemove_next (hlen : 2 ≤ ring.length)
    (hnext : ring[removeNextSlot ring id]? = some next) :
    (afterRemove ring id v next)[SuccessorRing.slotAfterErase (slot ring (hash_uint id))
        (removeNextSlot ring id)]? = some (next.absorb v.drained.docs) := by
  rw [afterRemove, SuccessorRing.getElem?_slotAfterErase _ (removeNextSlot_ne hlen),
    List.getElem?_set_self (List.getElem?_eq_some_iff.mp hnext).1]

theorem getElem?_afterRemove_other {j : ℕ} (hj : j ≠ slot ring (hash_uint id))
    (hnext : j ≠ removeNextSlot ring id) :
    (afterRemove ring id v next)[SuccessorRing.slotAfterErase (slot ring (hash_uint id)) j]?
      = ring[j]? := by
  rw [afterRemove, SuccessorRing.getElem?_slotAfterErase _ hj,
    List.getElem?_set_ne (Ne.symm hnext)]

/-- A document that is routed elsewhere is not on the server. -/
theorem Routed.not_has {has : ServerView → CString → Prop} (h : Routed has ring) {j : ℕ}
    {w : ServerView} (hw : ring[j]? = some w) {d : CString} (hd : route ring d ≠ j) : ¬ has w d :=
  fun hhas => hd (h j w hw d hhas)

/-- **A removal leaves the content of every document unchanged.** -/
theorem content_afterRemove (asc : Ascending ring) (hlen : 2 ≤ ring.length)
    (hv : ring[slot ring (hash_uint id)]? = some v)
    (hnext : ring[removeNextSlot ring id]? = some next) (h : Routed ServerView.Has ring)
    (d : CString) : content (afterRemove ring id v next) d = content ring d := by
  have hslots : removeNextSlot ring id ≠ slot ring (hash_uint id) := removeNextSlot_ne hlen
  by_cases hself : route ring d = slot ring (hash_uint id)
  · -- the document was on the removed server, and not on the next one
    have hnot := h.not_has hnext (d := d) (by rw [hself]; exact hslots.symm)
    rw [content_of_route hself hv, content_of_route (route_afterRemove_self asc hlen hnext hself)
      (getElem?_afterRemove_next hlen hnext), ServerView.latest_absorb,
      ServerView.overwrite_of_not_mem fun r hr hd => hnot (.inr ⟨r, hr, hd⟩),
      show next.docs d = none from Option.not_isSome_iff_eq_none.mp fun hs => hnot (.inl hs),
      Option.or_none]
    rfl
  · have hroute := route_afterRemove_other (v := v) hlen hnext hself
    by_cases hnext_route : route ring d = removeNextSlot ring id
    · -- it is on the next server, to which the removed one brings nothing of it
      have hnone : v.drained.docs d = none := ServerView.latest_eq_none.mpr (h.not_has hv hself)
      rw [hnext_route] at hroute
      rw [content_of_route hnext_route hnext, content_of_route hroute
        (getElem?_afterRemove_next hlen hnext), ServerView.latest_absorb, hnone, Option.none_or,
        ← ServerView.latest_eq]
    · -- on a server that the removal does not touch
      rw [content, hroute, getElem?_afterRemove_other hself hnext_route]
      rfl

/-- **A removal keeps the caches coherent** exactly when what the removed server brings agrees
with the cache of the next one. -/
theorem coherent_afterRemove_iff (h : Coherent ring) (hlen : 2 ≤ ring.length)
    (hnext : ring[removeNextSlot ring id]? = some next) :
    Coherent (afterRemove ring id v next) ↔
      ∀ e ∈ next.cached, ∀ c, v.latest e.1 = some c → c = e.2 := by
  have hnext_coh := h next (List.mem_of_getElem? hnext)
  have habsorb := hnext_coh.absorb_iff v.drained.docs
  constructor
  · intro hafter
    exact habsorb.mp (hafter _ (List.mem_of_getElem? (getElem?_afterRemove_next hlen hnext)))
  · intro hagree w hw
    rcases List.mem_or_eq_of_mem_set (List.mem_of_mem_eraseIdx hw) with hw | rfl
    · exact h w hw
    · exact habsorb.mpr hagree

/-- While every document is where it is routed to, the removed server brings nothing that the next
one has cached. -/
theorem Routed.agrees (h : Routed ServerView.Has ring) (hcoh : Coherent ring)
    (hlen : 2 ≤ ring.length) (hv : ring[slot ring (hash_uint id)]? = some v)
    (hnext : ring[removeNextSlot ring id]? = some next) :
    ∀ e ∈ next.cached, ∀ c, v.latest e.1 = some c → c = e.2 := by
  intro e he c hc
  have hstored : next.Stores e.1 := by
    rw [ServerView.Stores, hcoh next (List.mem_of_getElem? hnext) e he]
    rfl
  have hroute := h _ next hnext e.1 (.inl hstored)
  have hnot := h.not_has hv (d := e.1) (by rw [hroute]; exact removeNextSlot_ne hlen)
  rw [ServerView.latest_eq_none.mpr hnot] at hc
  cases hc

end Remove

/-! ### Requests. -/

section Request

variable {ring : HashRing} {d : CString} {v : ServerView}

/-- A server that was replaced by one with the same documents. -/
theorem content_set {j : ℕ} {w : ServerView} (hv : ring[j]? = some v) (hid : w.id = v.id)
    (d' : CString) : content (ring.set j w) d'
      = if route ring d' = j then w.latest d' else content ring d' := by
  rw [content, route_set hv hid, List.getElem?_set]
  by_cases h : j = route ring d'
  · rw [if_pos h, if_pos (h ▸ (List.getElem?_eq_some_iff.mp hv).1), if_pos h.symm]
    rfl
  · rw [if_neg h, if_neg (Ne.symm h)]
    rfl

/-- An answered GET changes no content. -/
theorem content_get (hv : ring[route ring d]? = some v) (d' : CString) :
    content (ring.set (route ring d) (v.drained.get d).1) d' = content ring d' := by
  rw [content_set hv (by simp), ServerView.latest_get_drained]
  split_ifs with h
  · exact (content_of_route h hv).symm
  · rfl

/-- An EDIT that finds room changes the content of its document. -/
theorem content_edit (hv : ring[route ring d]? = some v)
    (hroom : v.pending.length < TASK_QUEUE_SIZE) (c d' : CString) :
    content (ring.set (route ring d) (v.accept (editRequest d c))) d'
      = if d = d' then some c else content ring d' := by
  rw [content_set hv (by simp), ServerView.accept, if_pos hroom, ServerView.latest_enqueue]
  show (if route ring d' = route ring d then if d = d' then some c else v.latest d'
    else content ring d') = _
  by_cases hd : d = d'
  · rw [if_pos (congrArg (route ring) hd.symm), if_pos hd, if_pos hd]
  · rw [if_neg hd]
    split_ifs with h
    · exact (content_of_route h hv).symm
    · rfl

theorem Coherent.set {j : ℕ} {w : ServerView} (h : Coherent ring) (hw : w.Coherent) :
    Coherent (ring.set j w) := by
  intro u hu
  rcases List.mem_or_eq_of_mem_set hu with hu | rfl
  · exact h u hu
  · exact hw

theorem Coherent.accept (h : Coherent ring) (hv : v ∈ ring) (r : Request) :
    (v.accept r).Coherent := by
  have hcoh := h v hv
  unfold ServerView.accept
  split_ifs
  · exact hcoh
  · exact hcoh

end Request

end HashRing

/-! ## §3. Removing a server does not show. -/

open HashRing

/-- The content that a GET of the document would answer, if the document exists. -/
def get_content (main : LoadBalancer) (d : CString) : Exec (Option CString) := do
  let (_, response, _) ← loader_forward_request main (getRequest d)
  pure (response.bind Response.server_response)

theorem get_content_eq {main : LoadBalancer} (wf : main.WF) (hne : main.ring ≠ [])
    (hcoh : Coherent main.ring) (d : CString) :
    get_content main d = .ok (content main.ring d) := by
  obtain ⟨s, hs⟩ := exists_server (slot_lt hne (hash_string d))
  obtain ⟨s', hhandle, -, -⟩ := server_handle_get_spec (wf.of_getElem? hs) (getRequest d) rfl
  have hring := LoadBalancer.getElem?_ring hs
  have hdrained := (hcoh _ (List.mem_of_getElem? hring)).drained
  rw [get_content, loader_forward_request_spec (getRequest d) hs hhandle,
    content_of_route rfl hring]
  exact congrArg Except.ok (hdrained.get d).2

/-- Every stored and every pending document is on the server that `get_server` maps it to. -/
def DocumentsPlaced (main : LoadBalancer) : Prop :=
  ∀ j s, main.servers[j]? = some s → ∀ d,
    (s.db.lookup hash_string d).isSome ∨ (∃ r ∈ s.tasks.contents, r.doc_name = d) →
      get_server main (hash_string d) = j

/-- Every cached document is stored on the same server with the same content. -/
def CachesCoherent (main : LoadBalancer) : Prop :=
  ∀ s ∈ main.servers, ∀ e ∈ s.cache.entries, s.db.lookup hash_string e.1 = some e.2

theorem documentsPlaced_iff {main : LoadBalancer} :
    DocumentsPlaced main ↔ Routed ServerView.Has main.ring := Iff.symm routed_ring_iff

theorem cachesCoherent_iff {main : LoadBalancer} :
    CachesCoherent main ↔ Coherent main.ring := by
  simp only [CachesCoherent, Coherent, LoadBalancer.ring, List.mem_map, forall_exists_index,
    and_imp, forall_apply_eq_imp_iff₂]
  rfl

/-- **REMOVE_SERVER is invisible to readers**: one server leaves the ring, and every document is found
with the same content as before. -/
theorem remove_server_invisible {main : LoadBalancer} (wf : main.WF)
    (hlen : 2 ≤ main.servers.length)
    (hpos : (main.servers.map fun s => hash_uint s.id).Pairwise (· < ·))
    (hplaced : DocumentsPlaced main) (hcoherent : CachesCoherent main) (id : Int32) :
    ∃ main' executed, loader_remove_server main id = .ok (main', executed) ∧
      main'.servers.map Server.id
        = (main.servers.map Server.id).eraseIdx (get_server main (hash_uint id)) ∧
      DocumentsPlaced main' ∧ CachesCoherent main' ∧
      ∀ d, ∃ c, get_content main d = .ok c ∧ get_content main' d = .ok c := by
  have asc : Ascending main.ring := by
    rw [Ascending, main.positions_ring]
    exact hpos.imp le_of_lt
  have hrouted := documentsPlaced_iff.mp hplaced
  have hcoh := cachesCoherent_iff.mp hcoherent
  have hlen' : 2 ≤ main.ring.length := main.length_ring.symm ▸ hlen
  have hne : main.ring ≠ [] := List.length_pos_iff.mp (by omega)
  obtain ⟨s, hs⟩ := exists_server (slot_lt hne (hash_uint id))
  obtain ⟨next_s, hnext⟩ := exists_server (j := removeNextSlot main.ring id)
    (Nat.mod_lt _ (List.length_pos_iff.mpr hne))
  have hv := LoadBalancer.getElem?_ring hs
  have hnext_v := LoadBalancer.getElem?_ring hnext
  obtain ⟨main', hremove, wf', hring⟩ := loader_remove_server_ring wf hlen hs hnext
  have hids : main'.servers.map Server.id
      = (main.servers.map Server.id).eraseIdx (get_server main (hash_uint id)) := by
    obtain ⟨_, _, hremove', hids, -⟩ :=
      loader_remove_server_erases wf (servers_ne_nil_iff.mpr hne) id
    cases hremove.symm.trans hremove'
    exact hids
  have hrouted' : Routed ServerView.Has main'.ring := by
    rw [hring]
    apply hrouted.afterRemove asc hlen' hv hnext_v
    intro d hd
    exact ((ServerView.has_absorb_iff _ _ d).mp hd).symm.imp_right
      (ServerView.latest_isSome s.view d).mp
  have hcoh' : Coherent main'.ring := by
    rw [hring]
    exact (coherent_afterRemove_iff hcoh hlen' hnext_v).mpr
      (hrouted.agrees hcoh hlen' hv hnext_v)
  refine ⟨main', _, hremove, hids, documentsPlaced_iff.mpr hrouted',
    cachesCoherent_iff.mpr hcoh', ?_⟩
  intro d
  refine ⟨content main.ring d, get_content_eq wf hne hcoh d, ?_⟩
  have hne' : main'.ring ≠ [] := by
    rw [hring]
    exact afterRemove_ne_nil hlen'
  rw [get_content_eq wf' hne' hcoh' d, hring,
    content_afterRemove asc hlen' hv hnext_v hrouted d]

/-- Whether every document is in its place, checked on the entries and the pending edits. -/
theorem documentsPlaced_of_entries {main : LoadBalancer} (wf : main.WF)
    (h : ∀ p ∈ main.servers.zipIdx, ∀ d ∈ p.1.db.entries.map Info.key ++
      p.1.tasks.contents.map Request.doc_name, get_server main (hash_string d) = p.2) :
    DocumentsPlaced main := by
  intro j s hs d hd
  exact h (s, j) (List.mem_zipIdx_iff_getElem?.mpr hs) d
    (mem_names_of_has (wf.of_getElem? hs) hd)

/-- One of two servers is removed while it has a stored and a pending document. -/
theorem remove_server_invisible_two_servers :
    ∃ main, Reachable [.ADD_SERVER 1 1, .ADD_SERVER 2 1, .EDIT (.ofString "a") (.ofString "x"),
        .GET (.ofString "a"), .EDIT (.ofString "b") (.ofString "y")] main ∧
      ∃ main' executed, loader_remove_server main 1 = .ok (main', executed) ∧
        main'.servers.map Server.id = [2] ∧ DocumentsPlaced main' ∧ CachesCoherent main' ∧
        ∀ d, ∃ c, get_content main d = .ok c ∧ get_content main' d = .ok c := by
  obtain ⟨main, hreach, htest⟩ := exists_reachable [.ADD_SERVER 1 1, .ADD_SERVER 2 1,
    .EDIT (.ofString "a") (.ofString "x"), .GET (.ofString "a"),
    .EDIT (.ofString "b") (.ofString "y")]
    (fun main => decide (main.servers.map Server.id = [1, 2] ∧
        get_server main (hash_uint 1) = 0) &&
      (decide ((main.servers.map fun s => hash_uint s.id).Pairwise (· < ·)) &&
      (decide (∀ p ∈ main.servers.zipIdx, ∀ d ∈ p.1.db.entries.map Info.key ++
        p.1.tasks.contents.map Request.doc_name, get_server main (hash_string d) = p.2) &&
      decide (∀ s ∈ main.servers, ∀ e ∈ s.cache.entries,
        s.db.lookup hash_string e.1 = some e.2)))) (by decide +kernel)
  simp only [Bool.and_eq_true, decide_eq_true_eq] at htest
  obtain ⟨⟨hids, hslot⟩, hpos, hentries, hcached⟩ := htest
  have wf := (reached_invariant hreach).1
  have hlen : main.servers.length = 2 := by
    rw [← List.length_map Server.id, hids]
    rfl
  obtain ⟨main', executed, hremove, hids', hplaced, hcoherent, hreads⟩ :=
    remove_server_invisible wf hlen.ge hpos (documentsPlaced_of_entries wf hentries) hcached 1
  rw [hids, hslot] at hids'
  exact ⟨main, hreach, main', executed, hremove, hids', hplaced, hcoherent, hreads⟩

end DistDb
