/-
  DistDb.Topology — a server that comes and goes, and one that never was.

  ADD_SERVER and REMOVE_SERVER find the server they deal with by the position of an id.  When the
  id was added just before, the two computations meet in the same neighbour, and the removal undoes
  the addition up to what the neighbour had cached.  When no server has the id, there is still a
  server that serves its position, and `loader_remove_server` takes that one out.

  Main results:
    * `slot_afterAdd`, `removeNextSlot_afterAdd` — the removal finds the new server and the server
      it has its documents from,
    * `removal_after_addition` — and leaves the other servers as they stood,
    * `add_then_remove_restores` — what is left of an addition that is taken back,
    * `remove_unknown_drops_server` — what the removal of an id that no server has does.
-/
import DistDb.Routing

namespace DistDb

open Lib

/-! ## §1. The neighbour of a new server. -/

namespace HashRing

variable {ring : HashRing} {id cache_size : Int32} {next : ServerView}

/-- A new server takes documents from the one that served its position. -/
theorem addNextSlot_eq_slot (asc : Ascending ring) (hne : ring ≠ []) (id : Int32) :
    addNextSlot ring id = slot ring (hash_uint id) := by
  unfold addNextSlot
  rw [← length_positions]
  exact SuccessorRing.insertSlot_mod_length asc (positions_ne_nil hne) _

/-- **A new server serves its own position**, so that a removal finds it. -/
theorem slot_afterAdd (cache_size : Int32) (asc : Ascending ring)
    (hnext : ring[addNextSlot ring id]? = some next) :
    slot (afterAdd ring id cache_size next) (hash_uint id) = addSlot ring id := by
  have hne := ne_nil_of_getElem? hnext
  apply (SuccessorRing.slotOf_eq_iff (positions_ne_nil (afterAdd_ne_nil hnext))).mpr
  rw [positions_afterAdd hnext]
  exact SuccessorRing.serves_insertIdx_self (isInsertSlot_addSlot asc hne id)

/-- **Its documents go back where they came from**: the next slot of the removal is that of the
addition, shifted by the new server. -/
theorem removeNextSlot_afterAdd (cache_size : Int32) (asc : Ascending ring)
    (hnext : ring[addNextSlot ring id]? = some next) :
    removeNextSlot (afterAdd ring id cache_size next) id
      = SuccessorRing.slotAfterInsert (addSlot ring id) (addNextSlot ring id) := by
  have hne := ne_nil_of_getElem? hnext
  unfold removeNextSlot
  rw [slot_afterAdd cache_size asc hnext, length_afterAdd hne]
  exact (SuccessorRing.slotAfterInsert_mod (addSlot_le ring hne id)
    (List.length_pos_iff.mpr hne)).symm

end HashRing

namespace ServerView

/-- What was taken out of a server is written back. -/
theorem docs_absorb_departing (v : ServerView) (goes : CString → Bool) :
    ((v.without goes).absorb (v.departing goes)).docs = v.docs := by
  funext d
  show (v.departing goes d).or (if goes d then none else v.docs d) = v.docs d
  unfold departing
  split_ifs
  · exact Option.or_none
  · rfl

theorem cached_without_sublist (v : ServerView) (goes : CString → Bool) :
    (v.without goes).cached.Sublist v.cached := List.filter_sublist

end ServerView

open HashRing

/-! ## §2. An addition that is taken back. -/

/-- The removal of an id that was just added finds the new server, and behind it the one that the
documents came from; without the new server the others stand as before. -/
theorem removal_after_addition {main main₁ : LoadBalancer} {id cache_size : Int32}
    {next_s next_s₁ s₁ : Server} (asc : Ascending main.ring)
    (hnext : main.servers[addNextSlot main.ring id]? = some next_s)
    (hservers : main₁.servers = (main.servers.set (addNextSlot main.ring id) next_s₁).insertIdx
      (addSlot main.ring id) s₁)
    (hring₁ : main₁.ring = afterAdd main.ring id cache_size next_s.view) :
    main₁.servers[slot main₁.ring (hash_uint id)]? = some s₁ ∧
      main₁.servers[removeNextSlot main₁.ring id]? = some next_s₁ ∧
      2 ≤ main₁.servers.length ∧
      ∀ s, (main₁.servers.set (removeNextSlot main₁.ring id) s).eraseIdx
          (slot main₁.ring (hash_uint id)) = main.servers.set (addNextSlot main.ring id) s := by
  have hnext_v := LoadBalancer.getElem?_ring hnext
  have hring := ne_nil_of_getElem? hnext_v
  have hslot : slot main₁.ring (hash_uint id) = addSlot main.ring id := by
    rw [hring₁]
    exact slot_afterAdd cache_size asc hnext_v
  have hnext_slot : removeNextSlot main₁.ring id
      = SuccessorRing.slotAfterInsert (addSlot main.ring id) (addNextSlot main.ring id) := by
    rw [hring₁]
    exact removeNextSlot_afterAdd cache_size asc hnext_v
  rw [hslot, hnext_slot, ← LoadBalancer.length_ring, hring₁, length_afterAdd hring, hservers]
  refine ⟨?_, ?_, ?_, ?_⟩
  · -- the slot of an insertion is at most the length, also behind the tail
    rw [List.getElem?_insertIdx_self, if_pos]
    rw [List.length_set, ← LoadBalancer.length_ring]
    exact addSlot_le main.ring hring id
  · rw [SuccessorRing.getElem?_slotAfterInsert,
      List.getElem?_set_self (List.getElem?_eq_some_iff.mp hnext).1]
  · exact Nat.succ_le_succ (List.length_pos_iff.mpr hring)
  · intro s
    rw [SuccessorRing.eraseIdx_set_insertIdx, List.set_set]

/-- **ADD_SERVER followed by REMOVE_SERVER of the same id** leaves the servers as they were, except
for the one that served the position of the id: its queue has been executed, its documents are
those it has then, and of its cache a part is left, in the same order. -/
theorem add_then_remove_restores {commands : List Command} {main : LoadBalancer}
    (h : Reachable commands main) (hne : main.servers ≠ []) (id : Int32) {cache_size : Int32}
    (hsize : 1 ≤ cache_size) :
    ∃ next_s drained next_s' executed main₁ main₂,
      main.servers[get_server main (hash_uint id)]? = some next_s ∧
      execute_queue next_s = .ok (drained, executed) ∧
      loader_add_server main id cache_size = .ok (main₁, executed) ∧
      loader_remove_server main₁ id = .ok (main₂, []) ∧
      main₂.servers = main.servers.set (get_server main (hash_uint id)) next_s' ∧
      next_s'.id = next_s.id ∧
      (∀ d, next_s'.db.lookup hash_string d = drained.db.lookup hash_string d) ∧
      next_s'.cache.entries.Sublist drained.cache.entries ∧
      next_s'.tasks.contents = [] := by
  obtain ⟨wf, asc, -⟩ := reached_invariant h
  have hring : main.ring ≠ [] := servers_ne_nil_iff.mp hne
  rw [get_server_eq, ← addNextSlot_eq_slot asc hring]
  obtain ⟨next_s, hnext⟩ := exists_server (j := addNextSlot main.ring id)
    (Nat.mod_lt _ (List.length_pos_iff.mpr hring))
  obtain ⟨drained, new, next_s₁, s₁, hexec, -, -, hadd, -, hdrained, next_wf, s_wf, hnext_view,
    hs_view⟩ := loader_add_server_spec wf hsize hnext
  -- the ring with the new server, in which the removal looks for it
  have wf₁ := (wf.set (addNextSlot main.ring id) next_wf).insertIdx (addSlot main.ring id) s_wf
  have hring₁ : (LoadBalancer.mk ((main.servers.set (addNextSlot main.ring id) next_s₁).insertIdx
      (addSlot main.ring id) s₁)).ring = afterAdd main.ring id cache_size next_s.view := by
    rw [LoadBalancer.ring_insertIdx, LoadBalancer.ring_set, hnext_view, hs_view]
    rfl
  obtain ⟨hs₁, hnext₁, hlen, hrestored⟩ := removal_after_addition asc hnext rfl hring₁
  obtain ⟨next_s', hremove, -, hview⟩ := loader_remove_server_spec wf₁ hlen hs₁ hnext₁
  -- the queue of the new server is empty, and its documents are those it has taken
  have hpending : s₁.view.pending = [] := by
    rw [hs_view]
    rfl
  have hdocs : s₁.view.drained.docs = drained.view.departing (goes main.ring id next_s.view) := by
    rw [ServerView.drained_of_pending_nil hpending, hs_view, hdrained]
    exact funext fun d => Option.or_none
  rw [hdocs, hnext_view, ← hdrained] at hview
  rw [hpending] at hremove
  refine ⟨next_s, drained, next_s', _, _, _, hnext, hexec, hadd, hremove, hrestored next_s', ?_,
    ?_, ?_, ?_⟩
  · have hid : drained.view.id = next_s.view.id := by
      rw [hdrained]
      exact ServerView.id_drained _
    exact (congrArg ServerView.id hview).trans hid
  · have := (congrArg ServerView.docs hview).trans (ServerView.docs_absorb_departing _ _)
    exact congrFun this
  · have hcached : next_s'.cache.entries
        = (drained.view.without (goes main.ring id next_s.view)).cached :=
      congrArg ServerView.cached hview
    rw [hcached]
    exact ServerView.cached_without_sublist _ _
  · have hdrained_pending : drained.view.pending = [] := by
      rw [hdrained]
      rfl
    exact (congrArg ServerView.pending hview).trans hdrained_pending

/-- A server takes both documents of the only server over, and gives them back; the one that was
cached no longer is. -/
theorem add_then_remove_restores_single :
    ∃ main, Reachable [.ADD_SERVER 1 2, .EDIT (.ofString "a") (.ofString "x"),
        .GET (.ofString "a"), .EDIT (.ofString "b") (.ofString "y")] main ∧
      ∃ next_s drained next_s' executed main₁ main₂,
        main.servers[get_server main (hash_uint 5)]? = some next_s ∧
        execute_queue next_s = .ok (drained, executed) ∧
        loader_add_server main 5 1 = .ok (main₁, executed) ∧
        (main₁.servers.map fun s => s.db.entries.length) = [2, 0] ∧
        loader_remove_server main₁ 5 = .ok (main₂, []) ∧
        main₂.servers = main.servers.set (get_server main (hash_uint 5)) next_s' ∧
        next_s'.id = next_s.id ∧
        (∀ d, next_s'.db.lookup hash_string d = drained.db.lookup hash_string d) ∧
        next_s'.cache.entries.Sublist drained.cache.entries ∧
        next_s'.tasks.contents = [] := by
  obtain ⟨main, hreach, htest⟩ := exists_reachable [.ADD_SERVER 1 2,
    .EDIT (.ofString "a") (.ofString "x"), .GET (.ofString "a"),
    .EDIT (.ofString "b") (.ofString "y")]
    (fun main => decide (main.servers ≠ []) && (loader_add_server main 5 1).toOption.any fun r =>
      r.1.servers.map (fun s => s.db.entries.length) == [2, 0]) (by decide +kernel)
  rw [Bool.and_eq_true, decide_eq_true_eq] at htest
  obtain ⟨hne, hmoved⟩ := htest
  obtain ⟨next_s, drained, next_s', executed, main₁, main₂, hnext, hexec, hadd, hremove, hrest⟩ :=
    add_then_remove_restores hreach hne 5 (by decide : (1 : Int32) ≤ 1)
  rw [hadd, Except.toOption, Option.any_some, beq_iff_eq] at hmoved
  exact ⟨main, hreach, next_s, drained, next_s', executed, main₁, main₂, hnext, hexec, hadd, hmoved,
    hremove, hrest⟩

/-! ## §3. The removal of a server that is not there. -/

/-- **The removal of an unknown id takes a live server out**: the one that serves the position of
the id, whatever its own id is.  In no state is the ring left as it was. -/
theorem remove_unknown_drops_server {commands : List Command} {main : LoadBalancer}
    (h : Reachable commands main) (hne : main.servers ≠ []) {id : Int32}
    (hid : ∀ s ∈ main.servers, s.id ≠ id) :
    ∃ s main' executed,
      main.servers[get_server main (hash_uint id)]? = some s ∧ s.id ≠ id ∧
      loader_remove_server main id = .ok (main', executed) ∧
      main'.servers.map Server.id
        = (main.servers.map Server.id).eraseIdx (get_server main (hash_uint id)) ∧
      ¬ ∃ executed', loader_remove_server main id = .ok (main, executed') := by
  have wf := (reached_invariant h).1
  have hring : main.ring ≠ [] := servers_ne_nil_iff.mp hne
  have hlt := slot_lt hring (hash_uint id)
  obtain ⟨s, hs⟩ := exists_server hlt
  rw [← get_server_eq, LoadBalancer.length_ring] at hlt
  rw [← get_server_eq] at hs
  obtain ⟨main', executed, hremove, hids, -⟩ := loader_remove_server_erases wf hne id
  refine ⟨s, main', executed, hs, hid s (List.mem_of_getElem? hs), hremove, hids, ?_⟩
  -- the ring is one server shorter
  rintro ⟨executed', hsame⟩
  rw [hremove] at hsame
  cases hsame
  have hlen := congrArg List.length hids
  rw [List.length_eraseIdx_of_lt (by rwa [List.length_map]), List.length_map] at hlen
  omega

/-- The only server goes when an id is removed that it does not have. -/
theorem remove_unknown_drops_server_single :
    ∃ main main' executed, Reachable [.ADD_SERVER 1 1] main ∧
      loader_remove_server main 2 = .ok (main', executed) ∧
      ¬ ∃ executed', loader_remove_server main 2 = .ok (main, executed') := by
  obtain ⟨main, hreach, hids⟩ := exists_reachable [.ADD_SERVER 1 1]
    (fun main => decide (main.servers ≠ [] ∧ ∀ s ∈ main.servers, s.id ≠ 2)) (by decide +kernel)
  obtain ⟨hne, hid⟩ := of_decide_eq_true hids
  obtain ⟨_, main', executed, _, _, hremove, _, hchanged⟩ :=
    remove_unknown_drops_server hreach hne hid
  exact ⟨main, main', executed, hreach, hremove, hchanged⟩

/-- **An unknown id costs a server**: server `1` is gone after the removal of `2`. -/
theorem unknown_removal_changes_ring :
    ¬ ∀ commands main, Reachable commands main → main.servers ≠ [] →
      ∀ id : Int32, (∀ s ∈ main.servers, s.id ≠ id) →
        ∃ executed, loader_remove_server main id = .ok (main, executed) := by
  intro claim
  obtain ⟨main, hreach, hids⟩ := exists_reachable [.ADD_SERVER 1 1]
    (fun main => decide (main.servers ≠ [] ∧ (∀ s ∈ main.servers, s.id ≠ 2)) &&
      (loader_remove_server main 2).toOption.any fun r => r.1.servers.isEmpty)
    (by decide +kernel)
  rw [Bool.and_eq_true] at hids
  obtain ⟨hne, hid⟩ := of_decide_eq_true hids.1
  obtain ⟨executed, hsame⟩ := claim _ main hreach hne 2 hid
  rw [hsame, Except.toOption, Option.any_some] at hids
  exact hne (List.isEmpty_iff.mp hids.2)

end DistDb
