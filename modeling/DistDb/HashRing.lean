/-
  DistDb.HashRing — what the ring of servers is for, and that the load balancer computes it.

  A `HashRing` is the list of the servers' views in the order of the ring.  `HashRing.Step` says
  what each command does to it, one rule for each case of the code.

  Main results, for a load balancer whose servers are well formed:
    * `get_server_eq` — `get_server` is successor routing,
    * `loader_add_server_spec`, `loader_remove_server_spec`, `loader_forward_request_spec` — what
      each operation returns,
    * `apply_request_spec` — an enabled command returns, keeps the servers well formed and takes
      a step of the ring,
    * `apply_request_of_not_enabled` — every other command faults.
-/
import DistDb.Main
import DistDb.Migration
import DistDb.Lib.SuccessorRing
import Mathlib.Data.List.InsertIdx

namespace DistDb

open Lib

/-! ## §1. The ring and its steps. -/

/-- The servers from outside, in the order of the ring. -/
abbrev HashRing := List ServerView

namespace HashRing

/-- The positions of the servers. -/
def positions (ring : HashRing) : List UInt32 := ring.map fun v => hash_uint v.id

/-- The slot of the server that serves a position. -/
def slot (ring : HashRing) (hash : UInt32) : ℕ := SuccessorRing.slotOf (positions ring) hash

/-- The slot of the server that serves a document. -/
def route (ring : HashRing) (d : CString) : ℕ := slot ring (hash_string d)

/-- The slot at which a new server goes. -/
def addSlot (ring : HashRing) (id : Int32) : ℕ :=
  SuccessorRing.insertSlot (positions ring) (hash_uint id)

/-- The slot of the server that a new one takes documents from. -/
def addNextSlot (ring : HashRing) (id : Int32) : ℕ := addSlot ring id % ring.length

/-- The slot of the server that takes over the documents of a removed one. -/
def removeNextSlot (ring : HashRing) (id : Int32) : ℕ :=
  (slot ring (hash_uint id) + 1) % ring.length

/-- The documents of `next` that move to a new server. -/
def goes (ring : HashRing) (id : Int32) (next : ServerView) : CString → Bool :=
  moves_key (hash_uint id) (addNextSlot ring id == 0) (hash_uint next.id)

/-- A server that was just added. -/
def fresh (id cache_size : Int32) : ServerView :=
  { id := id, capacity := cache_size.toUInt32.toNat, docs := fun _ => none, cached := [],
    pending := [] }

/-- The new server, with the documents it has taken from `next`. -/
def added (ring : HashRing) (id cache_size : Int32) (next : ServerView) : ServerView :=
  (fresh id cache_size).absorb (next.drained.departing (goes ring id next))

/-- The ring after a server was added in front of `next`. -/
def afterAdd (ring : HashRing) (id cache_size : Int32) (next : ServerView) : HashRing :=
  (ring.set (addNextSlot ring id) (next.drained.without (goes ring id next))).insertIdx
    (addSlot ring id) (added ring id cache_size next)

/-- The ring after `v` was removed and its documents written over those of `next`. -/
def afterRemove (ring : HashRing) (id : Int32) (v next : ServerView) : HashRing :=
  (ring.set (removeNextSlot ring id) (next.absorb v.drained.docs)).eraseIdx
    (slot ring (hash_uint id))

/-- What a command does to the ring and what it prints. -/
inductive Step : HashRing → Command → HashRing → Output → Prop
  | addFirst {id cache_size : Int32} (hsize : 1 ≤ cache_size) :
      Step [] (.ADD_SERVER id cache_size) [fresh id cache_size] ⟨[], none⟩
  | add {ring : HashRing} {id cache_size : Int32} {next : ServerView} (hsize : 1 ≤ cache_size)
      (hnext : ring[addNextSlot ring id]? = some next) :
      Step ring (.ADD_SERVER id cache_size) (afterAdd ring id cache_size next)
        ⟨next.executed next.pending, none⟩
  | removeOnly {v : ServerView} {id : Int32} : Step [v] (.REMOVE_SERVER id) [] ⟨[], none⟩
  | remove {ring : HashRing} {id : Int32} {v next : ServerView} (hlen : 2 ≤ ring.length)
      (hv : ring[slot ring (hash_uint id)]? = some v)
      (hnext : ring[removeNextSlot ring id]? = some next) :
      Step ring (.REMOVE_SERVER id) (afterRemove ring id v next) ⟨v.executed v.pending, none⟩
  | edit {ring : HashRing} {d c : CString} {v : ServerView} (hv : ring[route ring d]? = some v) :
      Step ring (.EDIT d c) (ring.set (route ring d) (v.accept (editRequest d c)))
        ⟨[], some (v.acknowledge (editRequest d c))⟩
  | get {ring : HashRing} {d : CString} {v : ServerView} (hv : ring[route ring d]? = some v) :
      Step ring (.GET d) (ring.set (route ring d) (v.drained.get d).1)
        ⟨v.executed v.pending, some (v.drained.get d).2⟩

/-- An addition to a ring with servers is the one in front of its next server. -/
theorem Step.add_eq {ring ring' : HashRing} {id cache_size : Int32} {next : ServerView}
    {out : Output} (hstep : Step ring (.ADD_SERVER id cache_size) ring' out)
    (hnext : ring[addNextSlot ring id]? = some next) :
    ring' = afterAdd ring id cache_size next := by
  cases hstep with
  | addFirst => cases hnext
  | add _ hnext' =>
    cases hnext.symm.trans hnext'
    rfl

/-- A removal from a ring of several servers hands the documents of `v` to `next`. -/
theorem Step.remove_eq {ring ring' : HashRing} {id : Int32} {v next : ServerView} {out : Output}
    (hstep : Step ring (.REMOVE_SERVER id) ring' out) (hlen : 2 ≤ ring.length)
    (hv : ring[slot ring (hash_uint id)]? = some v)
    (hnext : ring[removeNextSlot ring id]? = some next) : ring' = afterRemove ring id v next := by
  cases hstep with
  | removeOnly => exact absurd hlen (Nat.not_succ_le_self 1)
  | remove _ hv' hnext' =>
    cases hv.symm.trans hv'
    cases hnext.symm.trans hnext'
    rfl

/-- The commands that the ring can carry out. -/
def Enabled (ring : HashRing) : Command → Prop
  | .ADD_SERVER _ cache_size => 1 ≤ cache_size
  | _ => ring ≠ []

/-! ### Slots of a ring. -/

theorem length_positions (ring : HashRing) : (positions ring).length = ring.length :=
  List.length_map _

theorem positions_ne_nil {ring : HashRing} (hne : ring ≠ []) : positions ring ≠ [] := by
  simpa [positions] using hne

theorem slot_lt {ring : HashRing} (hne : ring ≠ []) (hash : UInt32) :
    slot ring hash < ring.length :=
  length_positions ring ▸ SuccessorRing.slotOf_lt_length (positions_ne_nil hne) hash

theorem addSlot_le (ring : HashRing) (hne : ring ≠ []) (id : Int32) :
    addSlot ring id ≤ ring.length := by
  unfold addSlot SuccessorRing.insertSlot
  rw [length_positions]
  split_ifs
  · exact Nat.le_refl _
  · exact Nat.le_of_lt (slot_lt hne (hash_uint id))

theorem length_afterAdd {ring : HashRing} (hne : ring ≠ []) (id cache_size : Int32)
    (next : ServerView) : (afterAdd ring id cache_size next).length = ring.length + 1 := by
  rw [afterAdd, List.length_insertIdx_of_le_length (by simpa using addSlot_le ring hne id),
    List.length_set]

theorem length_afterRemove {ring : HashRing} (hne : ring ≠ []) (id : Int32)
    (v next : ServerView) : (afterRemove ring id v next).length = ring.length - 1 := by
  rw [afterRemove, List.length_eraseIdx_of_lt (by simpa using slot_lt hne (hash_uint id)),
    List.length_set]

end HashRing

/-! ## §2. The load balancer as a ring. -/

namespace LoadBalancer

open HashRing

/-- The servers from outside. -/
def ring (main : LoadBalancer) : HashRing := main.servers.map Server.view

/-- A load balancer as its operations leave it. -/
def WF (main : LoadBalancer) : Prop := ∀ s ∈ main.servers, s.WF

theorem length_ring (main : LoadBalancer) : main.ring.length = main.servers.length :=
  List.length_map _

theorem getElem?_ring {main : LoadBalancer} {j : ℕ} {s : Server} (h : main.servers[j]? = some s) :
    main.ring[j]? = some s.view := by
  rw [ring, List.getElem?_map, h]
  rfl

theorem exists_server_of_ring {main : LoadBalancer} {j : ℕ} {v : ServerView}
    (hv : main.ring[j]? = some v) : ∃ s, main.servers[j]? = some s ∧ s.view = v := by
  rw [ring, List.getElem?_map] at hv
  exact Option.map_eq_some_iff.mp hv

/-- An id that no server has is one that no view has. -/
theorem ring_id_ne {main : LoadBalancer} {id : Int32} (h : ∀ s ∈ main.servers, s.id ≠ id) :
    ∀ v ∈ main.ring, v.id ≠ id := by
  intro v hv
  obtain ⟨s, hs, rfl⟩ := List.mem_map.mp hv
  exact h s hs

theorem positions_ring (main : LoadBalancer) :
    positions main.ring = main.servers.map fun s => hash_uint s.id := List.map_map

theorem ring_set (main : LoadBalancer) (j : ℕ) (s : Server) :
    ring { servers := main.servers.set j s } = main.ring.set j s.view := List.map_set

theorem ring_insertIdx (main : LoadBalancer) (k : ℕ) (s : Server) :
    ring { servers := main.servers.insertIdx k s } = main.ring.insertIdx k s.view :=
  List.map_insertIdx ..

theorem ring_eraseIdx (main : LoadBalancer) (k : ℕ) :
    ring { servers := main.servers.eraseIdx k } = main.ring.eraseIdx k :=
  (List.eraseIdx_map ..).symm

theorem WF.of_getElem? {main : LoadBalancer} (wf : main.WF) {j : ℕ} {s : Server}
    (h : main.servers[j]? = some s) : s.WF := wf s (List.mem_of_getElem? h)

theorem WF.set {main : LoadBalancer} (wf : main.WF) (j : ℕ) {s : Server} (hs : s.WF) :
    WF { servers := main.servers.set j s } := by
  intro s' hs'
  rcases List.mem_or_eq_of_mem_set hs' with h | rfl
  · exact wf s' h
  · exact hs

theorem WF.insertIdx {main : LoadBalancer} (wf : main.WF) (k : ℕ) {s : Server} (hs : s.WF) :
    WF { servers := main.servers.insertIdx k s } := by
  intro s' hs'
  rcases List.eq_or_mem_of_mem_insertIdx hs' with rfl | h
  · exact hs
  · exact wf s' h

theorem WF.eraseIdx {main : LoadBalancer} (wf : main.WF) (k : ℕ) :
    WF { servers := main.servers.eraseIdx k } :=
  fun s hs => wf s (List.mem_of_mem_eraseIdx hs)

end LoadBalancer

theorem servers_ne_nil_iff {main : LoadBalancer} : main.servers ≠ [] ↔ main.ring ≠ [] := by
  simp [LoadBalancer.ring]

open HashRing

theorem get_server_from_eq (hash : UInt32) (servers : List Server) (slot : ℕ) :
    get_server_from hash servers slot
      = match (servers.map fun s => hash_uint s.id).findIdx? (fun p => decide (hash ≤ p)) with
        | some i => slot + i
        | none => 0 := by
  induction servers generalizing slot with
  | nil => rfl
  | cons s servers ih =>
    rw [get_server_from, List.map_cons, List.findIdx?_cons]
    by_cases h : hash ≤ hash_uint s.id
    · simp [h]
    · rw [if_neg h, ih, decide_eq_false h]
      cases (servers.map fun s => hash_uint s.id).findIdx? (fun p => decide (hash ≤ p)) with
      | none => rfl
      | some i =>
        show slot + 1 + i = slot + (i + 1)
        omega

/-- **`get_server` is successor routing.** -/
theorem get_server_eq (main : LoadBalancer) (hash : UInt32) :
    get_server main hash = slot main.ring hash := by
  rw [get_server, get_server_from_eq, slot, main.positions_ring, SuccessorRing.slotOf]
  cases (main.servers.map fun s => hash_uint s.id).findIdx? (fun p => decide (hash ≤ p)) with
  | none => rfl
  | some i => exact Nat.zero_add i

/-! ## §3. Adding a server. -/

/-- The code finds the new server's slot. -/
theorem add_slot_eq {main : LoadBalancer} {tail_server : Server}
    (htail : main.servers.getLast? = some tail_server) (id : Int32) :
    (if hash_uint id > hash_uint tail_server.id then main.servers.length
      else get_server main (hash_uint id)) = addSlot main.ring id := by
  have hlast : (positions main.ring).getLast? = some (hash_uint tail_server.id) := by
    rw [main.positions_ring, List.getLast?_map, htail, Option.map_some]
  rw [addSlot, SuccessorRing.insertSlot, hlast, length_positions, LoadBalancer.length_ring,
    get_server_eq]
  by_cases hpast : hash_uint tail_server.id < hash_uint id
  · rw [if_pos hpast, Option.any_some, if_pos (decide_eq_true hpast)]
  · rw [if_neg hpast, Option.any_some, if_neg (by simpa using hpast)]
    rfl

/-- What `loader_add_server` computes from the list are the slots and the test of the ring. -/
theorem loader_add_server_eq {main : LoadBalancer} {id cache_size : Int32}
    {next_s drained new next_s' s' : Server} {executed : List Executed}
    (hnext : main.servers[addNextSlot main.ring id]? = some next_s)
    (hnew : init_server cache_size.toUInt32 = some new)
    (hexec : execute_queue next_s = .ok (drained, executed)) (hid : drained.id = next_s.id)
    (hloop : migrate_loop (goes main.ring id next_s.view) (migrate_rounds drained) 0 drained
      { new with id := id } = .ok (next_s', s')) :
    loader_add_server main id cache_size = .ok
      ({ servers := (main.servers.set (addNextSlot main.ring id) next_s').insertIdx
          (addSlot main.ring id) s' }, executed) := by
  have hlt := (List.getElem?_eq_some_iff.mp hnext).1
  have hpos : 0 < main.servers.length := by omega
  have hne : main.servers ≠ [] := List.length_pos_iff.mp hpos
  have hring : main.ring ≠ [] := servers_ne_nil_iff.mp hne
  obtain ⟨tail_server, htail⟩ : ∃ t, main.servers.getLast? = some t :=
    ⟨_, List.getLast?_eq_some_getLast hne⟩
  have hslot := add_slot_eq htail id
  have hnext_slot : addSlot main.ring id % main.servers.length = addNextSlot main.ring id := by
    rw [addNextSlot, LoadBalancer.length_ring]
  have hmoves : moves_key (hash_uint id) (addNextSlot main.ring id == 0) (hash_uint drained.id)
      = goes main.ring id next_s.view := by
    rw [hid]
    rfl
  rw [loader_add_server, hnew]
  simp only [Nat.ne_of_gt hpos, if_false, htail, hslot, remainder_of_pos hpos, ok_bind,
    hnext_slot, ll_get_nth_node, hnext, hexec, hmoves, hloop, pure_eq_ok]
  rw [ll_add_nth_node_of_le]
  rw [List.length_set, ← LoadBalancer.length_ring]
  exact addSlot_le _ hring id

/-- **`loader_add_server`** on a ring with servers: the queue of the next server is executed, the
loop over its buckets ends, and the new server is linked in with the documents it took. -/
theorem loader_add_server_spec {main : LoadBalancer} (wf : main.WF) {id cache_size : Int32}
    (hsize : 1 ≤ cache_size) {next_s : Server}
    (hnext : main.servers[addNextSlot main.ring id]? = some next_s) :
    ∃ drained new next_s' s', execute_queue next_s
        = .ok (drained, next_s.view.executed next_s.view.pending) ∧
      init_server cache_size.toUInt32 = some new ∧
      migrate_loop (goes main.ring id next_s.view) (migrate_rounds drained) 0 drained
          { new with id := id } = .ok (next_s', s') ∧
      loader_add_server main id cache_size = .ok
        ({ servers := (main.servers.set (addNextSlot main.ring id) next_s').insertIdx
            (addSlot main.ring id) s' }, next_s.view.executed next_s.view.pending) ∧
      drained.WF ∧ drained.view = next_s.view.drained ∧ next_s'.WF ∧ s'.WF ∧
      next_s'.view = next_s.view.drained.without (goes main.ring id next_s.view) ∧
      s'.view = added main.ring id cache_size next_s.view := by
  obtain ⟨new, hnew, new_wf, hfresh⟩ := init_server_id_spec (toUInt32_of_pos hsize) id
  obtain ⟨drained, hexec, drained_wf, hdrained⟩ := execute_queue_spec (wf.of_getElem? hnext)
  have hid : drained.id = next_s.id := by
    show drained.view.id = next_s.view.id
    rw [hdrained]
    exact ServerView.id_drained _
  -- the loop starts at bucket `0`, where no bucket has been scanned
  obtain ⟨next_s', s', hloop, next_wf, s_wf, hnext_view, hs_view⟩ :=
    migrate_loop_spec (goes main.ring id next_s.view) (migrate_rounds drained) (b := 0)
      drained_wf new_wf (fun d _ hindex => absurd hindex (Nat.not_lt_zero _))
      (Nat.add_le_add_left (Nat.sub_le _ _) _)
  rw [hdrained] at hnext_view hs_view
  rw [hfresh] at hs_view
  exact ⟨drained, new, next_s', s', hexec, hnew, hloop,
    loader_add_server_eq hnext hnew hexec hid hloop, drained_wf, hdrained, next_wf, s_wf,
    hnext_view, hs_view⟩

/-- What `loader_add_server` does to the ring. -/
theorem loader_add_server_ring {main : LoadBalancer} (wf : main.WF) {id cache_size : Int32}
    (hsize : 1 ≤ cache_size) {next_s : Server}
    (hnext : main.servers[addNextSlot main.ring id]? = some next_s) :
    ∃ main', loader_add_server main id cache_size
        = .ok (main', next_s.view.executed next_s.view.pending) ∧ main'.WF ∧
      main'.ring = afterAdd main.ring id cache_size next_s.view := by
  obtain ⟨_, _, next_s', s', _, _, _, hadd, _, _, next_wf, s_wf, hnext_view, hs_view⟩ :=
    loader_add_server_spec wf hsize hnext
  have wf' := (wf.set (addNextSlot main.ring id) next_wf).insertIdx (addSlot main.ring id) s_wf
  refine ⟨_, hadd, wf', ?_⟩
  rw [LoadBalancer.ring_insertIdx, LoadBalancer.ring_set, hnext_view, hs_view]
  rfl

/-- `loader_add_server` on the empty ring. -/
theorem loader_add_server_first {main : LoadBalancer} (hnil : main.servers = []) (id : Int32)
    {cache_size : Int32} (hsize : 1 ≤ cache_size) :
    ∃ s, loader_add_server main id cache_size = .ok ({ servers := [s] }, []) ∧ s.WF ∧
      s.view = fresh id cache_size := by
  obtain ⟨new, hnew, new_wf, hfresh⟩ := init_server_id_spec (toUInt32_of_pos hsize) id
  refine ⟨{ new with id := id }, ?_, new_wf, hfresh⟩
  rw [loader_add_server, hnew, hnil]
  rfl

/-! ## §4. Removing a server. -/

/-- What `loader_remove_server` computes from the list are the slots of the ring. -/
theorem loader_remove_server_eq {main : LoadBalancer} {id : Int32}
    (hlen : 2 ≤ main.servers.length) {s next_s drained : Server} {executed : List Executed}
    {db : Hashtable CString CString}
    (hs : main.servers[slot main.ring (hash_uint id)]? = some s)
    (hnext : main.servers[removeNextSlot main.ring id]? = some next_s)
    (hexec : execute_queue s = .ok (drained, executed))
    (hmerge : merge_db drained.db next_s.db = .ok db) :
    loader_remove_server main id = .ok
      ({ servers := (main.servers.set (removeNextSlot main.ring id)
          { next_s with db := db }).eraseIdx (slot main.ring (hash_uint id)) }, executed) := by
  have hlt := (List.getElem?_eq_some_iff.mp hs).1
  have hnext_slot : (slot main.ring (hash_uint id) + 1) % main.servers.length
      = removeNextSlot main.ring id := by
    rw [removeNextSlot, LoadBalancer.length_ring]
  have hone : main.servers.length ≠ 1 := by omega
  have hpos : 0 < main.servers.length := by omega
  rw [loader_remove_server]
  simp only [get_server_eq, ll_get_nth_node, hs, hone, if_false, remainder_of_pos hpos, ok_bind,
    hnext_slot, hnext, hexec, hmerge, pure_eq_ok]
  rw [ll_remove_nth_node_of_lt (by simpa using hlt)]

/-- **`loader_remove_server`** on a ring of several servers: the queue of the removed server is
executed and its documents are written over those of the next one. -/
theorem loader_remove_server_spec {main : LoadBalancer} (wf : main.WF) {id : Int32}
    (hlen : 2 ≤ main.servers.length) {s next_s : Server}
    (hs : main.servers[slot main.ring (hash_uint id)]? = some s)
    (hnext : main.servers[removeNextSlot main.ring id]? = some next_s) :
    ∃ next_s', loader_remove_server main id = .ok
        ({ servers := (main.servers.set (removeNextSlot main.ring id) next_s').eraseIdx
            (slot main.ring (hash_uint id)) }, s.view.executed s.view.pending) ∧
      next_s'.WF ∧ next_s'.view = next_s.view.absorb s.view.drained.docs := by
  have next_wf := wf.of_getElem? hnext
  obtain ⟨drained, hexec, drained_wf, hdrained⟩ := execute_queue_spec (wf.of_getElem? hs)
  obtain ⟨db, hmerge, db_wf, hdocs⟩ := merge_db_spec drained_wf.db next_wf.db
  refine ⟨{ next_s with db := db }, loader_remove_server_eq hlen hs hnext hexec hmerge,
    ⟨next_wf.cache, db_wf, next_wf.tasks, next_wf.max_size⟩,
    Server.view_of_parts rfl rfl rfl ?_ rfl⟩
  rw [hdocs, ← hdrained]
  rfl

/-- What `loader_remove_server` does to the ring. -/
theorem loader_remove_server_ring {main : LoadBalancer} (wf : main.WF) {id : Int32}
    (hlen : 2 ≤ main.servers.length) {s next_s : Server}
    (hs : main.servers[slot main.ring (hash_uint id)]? = some s)
    (hnext : main.servers[removeNextSlot main.ring id]? = some next_s) :
    ∃ main', loader_remove_server main id = .ok (main', s.view.executed s.view.pending) ∧
      main'.WF ∧ main'.ring = afterRemove main.ring id s.view next_s.view := by
  obtain ⟨next_s', hremove, next_wf, hview⟩ := loader_remove_server_spec wf hlen hs hnext
  have wf' := (wf.set (removeNextSlot main.ring id) next_wf).eraseIdx
    (slot main.ring (hash_uint id))
  refine ⟨_, hremove, wf', ?_⟩
  rw [LoadBalancer.ring_eraseIdx, LoadBalancer.ring_set, hview]
  rfl

/-- `loader_remove_server` on a ring of one server. -/
theorem loader_remove_server_only {main : LoadBalancer} {s : Server} (hone : main.servers = [s])
    (id : Int32) : loader_remove_server main id = .ok ({ servers := [] }, []) := by
  have hslot : get_server main (hash_uint id) = 0 := by
    have hring : main.ring ≠ [] := by simp [LoadBalancer.ring, hone]
    have := slot_lt hring (hash_uint id)
    rw [LoadBalancer.length_ring, hone, List.length_singleton] at this
    rw [get_server_eq]
    omega
  simp only [loader_remove_server, hslot, hone]
  rfl

/-! ## §5. Forwarding a request. -/

/-- `loader_forward_request` hands the request to the server of its document. -/
theorem loader_forward_request_spec {main : LoadBalancer} (req : Request) {s s' : Server}
    {res : Option Response} {executed : List Executed}
    (hs : main.servers[route main.ring req.doc_name]? = some s)
    (hhandle : server_handle_request s req = .ok (s', res, executed)) :
    loader_forward_request main req
      = .ok ({ servers := main.servers.set (route main.ring req.doc_name) s' }, res, executed) := by
  have hslot : get_server main (hash_string req.doc_name) = route main.ring req.doc_name :=
    get_server_eq main _
  simp only [loader_forward_request, hslot, ll_get_nth_node, hs, hhandle, ok_bind, pure_eq_ok]

/-! ### Room for an edit. -/

/-- The queue of the server that a document is routed to has room for one more edit. -/
def HasRoom (main : LoadBalancer) : Command → Prop
  | .EDIT d _ => ∀ s ∈ main.servers[get_server main (hash_string d)]?,
      s.tasks.contents.length < TASK_QUEUE_SIZE
  | _ => True

instance (main : LoadBalancer) : DecidablePred (HasRoom main)
  | .EDIT _ _ => inferInstanceAs (Decidable (∀ s ∈ _, _))
  | .ADD_SERVER _ _ => inferInstanceAs (Decidable True)
  | .REMOVE_SERVER _ => inferInstanceAs (Decidable True)
  | .GET _ => inferInstanceAs (Decidable True)

/-- The server that an EDIT is sent to has room for it. -/
def HashRing.RoomyEdit (ring : HashRing) : Command → Prop
  | .EDIT d _ => ∀ v, ring[route ring d]? = some v → v.pending.length < TASK_QUEUE_SIZE
  | _ => True

/-- The condition of the code on the queue is that of the ring. -/
theorem hasRoom_iff {main : LoadBalancer} {command : Command} :
    HasRoom main command ↔ RoomyEdit main.ring command := by
  cases command with
  | EDIT d c =>
    have hslot : get_server main (hash_string d) = route main.ring d := get_server_eq main _
    constructor
    · intro h v hv
      obtain ⟨s, hs, rfl⟩ := LoadBalancer.exists_server_of_ring hv
      exact h s (hslot ▸ hs)
    · intro h s hs
      exact h s.view (LoadBalancer.getElem?_ring (hslot ▸ hs))
  | ADD_SERVER id cache_size => exact Iff.rfl
  | REMOVE_SERVER id => exact Iff.rfl
  | GET d => exact Iff.rfl

/-! ## §6. The command loop. -/

theorem exists_server {main : LoadBalancer} {j : ℕ} (hj : j < main.ring.length) :
    ∃ s, main.servers[j]? = some s :=
  ⟨_, List.getElem?_eq_getElem (main.length_ring ▸ hj)⟩

theorem not_neg_of_pos {cache_size : Int32} (hsize : 1 ≤ cache_size) : ¬ cache_size < 0 := by
  have : 1 ≤ cache_size.toInt := Int32.le_iff_toInt_le.mp hsize
  rw [Int32.lt_iff_toInt_lt]
  simp
  omega

theorem apply_add_spec {main : LoadBalancer} (wf : main.WF) (id : Int32) {cache_size : Int32}
    (hsize : 1 ≤ cache_size) :
    ∃ main' out, apply_request main (.ADD_SERVER id cache_size) = .ok (main', out) ∧ main'.WF ∧
      Step main.ring (.ADD_SERVER id cache_size) main'.ring out := by
  rw [apply_request, if_neg (not_neg_of_pos hsize)]
  by_cases hnil : main.servers = []
  · -- the first server takes nothing over
    obtain ⟨s, hadd, s_wf, hview⟩ := loader_add_server_first hnil id hsize
    rw [hadd]
    refine ⟨⟨[s]⟩, ⟨[], none⟩, rfl, ?_, ?_⟩
    · intro s' hs'
      rw [List.mem_singleton.mp hs']
      exact s_wf
    · rw [LoadBalancer.ring, hnil, LoadBalancer.ring, List.map_singleton, hview]
      exact .addFirst hsize
  · have hring : main.ring ≠ [] := servers_ne_nil_iff.mp hnil
    obtain ⟨next_s, hnext⟩ := exists_server (j := addNextSlot main.ring id)
      (Nat.mod_lt _ (List.length_pos_iff.mpr hring))
    obtain ⟨main', hadd, wf', hring'⟩ := loader_add_server_ring wf hsize hnext
    rw [hadd]
    refine ⟨main', ⟨next_s.view.executed next_s.view.pending, none⟩, rfl, wf', ?_⟩
    rw [hring']
    exact .add hsize (LoadBalancer.getElem?_ring hnext)

theorem apply_remove_spec {main : LoadBalancer} (wf : main.WF) (id : Int32)
    (hring : main.ring ≠ []) :
    ∃ main' out, apply_request main (.REMOVE_SERVER id) = .ok (main', out) ∧ main'.WF ∧
      Step main.ring (.REMOVE_SERVER id) main'.ring out := by
  have hpos := List.length_pos_iff.mpr hring
  rw [apply_request]
  rcases Nat.lt_or_ge main.ring.length 2 with hone | hlen
  · -- the only server goes with its documents and its queue
    have hlen : main.servers.length = 1 := by
      rw [← LoadBalancer.length_ring]
      omega
    obtain ⟨s, hs⟩ := List.length_eq_one_iff.mp hlen
    rw [loader_remove_server_only hs]
    refine ⟨⟨[]⟩, ⟨[], none⟩, rfl, List.forall_mem_nil _, ?_⟩
    rw [LoadBalancer.ring, hs]
    exact .removeOnly
  · obtain ⟨s, hs⟩ := exists_server (slot_lt hring (hash_uint id))
    obtain ⟨next_s, hnext⟩ := exists_server (j := removeNextSlot main.ring id)
      (Nat.mod_lt _ hpos)
    obtain ⟨main', hremove, wf', hring'⟩ :=
      loader_remove_server_ring wf (main.length_ring ▸ hlen) hs hnext
    rw [hremove]
    refine ⟨main', ⟨s.view.executed s.view.pending, none⟩, rfl, wf', ?_⟩
    rw [hring']
    exact .remove hlen (LoadBalancer.getElem?_ring hs) (LoadBalancer.getElem?_ring hnext)

theorem apply_edit_spec {main : LoadBalancer} (wf : main.WF) (d c : CString)
    (hring : main.ring ≠ []) :
    ∃ main' out, apply_request main (.EDIT d c) = .ok (main', out) ∧ main'.WF ∧
      Step main.ring (.EDIT d c) main'.ring out := by
  obtain ⟨s, hs⟩ := exists_server (slot_lt hring (hash_string d))
  obtain ⟨s', hhandle, wf', hview⟩ := server_handle_edit_spec (wf.of_getElem? hs)
    (editRequest d c) rfl
  rw [apply_request, loader_forward_request_spec (editRequest d c) hs hhandle]
  refine ⟨_, ⟨[], some (s.view.acknowledge (editRequest d c))⟩, rfl, wf.set _ wf', ?_⟩
  rw [LoadBalancer.ring_set, hview]
  exact .edit (LoadBalancer.getElem?_ring hs)

theorem apply_get_spec {main : LoadBalancer} (wf : main.WF) (d : CString)
    (hring : main.ring ≠ []) :
    ∃ main' out, apply_request main (.GET d) = .ok (main', out) ∧ main'.WF ∧
      Step main.ring (.GET d) main'.ring out := by
  obtain ⟨s, hs⟩ := exists_server (slot_lt hring (hash_string d))
  obtain ⟨s', hhandle, wf', hview⟩ := server_handle_get_spec (wf.of_getElem? hs)
    (getRequest d) rfl
  rw [apply_request, loader_forward_request_spec (getRequest d) hs hhandle]
  refine ⟨_, ⟨s.view.executed s.view.pending, some (s.view.drained.get d).2⟩, rfl, wf.set _ wf', ?_⟩
  rw [LoadBalancer.ring_set, hview]
  exact .get (LoadBalancer.getElem?_ring hs)

/-- **An enabled command returns**: it keeps the servers well formed and takes a step of the
ring. -/
theorem apply_request_spec {main : LoadBalancer} (wf : main.WF) {command : Command}
    (henabled : Enabled main.ring command) :
    ∃ main' out, apply_request main command = .ok (main', out) ∧ main'.WF ∧
      Step main.ring command main'.ring out := by
  cases command with
  | ADD_SERVER id cache_size => exact apply_add_spec wf id henabled
  | REMOVE_SERVER id => exact apply_remove_spec wf id henabled
  | EDIT d c => exact apply_edit_spec wf d c henabled
  | GET d => exact apply_get_spec wf d henabled

theorem one_le_iff {cache_size : Int32} (hneg : ¬ cache_size < 0) :
    1 ≤ cache_size ↔ cache_size ≠ 0 := by
  rw [Int32.lt_iff_toInt_lt] at hneg
  rw [Int32.le_iff_toInt_le, Ne, ← Int32.toInt_inj]
  simp at hneg ⊢
  omega

/-- The fault of a command that is not enabled. -/
def faultOf : Command → Fault
  | .ADD_SERVER _ cache_size => if cache_size < 0 then .die else .nullServer
  | _ => .nullNode

/-- **A command that is not enabled faults.** -/
theorem apply_request_of_not_enabled {main : LoadBalancer} {command : Command}
    (h : ¬ Enabled main.ring command) : apply_request main command = .error (faultOf command) := by
  have hempty : ¬ main.ring ≠ [] → main = init_load_balancer := fun hring =>
    congrArg LoadBalancer.mk (List.map_eq_nil_iff.mp (not_not.mp hring))
  cases command with
  | ADD_SERVER id cache_size =>
    rw [apply_request, faultOf]
    by_cases hneg : cache_size < 0
    · rw [if_pos hneg, if_pos hneg]
      rfl
    · have hzero : cache_size = 0 := of_not_not (mt (one_le_iff hneg).mpr h)
      rw [if_neg hneg, if_neg hneg, hzero]
      rfl
  | REMOVE_SERVER id => exact hempty h ▸ rfl
  | EDIT d c => exact hempty h ▸ rfl
  | GET d => exact hempty h ▸ rfl

/-- A command that returns was enabled and took a step of the ring. -/
theorem step_of_apply_request {main main' : LoadBalancer} (wf : main.WF) {command : Command}
    {out : Output} (h : apply_request main command = .ok (main', out)) :
    Enabled main.ring command ∧ main'.WF ∧ Step main.ring command main'.ring out := by
  by_cases henabled : Enabled main.ring command
  · obtain ⟨main'', out', hok, wf', hstep⟩ := apply_request_spec wf henabled
    rw [h] at hok
    cases hok
    exact ⟨henabled, wf', hstep⟩
  · rw [apply_request_of_not_enabled henabled] at h
    cases h

end DistDb
