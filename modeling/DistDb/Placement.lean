/-
  DistDb.Placement — whether stored documents follow the routing when a server is added.

  `loader_add_server` picks the documents that move by one comparison of hashes (`goes`), and
  `get_server` finds them by another one (`Takes`).  The two agree on most hashes, not on all:
    * `goes_iff_takes` — on which hashes they agree (`Agrees`),
    * `routed_stores_afterAdd_iff` — the stored documents follow the routing exactly when the two
      agree on every document of the server that hands over,
    * `add_before_server_places_documents_iff` — what this says of the code, for a server added
      before another one.
-/
import DistDb.Routing

namespace DistDb

open Lib

namespace HashRing

/-! ## §1. The two comparisons. -/

section Agreement

variable {ring : HashRing} {id : Int32} {next : ServerView}

/-- The hashes of the next server's documents on which the comparison that moves documents agrees
with the one that finds them.  A server past the last position takes the hashes between the two;
another one leaves its own hash behind, and takes along that of the head when it goes before the
head. -/
def Agrees (ring : HashRing) (id : Int32) (next : ServerView) (hash : UInt32) : Prop :=
  if addSlot ring id = ring.length then (∀ v ∈ ring, hash_uint v.id < hash) ∧ hash ≤ hash_uint id
  else hash ≠ hash_uint id ∧ ¬ (addSlot ring id = 0 ∧ hash = hash_uint next.id)

instance (ring : HashRing) (id : Int32) (next : ServerView) :
    DecidablePred (Agrees ring id next) := fun _ => inferInstanceAs (Decidable (ite _ _ _))

theorem forall_mem_positions {p : UInt32 → Prop} :
    (∀ q ∈ positions ring, p q) ↔ ∀ v ∈ ring, p (hash_uint v.id) := by
  simp [positions]

theorem goes_eq_true_iff (d : CString) : goes ring id next d = true ↔
    hash_string d < hash_uint id ∨
      (addNextSlot ring id = 0 ∧ hash_uint next.id ≤ hash_string d) := by
  simp [goes, moves_key]

theorem position_next (hnext : ring[addNextSlot ring id]? = some next) :
    (positions ring)[addNextSlot ring id]? = some (hash_uint next.id) := by
  show (ring.map fun v => hash_uint v.id)[addNextSlot ring id]? = _
  rw [List.getElem?_map, hnext]
  rfl

/-- A server that goes past the last one lies above the head, which is next to it. -/
theorem next_lt_of_end (asc : Ascending ring) (hnext : ring[addNextSlot ring id]? = some next)
    (hend : addSlot ring id = ring.length) :
    addNextSlot ring id = 0 ∧ hash_uint next.id < hash_uint id := by
  have hne := ne_nil_of_getElem? hnext
  have hzero : addNextSlot ring id = 0 := by rw [addNextSlot, hend, Nat.mod_self]
  have hbefore : addNextSlot ring id < addSlot ring id := by
    rw [hzero, hend]
    exact List.length_pos_iff.mpr hne
  exact ⟨hzero, (isInsertSlot_addSlot asc hne id).before _ _ hbefore (position_next hnext)⟩

/-- Another server goes in front of the next one, and lies below it. -/
theorem lt_next_of_lt_length (asc : Ascending ring)
    (hnext : ring[addNextSlot ring id]? = some next) (hfresh : ∀ v ∈ ring, v.id ≠ id)
    (hlt : addSlot ring id < ring.length) :
    addNextSlot ring id = addSlot ring id ∧ hash_uint id < hash_uint next.id := by
  have hmod : addNextSlot ring id = addSlot ring id := Nat.mod_eq_of_lt hlt
  have hle : hash_uint id ≤ hash_uint next.id :=
    (isInsertSlot_addSlot asc (ne_nil_of_getElem? hnext) id).after _ _ (Nat.le_of_eq hmod.symm)
      (position_next hnext)
  have hne : hash_uint id ≠ hash_uint next.id := by
    intro h
    exact hfresh next (List.mem_of_getElem? hnext) (hash_uint_injective h).symm
  exact ⟨hmod, lt_of_le_of_ne hle hne⟩

theorem takes_iff {d : CString} : Takes ring id d ↔
    if addSlot ring id = ring.length
      then (∀ v ∈ ring, hash_uint v.id < hash_string d) ∧ hash_string d ≤ hash_uint id
      else hash_string d ≤ hash_uint id ∨
        (addSlot ring id = 0 ∧ ∀ v ∈ ring, hash_uint v.id < hash_string d) := by
  unfold Takes SuccessorRing.Takes
  rw [forall_mem_positions, length_positions]

/-- Past the last server every document of the head moves. -/
theorem goes_iff_takes_of_end (asc : Ascending ring)
    (hnext : ring[addNextSlot ring id]? = some next) (hend : addSlot ring id = ring.length)
    (d : CString) :
    (goes ring id next d = true ↔ Takes ring id d) ↔ Agrees ring id next (hash_string d) := by
  obtain ⟨hzero, hlt⟩ := next_lt_of_end asc hnext hend
  have hgoes : goes ring id next d = true := by
    rw [goes_eq_true_iff]
    rcases le_total (hash_uint next.id) (hash_string d) with h | h
    · exact .inr ⟨hzero, h⟩
    · exact .inl (lt_of_le_of_lt h hlt)
  rw [iff_true_left hgoes, takes_iff, if_pos hend]
  unfold Agrees
  rw [if_pos hend]

/-- In front of the head the documents up to the new server's position move, and those from the
head's position on. -/
theorem goes_iff_takes_of_head (asc : Ascending ring)
    (hnext : ring[addNextSlot ring id]? = some next) (hfresh : ∀ v ∈ ring, v.id ≠ id)
    (hhead : addSlot ring id = 0) {d : CString} (hd : route ring d = addNextSlot ring id) :
    (goes ring id next d = true ↔ Takes ring id d) ↔ Agrees ring id next (hash_string d) := by
  have hne := ne_nil_of_getElem? hnext
  have hltlen : addSlot ring id < ring.length := hhead ▸ List.length_pos_iff.mpr hne
  obtain ⟨hmod, hlt⟩ := lt_next_of_lt_length asc hnext hfresh hltlen
  have hpos := position_next hnext
  rw [goes_eq_true_iff, takes_iff, if_neg (Nat.ne_of_lt hltlen)]
  unfold Agrees
  rw [if_neg (Nat.ne_of_lt hltlen)]
  rw [hmod, hhead] at hd hpos
  simp only [hmod, hhead, true_and]
  -- the head serves what lies beyond the last server, and what lies up to its own position
  cases (route_eq_iff hne).mp hd with
  | wrap _ _ all =>
    have hbeyond : hash_uint next.id < hash_string d := all _ (List.mem_of_getElem? hpos)
    have hall := forall_mem_positions.mp all
    have hagrees : hash_string d ≠ hash_uint id ∧ ¬ hash_string d = hash_uint next.id :=
      ⟨ne_of_gt (lt_trans hlt hbeyond), ne_of_gt hbeyond⟩
    exact iff_of_true (iff_of_true (.inr hbeyond.le) (.inr hall)) hagrees
  | next q hq hupto =>
    rw [hpos] at hq
    cases hq
    have hnot : ¬ ∀ v ∈ ring, hash_uint v.id < hash_string d := by
      intro hall
      exact not_lt.mpr hupto (hall next (List.mem_of_getElem? hnext))
    rw [or_iff_left hnot]
    rcases lt_trichotomy (hash_string d) (hash_uint id) with h | h | h
    · have hneNext : hash_string d ≠ hash_uint next.id := ne_of_lt (lt_trans h hlt)
      exact iff_of_true (iff_of_true (.inl h) h.le) ⟨ne_of_lt h, hneNext⟩
    · -- the hash of the new server itself: found there, not moved
      simp [h, not_le.mpr hlt]
    · -- above the new server only the head's own hash moves, and it is not found there
      rw [or_iff_right (not_lt.mpr h.le), iff_false_right (not_le.mpr h), not_le]
      constructor
      · intro hbelow
        exact ⟨ne_of_gt h, ne_of_lt hbelow⟩
      · intro hagrees
        exact lt_of_le_of_ne hupto hagrees.2

/-- Between two servers the comparisons differ at the new server's position only. -/
theorem goes_iff_takes_of_middle (hlt : addSlot ring id < ring.length)
    (hhead : addSlot ring id ≠ 0) (d : CString) :
    (goes ring id next d = true ↔ Takes ring id d) ↔ Agrees ring id next (hash_string d) := by
  have hmod : addNextSlot ring id = addSlot ring id := Nat.mod_eq_of_lt hlt
  rw [goes_eq_true_iff, takes_iff, if_neg (Nat.ne_of_lt hlt)]
  unfold Agrees
  rw [if_neg (Nat.ne_of_lt hlt)]
  simp only [hmod, hhead, false_and, or_false, not_false_iff, and_true]
  rcases lt_trichotomy (hash_string d) (hash_uint id) with h | h | h
  · simp [h, h.le, ne_of_lt h]
  · simp [h]
  · simp [not_lt.mpr h.le, not_le.mpr h, ne_of_gt h]

/-- **Where the two comparisons agree**, for a document of the next server. -/
theorem goes_iff_takes (asc : Ascending ring) (hnext : ring[addNextSlot ring id]? = some next)
    (hfresh : ∀ v ∈ ring, v.id ≠ id) {d : CString} (hd : route ring d = addNextSlot ring id) :
    (goes ring id next d = true ↔ Takes ring id d) ↔ Agrees ring id next (hash_string d) := by
  by_cases hend : addSlot ring id = ring.length
  · exact goes_iff_takes_of_end asc hnext hend d
  · by_cases hhead : addSlot ring id = 0
    · exact goes_iff_takes_of_head asc hnext hfresh hhead hd
    · have hle := addSlot_le ring (ne_nil_of_getElem? hnext) id
      exact goes_iff_takes_of_middle (by omega) hhead d

end Agreement

/-! ## §2. Stored documents after an addition. -/

section Addition

variable {ring : HashRing} {id cache_size : Int32} {next : ServerView}

theorem getElem?_afterAdd_added (hne : ring ≠ []) :
    (afterAdd ring id cache_size next)[addSlot ring id]?
      = some (added ring id cache_size next) := by
  rw [afterAdd, List.getElem?_insertIdx_self, if_pos (by simpa using addSlot_le ring hne id)]

theorem getElem?_afterAdd_next (hnext : ring[addNextSlot ring id]? = some next) :
    (afterAdd ring id cache_size next)[SuccessorRing.slotAfterInsert (addSlot ring id)
        (addNextSlot ring id)]? = some (next.drained.without (goes ring id next)) := by
  rw [afterAdd, SuccessorRing.getElem?_slotAfterInsert,
    List.getElem?_set_self (List.getElem?_eq_some_iff.mp hnext).1]

theorem getElem?_afterAdd_other {j : ℕ} (hj : j ≠ addNextSlot ring id) :
    (afterAdd ring id cache_size next)[SuccessorRing.slotAfterInsert (addSlot ring id) j]?
      = ring[j]? := by
  rw [afterAdd, SuccessorRing.getElem?_slotAfterInsert, List.getElem?_set_ne (Ne.symm hj)]

theorem added_docs (d : CString) :
    (added ring id cache_size next).docs d = next.drained.departing (goes ring id next) d :=
  Option.or_none

theorem stores_added_iff {d : CString} : (added ring id cache_size next).Stores d ↔
    goes ring id next d = true ∧ next.drained.Stores d := by
  rw [ServerView.Stores, added_docs, ServerView.departing]
  split_ifs with hgoes <;> simp [hgoes, ServerView.Stores]

theorem stores_without_iff {d : CString} :
    (next.drained.without (goes ring id next)).Stores d ↔
      ¬ goes ring id next d = true ∧ next.drained.Stores d := by
  simp only [ServerView.Stores, ServerView.without]
  split_ifs with hgoes <;> simp [hgoes]

/-- **Stored documents follow the routing** exactly when every document of the next server, once
its queue has been executed, was routed to it and the two comparisons agree on it. -/
theorem routed_stores_afterAdd_iff (asc : Ascending ring)
    (hnext : ring[addNextSlot ring id]? = some next) (h : Routed ServerView.Stores ring) :
    Routed ServerView.Stores (afterAdd ring id cache_size next) ↔
      ∀ d, next.drained.Stores d → route ring d = addNextSlot ring id ∧
        (goes ring id next d = true ↔ Takes ring id d) := by
  have hne := ne_nil_of_getElem? hnext
  constructor
  · intro hafter d hd
    -- where the document is stored after the addition, and so where it is routed to
    have hmoved : goes ring id next d = true →
        route (afterAdd ring id cache_size next) d = addSlot ring id := fun hgoes =>
      hafter _ _ (getElem?_afterAdd_added hne) d (stores_added_iff.mpr ⟨hgoes, hd⟩)
    have hstays : ¬ goes ring id next d = true → route (afterAdd ring id cache_size next) d
        = SuccessorRing.slotAfterInsert (addSlot ring id) (addNextSlot ring id) := fun hgoes =>
      hafter _ _ (getElem?_afterAdd_next hnext) d (stores_without_iff.mpr ⟨hgoes, hd⟩)
    have hroute : route ring d = addNextSlot ring id := by
      by_contra hroute
      have hother := route_afterAdd_other cache_size asc hnext hroute
      by_cases hgoes : goes ring id next d = true
      · exact SuccessorRing.slotAfterInsert_ne _ _ (hother.symm.trans (hmoved hgoes))
      · exact hroute (SuccessorRing.slotAfterInsert_inj (hother.symm.trans (hstays hgoes)))
    refine ⟨hroute, ?_, ?_⟩
    · intro hgoes
      by_contra htakes
      have hkept := route_afterAdd_kept cache_size asc hnext hroute htakes
      exact SuccessorRing.slotAfterInsert_ne _ _ (hkept.symm.trans (hmoved hgoes))
    · intro htakes
      by_contra hgoes
      have htaken := route_afterAdd_taken cache_size asc hnext hroute htakes
      exact SuccessorRing.slotAfterInsert_ne _ _ ((hstays hgoes).symm.trans htaken)
  · intro hagree
    refine h.afterAdd asc hnext ?_ ?_
    · intro d hd
      obtain ⟨hgoes, hd⟩ := stores_added_iff.mp hd
      exact ⟨(hagree d hd).1, (hagree d hd).2.mp hgoes⟩
    · intro d hd
      obtain ⟨hgoes, hd⟩ := stores_without_iff.mp hd
      exact ⟨(hagree d hd).1, fun ht => hgoes ((hagree d hd).2.mpr ht)⟩

end Addition

end HashRing

/-! ## §3. A server added before another one. -/

open HashRing

/-- Every stored document is on the server that `get_server` maps it to. -/
def StoredPlaced (main : LoadBalancer) : Prop :=
  ∀ j s, main.servers[j]? = some s → ∀ d, (s.db.lookup hash_string d).isSome →
    get_server main (hash_string d) = j

/-- What is routed to its server is so by `get_server`. -/
theorem routed_ring_iff {has : ServerView → CString → Prop} {main : LoadBalancer} :
    Routed has main.ring ↔ ∀ j s, main.servers[j]? = some s → ∀ d, has s.view d →
      get_server main (hash_string d) = j := by
  constructor
  · intro h j s hs d hd
    rw [get_server_eq]
    exact h j s.view (LoadBalancer.getElem?_ring hs) d hd
  · intro h j v hv d hd
    obtain ⟨s, hs, rfl⟩ := LoadBalancer.exists_server_of_ring hv
    rw [← h j s hs d hd, get_server_eq]
    rfl

theorem storedPlaced_iff {main : LoadBalancer} :
    StoredPlaced main ↔ Routed ServerView.Stores main.ring := Iff.symm routed_ring_iff

/-- The condition for a new server to take over exactly what is looked up on it: the pending edits
of the next server are on the server they are routed to, and no document that is stored or pending
there has the hash of the new server's position or, when the new server goes before the head,
that of the head's. -/
def CleanHandover (main : LoadBalancer) (id : Int32) (next_s : Server) : Prop :=
  (∀ r ∈ next_s.tasks.contents,
      get_server main (hash_string r.doc_name) = get_server main (hash_uint id)) ∧
    ∀ d, (next_s.db.lookup hash_string d).isSome ∨ (∃ r ∈ next_s.tasks.contents, r.doc_name = d) →
      hash_string d ≠ hash_uint id ∧
        ¬ (get_server main (hash_uint id) = 0 ∧ hash_string d = hash_uint next_s.id)

/-- Below the last server the new one goes where `get_server` says. -/
theorem addSlot_of_below {main : LoadBalancer} {id : Int32} {last_s : Server}
    (hlast : main.servers.getLast? = some last_s) (hbelow : hash_uint id < hash_uint last_s.id) :
    addSlot main.ring id = get_server main (hash_uint id) := by
  rw [← add_slot_eq hlast id, if_neg (not_lt.mpr hbelow.le)]

/-- The condition says that each document of the next server is routed to it and has a hash on
which the two comparisons agree. -/
theorem cleanHandover_iff {main : LoadBalancer} {id : Int32} {next_s : Server}
    (hlt : addSlot main.ring id < main.ring.length)
    (hslot : addSlot main.ring id = get_server main (hash_uint id))
    (hstored : ∀ d, next_s.view.Stores d → route main.ring d = addNextSlot main.ring id) :
    CleanHandover main id next_s ↔ ∀ d, next_s.view.drained.Stores d →
      route main.ring d = addNextSlot main.ring id ∧
        Agrees main.ring id next_s.view (hash_string d) := by
  have hmod : addNextSlot main.ring id = addSlot main.ring id := Nat.mod_eq_of_lt hlt
  have hagrees : ∀ d, Agrees main.ring id next_s.view (hash_string d) ↔
      hash_string d ≠ hash_uint id ∧
        ¬ (get_server main (hash_uint id) = 0 ∧ hash_string d = hash_uint next_s.id) := by
    intro d
    rw [Agrees, if_neg (Nat.ne_of_lt hlt), hslot]
    rfl
  have hroute : ∀ d, get_server main (hash_string d) = get_server main (hash_uint id) ↔
      route main.ring d = addNextSlot main.ring id := by
    intro d
    rw [hmod, hslot, get_server_eq main (hash_string d)]
    rfl
  -- once the queue has been executed, the next server stores what it stored and what was pending
  have hdrained : ∀ d, next_s.view.drained.Stores d ↔
      (next_s.db.lookup hash_string d).isSome ∨ ∃ r ∈ next_s.tasks.contents, r.doc_name = d :=
    fun d => ServerView.latest_isSome next_s.view d
  constructor
  · rintro ⟨hpending, hclean⟩ d hd
    have hhas := (hdrained d).mp hd
    have hrouted : route main.ring d = addNextSlot main.ring id := by
      rcases hhas with hd | ⟨r, hr, rfl⟩
      · exact hstored d hd
      · exact (hroute r.doc_name).mp (hpending r hr)
    exact ⟨hrouted, (hagrees d).mpr (hclean d hhas)⟩
  · intro h
    constructor
    · intro r hr
      have hd := (hdrained r.doc_name).mpr (.inr ⟨r, hr, rfl⟩)
      exact (hroute r.doc_name).mpr (h r.doc_name hd).1
    · intro d hhas
      exact (hagrees d).mp (h d ((hdrained d).mpr hhas)).2

/-- **When stored documents follow a server added before another one.** -/
theorem add_before_server_places_documents_iff {main : LoadBalancer} (wf : main.WF)
    (hpos : (main.servers.map fun s => hash_uint s.id).Pairwise (· < ·))
    (hplaced : StoredPlaced main) {id cache_size : Int32} (hsize : 1 ≤ cache_size)
    (hfresh : ∀ s ∈ main.servers, s.id ≠ id) {last_s next_s : Server}
    (hlast : main.servers.getLast? = some last_s) (hbelow : hash_uint id < hash_uint last_s.id)
    (hnext : main.servers[get_server main (hash_uint id)]? = some next_s) :
    ∃ main' executed, loader_add_server main id cache_size = .ok (main', executed) ∧
      (StoredPlaced main' ↔ CleanHandover main id next_s) := by
  have asc : Ascending main.ring := by
    rw [Ascending, main.positions_ring]
    exact hpos.imp le_of_lt
  have hslot := addSlot_of_below hlast hbelow
  have hlt : addSlot main.ring id < main.ring.length := by
    rw [hslot, LoadBalancer.length_ring]
    exact (List.getElem?_eq_some_iff.mp hnext).1
  have hnext' : main.servers[addNextSlot main.ring id]? = some next_s := by
    rw [addNextSlot, Nat.mod_eq_of_lt hlt, hslot, hnext]
  have hring := LoadBalancer.getElem?_ring hnext'
  obtain ⟨main', hadd, wf', hring'⟩ := loader_add_server_ring wf hsize hnext'
  refine ⟨main', _, hadd, ?_⟩
  have hstored : Routed ServerView.Stores main.ring := storedPlaced_iff.mp hplaced
  rw [storedPlaced_iff, hring', routed_stores_afterAdd_iff asc hring hstored,
    cleanHandover_iff hlt hslot (hstored _ _ hring)]
  -- on a document that is routed to the next server, the two comparisons agree on these hashes
  apply forall₂_congr
  intro d _
  apply and_congr_right
  intro hroute
  exact goes_iff_takes asc hring (LoadBalancer.ring_id_ne hfresh) hroute

/-- On a ring of one server every document is in its place. -/
theorem storedPlaced_of_single {main : LoadBalancer} {s : Server} (h : main.servers = [s]) :
    StoredPlaced main := by
  intro j t ht d _
  have hne : main.ring ≠ [] := by simp [LoadBalancer.ring, h]
  have hslot := slot_lt hne (hash_string d)
  have hj := (List.getElem?_eq_some_iff.mp ht).1
  rw [LoadBalancer.length_ring] at hslot
  rw [get_server_eq]
  simp only [h, List.length_singleton] at hslot hj
  omega

/-- A server at a lower position is added to a ring of one server, whose only document has the hash
of neither position and is in its place afterwards. -/
theorem add_before_server_places_documents_iff_single :
    ∃ main next_s, Reachable [.ADD_SERVER 1 1, .EDIT (.ofString "a") (.ofString "x"),
        .GET (.ofString "a")] main ∧ CleanHandover main 5 next_s ∧
      ∃ main' executed, loader_add_server main 5 1 = .ok (main', executed) ∧
        StoredPlaced main' := by
  obtain ⟨main, hreach, htest⟩ := exists_reachable [.ADD_SERVER 1 1,
    .EDIT (.ofString "a") (.ofString "x"), .GET (.ofString "a")]
    (fun main => decide (main.servers.map Server.id = [1]) &&
      decide (∀ s ∈ main.servers, s.tasks.contents = [] ∧
        s.db.entries.map Info.key = [.ofString "a"])) (by decide +kernel)
  rw [Bool.and_eq_true, decide_eq_true_eq, decide_eq_true_eq] at htest
  obtain ⟨hids, hstored⟩ := htest
  obtain ⟨s, hs, hid⟩ := List.map_eq_singleton_iff.mp hids
  obtain ⟨hempty, hkeys⟩ := hstored s (by simp [hs])
  have wf := (reached_invariant hreach).1
  have hslot : get_server main (hash_uint 5) = 0 := by
    rw [get_server, hs, get_server_from, hid]
    decide
  have hlast : main.servers.getLast? = some s := by
    rw [hs]
    rfl
  have hclean : CleanHandover main 5 s := by
    refine ⟨?_, ?_⟩
    · rw [hempty]
      exact List.forall_mem_nil _
    · intro d hd
      have hname := mem_names_of_has (wf s (by simp [hs])) hd
      rw [hkeys, hempty, List.map_nil, List.append_nil, List.mem_singleton] at hname
      rw [hname, hid, hslot]
      decide +kernel
  have hfresh : ∀ t ∈ main.servers, t.id ≠ 5 := by simp [hs, hid]
  have hbelow : hash_uint 5 < hash_uint s.id := by
    rw [hid]
    decide
  have hnext : main.servers[get_server main (hash_uint 5)]? = some s := by
    rw [hslot, hs]
    rfl
  obtain ⟨main', executed, hadd, hplaced⟩ := add_before_server_places_documents_iff wf
    (by simp [hs]) (storedPlaced_of_single hs) (by decide : (1 : Int32) ≤ 1) hfresh hlast hbelow
    hnext
  exact ⟨main, s, hreach, hclean, main', executed, hadd, hplaced.mpr hclean⟩

/-- **A document at the position of the new server is lost to readers**: server `1` stores the
document `i`, whose hash is the position of the id `153590742`.  Adding that server leaves the
document where it is, and `get_server` looks for it on the new server. -/
theorem add_before_server_misplaces_document :
    ¬ ∀ main : LoadBalancer, main.WF →
      (main.servers.map fun s => hash_uint s.id).Pairwise (· < ·) → StoredPlaced main →
      ∀ id cache_size : Int32, 1 ≤ cache_size → (∀ s ∈ main.servers, s.id ≠ id) →
      (∃ last_s, main.servers.getLast? = some last_s ∧ hash_uint id < hash_uint last_s.id) →
      ∃ main' executed, loader_add_server main id cache_size = .ok (main', executed) ∧
        StoredPlaced main' := by
  intro claim
  obtain ⟨main, hreach, htest⟩ := exists_reachable [.ADD_SERVER 1 1,
    .EDIT (.ofString "i") (.ofString "x"), .GET (.ofString "i")]
    (fun main => decide (main.servers.map Server.id = [1]) &&
      (loader_add_server main 153590742 1).toOption.any fun r =>
        get_server r.1 (hash_string (.ofString "i")) == 0 &&
        r.1.servers[1]?.any fun s => (s.db.lookup hash_string (.ofString "i")).isSome)
    (by decide +kernel)
  rw [Bool.and_eq_true] at htest
  obtain ⟨hids, hafter⟩ := htest
  obtain ⟨s, hs, hid⟩ := List.map_eq_singleton_iff.mp (of_decide_eq_true hids)
  obtain ⟨main', executed, hadd, hplaced⟩ := claim main (reached_invariant hreach).1
    (by simp [hs]) (storedPlaced_of_single hs) 153590742 1 (by decide) (by simp [hs, hid])
    ⟨s, by rw [hs]; rfl, by rw [hid]; decide⟩
  rw [hadd, Except.toOption, Option.any_some, Bool.and_eq_true, beq_iff_eq] at hafter
  obtain ⟨hslot, hstored⟩ := hafter
  obtain ⟨t, ht, hlookup⟩ := (Option.any_eq_true _ _).mp hstored
  exact absurd (hslot.symm.trans (hplaced 1 t ht _ hlookup)) (by decide)

end DistDb
