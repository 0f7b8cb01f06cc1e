/-
  DistDb.Coherence — whether the caches agree with the databases behind them.

  A read takes the cached content of a document when there is one, so that a GET depends on what
  the cache happens to hold unless every cached document is stored with the same content.  Every
  operation on one server keeps it so.  `loader_remove_server` does not: it writes the documents of
  the removed server over the database of the next one and leaves that server's cache alone.  The
  cache stays right exactly when the two servers agree on the documents they share.

  Main results:
    * `caches_coherent_of_agreeing_removals` — the caches are coherent in every run whose removals
      meet that condition,
    * `stale_database_after_removal` — a run in which one does not.
-/
import DistDb.Contents

namespace DistDb

open Lib

/-! ## §1. Runs in which ids are used properly. -/

/-- A server is added under an id that no server of the ring has, and removed under an id that one
has, while there is another one; requests are made while there is a server. -/
def Legal (main : LoadBalancer) : Command → Prop
  | .ADD_SERVER id cache_size => (∀ s ∈ main.servers, s.id ≠ id) ∧ 1 ≤ cache_size
  | .REMOVE_SERVER id => (∃ s ∈ main.servers, s.id = id) ∧ 2 ≤ main.servers.length
  | .EDIT _ _ => main.servers ≠ []
  | .GET _ => main.servers ≠ []

instance (main : LoadBalancer) : DecidablePred (Legal main)
  | .ADD_SERVER _ _ => inferInstanceAs (Decidable (_ ∧ _))
  | .REMOVE_SERVER _ => inferInstanceAs (Decidable (_ ∧ _))
  | .EDIT _ _ => inferInstanceAs (Decidable (_ ≠ _))
  | .GET _ => inferInstanceAs (Decidable (_ ≠ _))

/-- The next slot of a removal, as the code computes it. -/
theorem LoadBalancer.removeNextSlot_eq (main : LoadBalancer) (id : Int32) :
    (get_server main (hash_uint id) + 1) % main.servers.length
      = HashRing.removeNextSlot main.ring id := by
  rw [HashRing.removeNextSlot, main.length_ring, get_server_eq]

/-- A legal command is carried out. -/
theorem Legal.enabled {main : LoadBalancer} {command : Command} (h : Legal main command) :
    HashRing.Enabled main.ring command := by
  cases command with
  | ADD_SERVER id cache_size => exact h.2
  | REMOVE_SERVER id =>
    have hlen := h.2
    apply servers_ne_nil_iff.mp
    apply List.length_pos_iff.mp
    omega
  | EDIT d c => exact servers_ne_nil_iff.mp h
  | GET d => exact servers_ne_nil_iff.mp h

/-! ## §2. Removals that agree with the cache of the next server. -/

/-- The content of a document once the pending edits are executed: that of its last pending edit,
or else the stored one. -/
def Server.newest (s : Server) (d : CString) : Option CString :=
  ServerView.overwrite s.tasks.contents d (s.db.lookup hash_string d)

theorem Server.newest_eq (s : Server) (d : CString) : s.newest d = s.view.latest d :=
  (ServerView.latest_eq s.view d).symm

/-- Every document that the next server has cached, and that is on the server to be removed, has
the same content on both. -/
def RemovalAgrees (main : LoadBalancer) : Command → Prop
  | .REMOVE_SERVER id =>
    ∀ s ∈ main.servers[get_server main (hash_uint id)]?,
      ∀ next_s ∈ main.servers[(get_server main (hash_uint id) + 1) % main.servers.length]?,
        ∀ e ∈ next_s.cache.entries, s.newest e.1 = none ∨ s.newest e.1 = some e.2
  | _ => True

instance (main : LoadBalancer) : DecidablePred (RemovalAgrees main)
  | .REMOVE_SERVER _ => inferInstanceAs (Decidable (∀ s ∈ _, _))
  | .ADD_SERVER _ _ => inferInstanceAs (Decidable True)
  | .EDIT _ _ => inferInstanceAs (Decidable True)
  | .GET _ => inferInstanceAs (Decidable True)

namespace HashRing

/-- The condition of the code on a removal is that of the ring. -/
theorem removalAgrees_iff {main : LoadBalancer} {id : Int32} :
    RemovalAgrees main (.REMOVE_SERVER id) ↔
      ∀ v next, main.ring[slot main.ring (hash_uint id)]? = some v →
        main.ring[removeNextSlot main.ring id]? = some next →
        ∀ e ∈ next.cached, ∀ c, v.latest e.1 = some c → c = e.2 := by
  constructor
  · intro hagrees v next hv hnext e he c hc
    obtain ⟨s, hs, rfl⟩ := LoadBalancer.exists_server_of_ring hv
    obtain ⟨next_s, hnext_s, rfl⟩ := LoadBalancer.exists_server_of_ring hnext
    rw [← LoadBalancer.removeNextSlot_eq] at hnext_s
    rw [← get_server_eq] at hs
    rcases hagrees s hs next_s hnext_s e he with hnone | hsome
    · rw [Server.newest_eq, hc] at hnone
      cases hnone
    · rw [Server.newest_eq, hc] at hsome
      exact Option.some.inj hsome
  · intro hagrees s hs next_s hnext_s e he
    rw [get_server_eq] at hs
    rw [LoadBalancer.removeNextSlot_eq] at hnext_s
    have hshared := hagrees _ _ (LoadBalancer.getElem?_ring hs) (LoadBalancer.getElem?_ring hnext_s)
      e he
    rw [Server.newest_eq]
    cases hc : s.view.latest e.1 with
    | none => exact .inl rfl
    | some c => exact .inr (congrArg some (hshared c hc))

/-- **Every step keeps the caches coherent**, a removal when it agrees with the cache of the next
server. -/
theorem Coherent.step {main : LoadBalancer} {command : Command} {ring' : HashRing} {out : Output}
    (h : Coherent main.ring) (hagrees : RemovalAgrees main command)
    (hstep : Step main.ring command ring' out) : Coherent ring' := by
  generalize hring : main.ring = ring at h hstep
  cases hstep with
  | addFirst =>
    intro w hw e he
    rw [List.mem_singleton.mp hw] at he
    cases he
  | add _ hnext => exact h.afterAdd hnext
  | removeOnly => exact List.forall_mem_nil _
  | remove hlen hv hnext =>
    subst hring
    exact (coherent_afterRemove_iff h hlen hnext).mpr (removalAgrees_iff.mp hagrees _ _ hv hnext)
  | edit hv =>
    exact h.set (h.accept (List.mem_of_getElem? hv) _)
  | get hv =>
    exact h.set ((h _ (List.mem_of_getElem? hv)).drained.get _).1

/-- **A removal that does not agree breaks them.** -/
theorem Coherent.step_iff {main : LoadBalancer} {command : Command} {ring' : HashRing}
    {out : Output} (h : Coherent main.ring) (hlegal : Legal main command)
    (hstep : Step main.ring command ring' out) :
    Coherent ring' ↔ RemovalAgrees main command := by
  refine ⟨?_, fun hagrees => h.step hagrees hstep⟩
  intro hcoh
  cases command with
  | REMOVE_SERVER id =>
    have hlen : 2 ≤ main.ring.length := main.length_ring.symm ▸ hlegal.2
    rw [removalAgrees_iff]
    intro v next hv hnext
    rw [hstep.remove_eq hlen hv hnext] at hcoh
    exact (coherent_afterRemove_iff h hlen hnext).mp hcoh
  | ADD_SERVER id cache_size => trivial
  | EDIT d c => trivial
  | GET d => trivial

end HashRing

open HashRing

/-- **The caches are coherent in every run whose removals agree with the cache of the next
server**, so that a read answers what the database holds, whether from the cache or not; and the
first removal that does not agree makes them incoherent. -/
theorem caches_coherent_of_agreeing_removals {commands : List Command} {main : LoadBalancer}
    (h : Run.Reaches apply_request init_load_balancer
      (fun main command => Legal main command ∧ RemovalAgrees main command) commands main) :
    (∀ command, Legal main command →
      ∃ main' out, apply_request main command = .ok (main', out) ∧
        (CachesCoherent main' ↔ RemovalAgrees main command)) ∧
    CachesCoherent main ∧
    ∀ s ∈ main.servers, ∀ d, ∃ s' res, server_get_document s d = .ok (s', res) ∧
      res.server_response = s.db.lookup hash_string d := by
  obtain ⟨wf, hcoh⟩ := ring_invariant (I := fun _ ring => Coherent ring) (List.forall_mem_nil _)
    (fun _ _ _ _ _ _ hcoh hc hstep => hcoh.step hc.2 hstep) h
  refine ⟨?_, cachesCoherent_iff.mpr hcoh, ?_⟩
  · intro command hlegal
    obtain ⟨main', out, hok, _, hstep⟩ := apply_request_spec wf hlegal.enabled
    exact ⟨main', out, hok, cachesCoherent_iff.trans (hcoh.step_iff hlegal hstep)⟩
  · intro s hs d
    obtain ⟨s', hget, _, _⟩ := server_get_document_spec (wf s hs) d
    exact ⟨s', _, hget, ((hcoh s.view (List.mem_map_of_mem hs)).get d).2⟩

/-- A server that took a document along is removed, while the next one has the document in its cache
with the same content. -/
theorem caches_coherent_of_agreeing_removals_add_remove :
    ∃ main, Run.Reaches apply_request init_load_balancer
        (fun main command => Legal main command ∧ RemovalAgrees main command)
        [.ADD_SERVER 1 1, .EDIT (.ofString "a") (.ofString "x"), .ADD_SERVER 2 1,
          .EDIT (.ofString "a") (.ofString "x"), .GET (.ofString "a"), .REMOVE_SERVER 2] main ∧
      (∃ s ∈ main.servers, s.cache.entries = [(.ofString "a", .ofString "x")]) ∧
      CachesCoherent main := by
  obtain ⟨main, hreaches, hcached⟩ := exists_reaches
    [.ADD_SERVER 1 1, .EDIT (.ofString "a") (.ofString "x"), .ADD_SERVER 2 1,
      .EDIT (.ofString "a") (.ofString "x"), .GET (.ofString "a"), .REMOVE_SERVER 2]
    (fun main command => decide (Legal main command ∧ RemovalAgrees main command))
    (fun main => decide (∃ s ∈ main.servers,
      s.cache.entries = [(.ofString "a", .ofString "x")]))
    (fun _ _ _ h => of_decide_eq_true h) (by decide +kernel)
  exact ⟨main, hreaches, of_decide_eq_true hcached,
    (caches_coherent_of_agreeing_removals hreaches).2.1⟩

/-- **A removal can leave a stale database behind the cache**: server `2`, added past the last one,
takes the document `a` along although it stays routed to server `1`; `a` is written and read again
there, and the removal of server `2` puts the old content back into the database only. -/
theorem stale_database_after_removal :
    ¬ ∀ commands main, Run.Reaches apply_request init_load_balancer Legal commands main →
      CachesCoherent main := by
  intro claim
  obtain ⟨main, hreaches, htest⟩ := exists_reaches
    [.ADD_SERVER 1 1, .EDIT (.ofString "a") (.ofString "x"), .ADD_SERVER 2 1,
      .EDIT (.ofString "a") (.ofString "y"), .GET (.ofString "a"), .REMOVE_SERVER 2]
    (fun main command => decide (Legal main command))
    (fun main => !decide (∀ s ∈ main.servers, ∀ e ∈ s.cache.entries,
      s.db.lookup hash_string e.1 = some e.2))
    (fun _ _ _ h => of_decide_eq_true h) (by decide +kernel)
  rw [Bool.not_eq_true', decide_eq_false_iff_not] at htest
  exact htest (claim _ main hreaches)

end DistDb
