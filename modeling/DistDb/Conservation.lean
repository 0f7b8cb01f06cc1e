/-
  DistDb.Conservation — what the migration of ADD_SERVER does to the two servers it touches.

  The loop over the buckets of the next server ends after a bounded number of rounds.  The entries
  of that server's database, as they stand once its queue has been executed, are split between the
  two servers; the cache of the next server loses the documents that moved and nothing else.

  Main result: `migration_conserves_documents`.
-/
import DistDb.Routing

namespace DistDb

open Lib HashRing

/-- The databases after the loop split the one before it. -/
theorem entries_perm_of_views {s next_s' s' : Server} (wf : s.WF) (next_wf : next_s'.WF)
    (s_wf : s'.WF) {goes : CString → Bool} (hnext : next_s'.view = s.view.without goes)
    (hs : s'.view.docs = s.view.departing goes) :
    s.db.entries.Perm (next_s'.db.entries ++ s'.db.entries) ∧
      ∀ d, next_s'.db.lookup hash_string d = none ∨ s'.db.lookup hash_string d = none := by
  have hkept : ∀ d, next_s'.db.lookup hash_string d
      = if goes d then none else s.db.lookup hash_string d :=
    fun d => congrFun (congrArg ServerView.docs hnext) d
  have hmoved : ∀ d, s'.db.lookup hash_string d
      = if goes d then s.db.lookup hash_string d else none := fun d => congrFun hs d
  have hdisjoint : ∀ d, next_s'.db.lookup hash_string d = none ∨
      s'.db.lookup hash_string d = none := by
    intro d
    rw [hkept, hmoved]
    cases goes d
    · exact .inr rfl
    · exact .inl rfl
  refine ⟨entries_perm_append wf.db next_wf.db s_wf.db hdisjoint fun d => ?_, hdisjoint⟩
  rw [hkept, hmoved]
  cases goes d
  · exact Option.or_none.symm
  · rfl

/-- **ADD_SERVER's migration loop ends and conserves documents**, in every state reached.  `drained`
is the next server once its queue has been executed, `next_s'` and `s'` are that server and the new
one after the loop. -/
theorem migration_conserves_documents {commands : List Command} {main : LoadBalancer}
    (h : Reachable commands main) (hne : main.servers ≠ []) (id : Int32) {cache_size : Int32}
    (hsize : 1 ≤ cache_size) :
    ∃ next_s drained executed new next_s' s' main',
      main.servers[addNextSlot main.ring id]? = some next_s ∧
      execute_queue next_s = .ok (drained, executed) ∧
      init_server cache_size.toUInt32 = some new ∧
      (∀ rounds, migrate_rounds drained ≤ rounds →
        migrate_loop (goes main.ring id next_s.view) rounds 0 drained { new with id := id }
          = .ok (next_s', s')) ∧
      loader_add_server main id cache_size = .ok (main', executed) ∧
      main'.servers = (main.servers.set (addNextSlot main.ring id) next_s').insertIdx
        (addSlot main.ring id) s' ∧
      drained.db.entries.Perm (next_s'.db.entries ++ s'.db.entries) ∧
      (∀ d, next_s'.db.lookup hash_string d = none ∨ s'.db.lookup hash_string d = none) ∧
      next_s'.cache.entries
        = drained.cache.entries.filter (fun e => (s'.db.lookup hash_string e.1).isNone) ∧
      s'.cache.entries = [] ∧ s'.tasks.contents = [] ∧ s'.id = id := by
  have wf := (reached_invariant h).1
  have hring : main.ring ≠ [] := servers_ne_nil_iff.mp hne
  obtain ⟨next_s, hnext⟩ := exists_server (j := addNextSlot main.ring id)
    (Nat.mod_lt _ (List.length_pos_iff.mpr hring))
  obtain ⟨drained, new, next_s', s', hexec, hnew, hloop, hadd, drained_wf, hdrained, next_wf, s_wf,
    hnext_view, hs_view⟩ := loader_add_server_spec wf hsize hnext
  rw [← hdrained] at hnext_view
  have hdocs : s'.view.docs = drained.view.departing (goes main.ring id next_s.view) := by
    rw [hs_view, hdrained]
    exact funext fun d => Option.or_none
  have hcached : next_s'.cache.entries
      = drained.cache.entries.filter (fun e => (s'.db.lookup hash_string e.1).isNone) := by
    have := congrArg ServerView.cached hnext_view
    rw [ServerView.without, ← hdocs] at this
    exact this
  obtain ⟨hperm, hdisjoint⟩ :=
    entries_perm_of_views drained_wf next_wf s_wf hnext_view hdocs
  exact ⟨next_s, drained, _, new, next_s', s', _, hnext, hexec, hnew,
    fun rounds hrounds => migrate_loop_mono hloop hrounds, hadd, rfl, hperm, hdisjoint, hcached,
    congrArg ServerView.cached hs_view, congrArg ServerView.pending hs_view,
    congrArg ServerView.id hs_view⟩

/-- A server takes two documents over from the only one, which has stored and cached one and has an
edit of the other one pending. -/
theorem migration_conserves_documents_single :
    ∃ main, Reachable [.ADD_SERVER 1 2, .EDIT (.ofString "a") (.ofString "x"),
        .GET (.ofString "a"), .EDIT (.ofString "b") (.ofString "y")] main ∧
      ∃ next_s drained executed next_s' s' main',
        main.servers[addNextSlot main.ring 5]? = some next_s ∧
        execute_queue next_s = .ok (drained, executed) ∧
        loader_add_server main 5 1 = .ok (main', executed) ∧
        main'.servers = (main.servers.set (addNextSlot main.ring 5) next_s').insertIdx
          (addSlot main.ring 5) s' ∧
        (main'.servers.map fun s => s.db.entries.length) = [2, 0] ∧
        drained.db.entries.Perm (next_s'.db.entries ++ s'.db.entries) ∧
        (∀ d, next_s'.db.lookup hash_string d = none ∨ s'.db.lookup hash_string d = none) ∧
        next_s'.cache.entries
          = drained.cache.entries.filter (fun e => (s'.db.lookup hash_string e.1).isNone) ∧
        s'.cache.entries = [] ∧ s'.tasks.contents = [] ∧ s'.id = 5 := by
  obtain ⟨main, hreach, htest⟩ := exists_reachable [.ADD_SERVER 1 2,
    .EDIT (.ofString "a") (.ofString "x"), .GET (.ofString "a"),
    .EDIT (.ofString "b") (.ofString "y")]
    (fun main => decide (main.servers ≠ []) && (loader_add_server main 5 1).toOption.any fun r =>
      r.1.servers.map (fun s => s.db.entries.length) == [2, 0]) (by decide +kernel)
  rw [Bool.and_eq_true, decide_eq_true_eq] at htest
  obtain ⟨hne, hmoved⟩ := htest
  obtain ⟨next_s, drained, executed, _, next_s', s', main', hnext, hexec, -, -, hadd, hservers,
    hperm, hdisjoint, hcached, hrest⟩ :=
    migration_conserves_documents hreach hne 5 (by decide : (1 : Int32) ≤ 1)
  rw [hadd, Except.toOption, Option.any_some, beq_iff_eq] at hmoved
  exact ⟨main, hreach, next_s, drained, executed, next_s', s', main', hnext, hexec, hadd, hservers,
    hmoved, hperm, hdisjoint, hcached, hrest⟩

end DistDb
