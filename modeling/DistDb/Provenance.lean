/-
  DistDb.Provenance — where the documents in the system come from, and that none goes missing.

  A copy of a document is stored in a database, held in a cache or pending in a queue.  Additions
  and removals hand copies from server to server, and not always to the right one; but they neither
  make up a content nor give one document that of another, and every document stays on some server.
  Both facts hold in runs in which reads miss edits.

  Main results:
    * `CopiesFrom.step` — a step makes copies of what was there and of the command's own edit,
    * `holds_step_iff` — a step that finds room and leaves a server keeps every document,
    * `reads_return_edited_contents` — what every GET of every run answers,
    * `documents_are_never_lost` — the documents of a run are those that were edited.
-/
import DistDb.Coherence

namespace DistDb

open Lib

/-! ## §1. The copies on a server. -/

namespace ServerView

/-- Every copy on the server is in `known`. -/
structure From (known : Set (CString × CString)) (v : ServerView) : Prop where
  docs : ∀ d c, v.docs d = some c → (d, c) ∈ known
  cached : ∀ e ∈ v.cached, e ∈ known
  pending : ∀ r ∈ v.pending, (r.doc_name, r.doc_content) ∈ known

section Operations

variable {known : Set (CString × CString)} {v : ServerView}

theorem From.mono {known' : Set (CString × CString)} (h : v.From known) (hle : known ⊆ known') :
    v.From known' where
  docs := fun d c hd => hle (h.docs d c hd)
  cached := fun e he => hle (h.cached e he)
  pending := fun r hr => hle (h.pending r hr)

theorem from_fresh (id cache_size : Int32) : (HashRing.fresh id cache_size).From known where
  docs := fun _ _ hd => nomatch hd
  cached := List.forall_mem_nil _
  pending := List.forall_mem_nil _

theorem From.touch (h : v.From known) {d c : CString} (hdc : (d, c) ∈ known) :
    (v.touch d c).From known where
  docs := h.docs
  cached := by
    intro e he
    rcases Recency.mem_put he with rfl | ⟨he, -⟩
    · exact hdc
    · exact h.cached e he
  pending := h.pending

theorem From.edit (h : v.From known) {d c : CString} (hdc : (d, c) ∈ known) :
    (v.edit d c).From known where
  docs := by
    intro d' c' hd'
    have hd' : Function.update v.docs d (some c) d' = some c' := hd'
    rw [Function.update_apply] at hd'
    split_ifs at hd' with hd
    · cases hd'
      rw [hd]
      exact hdc
    · exact h.docs d' c' hd'
  cached := (h.touch hdc).cached
  pending := h.pending

theorem From.edits (h : v.From known) {rs : List Request}
    (hrs : ∀ r ∈ rs, (r.doc_name, r.doc_content) ∈ known) : (v.edits rs).From known := by
  induction rs generalizing v with
  | nil => exact h
  | cons r rs ih =>
    exact ih (h.edit (hrs r List.mem_cons_self)) fun r' hr' => hrs r' (List.mem_cons_of_mem r hr')

/-- Executing the queue makes stored copies of pending ones. -/
theorem From.drained (h : v.From known) : v.drained.From known where
  docs := (h.edits h.pending).docs
  cached := (h.edits h.pending).cached
  pending := List.forall_mem_nil _

theorem From.without (h : v.From known) (goes : CString → Bool) : (v.without goes).From known where
  docs := by
    intro d c hd
    have hd : (if goes d then none else v.docs d) = some c := hd
    split_ifs at hd
    exact h.docs d c hd
  cached := fun e he => h.cached e (List.mem_of_mem_filter he)
  pending := h.pending

theorem From.absorb (h : v.From known) {docs : CString → Option CString}
    (hdocs : ∀ d c, docs d = some c → (d, c) ∈ known) : (v.absorb docs).From known where
  docs := by
    intro d c hd
    rcases Option.or_eq_some_iff.mp hd with hd | ⟨-, hd⟩
    · exact hdocs d c hd
    · exact h.docs d c hd
  cached := h.cached
  pending := h.pending

/-- What departs was stored. -/
theorem From.departing (h : v.From known) (goes : CString → Bool) (d c : CString)
    (hd : v.departing goes d = some c) : (d, c) ∈ known := by
  unfold ServerView.departing at hd
  split_ifs at hd
  exact h.docs d c hd

theorem From.accept (h : v.From known) {r : Request} (hr : (r.doc_name, r.doc_content) ∈ known) :
    (v.accept r).From known where
  docs := by
    rw [docs_accept]
    exact h.docs
  cached := by
    unfold ServerView.accept
    split
    · exact h.cached
    · exact h.cached
  pending := by
    intro r' hr'
    rcases mem_pending_accept hr' with hr' | rfl
    · exact h.pending r' hr'
    · exact hr

/-- A read finds a copy, or nothing. -/
theorem From.get (h : v.From known) (d : CString) :
    (v.get d).1.From known ∧
      ((∃ c, (v.get d).2.server_response = some c ∧ (d, c) ∈ known) ∨
        ((v.get d).2.server_response = none ∧ (v.get d).2.server_log = LOG_FAULT d)) := by
  unfold ServerView.get
  cases hc : (v.cachedContent d).or (v.docs d) with
  | none => exact ⟨h, .inr ⟨rfl, rfl⟩⟩
  | some c =>
    have hdc : (d, c) ∈ known := by
      rcases Option.or_eq_some_iff.mp hc with hc | ⟨-, hc⟩
      · exact h.cached _ (mem_of_cachedContent hc)
      · exact h.docs d c hc
    exact ⟨h.touch hdc, .inl ⟨c, rfl, hdc⟩⟩

end Operations

end ServerView

/-! ## §2. Steps of the ring. -/

/-- The names and contents of the EDITs among the commands. -/
def edited (commands : List Command) : Set (CString × CString) :=
  {p | Command.EDIT p.1 p.2 ∈ commands}

theorem edited_append (commands : List Command) (command : Command) :
    edited commands ⊆ edited (commands ++ [command]) :=
  fun _ hp => List.mem_append_left _ hp

namespace HashRing

/-- Every copy in the system is in `known`. -/
def CopiesFrom (known : Set (CString × CString)) (ring : HashRing) : Prop :=
  ∀ v ∈ ring, v.From known

section Step

variable {commands : List Command} {ring ring' : HashRing} {command : Command} {out : Output}

theorem CopiesFrom.set {known : Set (CString × CString)} (h : CopiesFrom known ring)
    {w : ServerView} (hw : w.From known) (j : ℕ) : CopiesFrom known (ring.set j w) := by
  intro v hv
  rcases List.mem_or_eq_of_mem_set hv with hv | rfl
  · exact h v hv
  · exact hw

/-- **A step makes copies of what was there** and of the command's own edit. -/
theorem CopiesFrom.step (h : CopiesFrom (edited commands) ring)
    (hstep : Step ring command ring' out) : CopiesFrom (edited (commands ++ [command])) ring' := by
  have h : CopiesFrom (edited (commands ++ [command])) ring :=
    fun v hv => (h v hv).mono (edited_append commands command)
  cases hstep with
  | addFirst =>
    intro w hw
    rw [List.mem_singleton.mp hw]
    exact ServerView.from_fresh _ _
  | @add _ id cache_size next _ hnext =>
    have hdrained := (h next (List.mem_of_getElem? hnext)).drained
    intro w hw
    rcases List.eq_or_mem_of_mem_insertIdx hw with rfl | hw
    · exact (ServerView.from_fresh id cache_size).absorb (hdrained.departing _)
    · exact h.set (hdrained.without _) _ w hw
  | removeOnly => exact List.forall_mem_nil _
  | @remove _ id v next _ hv hnext =>
    have hdrained := (h v (List.mem_of_getElem? hv)).drained
    intro w hw
    exact h.set ((h next (List.mem_of_getElem? hnext)).absorb hdrained.docs) _ w
      (List.mem_of_mem_eraseIdx hw)
  | @edit _ d c v hv =>
    have hdc : (d, c) ∈ edited (commands ++ [.EDIT d c]) :=
      List.mem_append_right _ List.mem_cons_self
    exact h.set ((h v (List.mem_of_getElem? hv)).accept hdc) _
  | get hv => exact h.set ((h _ (List.mem_of_getElem? hv)).drained.get _).1 _

/-! ### Which documents there are. -/

/-- The document is on some server, stored or pending. -/
def Holds (ring : HashRing) (d : CString) : Prop := ∃ v ∈ ring, v.Has d

/-- One server and the others. -/
theorem holds_iff_at {j : ℕ} {v : ServerView} (hv : ring[j]? = some v) (d : CString) :
    Holds ring d ↔ v.Has d ∨ Holds (ring.eraseIdx j) d := by
  unfold Holds
  simp only [(Parallel.perm_cons_eraseIdx hv).mem_iff, List.exists_mem_cons_iff]

theorem holds_set_iff {j : ℕ} {v : ServerView} (hv : ring[j]? = some v) (w : ServerView)
    (d : CString) : Holds (ring.set j w) d ↔ w.Has d ∨ Holds (ring.eraseIdx j) d := by
  unfold Holds
  simp only [(Parallel.set_perm_cons_eraseIdx hv w).mem_iff, List.exists_mem_cons_iff]

theorem holds_insertIdx_iff {k : ℕ} (hk : k ≤ ring.length) (w : ServerView) (d : CString) :
    Holds (ring.insertIdx k w) d ↔ w.Has d ∨ Holds ring d := by
  unfold Holds
  simp only [List.mem_insertIdx hk, or_and_right, exists_or, exists_eq_left]

section Topology

variable {id cache_size : Int32} {v next : ServerView}

/-- The two servers have, between them, what the one had. -/
theorem has_added_or_without (d : CString) :
    (added ring id cache_size next).Has d ∨ (next.drained.without (goes ring id next)).Has d ↔
      next.Has d := by
  rw [← ServerView.latest_isSome, ← ServerView.latest_isSome, ← ServerView.latest_isSome,
    latest_added, latest_without, ServerView.departing]
  split_ifs
  · exact or_iff_left Bool.false_ne_true
  · exact or_iff_right Bool.false_ne_true

/-- **An addition keeps every document.** -/
theorem holds_afterAdd_iff (hnext : ring[addNextSlot ring id]? = some next) (d : CString) :
    Holds (afterAdd ring id cache_size next) d ↔ Holds ring d := by
  have hle : addSlot ring id
      ≤ (ring.set (addNextSlot ring id) (next.drained.without (goes ring id next))).length := by
    rw [List.length_set]
    exact addSlot_le ring (ne_nil_of_getElem? hnext) id
  rw [afterAdd, holds_insertIdx_iff hle, holds_set_iff hnext, ← or_assoc, has_added_or_without,
    ← holds_iff_at hnext]

/-- **A removal keeps every document**, when there is a server to take them over. -/
theorem holds_afterRemove_iff (hlen : 2 ≤ ring.length)
    (hv : ring[slot ring (hash_uint id)]? = some v)
    (hnext : ring[removeNextSlot ring id]? = some next) (d : CString) :
    Holds (afterRemove ring id v next) d ↔ Holds ring d := by
  have htaken : (next.absorb v.drained.docs).Has d ↔ v.Has d ∨ next.Has d := by
    rw [ServerView.has_absorb_iff, ← ServerView.latest_isSome v]
    rfl
  have hv' : (ring.set (removeNextSlot ring id) (next.absorb v.drained.docs))[slot ring
      (hash_uint id)]? = some v := by
    rw [List.getElem?_set_ne (removeNextSlot_ne hlen), hv]
  have hset := holds_iff_at hv' d
  rw [holds_set_iff hnext, htaken, or_assoc, ← holds_iff_at hnext] at hset
  have hring : v.Has d → Holds ring d := fun hd => ⟨v, List.mem_of_getElem? hv, hd⟩
  have hafter : v.Has d → Holds (afterRemove ring id v next) d := fun hd =>
    ⟨_, List.mem_of_getElem? (getElem?_afterRemove_next hlen hnext), htaken.mpr (.inl hd)⟩
  constructor
  · intro hd
    rcases hset.mpr (.inr hd) with hd | hd
    · exact hring hd
    · exact hd
  · intro hd
    rcases hset.mp (.inr hd) with hd | hd
    · exact hafter hd
    · exact hd

end Topology

/-- **A step that finds room and leaves a server** keeps every document, and adds that of an
EDIT. -/
theorem holds_step_iff (hroom : RoomyEdit ring command)
    (hlen : ∀ id, command = .REMOVE_SERVER id → 2 ≤ ring.length)
    (hstep : Step ring command ring' out) (d : CString) :
    Holds ring' d ↔ Holds ring d ∨ ∃ c, command = .EDIT d c := by
  cases hstep with
  | @addFirst id cache_size =>
    have hfresh : ¬ (fresh id cache_size).Has d := by
      rw [← ServerView.latest_isSome]
      exact Bool.false_ne_true
    refine iff_of_false ?_ ?_
    · intro hholds
      obtain ⟨v, hv, hd⟩ := hholds
      rw [List.mem_singleton.mp hv] at hd
      exact hfresh hd
    · intro hor
      rcases hor with ⟨v, hv, -⟩ | ⟨c, hc⟩
      · cases hv
      · cases hc
  | @add _ id cache_size next _ hnext =>
    have hcommand : ¬ ∃ c, Command.ADD_SERVER id cache_size = .EDIT d c := by simp
    rw [holds_afterAdd_iff hnext, or_iff_left hcommand]
  | @removeOnly v id =>
    -- the documents of the last server go with it
    exact absurd (hlen id rfl) (Nat.not_succ_le_self 1)
  | @remove _ id v next hlen' hv hnext =>
    have hcommand : ¬ ∃ c, Command.REMOVE_SERVER id = .EDIT d c := by simp
    rw [holds_afterRemove_iff hlen' hv hnext, or_iff_left hcommand]
  | @edit _ d' c v hv =>
    -- the queue has room, so that the document is pending from now on
    have hhas : (v.accept (editRequest d' c)).Has d ↔ d' = d ∨ v.Has d := by
      rw [ServerView.accept, if_pos (hroom v hv), ← ServerView.latest_isSome,
        ← ServerView.latest_isSome, ServerView.latest_enqueue]
      show (if d' = d then some c else v.latest d).isSome ↔ _
      split_ifs with hd
      · exact iff_of_true rfl (.inl hd)
      · exact (or_iff_right hd).symm
    have hcommand : (∃ c', Command.EDIT d' c = .EDIT d c') ↔ d' = d := by
      simp
    rw [holds_set_iff hv, hhas, or_assoc, ← holds_iff_at hv, hcommand, or_comm]
  | @get _ d' v hv =>
    have hhas : (v.drained.get d').1.Has d ↔ v.Has d := by
      rw [← ServerView.latest_isSome, ServerView.latest_get_drained, ServerView.latest_isSome]
    have hcommand : ¬ ∃ c, Command.GET d' = .EDIT d c := by simp
    rw [holds_set_iff hv, hhas, ← holds_iff_at hv, or_iff_left hcommand]

end Step

end HashRing

open HashRing

/-! ## §3. Runs of the code. -/

/-- Every copy that a server has is of an EDIT among the commands. -/
def CopiesOf (commands : List Command) (s : Server) : Prop :=
  (∀ d c, s.db.lookup hash_string d = some c → .EDIT d c ∈ commands) ∧
    (∀ e ∈ s.cache.entries, .EDIT e.1 e.2 ∈ commands) ∧
    ∀ r ∈ s.tasks.contents, .EDIT r.doc_name r.doc_content ∈ commands

/-- **Reads return edited contents.**  In every state that is reached, whatever servers came and
went, what is stored, cached or pending anywhere is of an EDIT of the run; a GET executes EDITs of
the run and answers with the content of one of its document, or that there is none. -/
theorem reads_return_edited_contents {commands : List Command} {main : LoadBalancer}
    (h : Reachable commands main) :
    (∀ s ∈ main.servers, CopiesOf commands s) ∧
    ∀ d, main.servers ≠ [] → ∃ main' out res, apply_request main (.GET d) = .ok (main', out) ∧
      out.response = some res ∧
      (∀ e ∈ out.executed, .EDIT e.task.doc_name e.task.doc_content ∈ commands) ∧
      ((∃ c, res.server_response = some c ∧ .EDIT d c ∈ commands) ∨
        (res.server_response = none ∧ res.server_log = LOG_FAULT d)) := by
  obtain ⟨wf, hfrom⟩ := ring_invariant
    (I := fun commands ring => CopiesFrom (edited commands) ring) (List.forall_mem_nil _)
    (fun _ _ _ _ _ _ hfrom _ hstep => hfrom.step hstep) h
  refine ⟨?_, ?_⟩
  · intro s hs
    have hcopies := hfrom s.view (List.mem_map_of_mem hs)
    exact ⟨hcopies.docs, hcopies.cached, hcopies.pending⟩
  · intro d hne
    have henabled : Enabled main.ring (.GET d) := servers_ne_nil_iff.mp hne
    obtain ⟨main', out, hok, -, hstep⟩ := apply_request_spec wf henabled
    generalize main.ring = ring, main'.ring = ring' at hfrom hstep
    cases hstep with
    | @get _ _ v hv =>
      have hcopies := hfrom v (List.mem_of_getElem? hv)
      refine ⟨main', _, _, hok, rfl, ?_, (hcopies.drained.get d).2⟩
      intro e he
      have htask : e.task ∈ (v.executed v.pending).map Executed.task := List.mem_map_of_mem he
      rw [ServerView.map_task_executed] at htask
      exact hcopies.pending e.task htask

/-- A server that comes takes a document along, and the read of it finds nothing where it looks;
the document that is edited then is read as it was edited. -/
theorem reads_return_edited_contents_misplaced :
    ∃ main, Reachable [.ADD_SERVER 1 1, .EDIT (.ofString "a") (.ofString "x"), .ADD_SERVER 2 1,
        .EDIT (.ofString "b") (.ofString "y")] main ∧
      (∃ main' out res, apply_request main (.GET (.ofString "a")) = .ok (main', out) ∧
        out.response = some res ∧ res.server_response = none ∧
        res.server_log = LOG_FAULT (.ofString "a")) ∧
      ∃ main' out res c, apply_request main (.GET (.ofString "b")) = .ok (main', out) ∧
        out.response = some res ∧ res.server_response = some c ∧
        Command.EDIT (.ofString "b") c ∈ [.ADD_SERVER 1 1, .EDIT (.ofString "a") (.ofString "x"),
          .ADD_SERVER 2 1, .EDIT (.ofString "b") (.ofString "y")] := by
  obtain ⟨main, h, htest⟩ := exists_reachable [.ADD_SERVER 1 1,
    .EDIT (.ofString "a") (.ofString "x"), .ADD_SERVER 2 1, .EDIT (.ofString "b") (.ofString "y")]
    (fun main => decide (main.servers ≠ []) &&
      ((apply_request main (.GET (.ofString "a"))).toOption.any (fun r =>
        r.2.response.any fun res => res.server_response.isNone) &&
      (apply_request main (.GET (.ofString "b"))).toOption.any fun r =>
        r.2.response.any fun res => res.server_response.isSome)) (by decide +kernel)
  rw [Bool.and_eq_true, Bool.and_eq_true, decide_eq_true_eq] at htest
  obtain ⟨hne, hmissing, hfound⟩ := htest
  obtain ⟨-, hreads⟩ := reads_return_edited_contents h
  refine ⟨main, h, ?_, ?_⟩
  · obtain ⟨main', out, res, hok, hres, -, ⟨c, hc, -⟩ | ⟨hnone, hlog⟩⟩ := hreads (.ofString "a") hne
    · rw [hok, Except.toOption, Option.any_some, hres, Option.any_some, hc] at hmissing
      cases hmissing
    · exact ⟨main', out, res, hok, hres, hnone, hlog⟩
  · obtain ⟨main', out, res, hok, hres, -, ⟨c, hc, hmem⟩ | ⟨hnone, -⟩⟩ := hreads (.ofString "b") hne
    · exact ⟨main', out, res, c, hok, hres, hc, hmem⟩
    · rw [hok, Except.toOption, Option.any_some, hres, Option.any_some, hnone] at hfound
      cases hfound

/-- A removal leaves a server. -/
def LeavesServer (main : LoadBalancer) : Command → Prop
  | .REMOVE_SERVER _ => 2 ≤ main.servers.length
  | _ => True

theorem Legal.leavesServer {main : LoadBalancer} {command : Command} (h : Legal main command) :
    LeavesServer main command := by
  cases command with
  | REMOVE_SERVER id => exact h.2
  | ADD_SERVER id cache_size => trivial
  | EDIT d c => trivial
  | GET d => trivial

/-- **Documents are never lost.**  In every run in which EDITs find room and removals leave a
server, the documents that some server has, once its queue is executed, are those that were
edited. -/
theorem documents_are_never_lost {commands : List Command} {main : LoadBalancer}
    (h : Run.Reaches apply_request init_load_balancer (fun main command =>
      Enabled main.ring command ∧ HasRoom main command ∧ LeavesServer main command) commands main)
    (d : CString) :
    (∃ s ∈ main.servers, (s.newest d).isSome) ↔ ∃ c, .EDIT d c ∈ commands := by
  have hinit : Holds [] d ↔ ∃ c, Command.EDIT d c ∈ [] := by
    simp [Holds]
  have hstep : ∀ commands (main : LoadBalancer) command ring' out, main.WF →
      (Holds main.ring d ↔ ∃ c, .EDIT d c ∈ commands) →
      (Enabled main.ring command ∧ HasRoom main command ∧ LeavesServer main command) →
      Step main.ring command ring' out →
      (Holds ring' d ↔ ∃ c, .EDIT d c ∈ commands ++ [command]) := by
    intro commands main command ring' out _ hholds hallowed hstep
    obtain ⟨-, hroom, hleaves⟩ := hallowed
    have hlen : ∀ id, command = .REMOVE_SERVER id → 2 ≤ main.ring.length := by
      rintro id rfl
      exact main.length_ring.symm ▸ hleaves
    rw [holds_step_iff (hasRoom_iff.mp hroom) hlen hstep, hholds, ← exists_or]
    simp only [List.mem_append, List.mem_singleton, eq_comm]
  obtain ⟨-, hholds⟩ := ring_invariant
    (I := fun commands ring => Holds ring d ↔ ∃ c, .EDIT d c ∈ commands) hinit hstep h
  rw [← hholds]
  constructor
  · intro hheld
    obtain ⟨s, hs, hsome⟩ := hheld
    rw [Server.newest_eq, ServerView.latest_isSome] at hsome
    exact ⟨s.view, List.mem_map_of_mem hs, hsome⟩
  · intro hholds
    obtain ⟨v, hv, hhas⟩ := hholds
    obtain ⟨s, hs, rfl⟩ := List.mem_map.mp hv
    refine ⟨s, hs, ?_⟩
    rw [Server.newest_eq, ServerView.latest_isSome]
    exact hhas

/-- A server takes a document along to a place where no read looks, and is the only one left. -/
theorem documents_are_never_lost_add_remove :
    ∃ main, Run.Reaches apply_request init_load_balancer (fun main command =>
        Enabled main.ring command ∧ HasRoom main command ∧ LeavesServer main command)
        [.ADD_SERVER 1 1, .EDIT (.ofString "a") (.ofString "x"), .ADD_SERVER 2 1,
          .EDIT (.ofString "b") (.ofString "y"), .REMOVE_SERVER 1] main ∧
      ∃ s ∈ main.servers, (s.newest (.ofString "a")).isSome := by
  have hallowed : ∀ (main : LoadBalancer) command, main.WF →
      decide (Legal main command ∧ HasRoom main command) = true →
      Enabled main.ring command ∧ HasRoom main command ∧ LeavesServer main command := by
    intro main command _ hallowed
    obtain ⟨hlegal, hroom⟩ := of_decide_eq_true hallowed
    exact ⟨hlegal.enabled, hroom, hlegal.leavesServer⟩
  obtain ⟨main, h, -⟩ := exists_reaches
    [.ADD_SERVER 1 1, .EDIT (.ofString "a") (.ofString "x"), .ADD_SERVER 2 1,
      .EDIT (.ofString "b") (.ofString "y"), .REMOVE_SERVER 1] _ (fun _ => true) hallowed
    (by decide +kernel)
  exact ⟨main, h, (documents_are_never_lost h (.ofString "a")).mpr ⟨.ofString "x", by simp⟩⟩

end DistDb
