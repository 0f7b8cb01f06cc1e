/-
  DistDb.ReadYourWrites — whether a GET returns the content of the last EDIT of its document.

  The content of a document on the ring is followed through a run next to the last EDIT of it.
  EDIT, GET and REMOVE_SERVER keep the two equal; ADD_SERVER does when the comparison that moves
  documents agrees with the one that finds them on every document of the server that hands over.

  Main results:
    * `content_step` — one step,
    * `reads_return_last_edit` — every GET of a run whose additions meet that condition,
    * `read_misses_edit_after_addition` — a run in which one does not.
-/
import DistDb.Coherence
import Mathlib.Data.List.Induction

namespace DistDb

open Lib HashRing

/-! ## §1. The last edit of a document. -/

/-- The content of the last EDIT of a document among the commands. -/
def lastEdit (commands : List Command) (d : CString) : Option CString :=
  commands.foldl (fun last command =>
    match command with
    | .EDIT d' c => if d' = d then some c else last
    | _ => last) none

theorem lastEdit_append (commands : List Command) (command : Command) (d : CString) :
    lastEdit (commands ++ [command]) d
      = match command with
        | .EDIT d' c => if d' = d then some c else lastEdit commands d
        | _ => lastEdit commands d := by
  rw [lastEdit, List.foldl_append]
  rfl

/-- There is a last edit of a document unless there is no edit of it. -/
theorem lastEdit_eq_none_iff (commands : List Command) (d : CString) :
    lastEdit commands d = none ↔ ∀ c, .EDIT d c ∉ commands := by
  induction commands using List.reverseRecOn with
  | nil => simp [lastEdit]
  | append_singleton commands command ih =>
    rw [lastEdit_append]
    cases command with
    | EDIT d' c =>
      by_cases hd : d' = d
      · subst hd
        simp only [if_true]
        constructor
        · intro h
          cases h
        · intro h
          exact absurd (by simp) (h c)
      · have hd' : ¬ d = d' := fun h => hd h.symm
        simp [hd, hd', ih]
    | ADD_SERVER id cache_size => simp [ih]
    | REMOVE_SERVER id => simp [ih]
    | GET d' => simp [ih]

/-! ## §2. Steps of the ring. -/

namespace HashRing

/-- Every document of the server that hands over moves exactly when the new one takes it. -/
def SoundAddition (ring : HashRing) : Command → Prop
  | .ADD_SERVER id _ => ∀ next, ring[addNextSlot ring id]? = some next →
      ∀ d, next.Has d → (goes ring id next d = true ↔ Takes ring id d)
  | _ => True

section Step

variable {ring ring' : HashRing} {command : Command} {out : Output}

/-- Every step keeps the documents with the servers they are routed to. -/
theorem routed_has_step (asc : Ascending ring) (h : Routed ServerView.Has ring)
    (hsound : SoundAddition ring command) (hstep : Step ring command ring' out) :
    Routed ServerView.Has ring' := by
  cases hstep with
  | addFirst =>
    intro j v hv d hd
    rw [List.mem_singleton.mp (List.mem_of_getElem? hv), ← ServerView.latest_isSome] at hd
    cases hd
  | add _ hnext => exact routed_has_afterAdd h asc hnext (hsound _ hnext)
  | removeOnly =>
    intro j v hv
    simp at hv
  | remove hlen hv hnext =>
    apply h.afterRemove asc hlen hv hnext
    intro d hd
    exact ((ServerView.has_absorb_iff _ _ d).mp hd).symm.imp_right
      (ServerView.latest_isSome _ d).mp
  | edit hv =>
    apply h.set hv (ServerView.id_accept _ _)
    intro d' hd'
    rcases hd' with hd' | ⟨r, hr, rfl⟩
    · rw [ServerView.Stores, ServerView.docs_accept] at hd'
      exact .inl (.inl hd')
    · rcases ServerView.mem_pending_accept hr with hr | rfl
      · exact .inl (.inr ⟨r, hr, rfl⟩)
      · exact .inr rfl
  | get hv =>
    refine h.set hv (by simp) fun d' hd' => .inl ?_
    rwa [← ServerView.latest_isSome, ServerView.latest_get_drained, ServerView.latest_isSome] at hd'

/-- **What a step does to the contents**: an EDIT sets that of its document, nothing else shows. -/
theorem content_step (asc : Ascending ring) (h : Routed ServerView.Has ring)
    (hsound : SoundAddition ring command) (hroom : RoomyEdit ring command)
    (hlen : ∀ id, command = .REMOVE_SERVER id → 2 ≤ ring.length)
    (hstep : Step ring command ring' out) (d : CString) :
    content ring' d
      = match command with
        | .EDIT d' c => if d' = d then some c else content ring d
        | _ => content ring d := by
  cases hstep with
  | @addFirst id cache_size =>
    show content [fresh id cache_size] d = none
    unfold content
    cases hv : [fresh id cache_size][route [fresh id cache_size] d]? with
    | none => rfl
    | some v =>
      rw [List.mem_singleton.mp (List.mem_of_getElem? hv)]
      rfl
  | add _ hnext => exact content_afterAdd asc hnext (hsound _ hnext) d
  | @removeOnly v id => exact absurd (hlen id rfl) (by simp)
  | remove hlen' hv hnext => exact content_afterRemove asc hlen' hv hnext h d
  | edit hv => exact content_edit hv (hroom _ hv) _ d
  | get hv => exact content_get hv d

end Step

end HashRing

/-! ## §3. Runs in which documents are found. -/

/-- On every document of the server that hands over to a new one, the comparison that moves
documents agrees with the one that finds them. -/
def AdditionAgrees (main : LoadBalancer) : Command → Prop
  | .ADD_SERVER id _ => ∀ next_s ∈ main.servers[addNextSlot main.ring id]?, ∀ d,
      (next_s.db.lookup hash_string d).isSome ∨ (∃ r ∈ next_s.tasks.contents, r.doc_name = d) →
        Agrees main.ring id next_s.view (hash_string d)
  | _ => True

/-- The ring answers as the commands say. -/
structure Answers (commands : List Command) (ring : HashRing) : Prop where
  ascending : Ascending ring
  routed : Routed ServerView.Has ring
  coherent : HashRing.Coherent ring
  content_eq : ∀ d, content ring d = lastEdit commands d

theorem answers_nil : Answers [] [] where
  ascending := List.Pairwise.nil
  routed := by
    intro j v hv
    simp at hv
  coherent := List.forall_mem_nil _
  content_eq _ := rfl

/-- The condition of the code on an addition is that of the ring. -/
theorem soundAddition {main : LoadBalancer} {command : Command} (asc : Ascending main.ring)
    (hrouted : Routed ServerView.Has main.ring) (hlegal : Legal main command)
    (hagrees : AdditionAgrees main command) : SoundAddition main.ring command := by
  cases command with
  | ADD_SERVER id cache_size =>
    intro next hnext d hd
    obtain ⟨next_s, hs, rfl⟩ := LoadBalancer.exists_server_of_ring hnext
    have hroute := hrouted _ _ hnext d hd
    apply (goes_iff_takes asc hnext (LoadBalancer.ring_id_ne hlegal.1) hroute).mpr
    exact hagrees next_s hs d hd
  | REMOVE_SERVER id => trivial
  | EDIT d c => trivial
  | GET d => trivial

/-- While every document is where it is routed to, removals agree with the cache of the next
server. -/
theorem removalAgrees_of_routed {main : LoadBalancer} {command : Command}
    (hrouted : Routed ServerView.Has main.ring) (hcoh : HashRing.Coherent main.ring)
    (hlegal : Legal main command) : RemovalAgrees main command := by
  cases command with
  | REMOVE_SERVER id =>
    have hlen : 2 ≤ main.ring.length := main.length_ring.symm ▸ hlegal.2
    exact removalAgrees_iff.mpr fun v next hv hnext => hrouted.agrees hcoh hlen hv hnext
  | ADD_SERVER id cache_size => trivial
  | EDIT d c => trivial
  | GET d => trivial

/-- **Every step keeps the answers right**, an addition when the two comparisons agree. -/
theorem Answers.step {commands : List Command} {main : LoadBalancer} {command : Command}
    {ring' : HashRing} {out : Output} (h : Answers commands main.ring)
    (hlegal : Legal main command) (hroom : HasRoom main command)
    (hagrees : AdditionAgrees main command) (hstep : Step main.ring command ring' out) :
    Answers (commands ++ [command]) ring' := by
  have hsound := soundAddition h.ascending h.routed hlegal hagrees
  refine ⟨h.ascending.step hstep, routed_has_step h.ascending h.routed hsound hstep,
    h.coherent.step (removalAgrees_of_routed h.routed h.coherent hlegal) hstep, ?_⟩
  intro d
  have hlen : ∀ id, command = .REMOVE_SERVER id → 2 ≤ main.ring.length := by
    rintro id rfl
    exact main.length_ring.symm ▸ hlegal.2
  rw [content_step h.ascending h.routed hsound (hasRoom_iff.mp hroom) hlen hstep d, lastEdit_append]
  cases command with
  | EDIT d' c => rw [h.content_eq d]
  | ADD_SERVER id cache_size => exact h.content_eq d
  | REMOVE_SERVER id => exact h.content_eq d
  | GET d' => exact h.content_eq d

/-! ## §4. What a GET reports. -/

/-- Every GET returns the content of the last EDIT of its document, and reports a missing document
exactly when there was none. -/
def ReadsLastEdit (commands : List Command) (main : LoadBalancer) : Prop :=
  ∀ d, main.servers ≠ [] → ∃ main' response executed,
    loader_forward_request main (getRequest d) = .ok (main', some response, executed) ∧
    response.server_response = lastEdit commands d ∧
    (response.server_log = LOG_FAULT d ↔ ∀ c, .EDIT d c ∉ commands)

/-- On coherent caches a GET returns the content of its document. -/
theorem forward_get_spec {main : LoadBalancer} (wf : main.WF) (hcoh : HashRing.Coherent main.ring)
    (hne : main.servers ≠ []) (d : CString) :
    ∃ main' response executed,
      loader_forward_request main (getRequest d) = .ok (main', some response, executed) ∧
      response.server_response = content main.ring d ∧
      (response.server_log = LOG_FAULT d ↔ content main.ring d = none) := by
  obtain ⟨s, hs⟩ := exists_server (slot_lt (servers_ne_nil_iff.mp hne) (hash_string d))
  have hring := LoadBalancer.getElem?_ring hs
  have hdrained := (hcoh _ (List.mem_of_getElem? hring)).drained
  obtain ⟨s', hhandle, _, _⟩ := server_handle_get_spec (wf.of_getElem? hs) (getRequest d) rfl
  rw [content_of_route rfl hring]
  exact ⟨_, _, _, loader_forward_request_spec (getRequest d) hs hhandle, (hdrained.get d).2,
    hdrained.log_get d⟩

/-- Reads are right exactly when the contents are those of the last edits. -/
theorem readsLastEdit_iff {commands : List Command} {main : LoadBalancer} (wf : main.WF)
    (hcoh : HashRing.Coherent main.ring) :
    ReadsLastEdit commands main ↔
      (main.servers ≠ [] → ∀ d, content main.ring d = lastEdit commands d) := by
  constructor
  · intro hreads hne d
    obtain ⟨_, _, _, hforward, hresponse, -⟩ := hreads d hne
    obtain ⟨_, _, _, hforward', hresponse', -⟩ := forward_get_spec wf hcoh hne d
    cases hforward.symm.trans hforward'
    exact hresponse'.symm.trans hresponse
  · intro hcontent d hne
    obtain ⟨main', response, executed, hforward, hresponse, hlog⟩ := forward_get_spec wf hcoh hne d
    rw [hcontent hne d] at hresponse hlog
    exact ⟨main', response, executed, hforward, hresponse, hlog.trans (lastEdit_eq_none_iff _ d)⟩

/-- **An addition that does not agree loses a document to readers.** -/
theorem additionAgrees_of_content {commands : List Command} {main : LoadBalancer}
    {command : Command} {ring' : HashRing} {out : Output} (h : Answers commands main.ring)
    (hlegal : Legal main command) (hstep : Step main.ring command ring' out)
    (hcontent : ring' ≠ [] → ∀ d, content ring' d = lastEdit (commands ++ [command]) d) :
    AdditionAgrees main command := by
  cases command with
  | ADD_SERVER id cache_size =>
    intro next_s hs d hd
    have hnext := LoadBalancer.getElem?_ring hs
    have hroute := h.routed _ _ hnext d hd
    apply (goes_iff_takes h.ascending hnext (LoadBalancer.ring_id_ne hlegal.1) hroute).mp
    by_contra hdisagree
    -- the document has a content, and the read of it does not find it
    rw [hstep.add_eq hnext] at hcontent
    have hlost : content (afterAdd main.ring id cache_size next_s.view) d = none :=
      content_afterAdd_of_disagree h.ascending hnext hroute hdisagree
    have hsome := (ServerView.latest_isSome next_s.view d).mpr hd
    rw [← content_of_route hroute hnext, h.content_eq d] at hsome
    have hlast : lastEdit (commands ++ [.ADD_SERVER id cache_size]) d = lastEdit commands d :=
      lastEdit_append commands _ d
    rw [← hlast, ← hcontent (afterAdd_ne_nil hnext) d, hlost] at hsome
    cases hsome
  | REMOVE_SERVER id => trivial
  | EDIT d c => trivial
  | GET d => trivial

/-- **Every GET returns the content of the last EDIT of its document**, and reports a missing
document exactly when there was none, in every run whose additions are sound; and after the first
addition that is not, some GET does not. -/
theorem reads_return_last_edit {commands : List Command} {main : LoadBalancer}
    (h : Run.Reaches apply_request init_load_balancer (fun main command =>
      Legal main command ∧ HasRoom main command ∧ AdditionAgrees main command) commands main) :
    (∀ command, Legal main command →
      ∃ main' out, apply_request main command = .ok (main', out) ∧
        (HasRoom main command →
          (ReadsLastEdit (commands ++ [command]) main' ↔ AdditionAgrees main command))) ∧
    ReadsLastEdit commands main := by
  obtain ⟨wf, hanswers⟩ := ring_invariant (I := Answers) answers_nil
    (fun _ _ _ _ _ _ hanswers hc hstep => hanswers.step hc.1 hc.2.1 hc.2.2 hstep) h
  refine ⟨?_, (readsLastEdit_iff wf hanswers.coherent).mpr fun _ => hanswers.content_eq⟩
  intro command hlegal
  obtain ⟨main', out, hok, wf', hstep⟩ := apply_request_spec wf hlegal.enabled
  refine ⟨main', out, hok, ?_⟩
  intro hroom
  have hremoval := removalAgrees_of_routed hanswers.routed hanswers.coherent hlegal
  rw [readsLastEdit_iff wf' (hanswers.coherent.step hremoval hstep)]
  constructor
  · intro hcontent
    exact additionAgrees_of_content hanswers hlegal hstep
      fun hne => hcontent (servers_ne_nil_iff.mpr hne)
  · intro hagrees _
    exact (hanswers.step hlegal hroom hagrees hstep).content_eq

/-- Whether the two comparisons agree, checked on the entries and the pending edits. -/
def checkAddition (main : LoadBalancer) : Command → Bool
  | .ADD_SERVER id _ => decide (∀ next_s ∈ main.servers[addNextSlot main.ring id]?,
      ∀ d ∈ next_s.db.entries.map Info.key ++ next_s.tasks.contents.map Request.doc_name,
        Agrees main.ring id next_s.view (hash_string d))
  | _ => true

theorem additionAgrees_of_check {main : LoadBalancer} (wf : main.WF) {command : Command}
    (h : checkAddition main command = true) : AdditionAgrees main command := by
  cases command with
  | ADD_SERVER id cache_size =>
    intro next_s hs d hd
    exact of_decide_eq_true h next_s hs d (mem_names_of_has (wf.of_getElem? hs) hd)
  | REMOVE_SERVER id => trivial
  | EDIT d c => trivial
  | GET d => trivial

/-- A document is written, a server is added before the one that has it, and the other one is
removed; the document is written again in between. -/
theorem reads_return_last_edit_add_remove :
    ∃ main, Run.Reaches apply_request init_load_balancer (fun main command =>
        Legal main command ∧ HasRoom main command ∧ AdditionAgrees main command)
        [.ADD_SERVER 1 1, .EDIT (.ofString "a") (.ofString "x"), .ADD_SERVER 5 1,
          .EDIT (.ofString "a") (.ofString "y"), .REMOVE_SERVER 5] main ∧
      ∃ main' response executed, loader_forward_request main (getRequest (.ofString "a"))
          = .ok (main', some response, executed) ∧
        response.server_response = some (.ofString "y") := by
  have hallowed : ∀ main command, main.WF →
      (decide (Legal main command ∧ HasRoom main command) && checkAddition main command) = true →
      Legal main command ∧ HasRoom main command ∧ AdditionAgrees main command := by
    intro main command wf hallowed
    rw [Bool.and_eq_true, decide_eq_true_eq] at hallowed
    exact ⟨hallowed.1.1, hallowed.1.2, additionAgrees_of_check wf hallowed.2⟩
  obtain ⟨main, hreaches, hne⟩ := exists_reaches
    [.ADD_SERVER 1 1, .EDIT (.ofString "a") (.ofString "x"), .ADD_SERVER 5 1,
      .EDIT (.ofString "a") (.ofString "y"), .REMOVE_SERVER 5] _
    (fun main => decide (main.servers ≠ [])) hallowed (by decide +kernel)
  obtain ⟨main', response, executed, hforward, hresponse, _⟩ :=
    (reads_return_last_edit hreaches).2 (.ofString "a") (of_decide_eq_true hne)
  exact ⟨main, hreaches, main', response, executed, hforward, hresponse.trans (by decide +kernel)⟩

/-- **A GET can miss the edit before it**: server `2`, added past the last one, takes the document
`a` along, while `get_server` goes on looking for it on server `1`. -/
theorem read_misses_edit_after_addition :
    ¬ ∀ commands main, Run.Reaches apply_request init_load_balancer
        (fun main command => Legal main command ∧ HasRoom main command) commands main →
      ReadsLastEdit commands main := by
  intro claim
  obtain ⟨main, hreaches, htest⟩ := exists_reaches
    [.ADD_SERVER 1 1, .EDIT (.ofString "a") (.ofString "x"), .ADD_SERVER 2 1]
    (fun main command => decide (Legal main command ∧ HasRoom main command))
    (fun main => decide (main.servers ≠ []) &&
      (loader_forward_request main (getRequest (.ofString "a"))).toOption.any fun r =>
        r.2.1.any fun response => response.server_response.isNone)
    (fun _ _ _ h => of_decide_eq_true h) (by decide +kernel)
  rw [Bool.and_eq_true, decide_eq_true_eq] at htest
  obtain ⟨hne, hmissing⟩ := htest
  obtain ⟨main', response, executed, hforward, hresponse, _⟩ := claim _ main hreaches _ hne
  rw [hforward, Except.toOption, Option.any_some, Option.any_some, hresponse] at hmissing
  exact absurd hmissing (by decide +kernel)

end DistDb
