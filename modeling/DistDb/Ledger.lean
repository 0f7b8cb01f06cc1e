/-
  DistDb.Ledger — what becomes of the edits that were acknowledged.

  A ledger is kept next to a run.  It has an account for each server, with the EDITs that the
  server has answered with `MSG_A` and the edits that it has executed, in the order of the events.
  No edit is lost while what a server has acknowledged is what it has executed followed by what
  waits in its queue.

  The code loses an edit in two places: a full queue rejects it and the server acknowledges it all
  the same, and the queue of the only server is freed with the server.

  Main results:
    * `books_step_iff` — one step that loses nothing,
    * `within_of_reaches` — in every run, a server executes edits that it has acknowledged, in
      their order,
    * `acknowledged_edits_kept_iff` — the runs that lose no edit,
    * `full_queue_and_last_removal_lose_edits` — the two ways to lose one.
-/
import DistDb.Routing
import DistDb.Lib.Parallel

namespace DistDb

open Lib HashRing

/-! ## §1. Accounts. -/

/-- What a server has acknowledged and what it has executed so far. -/
@[ext] structure Account where
  acknowledged : List Request
  executed : List Request
  deriving DecidableEq

namespace Account

def acknowledge (a : Account) (req : Request) : Account :=
  { a with acknowledged := a.acknowledged ++ [req] }

def execute (a : Account) (executed : List Executed) : Account :=
  { a with executed := a.executed ++ executed.map Executed.task }

end Account

/-- The accounts of the servers on the ring, slot by slot, and those of the removed ones. -/
structure Ledger where
  current : List Account
  closed : List Account
  deriving DecidableEq

/-- The command was answered with `MSG_A`. -/
def Output.acknowledges (out : Output) (doc_name : CString) : Bool :=
  out.response.any fun res => res.server_response == some (MSG_A EDIT_REQUEST doc_name)

namespace Ledger

def empty : Ledger := { current := [], closed := [] }

/-- Record what a command did to a ring. -/
def record (ledger : Ledger) (ring : HashRing) (out : Output) : Command → Ledger
  | .ADD_SERVER id _ =>
    { ledger with
      current := (ledger.current.modify (addNextSlot ring id) fun a =>
        a.execute out.executed).insertIdx (addSlot ring id) ⟨[], []⟩ }
  | .REMOVE_SERVER id =>
    { current := ledger.current.eraseIdx (slot ring (hash_uint id))
      closed := ledger.closed ++
        (ledger.current[slot ring (hash_uint id)]?.map fun a => a.execute out.executed).toList }
  | .EDIT doc_name doc_content =>
    if out.acknowledges doc_name then
      { ledger with
        current := ledger.current.modify (route ring doc_name) fun a =>
          a.acknowledge (editRequest doc_name doc_content) }
    else ledger
  | .GET doc_name =>
    { ledger with
      current := ledger.current.modify (route ring doc_name) fun a => a.execute out.executed }

end Ledger

/-- One round of the command loop, with the ledger kept. -/
def apply_recorded (state : LoadBalancer × Ledger) (command : Command) :
    Exec ((LoadBalancer × Ledger) × Output) := do
  let (main, out) ← apply_request state.1 command
  pure ((main, state.2.record state.1.ring out command), out)

/-- No acknowledged edit is lost: what a server has acknowledged it has executed or, for the last
of it, keeps in its queue; a removed server has executed all of it. -/
def Kept (main : LoadBalancer) (ledger : Ledger) : Prop :=
  List.Forall₂ (fun s a => a.acknowledged = a.executed ++ s.tasks.contents) main.servers
      ledger.current ∧
    ∀ a ∈ ledger.closed, a.acknowledged = a.executed

/-- The command loses no edit: an EDIT finds room in the queue it is sent to, and the only server
is removed with an empty queue. -/
def Lossless (main : LoadBalancer) : Command → Prop
  | .EDIT d c => HasRoom main (.EDIT d c)
  | .REMOVE_SERVER _ => main.servers.length = 1 → ∀ s ∈ main.servers, s.tasks.contents = []
  | _ => True

instance (main : LoadBalancer) : DecidablePred (Lossless main)
  | .EDIT d c => inferInstanceAs (Decidable (HasRoom main (.EDIT d c)))
  | .REMOVE_SERVER _ => inferInstanceAs (Decidable (_ = 1 → ∀ s ∈ main.servers, _))
  | .ADD_SERVER _ _ => inferInstanceAs (Decidable True)
  | .GET _ => inferInstanceAs (Decidable True)

/-! ## §2. Steps of the ring. -/

namespace HashRing

/-- The account of a server is right, when `Rel` relates what a server has acknowledged to what it
has executed and what is pending. -/
def Balances (Rel : List Request → List Request → Prop) (v : ServerView) (a : Account) : Prop :=
  Rel a.acknowledged (a.executed ++ v.pending)

/-- Every account is right. -/
def Books (Rel : List Request → List Request → Prop) (ring : HashRing) (ledger : Ledger) : Prop :=
  List.Forall₂ (Balances Rel) ring ledger.current ∧
    ∀ a ∈ ledger.closed, Rel a.acknowledged a.executed

/-- The step loses no edit. -/
def KeepsEdits (ring : HashRing) : Command → Prop
  | .EDIT d c => RoomyEdit ring (.EDIT d c)
  | .REMOVE_SERVER _ => ∀ v, ring = [v] → v.pending = []
  | _ => True

/-- What is acknowledged holds what is executed and pending, in its order. -/
abbrev Within (acknowledged done : List Request) : Prop := done.Sublist acknowledged

theorem books_length {Rel : List Request → List Request → Prop} {ring : HashRing}
    {ledger : Ledger} (h : Books Rel ring ledger) : ring.length = ledger.current.length :=
  h.1.length_eq

theorem acknowledges_acknowledge (v : ServerView) (d c : CString) :
    Output.acknowledges ⟨[], some (v.acknowledge (editRequest d c))⟩ d = true :=
  beq_self_eq_true _

theorem slot_singleton (v : ServerView) (hash : UInt32) : slot [v] hash = 0 := by
  have hlt := slot_lt (List.cons_ne_nil v []) hash
  exact Nat.lt_one_iff.mp hlt

section Step

variable {Rel : List Request → List Request → Prop} {ring ring' : HashRing} {ledger : Ledger}
  {command : Command} {out : Output}

/-! ### What the operations do to one account. -/

theorem account_execute_nil (a : Account) : a.execute [] = a :=
  Account.ext rfl (List.append_nil _)

/-- Draining a queue moves its edits to the executed ones. -/
theorem balances_execute {v v' : ServerView} (hpending : v'.pending = []) (a : Account) :
    Balances Rel v' (a.execute (v.executed v.pending)) ↔ Balances Rel v a := by
  unfold Balances
  rw [hpending]
  simp only [Account.execute, ServerView.map_task_executed, List.append_nil]

/-- A server is removed with its queue executed. -/
theorem closed_execute (v : ServerView) (a : Account) :
    Rel (a.execute (v.executed v.pending)).acknowledged (a.execute (v.executed v.pending)).executed
      ↔ Balances Rel v a := by
  unfold Balances
  simp only [Account.execute, ServerView.map_task_executed]

/-- An edit that is accepted is acknowledged and pending. -/
theorem balances_acknowledge (happend : ∀ acknowledged done req,
      Rel (acknowledged ++ [req]) (done ++ [req]) ↔ Rel acknowledged done)
    {v : ServerView} (hroom : v.pending.length < TASK_QUEUE_SIZE) (req : Request) (a : Account) :
    Balances Rel (v.accept req) (a.acknowledge req) ↔ Balances Rel v a := by
  unfold Balances
  rw [ServerView.accept, if_pos hroom]
  show Rel (a.acknowledged ++ [req]) (a.executed ++ (v.pending ++ [req])) ↔ _
  rw [← List.append_assoc]
  exact happend _ _ _

/-! ### What they do to the books. -/

/-- A server and its account change together. -/
theorem books_modify_iff (hlen : ring.length = ledger.current.length) {k : ℕ} {v v' : ServerView}
    (hv : ring[k]? = some v) {f : Account → Account}
    (hf : ∀ a, Balances Rel v' (f a) ↔ Balances Rel v a) :
    Books Rel (ring.set k v') { ledger with current := ledger.current.modify k f } ↔
      Books Rel ring ledger := by
  obtain ⟨a, ha⟩ := Parallel.exists_of_length_eq hlen hv
  unfold Books
  rw [Parallel.forall₂_set_modify_iff hv ha, Parallel.forall₂_iff_at hv ha, hf]

/-- A server changes and keeps its queue. -/
theorem books_set_iff (hlen : ring.length = ledger.current.length) {k : ℕ} {v v' : ServerView}
    (hv : ring[k]? = some v) (hpending : v'.pending = v.pending) :
    Books Rel (ring.set k v') ledger ↔ Books Rel ring ledger := by
  obtain ⟨a, ha⟩ := Parallel.exists_of_length_eq hlen hv
  unfold Books
  rw [Parallel.forall₂_set_iff hv ha, Parallel.forall₂_iff_at hv ha, Balances, hpending]
  exact Iff.rfl

/-- A server comes with an empty queue, and an account is opened for it. -/
theorem books_insert_iff (hnil : Rel [] []) (hlen : ring.length = ledger.current.length) {k : ℕ}
    (hk : k ≤ ring.length) {v : ServerView} (hpending : v.pending = []) :
    Books Rel (ring.insertIdx k v) { ledger with current := ledger.current.insertIdx k ⟨[], []⟩ } ↔
      Books Rel ring ledger := by
  have hnew : Balances Rel v ⟨[], []⟩ := by
    unfold Balances
    rwa [hpending]
  unfold Books
  rw [Parallel.forall₂_insertIdx_iff hlen hk]
  exact and_congr_left' (and_iff_right hnew)

/-- A server goes, and its account is closed. -/
theorem books_close_iff (hlen : ring.length = ledger.current.length) {k : ℕ} {v : ServerView}
    (hv : ring[k]? = some v) {f : Account → Account}
    (hf : ∀ a, Rel (f a).acknowledged (f a).executed ↔ Balances Rel v a) :
    Books Rel (ring.eraseIdx k)
        { current := ledger.current.eraseIdx k
          closed := ledger.closed ++ (ledger.current[k]?.map f).toList } ↔
      Books Rel ring ledger := by
  obtain ⟨a, ha⟩ := Parallel.exists_of_length_eq hlen hv
  unfold Books
  rw [ha, Option.map_some, Option.toList_some, List.forall_mem_append, List.forall_mem_singleton,
    hf, Parallel.forall₂_iff_at hv ha]
  -- the account at the slot has gone from the open ones to the closed ones
  constructor
  · rintro ⟨hrest, hclosed, hslot⟩
    exact ⟨⟨hslot, hrest⟩, hclosed⟩
  · rintro ⟨⟨hslot, hrest⟩, hclosed⟩
    exact ⟨hrest, hclosed, hslot⟩

/-- **A step that loses nothing** keeps the books as right as they were. -/
theorem books_step_iff (hnil : Rel [] [])
    (happend : ∀ acknowledged done req,
      Rel (acknowledged ++ [req]) (done ++ [req]) ↔ Rel acknowledged done)
    (hlen : ring.length = ledger.current.length) (hkeeps : KeepsEdits ring command)
    (hstep : Step ring command ring' out) :
    Books Rel ring' (ledger.record ring out command) ↔ Books Rel ring ledger := by
  cases hstep with
  | @addFirst id cache_size =>
    have hcurrent : ledger.current = [] := List.length_eq_zero_iff.mp hlen.symm
    rw [Ledger.record, hcurrent, List.modify_nil, ← hcurrent]
    exact books_insert_iff hnil hlen (Nat.zero_le 0) rfl
  | @add _ id cache_size next _ hnext =>
    -- first the queue of the next server is executed, then the new server comes
    rw [Ledger.record, afterAdd]
    have hle := addSlot_le ring (ne_nil_of_getElem? hnext) id
    refine (books_insert_iff hnil ?_ ?_ ?_).trans
      (books_modify_iff hlen hnext fun a => balances_execute rfl a)
    · simpa using hlen
    · simpa using hle
    · rfl
  | @removeOnly v id =>
    -- nothing is executed, and nothing was pending
    have hpending : v.pending = [] := hkeeps v rfl
    rw [Ledger.record, slot_singleton]
    refine books_close_iff hlen (List.getElem?_cons_zero (a := v) (l := [])) ?_
    intro a
    rw [account_execute_nil, Balances, hpending, List.append_nil]
  | @remove _ id v next hlen' hv hnext =>
    -- first the next server takes over documents, then the removed one goes
    rw [Ledger.record, afterRemove]
    have hset : Books Rel (ring.set _ (next.absorb v.drained.docs)) ledger ↔
        Books Rel ring ledger :=
      books_set_iff hlen hnext rfl
    refine (books_close_iff ?_ ?_ fun a => closed_execute v a).trans hset
    · rw [List.length_set]
      exact hlen
    · rw [List.getElem?_set_ne (removeNextSlot_ne hlen'), hv]
  | @edit _ d c v hv =>
    rw [Ledger.record, if_pos (acknowledges_acknowledge v d c)]
    exact books_modify_iff hlen hv (balances_acknowledge happend (hkeeps v hv) _)
  | @get _ d v hv =>
    rw [Ledger.record]
    exact books_modify_iff hlen hv
      fun a => balances_execute (ServerView.pending_get v.drained d) a

/-! ### Steps that lose an edit. -/

/-- An edit that is acknowledged and dropped leaves one account with more acknowledged than there
is. -/
theorem books_of_dropped_edit (hwithin : Books Within ring ledger) {k : ℕ} {v v' : ServerView}
    (hv : ring[k]? = some v) (hpending : v'.pending = v.pending) (req : Request) :
    Books Within (ring.set k v')
        { ledger with current := ledger.current.modify k fun a => a.acknowledge req } ∧
      ¬ Books Eq (ring.set k v')
        { ledger with current := ledger.current.modify k fun a => a.acknowledge req } := by
  obtain ⟨a, ha⟩ := Parallel.exists_of_length_eq (books_length hwithin) hv
  unfold Books at hwithin ⊢
  rw [Parallel.forall₂_iff_at hv ha] at hwithin
  obtain ⟨⟨hslot, hrest⟩, hclosed⟩ := hwithin
  have hslot : (a.executed ++ v'.pending).Sublist a.acknowledged := hpending ▸ hslot
  rw [Parallel.forall₂_set_modify_iff hv ha, Parallel.forall₂_set_modify_iff hv ha]
  constructor
  · exact ⟨⟨hslot.trans (List.sublist_append_left _ _), hrest⟩, hclosed⟩
  · rintro ⟨⟨heq, -⟩, -⟩
    have hle := hslot.length_le
    have hlen := congrArg List.length heq
    simp only [Account.acknowledge, List.length_append, List.length_singleton] at hle hlen
    omega

/-- A server that is removed with its queue leaves an account with less executed than
acknowledged. -/
theorem books_of_dropped_queue {v : ServerView} (hwithin : Books Within [v] ledger)
    (hpending : v.pending ≠ []) (id : Int32) :
    Books Within [] (ledger.record [v] ⟨[], none⟩ (.REMOVE_SERVER id)) ∧
      ¬ Books Eq [] (ledger.record [v] ⟨[], none⟩ (.REMOVE_SERVER id)) := by
  have hv : [v][0]? = some v := rfl
  obtain ⟨a, ha⟩ := Parallel.exists_of_length_eq (books_length hwithin) hv
  rw [Books, Parallel.forall₂_iff_at hv ha] at hwithin
  obtain ⟨⟨hslot, hrest⟩, hclosed⟩ := hwithin
  have hslot : (a.executed ++ v.pending).Sublist a.acknowledged := hslot
  rw [Ledger.record, slot_singleton, ha, Option.map_some, account_execute_nil, Option.toList_some]
  unfold Books
  rw [List.forall_mem_append, List.forall_mem_singleton, List.forall_mem_append,
    List.forall_mem_singleton]
  constructor
  · exact ⟨hrest, hclosed, (List.sublist_append_left _ _).trans hslot⟩
  · rintro ⟨-, -, heq⟩
    have hle := hslot.length_le
    have hpos := List.length_pos_iff.mpr hpending
    rw [heq, List.length_append] at hle
    omega

/-- **A step that loses an edit**: the accounts hold no more than what was acknowledged, but one
of them holds less. -/
theorem books_step_of_loss (hwithin : Books Within ring ledger)
    (hlossy : ¬ KeepsEdits ring command) (hstep : Step ring command ring' out) :
    Books Within ring' (ledger.record ring out command) ∧
      ¬ Books Eq ring' (ledger.record ring out command) := by
  cases hstep with
  | addFirst => exact absurd trivial hlossy
  | add => exact absurd trivial hlossy
  | @removeOnly v id =>
    -- the only server was removed with edits in its queue
    apply books_of_dropped_queue hwithin
    intro hpending
    apply hlossy
    intro w hw
    rw [← List.singleton_inj.mp hw, hpending]
  | remove hlen' =>
    apply absurd _ hlossy
    intro w hw
    rw [hw] at hlen'
    simp at hlen'
  | @edit _ d c v hv =>
    -- the queue was full, and the edit is acknowledged all the same
    have hfull : ¬ v.pending.length < TASK_QUEUE_SIZE := by
      intro hroom
      apply hlossy
      intro w hw
      rw [hv] at hw
      rwa [← Option.some.inj hw]
    rw [Ledger.record, if_pos (acknowledges_acknowledge v d c)]
    apply books_of_dropped_edit hwithin hv
    rw [ServerView.accept, if_neg hfull]
  | get => exact absurd trivial hlossy

/-- A server executes edits that it has acknowledged, whatever is lost. -/
theorem within_step (hwithin : Books Within ring ledger) (hstep : Step ring command ring' out) :
    Books Within ring' (ledger.record ring out command) := by
  by_cases hkeeps : KeepsEdits ring command
  · have happend : ∀ acknowledged done req,
        Within (acknowledged ++ [req]) (done ++ [req]) ↔ Within acknowledged done := by
      intro acknowledged done req
      exact List.append_sublist_append_right [req]
    exact (books_step_iff (.refl _) happend (books_length hwithin) hkeeps hstep).mpr hwithin
  · exact (books_step_of_loss hwithin hkeeps hstep).1

/-- No edit is lost by a step exactly when none was lost before and the step loses none. -/
theorem kept_step_iff (hwithin : Books Within ring ledger) (hstep : Step ring command ring' out) :
    Books Eq ring' (ledger.record ring out command) ↔
      Books Eq ring ledger ∧ KeepsEdits ring command := by
  by_cases hkeeps : KeepsEdits ring command
  · rw [books_step_iff rfl (fun acknowledged done req => List.append_left_inj _)
      (books_length hwithin) hkeeps hstep]
    exact (and_iff_left hkeeps).symm
  · have hlost := (books_step_of_loss hwithin hkeeps hstep).2
    exact ⟨fun h => absurd h hlost, fun h => absurd h.2 hkeeps⟩

end Step

end HashRing

/-! ## §3. Runs. -/

theorem kept_iff {main : LoadBalancer} {ledger : Ledger} :
    Kept main ledger ↔ Books Eq main.ring ledger := by
  rw [Kept, Books, LoadBalancer.ring, List.forall₂_map_left_iff]
  exact Iff.rfl

/-- The condition of the code on a command is that of the ring. -/
theorem lossless_iff {main : LoadBalancer} {command : Command} :
    Lossless main command ↔ KeepsEdits main.ring command := by
  cases command with
  | REMOVE_SERVER id =>
    constructor
    · intro h v hv
      obtain ⟨s, hs, rfl⟩ := List.map_eq_singleton_iff.mp hv
      exact h (by rw [hs]; rfl) s (by simp [hs])
    · intro h hone s hs
      obtain ⟨t, ht⟩ := List.length_eq_one_iff.mp hone
      rw [ht] at hs
      rw [List.mem_singleton.mp hs]
      exact h t.view (by rw [LoadBalancer.ring, ht]; rfl)
  | EDIT d c =>
    show HasRoom main (.EDIT d c) ↔ RoomyEdit main.ring (.EDIT d c)
    exact hasRoom_iff
  | ADD_SERVER id cache_size => exact Iff.rfl
  | GET d => exact Iff.rfl

/-- A recorded command does what the command does. -/
theorem apply_recorded_eq_ok {state state' : LoadBalancer × Ledger} {command : Command}
    {out : Output} (wf : state.1.WF) (h : apply_recorded state command = .ok (state', out)) :
    state'.1.WF ∧ Step state.1.ring command state'.1.ring out ∧
      state'.2 = state.2.record state.1.ring out command := by
  obtain ⟨⟨main', out'⟩, happly, hrest⟩ := bind_eq_ok.mp h
  cases hrest
  obtain ⟨-, wf', hstep⟩ := step_of_apply_request wf happly
  exact ⟨wf', hstep, rfl⟩

section Runs

variable {admissible : LoadBalancer × Ledger → Command → Prop} {commands : List Command}
  {state : LoadBalancer × Ledger}

/-- **A server executes edits that it has acknowledged**, in their order, in every run. -/
theorem within_of_reaches
    (h : Run.Reaches apply_recorded (init_load_balancer, .empty) admissible commands state) :
    state.1.WF ∧ Books Within state.1.ring state.2 := by
  refine h.invariant (I := fun _ state => state.1.WF ∧ Books Within state.1.ring state.2)
    ⟨List.forall_mem_nil _, .nil, List.forall_mem_nil _⟩ ?_
  rintro _ state command state' out ⟨wf, hwithin⟩ _ happly
  obtain ⟨wf', hstep, hledger⟩ := apply_recorded_eq_ok wf happly
  exact ⟨wf', hledger ▸ within_step hwithin hstep⟩

/-- A run in which nothing is lost keeps every edit. -/
theorem kept_of_lossless (h : Run.Reaches apply_recorded (init_load_balancer, .empty)
    (fun state command => Lossless state.1 command) commands state) :
    Books Eq state.1.ring state.2 := by
  have hboth : (state.1.WF ∧ Books Within state.1.ring state.2) ∧
      Books Eq state.1.ring state.2 := by
    refine h.invariant (I := fun _ state =>
      (state.1.WF ∧ Books Within state.1.ring state.2) ∧ Books Eq state.1.ring state.2)
      ⟨⟨List.forall_mem_nil _, .nil, List.forall_mem_nil _⟩, .nil, List.forall_mem_nil _⟩ ?_
    rintro _ state command state' out ⟨⟨wf, hwithin⟩, hkept⟩ hlossless happly
    obtain ⟨wf', hstep, hledger⟩ := apply_recorded_eq_ok wf happly
    rw [hledger]
    exact ⟨⟨wf', within_step hwithin hstep⟩,
      (kept_step_iff hwithin hstep).mpr ⟨hkept, lossless_iff.mp hlossless⟩⟩
  exact hboth.2

/-- A run that kept every edit lost none on its way. -/
theorem lossless_of_kept (h : Run.Reaches apply_recorded (init_load_balancer, .empty)
    admissible commands state) (hkept : Books Eq state.1.ring state.2) :
    Run.Reaches apply_recorded (init_load_balancer, .empty)
      (fun state command => Lossless state.1 command) commands state := by
  induction h with
  | nil => exact .nil
  | snoc hcommands _ happly ih =>
    obtain ⟨wf, hwithin⟩ := within_of_reaches hcommands
    obtain ⟨-, hstep, hledger⟩ := apply_recorded_eq_ok wf happly
    rw [hledger, kept_step_iff hwithin hstep] at hkept
    exact .snoc (ih hkept.1) (lossless_iff.mpr hkept.2) happly

end Runs

/-! ### Every edit of a run has an account. -/

/-- The requests of the EDITs among the commands. -/
def editRequests (commands : List Command) : List Request :=
  commands.flatMap fun command =>
    match command with
    | .EDIT d c => [editRequest d c]
    | _ => []

/-- Everything the servers have acknowledged. -/
def Ledger.acknowledged (ledger : Ledger) : List Request :=
  (ledger.current ++ ledger.closed).flatMap Account.acknowledged

/-- The account at a slot of the ring, and the others. -/
theorem acknowledged_perm_at {ledger : Ledger} {k : ℕ} {a : Account}
    (ha : ledger.current[k]? = some a) :
    ledger.acknowledged.Perm (a.acknowledged ++
      Ledger.acknowledged { ledger with current := ledger.current.eraseIdx k }) :=
  ((Parallel.perm_cons_eraseIdx ha).append_right _).flatMap_right _

/-- What an update of the account at a slot does. -/
theorem acknowledged_modify_perm {ledger : Ledger} {k : ℕ} {a : Account}
    (ha : ledger.current[k]? = some a) {f : Account → Account} {more : List Request}
    (hf : (f a).acknowledged = a.acknowledged ++ more) :
    (Ledger.acknowledged { ledger with current := ledger.current.modify k f }).Perm
      (ledger.acknowledged ++ more) := by
  have hbefore := acknowledged_perm_at ha
  have hafter : (Ledger.acknowledged { ledger with current := ledger.current.modify k f }).Perm
      ((f a).acknowledged ++
        Ledger.acknowledged { ledger with current := ledger.current.eraseIdx k }) :=
    ((Parallel.modify_perm_cons_eraseIdx ha f).append_right _).flatMap_right _
  rw [hf] at hafter
  refine hafter.trans (List.Perm.trans ?_ (hbefore.symm.append_right more))
  rw [List.append_assoc, List.append_assoc]
  exact List.perm_append_comm.append_left _

theorem acknowledged_insertIdx_perm (ledger : Ledger) {k : ℕ} (hk : k ≤ ledger.current.length) :
    (Ledger.acknowledged { ledger with current := ledger.current.insertIdx k ⟨[], []⟩ }).Perm
      ledger.acknowledged :=
  ((List.perm_insertIdx _ _ hk).append_right _).flatMap_right _

/-- Closing the account at a slot. -/
theorem acknowledged_close_perm {ledger : Ledger} {k : ℕ} {a : Account}
    (ha : ledger.current[k]? = some a) (executed : List Executed) :
    (Ledger.acknowledged
      { current := ledger.current.eraseIdx k
        closed := ledger.closed ++
          (ledger.current[k]?.map fun a => a.execute executed).toList }).Perm
      ledger.acknowledged := by
  have hbefore := acknowledged_perm_at ha
  have hmove : (ledger.current.eraseIdx k ++ (ledger.closed ++ [a.execute executed])).Perm
      (a.execute executed :: (ledger.current.eraseIdx k ++ ledger.closed)) := by
    rw [← List.append_assoc]
    exact List.perm_append_singleton _ _
  rw [ha]
  exact (hmove.flatMap_right _).trans hbefore.symm

/-- One step enters the EDIT it is about. -/
theorem acknowledged_step {ring ring' : HashRing} {ledger : Ledger} {command : Command}
    {out : Output} (hlen : ring.length = ledger.current.length)
    (hstep : Step ring command ring' out) :
    (ledger.record ring out command).acknowledged.Perm
      (ledger.acknowledged ++ editRequests [command]) := by
  cases hstep with
  | addFirst =>
    have hcurrent : ledger.current = [] := List.length_eq_zero_iff.mp hlen.symm
    rw [Ledger.record, hcurrent, List.modify_nil]
    exact (acknowledged_insertIdx_perm ⟨[], ledger.closed⟩ (Nat.zero_le 0)).trans (by
      simp [Ledger.acknowledged, hcurrent, editRequests])
  | @add _ id cache_size next _ hnext =>
    obtain ⟨a, ha⟩ := Parallel.exists_of_length_eq hlen hnext
    have hle := addSlot_le ring (ne_nil_of_getElem? hnext) id
    rw [hlen, ← List.length_modify fun a : Account => a.execute (next.executed next.pending)] at hle
    rw [Ledger.record]
    exact (acknowledged_insertIdx_perm { ledger with current := _ } hle).trans
      (acknowledged_modify_perm ha (List.append_nil _).symm)
  | @removeOnly v id =>
    obtain ⟨a, ha⟩ := Parallel.exists_of_length_eq hlen (List.getElem?_cons_zero (a := v) (l := []))
    rw [Ledger.record, slot_singleton, show editRequests [.REMOVE_SERVER id] = [] from rfl,
      List.append_nil]
    exact acknowledged_close_perm ha _
  | @remove _ id v next hlen' hv hnext =>
    obtain ⟨a, ha⟩ := Parallel.exists_of_length_eq hlen hv
    rw [Ledger.record, show editRequests [.REMOVE_SERVER id] = [] from rfl, List.append_nil]
    exact acknowledged_close_perm ha _
  | @edit _ d c v hv =>
    obtain ⟨a, ha⟩ := Parallel.exists_of_length_eq hlen hv
    rw [Ledger.record, if_pos (acknowledges_acknowledge v d c)]
    exact acknowledged_modify_perm ha rfl
  | @get _ d v hv =>
    obtain ⟨a, ha⟩ := Parallel.exists_of_length_eq hlen hv
    rw [Ledger.record]
    exact acknowledged_modify_perm ha (List.append_nil _).symm

/-- Every EDIT of a run is in one account. -/
theorem acknowledged_of_reaches {admissible : LoadBalancer × Ledger → Command → Prop}
    {commands : List Command} {state : LoadBalancer × Ledger}
    (h : Run.Reaches apply_recorded (init_load_balancer, .empty) admissible commands state) :
    state.2.acknowledged.Perm (editRequests commands) := by
  induction h with
  | nil => exact .nil
  | snoc hcommands _ happly ih =>
    obtain ⟨wf, hwithin⟩ := within_of_reaches hcommands
    obtain ⟨-, hstep, hledger⟩ := apply_recorded_eq_ok wf happly
    rw [hledger, editRequests, List.flatMap_append]
    exact (acknowledged_step (books_length hwithin) hstep).trans (ih.append_right _)

/-! ## §4. The edits that are kept. -/

/-- **Which runs lose no acknowledged edit**: those in which every EDIT finds room in the queue it
is sent to and the only server is never removed with edits in its queue.  The accounts have the
EDITs of the run, each of them once. -/
theorem acknowledged_edits_kept_iff {commands : List Command} {main : LoadBalancer}
    {ledger : Ledger} (h : Run.Reaches apply_recorded (init_load_balancer, .empty)
      (fun _ _ => True) commands (main, ledger)) :
    ledger.acknowledged.Perm (editRequests commands) ∧
      (Kept main ledger ↔ Run.Reaches apply_recorded (init_load_balancer, .empty)
        (fun state command => Lossless state.1 command) commands (main, ledger)) := by
  refine ⟨acknowledged_of_reaches h, ?_⟩
  rw [kept_iff]
  constructor
  · intro hkept
    exact lossless_of_kept h hkept
  · intro hlossless
    exact kept_of_lossless hlossless

/-- A queue is executed when a server is added in front of it, and another one when its server is
removed. -/
theorem acknowledged_edits_kept_iff_add_remove :
    ∃ main ledger, Run.Reaches apply_recorded (init_load_balancer, .empty) (fun _ _ => True)
        [.ADD_SERVER 1 1, .EDIT (.ofString "a") (.ofString "x"), .ADD_SERVER 5 1,
          .EDIT (.ofString "a") (.ofString "y"), .REMOVE_SERVER 5,
          .EDIT (.ofString "b") (.ofString "z")] (main, ledger) ∧
      Kept main ledger := by
  obtain ⟨⟨main, ledger⟩, hreaches, -⟩ := Run.exists_reaches_of_checkedRun
    (fun state command => decide (Lossless state.1 command)) (fun _ => true)
    (show (Run.checkedRun apply_recorded _ (init_load_balancer, .empty) [.ADD_SERVER 1 1,
      .EDIT (.ofString "a") (.ofString "x"), .ADD_SERVER 5 1,
      .EDIT (.ofString "a") (.ofString "y"), .REMOVE_SERVER 5,
      .EDIT (.ofString "b") (.ofString "z")]).any _ = true by decide +kernel)
  have hany := hreaches.mono (fun _ _ _ => trivial)
  refine ⟨main, ledger, hany, (acknowledged_edits_kept_iff hany).2.mpr ?_⟩
  exact hreaches.mono fun _ _ h => of_decide_eq_true h

theorem length_accept_le (v : ServerView) (req : Request)
    (hle : v.pending.length ≤ TASK_QUEUE_SIZE) :
    (v.accept req).pending.length ≤ TASK_QUEUE_SIZE := by
  unfold ServerView.accept
  split_ifs with hroom
  · rw [ServerView.enqueue, List.length_append, List.length_singleton]
    exact hroom
  · exact hle

/-- An EDIT sent to the only server. -/
theorem apply_recorded_edit_single {main : LoadBalancer} (wf : main.WF) {v : ServerView}
    (hring : main.ring = [v]) (a : Account) (d c : CString) :
    ∃ main' out, apply_recorded (main, ⟨[a], []⟩) (.EDIT d c)
        = .ok ((main', ⟨[a.acknowledge (editRequest d c)], []⟩), out) ∧ main'.WF ∧
      main'.ring = [v.accept (editRequest d c)] := by
  have henabled : Enabled main.ring (.EDIT d c) := by
    rw [hring]
    exact List.cons_ne_nil _ _
  obtain ⟨main', out, happly, wf', hstep⟩ := apply_request_spec wf henabled
  rw [hring] at hstep
  generalize hring' : main'.ring = ring' at hstep
  cases hstep with
  | edit hv =>
    rw [route, slot_singleton] at hv hring'
    cases hv
    refine ⟨main', ⟨[], some (v.acknowledge (editRequest d c))⟩, ?_, wf', hring'⟩
    simp only [apply_recorded, happly, ok_bind, hring, Ledger.record, acknowledges_acknowledge,
      if_true, route, slot_singleton]
    rfl

/-- Any number of EDITs sent to a single server are acknowledged and none is executed. -/
theorem reaches_edits (d c : CString) (n : ℕ) :
    ∃ main v a, Run.Reaches apply_recorded (init_load_balancer, .empty) (fun _ _ => True)
        (.ADD_SERVER 1 1 :: List.replicate n (.EDIT d c)) (main, ⟨[a], []⟩) ∧ main.WF ∧
      main.ring = [v] ∧ v.pending.length ≤ TASK_QUEUE_SIZE ∧ a.executed = [] ∧
      a.acknowledged.length = n := by
  induction n with
  | zero =>
    have hinit : init_load_balancer.WF := List.forall_mem_nil _
    have henabled : Enabled init_load_balancer.ring (.ADD_SERVER 1 1) :=
      show (1 : Int32) ≤ 1 by decide
    obtain ⟨main, out, happly, wf, hstep⟩ := apply_request_spec hinit henabled
    have hrecorded : apply_recorded (init_load_balancer, .empty) (.ADD_SERVER 1 1)
        = .ok ((main, ⟨[⟨[], []⟩], []⟩), out) := by
      simp only [apply_recorded, happly, ok_bind]
      rfl
    have hring : main.ring = [fresh 1 1] := by
      generalize main.ring = ring at hstep
      cases hstep with
      | addFirst => rfl
      | add _ hnext => cases hnext
    exact ⟨main, fresh 1 1, ⟨[], []⟩, .snoc .nil trivial hrecorded, wf, hring, Nat.zero_le _, rfl,
      rfl⟩
  | succ n ih =>
    obtain ⟨main, v, a, hreaches, wf, hring, hle, hexecuted, hlen⟩ := ih
    obtain ⟨main', out, hrecorded, wf', hring'⟩ := apply_recorded_edit_single wf hring a d c
    refine ⟨main', v.accept (editRequest d c), a.acknowledge (editRequest d c), ?_, wf', hring',
      length_accept_le v _ hle, hexecuted, ?_⟩
    · rw [List.replicate_succ', ← List.cons_append]
      exact hreaches.snoc trivial hrecorded
    · rw [Account.acknowledge, List.length_append, List.length_singleton, hlen]

/-- **Two ways to lose an acknowledged edit**: the queue of its server is full, or its server is
the only one and is removed. -/
theorem full_queue_and_last_removal_lose_edits :
    (∃ main ledger, Run.Reaches apply_recorded (init_load_balancer, .empty) (fun _ _ => True)
        (.ADD_SERVER 1 1 :: List.replicate 1001 (.EDIT (.ofString "a") (.ofString "x")))
        (main, ledger) ∧ ¬ Kept main ledger) ∧
    ∃ main ledger, Run.Reaches apply_recorded (init_load_balancer, .empty) (fun _ _ => True)
        [.ADD_SERVER 1 1, .EDIT (.ofString "a") (.ofString "x"), .REMOVE_SERVER 1]
        (main, ledger) ∧ ¬ Kept main ledger := by
  constructor
  · obtain ⟨main, v, a, hreaches, _, hring, hle, hexecuted, hlen⟩ :=
      reaches_edits (.ofString "a") (.ofString "x") 1001
    refine ⟨main, _, hreaches, ?_⟩
    rw [kept_iff, hring]
    intro hkept
    have hsame := congrArg List.length (List.forall₂_cons.mp hkept.1).1
    rw [hexecuted, List.nil_append, hlen] at hsame
    exact absurd hle (by rw [← hsame]; decide)
  · obtain ⟨⟨main, ledger⟩, hreaches, hopen⟩ := Run.exists_reaches_of_checkedRun (fun _ _ => true)
      (fun state : LoadBalancer × Ledger =>
        !decide (∀ a ∈ state.2.closed, a.acknowledged = a.executed))
      (show (Run.checkedRun apply_recorded _ (init_load_balancer, .empty) [.ADD_SERVER 1 1,
        .EDIT (.ofString "a") (.ofString "x"), .REMOVE_SERVER 1]).any _ = true by decide +kernel)
    refine ⟨main, ledger, hreaches.mono (fun _ _ _ => trivial), ?_⟩
    intro hkept
    rw [Bool.not_eq_true', decide_eq_false_iff_not] at hopen
    exact hopen hkept.2

end DistDb
