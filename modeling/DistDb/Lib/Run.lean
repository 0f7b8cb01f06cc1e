/-
  DistDb.Lib.Run — runs of a machine whose steps can fail.

  A step takes a state and a command to a new state and an output, or to an error.  `run` feeds it
  a list of commands.  `Reaches` relates a list of commands to the state it leads to when every
  command is admissible in the state it meets; facts about all reachable states are proved by
  `Reaches.invariant`, from one fact about a step.  `run_refines` compares the runs of such a
  machine with those of a reference that never fails, again from one fact about a step, and
  `run_agree` with those of another machine that may fail.
-/
import Mathlib.Data.List.Basic
import DistDb.Lib.Parallel

namespace DistDb.Lib.Run

variable {σ γ ο ε : Type*}

/-- The state and the outputs after a list of commands. -/
def run (step : σ → γ → Except ε (σ × ο)) (s : σ) : List γ → Except ε (σ × List ο)
  | [] => .ok (s, [])
  | c :: cs =>
    match step s c with
    | .error e => .error e
    | .ok (s', o) =>
      match run step s' cs with
      | .error e => .error e
      | .ok (s'', os) => .ok (s'', o :: os)

/-- A run of several commands returns when the first command and the rest of the run do. -/
theorem run_cons_eq_ok {step : σ → γ → Except ε (σ × ο)} {s s' : σ} {c : γ} {cs : List γ}
    {os : List ο} : run step s (c :: cs) = .ok (s', os) ↔
      ∃ s₁ o os', step s c = .ok (s₁, o) ∧ run step s₁ cs = .ok (s', os') ∧ os = o :: os' := by
  rw [run]
  constructor
  · intro h
    split at h
    · cases h
    · rename_i s₁ o hstep
      split at h
      · cases h
      · rename_i s₂ os' hrest
        cases h
        exact ⟨s₁, o, os', hstep, hrest, rfl⟩
  · rintro ⟨s₁, o, os', hstep, hrest, rfl⟩
    simp only [hstep, hrest]

/-- A run of several commands fails when the first command does, or else the rest of the run. -/
theorem run_cons_eq_error {step : σ → γ → Except ε (σ × ο)} {s : σ} {c : γ} {cs : List γ}
    {e : ε} : run step s (c :: cs) = .error e ↔
      step s c = .error e ∨ ∃ s₁ o, step s c = .ok (s₁, o) ∧ run step s₁ cs = .error e := by
  rw [run]
  cases hstep : step s c with
  | error e' => simp
  | ok r =>
    obtain ⟨s₁, o⟩ := r
    cases hrest : run step s₁ cs with
    | error e' => simp [hrest]
    | ok r => simp [hrest]

/-- The outputs of the commands that return, up to the first one that does not, and how the run
ends. -/
def trace (step : σ → γ → Except ε (σ × ο)) (s : σ) : List γ → List ο × Except ε σ
  | [] => ([], .ok s)
  | c :: cs =>
    match step s c with
    | .error e => ([], .error e)
    | .ok (s', o) => (o :: (trace step s' cs).1, (trace step s' cs).2)

/-- A run that returns has the outputs of the trace; one that fails does so with its error. -/
theorem run_eq_trace (step : σ → γ → Except ε (σ × ο)) (s : σ) (cs : List γ) :
    run step s cs = (trace step s cs).2.map fun s' => (s', (trace step s cs).1) := by
  induction cs generalizing s with
  | nil => rfl
  | cons c cs ih =>
    rw [run, trace]
    cases step s c with
    | error e => rfl
    | ok r =>
      dsimp only
      rw [ih]
      cases (trace step r.1 cs).2 <;> rfl

/-- The commands `cs` lead from `init` to `s`, each admissible in the state it meets. -/
inductive Reaches (step : σ → γ → Except ε (σ × ο)) (init : σ) (admissible : σ → γ → Prop) :
    List γ → σ → Prop
  | nil : Reaches step init admissible [] init
  | snoc {cs : List γ} {s s' : σ} {c : γ} {o : ο} (hcs : Reaches step init admissible cs s)
      (hc : admissible s c) (hstep : step s c = .ok (s', o)) :
      Reaches step init admissible (cs ++ [c]) s'

variable {step : σ → γ → Except ε (σ × ο)} {init : σ} {admissible : σ → γ → Prop}

/-- **The invariant rule**: what holds initially and is kept by every admissible step holds of
every state reached, with the commands that led there. -/
theorem Reaches.invariant {I : List γ → σ → Prop} (hinit : I [] init)
    (hstep : ∀ cs s c s' o, I cs s → admissible s c → step s c = .ok (s', o) →
      I (cs ++ [c]) s')
    {cs : List γ} {s : σ} (h : Reaches step init admissible cs s) : I cs s := by
  induction h with
  | nil => exact hinit
  | snoc _ hc hs ih => exact hstep _ _ _ _ _ ih hc hs

/-- The state after a list of commands, while each of them passes a test and returns. -/
def checkedRun (step : σ → γ → Except ε (σ × ο)) (test : σ → γ → Bool) (s : σ) :
    List γ → Option σ
  | [] => some s
  | c :: cs =>
    if test s c then
      match step s c with
      | .error _ => none
      | .ok (s', _) => checkedRun step test s' cs
    else none

/-- A checked run reaches its state. -/
theorem Reaches.append_checkedRun {test : σ → γ → Bool} {s s' : σ} {cs cs' : List γ}
    (h : Reaches step init (fun s c => test s c = true) cs s)
    (hrun : checkedRun step test s cs' = some s') :
    Reaches step init (fun s c => test s c = true) (cs ++ cs') s' := by
  induction cs' generalizing s cs with
  | nil =>
    cases hrun
    rwa [List.append_nil]
  | cons c cs' ih =>
    unfold checkedRun at hrun
    split at hrun
    · rename_i htest
      split at hrun
      · cases hrun
      · rename_i s₁ o hstep
        have := ih (h.snoc htest hstep) hrun
        rwa [List.append_assoc] at this
    · cases hrun

/-- A checked run whose state passes a last test. -/
theorem exists_reaches_of_checkedRun (test : σ → γ → Bool) (last : σ → Bool) {cs : List γ}
    (h : (checkedRun step test init cs).any last = true) :
    ∃ s, Reaches step init (fun s c => test s c = true) cs s ∧ last s = true := by
  obtain ⟨s, hrun, hlast⟩ := (Option.any_eq_true _ _).mp h
  exact ⟨s, Reaches.nil.append_checkedRun hrun, hlast⟩

/-- A run of a stricter machine is a run of a laxer one. -/
theorem Reaches.mono {admissible' : σ → γ → Prop} (hle : ∀ s c, admissible s c → admissible' s c)
    {cs : List γ} {s : σ} (h : Reaches step init admissible cs s) :
    Reaches step init admissible' cs s := by
  induction h with
  | nil => exact .nil
  | snoc _ hc hs ih => exact .snoc ih (hle _ _ hc) hs

/-- A run goes on with a command that returns. -/
theorem run_snoc {s s' s'' : σ} {cs : List γ} {c : γ} {os : List ο} {o : ο}
    (h : run step s cs = .ok (s', os)) (hc : step s' c = .ok (s'', o)) :
    run step s (cs ++ [c]) = .ok (s'', os ++ [o]) := by
  induction cs generalizing s os with
  | nil =>
    cases h
    exact run_cons_eq_ok.mpr ⟨s'', o, [], hc, rfl, rfl⟩
  | cons c₁ cs ih =>
    obtain ⟨s₁, o₁, os', hs₁, hrest, rfl⟩ := run_cons_eq_ok.mp h
    exact run_cons_eq_ok.mpr ⟨s₁, o₁, os' ++ [o], hs₁, ih hrest, rfl⟩

/-- **The rule for two machines**: when related commands lead from related states to related
states, with related outputs, related lists of commands do so. -/
theorem Reaches.related {τ γ' ο' : Type*} {step' : τ → γ' → Except ε (τ × ο')} {init' : τ}
    {R : σ → τ → Prop} {C : γ → γ' → Prop} {Q : ο → ο' → Prop} (hinit : R init init')
    (hstep : ∀ s t c c' s₁ o, R s t → admissible s c → C c c' → step s c = .ok (s₁, o) →
      ∃ t₁ o', step' t c' = .ok (t₁, o') ∧ R s₁ t₁ ∧ Q o o')
    {cs : List γ} {s : σ} (h : Reaches step init admissible cs s) {cs' : List γ'}
    (hcs : List.Forall₂ C cs cs') :
    ∃ t os os', run step init cs = .ok (s, os) ∧ run step' init' cs' = .ok (t, os') ∧ R s t ∧
      List.Forall₂ Q os os' := by
  induction h generalizing cs' with
  | nil =>
    rw [List.forall₂_nil_left_iff.mp hcs]
    exact ⟨init', [], [], rfl, rfl, hinit, .nil⟩
  | snoc _ hc hs ih =>
    obtain ⟨cs'', c', rfl, hcs, hc'⟩ := Parallel.forall₂_snoc_left hcs
    obtain ⟨t, os, os', hrun, hrun', hst, hos⟩ := ih hcs
    obtain ⟨t₁, o', hs', h₁, ho⟩ := hstep _ _ _ _ _ _ hst hc hc' hs
    exact ⟨t₁, _, _, run_snoc hrun hs, run_snoc hrun' hs', h₁, Parallel.forall₂_snoc hos ho⟩

/-! ## Runs whose commands meet a condition. -/

/-- Every command of the run meets the condition in the state it is issued in. -/
def Along (step : σ → γ → Except ε (σ × ο)) (P : σ → γ → Prop) (s : σ) : List γ → Prop
  | [] => True
  | c :: cs => P s c ∧
    match step s c with
    | .error _ => True
    | .ok (s', _) => Along step P s' cs

instance Along.decidable (step : σ → γ → Except ε (σ × ο)) (P : σ → γ → Prop)
    [∀ s c, Decidable (P s c)] : ∀ s cs, Decidable (Along step P s cs)
  | _, [] => isTrue trivial
  | s, c :: cs =>
    match hstep : step s c with
    | .error _ => decidable_of_iff (P s c) (by simp [Along, hstep])
    | .ok (s', _) =>
      have := Along.decidable step P s' cs
      decidable_of_iff (P s c ∧ Along step P s' cs) (by simp [Along, hstep])

/-- **The simulation rule** under a condition on the commands of the first machine: what it prints
in a run, a machine in a related state prints too. -/
theorem Along.simulation {τ : Type*} {step' : τ → γ → Except ε (τ × ο)} {P : σ → γ → Prop}
    {R : σ → τ → Prop} {s s' : σ} {t : τ} {cs : List γ} {os : List ο}
    (hcs : Along step P s cs)
    (hstep : ∀ s t c s₁ o, R s t → P s c → step s c = .ok (s₁, o) →
      ∃ t₁, step' t c = .ok (t₁, o) ∧ R s₁ t₁)
    (h : R s t) (hrun : run step s cs = .ok (s', os)) :
    ∃ t', run step' t cs = .ok (t', os) ∧ R s' t' := by
  induction cs generalizing s t os with
  | nil =>
    cases hrun
    exact ⟨t, rfl, h⟩
  | cons c cs ih =>
    obtain ⟨s₁, o, os', hs₁, hrest, rfl⟩ := run_cons_eq_ok.mp hrun
    obtain ⟨hc, hcs⟩ := hcs
    simp only [hs₁] at hcs
    obtain ⟨t₁, ht₁, h₁⟩ := hstep s t c s₁ o h hc hs₁
    obtain ⟨t', ht', h'⟩ := ih hcs h₁ hrest
    exact ⟨t', run_cons_eq_ok.mpr ⟨t₁, o, os', ht₁, ht', rfl⟩, h'⟩

/-! ## Two machines that may fail. -/

/-- Both results are the same error, or they have the same output and related states. -/
inductive Agree {τ : Type*} (R : σ → τ → Prop) : Except ε (σ × ο) → Except ε (τ × ο) → Prop
  | error (e : ε) : Agree R (.error e) (.error e)
  | ok {s : σ} {t : τ} (o : ο) (h : R s t) : Agree R (.ok (s, o)) (.ok (t, o))

/-- **The lockstep rule**: when every step of the one machine agrees with that of the other, their
runs do. -/
theorem run_agree {τ γ' : Type*} {step' : τ → γ' → Except ε (τ × ο)} {R : σ → τ → Prop}
    {f : γ → γ'} (hstep : ∀ s t c, R s t → Agree R (step s c) (step' t (f c))) {s : σ} {t : τ}
    (h : R s t) (cs : List γ) : Agree R (run step s cs) (run step' t (cs.map f)) := by
  induction cs generalizing s t with
  | nil => exact .ok [] h
  | cons c cs ih =>
    have hc := hstep s t c h
    rw [List.map_cons, run, run]
    generalize step s c = x at hc
    generalize step' t (f c) = y at hc
    cases hc with
    | error e => exact .error e
    | ok o h₁ =>
      have hrest := ih h₁
      dsimp only
      rename_i s₁ t₁
      generalize run step s₁ cs = x at hrest
      generalize run step' t₁ (cs.map f) = y at hrest
      cases hrest with
      | error e => exact .error e
      | ok os h₂ => exact .ok (o :: os) h₂

/-! ## Runs against a machine that always returns. -/

variable {τ : Type*}

/-- The run of a machine whose steps always return. -/
def total (spec : τ → γ → τ × ο) (t : τ) : List γ → τ × List ο
  | [] => (t, [])
  | c :: cs => ((total spec (spec t c).1 cs).1, (spec t c).2 :: (total spec (spec t c).1 cs).2)

/-- A run goes on with a command. -/
theorem total_snoc (spec : τ → γ → τ × ο) (t : τ) (cs : List γ) (c : γ) :
    total spec t (cs ++ [c]) = ((spec (total spec t cs).1 c).1,
      (total spec t cs).2 ++ [(spec (total spec t cs).1 c).2]) := by
  induction cs generalizing t with
  | nil => rfl
  | cons c' cs ih =>
    rw [List.cons_append, total, ih, total]
    rfl

/-- Commands of which the machine reads only a part. -/
theorem total_map {γ' : Type*} (spec : τ → γ → τ × ο) (f : γ' → γ) (t : τ) (cs : List γ') :
    total spec t (cs.map f) = total (fun t c => spec t (f c)) t cs := by
  induction cs generalizing t with
  | nil => rfl
  | cons c cs ih =>
    rw [List.map_cons, total, total, ih]

/-- **The refinement rule**: a machine whose steps return, give the outputs of another one and
keep a relation to its states does so in every run. -/
theorem run_refines {R : σ → τ → Prop} {spec : τ → γ → τ × ο}
    (hstep : ∀ s t c, R s t → ∃ s', step s c = .ok (s', (spec t c).2) ∧ R s' (spec t c).1)
    {s : σ} {t : τ} (h : R s t) (cs : List γ) :
    ∃ s', run step s cs = .ok (s', (total spec t cs).2) ∧ R s' (total spec t cs).1 := by
  induction cs generalizing s t with
  | nil => exact ⟨s, rfl, h⟩
  | cons c cs ih =>
    obtain ⟨s₁, hs₁, h₁⟩ := hstep s t c h
    obtain ⟨s', hs', h'⟩ := ih h₁
    exact ⟨s', run_cons_eq_ok.mpr ⟨s₁, _, _, hs₁, hs', rfl⟩, h'⟩

/-- The refinement rule for two machines that always return. -/
theorem total_refines {R : σ → τ → Prop} {step : σ → γ → σ × ο} {spec : τ → γ → τ × ο}
    (hstep : ∀ s t c, R s t → (step s c).2 = (spec t c).2 ∧ R (step s c).1 (spec t c).1)
    {s : σ} {t : τ} (h : R s t) (cs : List γ) :
    (total step s cs).2 = (total spec t cs).2 ∧ R (total step s cs).1 (total spec t cs).1 := by
  induction cs generalizing s t with
  | nil => exact ⟨rfl, h⟩
  | cons c cs ih =>
    obtain ⟨ho, h₁⟩ := hstep s t c h
    obtain ⟨hos, h'⟩ := ih h₁
    exact ⟨congrArg₂ List.cons ho hos, h'⟩

end DistDb.Lib.Run
