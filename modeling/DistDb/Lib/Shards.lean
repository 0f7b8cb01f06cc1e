/-
  DistDb.Lib.Shards — machines made of parts that do not look at each other.

  A machine has a list of parts, and every command is addressed to one of them: `shardStep` runs
  it there and leaves the others alone.  Such a machine is the parallel composition of its parts:
  a run does to each part what the commands addressed to it do on their own, and answers them
  alike (`parts_of_run`), and it returns when the parts' own runs do (`exists_run_of_parts`).  So
  only the order of the commands of each part matters (`run_eq_of_same_order`).
-/
import DistDb.Lib.Run

namespace DistDb.Lib.Shards

open Run

variable {σ γ ο ε : Type*}

/-! ## §1. The machine. -/

/-- Run a command on the part it is addressed to. -/
def shardStep (step : σ → γ → Except ε (σ × ο)) (address : γ → ℕ) (missing : ε) (parts : List σ)
    (c : γ) : Except ε (List σ × ο) :=
  match parts[address c]? with
  | none => .error missing
  | some s =>
    match step s c with
    | .error e => .error e
    | .ok (s', o) => .ok (parts.set (address c) s', o)

/-- The commands addressed to part `i`. -/
def sentTo (address : γ → ℕ) (i : ℕ) (cs : List γ) : List γ :=
  cs.filter fun c => decide (address c = i)

/-- The outputs of the commands addressed to part `i`. -/
def answersOf (address : γ → ℕ) (i : ℕ) (cs : List γ) (os : List ο) : List ο :=
  ((cs.zip os).filter fun p => decide (address p.1 = i)).map Prod.snd

variable {step : σ → γ → Except ε (σ × ο)} {address : γ → ℕ} {missing : ε}
  {parts parts' : List σ} {c : γ} {cs cs' : List γ} {o : ο} {os : List ο} {i : ℕ}

theorem shardStep_eq_ok : shardStep step address missing parts c = .ok (parts', o) ↔
    ∃ s s', parts[address c]? = some s ∧ step s c = .ok (s', o) ∧
      parts' = parts.set (address c) s' := by
  unfold shardStep
  constructor
  · intro h
    split at h
    · cases h
    · rename_i s hs
      split at h
      · cases h
      · rename_i s' o' hstep
        cases h
        exact ⟨s, s', hs, hstep, rfl⟩
  · rintro ⟨s, s', hs, hstep, rfl⟩
    simp only [hs, hstep]

theorem sentTo_cons_self (c : γ) (cs : List γ) :
    sentTo address (address c) (c :: cs) = c :: sentTo address (address c) cs :=
  List.filter_cons_of_pos (decide_eq_true rfl)

theorem sentTo_cons_of_ne (h : address c ≠ i) (cs : List γ) :
    sentTo address i (c :: cs) = sentTo address i cs :=
  List.filter_cons_of_neg (by simpa using h)

/-- Neighbours that are addressed to different parts may change places. -/
theorem sentTo_swap {c' : γ} (h : address c ≠ address c') (i : ℕ) (cs : List γ) :
    sentTo address i (c :: c' :: cs) = sentTo address i (c' :: c :: cs) := by
  by_cases hi : address c = i
  · subst hi
    rw [sentTo_cons_self, sentTo_cons_of_ne (Ne.symm h), sentTo_cons_of_ne (Ne.symm h),
      sentTo_cons_self]
  · rw [sentTo_cons_of_ne hi]
    by_cases hi' : address c' = i
    · subst hi'
      rw [sentTo_cons_self, sentTo_cons_self, sentTo_cons_of_ne h]
    · rw [sentTo_cons_of_ne hi', sentTo_cons_of_ne hi', sentTo_cons_of_ne hi]

theorem answersOf_cons_self (c : γ) (cs : List γ) (o : ο) (os : List ο) :
    answersOf address (address c) (c :: cs) (o :: os)
      = o :: answersOf address (address c) cs os := by
  unfold answersOf
  rw [List.zip_cons_cons, List.filter_cons_of_pos (by simp)]
  rfl

theorem answersOf_cons_of_ne (h : address c ≠ i) (cs : List γ) (o : ο) (os : List ο) :
    answersOf address i (c :: cs) (o :: os) = answersOf address i cs os := by
  unfold answersOf
  rw [List.zip_cons_cons, List.filter_cons_of_neg (by simpa using h)]

/-! ## §2. A run and the runs of the parts. -/

/-- **Each part of a run**: it does what the commands addressed to it do on their own. -/
theorem parts_of_run (h : run (shardStep step address missing) parts cs = .ok (parts', os)) :
    parts'.length = parts.length ∧ ∀ i s, parts[i]? = some s →
      ∃ s', parts'[i]? = some s' ∧
        run step s (sentTo address i cs) = .ok (s', answersOf address i cs os) := by
  induction cs generalizing parts os with
  | nil =>
    cases h
    exact ⟨rfl, fun i s hs => ⟨s, hs, rfl⟩⟩
  | cons c cs ih =>
    obtain ⟨parts₁, o, os', hstep, hrest, rfl⟩ := run_cons_eq_ok.mp h
    obtain ⟨s₀, s₁, hs₀, hs₁, rfl⟩ := shardStep_eq_ok.mp hstep
    obtain ⟨hlength, hparts⟩ := ih hrest
    refine ⟨hlength.trans List.length_set, ?_⟩
    intro i s hs
    by_cases hi : address c = i
    · -- the part that the first command is addressed to
      subst hi
      cases hs₀.symm.trans hs
      have hset : (parts.set (address c) s₁)[address c]? = some s₁ :=
        List.getElem?_set_self (List.getElem?_eq_some_iff.mp hs).1
      obtain ⟨s', hs', hrun⟩ := hparts _ _ hset
      rw [sentTo_cons_self, answersOf_cons_self]
      exact ⟨s', hs', run_cons_eq_ok.mpr ⟨s₁, o, _, hs₁, hrun, rfl⟩⟩
    · rw [sentTo_cons_of_ne hi, answersOf_cons_of_ne hi]
      exact hparts i s (by rwa [List.getElem?_set_ne hi])

/-- **The runs of the parts make a run.** -/
theorem exists_run_of_parts (haddress : ∀ c ∈ cs, address c < parts.length)
    (h : ∀ i s, parts[i]? = some s → ∃ r, run step s (sentTo address i cs) = .ok r) :
    ∃ parts' os, run (shardStep step address missing) parts cs = .ok (parts', os) := by
  induction cs generalizing parts with
  | nil => exact ⟨parts, [], rfl⟩
  | cons c cs ih =>
    obtain ⟨hc, hcs⟩ := List.forall_mem_cons.mp haddress
    have hs₀ := List.getElem?_eq_getElem hc
    obtain ⟨r, hr⟩ := h _ _ hs₀
    rw [sentTo_cons_self] at hr
    obtain ⟨s₁, o, os', hs₁, hrest, -⟩ := run_cons_eq_ok.mp hr
    have hstep : shardStep step address missing parts c = .ok (parts.set (address c) s₁, o) :=
      shardStep_eq_ok.mpr ⟨_, s₁, hs₀, hs₁, rfl⟩
    have hcs' : ∀ c' ∈ cs, address c' < (parts.set (address c) s₁).length := by
      intro c' hc'
      rw [List.length_set]
      exact hcs c' hc'
    obtain ⟨parts', os, hrun⟩ := ih hcs' fun i s hs => by
      by_cases hi : address c = i
      · subst hi
        rw [List.getElem?_set_self hc, Option.some.injEq] at hs
        exact ⟨_, hs ▸ hrest⟩
      · rw [List.getElem?_set_ne hi] at hs
        obtain ⟨r, hr⟩ := h i s hs
        rw [sentTo_cons_of_ne hi] at hr
        exact ⟨r, hr⟩
    exact ⟨parts', _, run_cons_eq_ok.mpr ⟨_, o, os, hstep, hrun, rfl⟩⟩

/-- Every command of a run that returns is addressed to a part. -/
theorem address_lt_of_run (h : run (shardStep step address missing) parts cs = .ok (parts', os)) :
    ∀ c ∈ cs, address c < parts.length := by
  induction cs generalizing parts os with
  | nil => exact fun _ hc => absurd hc List.not_mem_nil
  | cons c cs ih =>
    obtain ⟨parts₁, o, os', hstep, hrest, rfl⟩ := run_cons_eq_ok.mp h
    obtain ⟨s₀, s₁, hs₀, -, rfl⟩ := shardStep_eq_ok.mp hstep
    intro c' hc'
    rcases List.mem_cons.mp hc' with rfl | hc'
    · exact (List.getElem?_eq_some_iff.mp hs₀).1
    · have hlt := ih hrest c' hc'
      rwa [List.length_set] at hlt

/-- **Only the order at each part matters**: commands that reach every part in the same order lead
to the same parts, and every part answers its commands alike. -/
theorem run_eq_of_same_order (hsame : ∀ i, sentTo address i cs = sentTo address i cs')
    (h : run (shardStep step address missing) parts cs = .ok (parts', os)) :
    ∃ os', run (shardStep step address missing) parts cs' = .ok (parts', os') ∧
      ∀ i, i < parts.length → answersOf address i cs' os' = answersOf address i cs os := by
  obtain ⟨hlength, hparts⟩ := parts_of_run h
  have haddress : ∀ c ∈ cs', address c < parts.length := by
    intro c hc
    have hmem : c ∈ sentTo address (address c) cs' := List.mem_filter.mpr ⟨hc, by simp⟩
    rw [← hsame] at hmem
    exact address_lt_of_run h c (List.mem_of_mem_filter hmem)
  have howns : ∀ i s, parts[i]? = some s → ∃ r, run step s (sentTo address i cs') = .ok r := by
    intro i s hs
    obtain ⟨s', -, hs'⟩ := hparts i s hs
    exact ⟨_, hsame i ▸ hs'⟩
  obtain ⟨parts'', os', hrun⟩ : ∃ parts'' os',
      run (shardStep step address missing) parts cs' = .ok (parts'', os') :=
    exists_run_of_parts haddress howns
  obtain ⟨hlength', hparts'⟩ := parts_of_run hrun
  -- both runs do the same to part `i`
  have heq : ∀ i (hi : i < parts.length), parts''[i]? = parts'[i]? ∧
      answersOf address i cs' os' = answersOf address i cs os := by
    intro i hi
    obtain ⟨s', hs', hown⟩ := hparts i _ (List.getElem?_eq_getElem hi)
    obtain ⟨s'', hs'', hown'⟩ := hparts' i _ (List.getElem?_eq_getElem hi)
    rw [← hsame i, hown, Except.ok.injEq, Prod.mk.injEq] at hown'
    exact ⟨hs''.trans (hown'.1 ▸ hs'.symm), hown'.2.symm⟩
  have hsame_parts : parts'' = parts' := by
    apply List.ext_getElem?
    intro i
    by_cases hi : i < parts.length
    · exact (heq i hi).1
    · rw [List.getElem?_eq_none (by omega), List.getElem?_eq_none (by omega)]
  exact ⟨os', hsame_parts ▸ hrun, fun i hi => (heq i hi).2⟩

end DistDb.Lib.Shards
