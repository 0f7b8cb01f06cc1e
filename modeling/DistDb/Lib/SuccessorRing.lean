/-
  DistDb.Lib.SuccessorRing — successor routing on a circle of points.

  The points of the circle are kept in a list in ascending order.  A value `h` is served by the
  first point at or after it, and by the first point of the list when `h` lies past the last one.

  Main results:
    * `serves_slotOf` / `Serves.unique` — `slotOf` finds the one slot that serves `h`,
    * `serves_eraseIdx_other` / `serves_eraseIdx_self` — taking a point out hands its values to
      the next point and leaves every other value where it is,
    * `isInsertSlot_insertSlot` — the slot at which a new point keeps the list in order,
    * `serves_insertIdx_other` / `serves_insertIdx_taken` / `serves_insertIdx_kept` — a new point
      takes over one arc of the next point and nothing else,
    * `Serves.eq_of_mem` — two circles that share both serving points serve the value alike.
-/
import Mathlib.Order.Lattice
import Mathlib.Data.List.Basic
import Mathlib.Tactic.SplitIfs

namespace DistDb.Lib.SuccessorRing

variable {α : Type*} [LinearOrder α]

/-! ## §1. The slot that serves a value. -/

/-- The slot of the first point at or after `h`, and `0` when there is no such point. -/
def slotOf (ps : List α) (h : α) : ℕ := (ps.findIdx? (fun p => decide (h ≤ p))).getD 0

/-- Slot `i` serves `h`: it holds the first point at or after `h`, or `h` lies past the last
point and the circle wraps around to slot `0`. -/
inductive Serves (ps : List α) (h : α) (i : ℕ) : Prop
  | next (p : α) (hp : ps[i]? = some p) (hle : h ≤ p)
      (before : ∀ j q, j < i → ps[j]? = some q → q < h)
  | wrap (hi : i = 0) (hne : ps ≠ []) (all : ∀ q ∈ ps, q < h)

/-- **`slotOf` finds a serving slot** on every circle that has a point. -/
theorem serves_slotOf (ps : List α) (h : α) (hne : ps ≠ []) : Serves ps h (slotOf ps h) := by
  unfold slotOf
  cases hf : ps.findIdx? (fun p => decide (h ≤ p)) with
  | none =>
    have hnone := List.findIdx?_eq_none_iff.mp hf
    apply Serves.wrap rfl hne
    intro q hq
    have := hnone q hq
    simpa using this
  | some i =>
    obtain ⟨hlt, hle, hbefore⟩ := List.findIdx?_eq_some_iff_getElem.mp hf
    refine .next ps[i] (List.getElem?_eq_getElem hlt) (by simpa using hle) fun j q hj hq => ?_
    obtain ⟨hjlt, rfl⟩ := List.getElem?_eq_some_iff.mp hq
    simpa using hbefore j hj

/-- Only one slot serves a value. -/
theorem Serves.unique {ps : List α} {h : α} {i j : ℕ} (hi : Serves ps h i) (hj : Serves ps h j) :
    i = j := by
  cases hi with
  | wrap hi hne alli =>
    cases hj with
    | wrap hj => rw [hi, hj]
    | next q hq hle => exact absurd hle (not_le.mpr (alli q (List.mem_of_getElem? hq)))
  | next p hp hlep beforep =>
    cases hj with
    | wrap hj hne allj => exact absurd hlep (not_le.mpr (allj p (List.mem_of_getElem? hp)))
    | next q hq hleq beforeq =>
      rcases Nat.lt_trichotomy i j with hlt | heq | hgt
      · exact absurd hlep (not_le.mpr (beforeq i p hlt hp))
      · exact heq
      · exact absurd hleq (not_le.mpr (beforep j q hgt hq))

theorem slotOf_eq_iff {ps : List α} (hne : ps ≠ []) {h : α} {i : ℕ} :
    slotOf ps h = i ↔ Serves ps h i :=
  ⟨fun e => e ▸ serves_slotOf ps h hne, fun hs => (serves_slotOf ps h hne).unique hs⟩

/-- A serving slot is a slot of the list. -/
theorem Serves.lt_length {ps : List α} {h : α} {i : ℕ} (hs : Serves ps h i) : i < ps.length := by
  cases hs with
  | next p hp => exact (List.getElem?_eq_some_iff.mp hp).1
  | wrap hi hne => exact hi ▸ List.length_pos_iff.mpr hne

theorem slotOf_lt_length {ps : List α} (hne : ps ≠ []) (h : α) : slotOf ps h < ps.length :=
  (serves_slotOf ps h hne).lt_length

/-- In an ascending list every point from the serving one on is at or after the value. -/
theorem le_of_next {ps : List α} (hsorted : ps.Pairwise (· ≤ ·)) {h p q : α} {i j : ℕ}
    (hp : ps[i]? = some p) (hle : h ≤ p) (hij : i ≤ j) (hq : ps[j]? = some q) : h ≤ q := by
  obtain ⟨hi, rfl⟩ := List.getElem?_eq_some_iff.mp hp
  obtain ⟨hj, rfl⟩ := List.getElem?_eq_some_iff.mp hq
  rcases Nat.eq_or_lt_of_le hij with rfl | hlt
  · exact hle
  · exact le_trans hle (List.pairwise_iff_getElem.mp hsorted i j hi hj hlt)

/-- A point of an ascending circle serves its own position at or before its slot. -/
theorem Serves.le_slot {ps : List α} {h : α} {i j : ℕ} (hs : Serves ps h i)
    (hj : ps[j]? = some h) : i ≤ j := by
  cases hs with
  | wrap hi => omega
  | next p hp hle before =>
    by_contra hlt
    exact absurd (before j h (by omega) hj) (lt_irrefl h)

/-! ## §2. Taking a point out. -/

/-- The slot of an element after the element at slot `i` has been taken out. -/
def slotAfterErase (i j : ℕ) : ℕ := if j < i then j else j - 1

/-- The elements of `eraseIdx` by slot. -/
theorem getElem?_slotAfterErase {β : Type*} (l : List β) {i j : ℕ} (hj : j ≠ i) :
    (l.eraseIdx i)[slotAfterErase i j]? = l[j]? := by
  unfold slotAfterErase
  rw [List.getElem?_eraseIdx]
  split_ifs with h1 h2
  · rfl
  · omega
  · rw [Nat.sub_add_cancel (by omega)]

/-- **Values of the other points stay where they are.** -/
theorem serves_eraseIdx_other {ps : List α} {h : α} {i j : ℕ} (hs : Serves ps h j) (hij : j ≠ i)
    (hi : i < ps.length) : Serves (ps.eraseIdx i) h (slotAfterErase i j) := by
  cases hs with
  | wrap hj hne all =>
    refine .wrap ?_ ?_ fun q hq => all q (List.mem_of_mem_eraseIdx hq)
    · unfold slotAfterErase
      split_ifs <;> omega
    · intro hnil
      have hlen := congrArg List.length hnil
      rw [List.length_eraseIdx_of_lt hi] at hlen
      simp at hlen
      omega
  | next p hp hle before =>
    refine .next p ?_ hle ?_
    · exact (getElem?_slotAfterErase ps hij).trans hp
    · intro k q hk hq
      unfold slotAfterErase at hk
      rw [List.getElem?_eraseIdx] at hq
      split_ifs at hk hq with h1 h2 <;> exact before _ q (by omega) hq

/-- **Values of the erased point go to the next one**, which wraps around past the last slot. -/
theorem serves_eraseIdx_self {ps : List α} (hsorted : ps.Pairwise (· ≤ ·)) {h : α} {i : ℕ}
    (hs : Serves ps h i) (hlen : 2 ≤ ps.length) :
    Serves (ps.eraseIdx i) h (if i + 1 < ps.length then i else 0) := by
  have hi := hs.lt_length
  have hne : ps.eraseIdx i ≠ [] := by
    intro hnil
    have := congrArg List.length hnil
    rw [List.length_eraseIdx_of_lt hi] at this
    simp at this
    omega
  cases hs with
  | wrap hi0 _ all =>
    -- no point is at or after `h`, with or without the erased one
    exact .wrap (by split_ifs <;> omega) hne fun q hq => all q (List.mem_of_mem_eraseIdx hq)
  | next p hp hle before =>
    split_ifs with hlast
    · -- the next point is at or after the erased one
      have hnext : ps[i + 1]? = some ps[i + 1] := List.getElem?_eq_getElem hlast
      refine .next ps[i + 1] ?_ (le_of_next hsorted hp hle (by omega) hnext) ?_
      · rw [List.getElem?_eraseIdx, if_neg (Nat.lt_irrefl i), hnext]
      · intro j q hj hq
        rw [List.getElem?_eraseIdx, if_pos hj] at hq
        exact before j q hj hq
    · -- the erased point was the last one: nothing at or after `h` is left
      apply Serves.wrap rfl hne
      intro q hq
      obtain ⟨j, hj⟩ := List.getElem?_of_mem hq
      rw [List.getElem?_eraseIdx] at hj
      split_ifs at hj with hji
      · exact before j q hji hj
      · have := (List.getElem?_eq_some_iff.mp hj).1
        omega

/-! ## §3. Putting a point in. -/

/-- The slot for a new point `p`: the end of the list when `p` lies past the last point, and the
slot that serves `p` otherwise. -/
def insertSlot (ps : List α) (p : α) : ℕ :=
  if ps.getLast?.any (fun last => decide (last < p)) then ps.length else slotOf ps p

/-- Slot `k` keeps the list in order: the points before it lie before `p`, the others do not. -/
structure IsInsertSlot (ps : List α) (p : α) (k : ℕ) : Prop where
  le_length : k ≤ ps.length
  before : ∀ j q, j < k → ps[j]? = some q → q < p
  after : ∀ j q, k ≤ j → ps[j]? = some q → p ≤ q

theorem isInsertSlot_insertSlot {ps : List α} (hsorted : ps.Pairwise (· ≤ ·)) (hne : ps ≠ [])
    (p : α) : IsInsertSlot ps p (insertSlot ps p) := by
  have hpos : 0 < ps.length := List.length_pos_iff.mpr hne
  have hlast : ps.getLast? = some (ps.getLast hne) := List.getLast?_eq_some_getLast hne
  have hlast' : ps[ps.length - 1]? = some (ps.getLast hne) := by
    rw [← hlast, List.getLast?_eq_getElem?]
  unfold insertSlot
  rw [hlast]
  by_cases hp : ps.getLast hne < p
  · -- past the last point
    simp only [Option.any_some, hp, decide_true, if_true]
    refine ⟨Nat.le_refl _, ?_, ?_⟩
    · intro j q _ hq
      have hj := (List.getElem?_eq_some_iff.mp hq).1
      exact lt_of_le_of_lt
        (le_of_next hsorted hq (le_refl q) (by omega) hlast') hp
    · intro j q hj hq
      have := (List.getElem?_eq_some_iff.mp hq).1
      omega
  · -- at the slot that serves `p`, which does not wrap around since the last point is not before it
    simp only [Option.any_some, hp, decide_false, Bool.false_eq_true, if_false]
    cases serves_slotOf ps p hne with
    | wrap _ _ all => exact absurd (all _ (List.getLast_mem hne)) hp
    | next q hq hle before =>
      refine ⟨Nat.le_of_lt (slotOf_lt_length hne p), before, ?_⟩
      intro j r hj hr
      exact le_of_next hsorted hq hle hj hr

/-- The slot after a new point is the one that served the new point's position. -/
theorem insertSlot_mod_length {ps : List α} (hsorted : ps.Pairwise (· ≤ ·)) (hne : ps ≠ [])
    (p : α) : insertSlot ps p % ps.length = slotOf ps p := by
  have hlt := slotOf_lt_length hne p
  have hlast : ps.getLast? = some (ps.getLast hne) := List.getLast?_eq_some_getLast hne
  unfold insertSlot
  rw [hlast, Option.any_some]
  by_cases hp : ps.getLast hne < p
  · -- past the last point no point is at or after `p`, so it wraps around
    rw [if_pos (decide_eq_true hp), Nat.mod_self]
    symm
    apply (slotOf_eq_iff hne).mpr
    apply Serves.wrap rfl hne
    intro q hq
    have hle : q ≤ ps.getLast hne := by
      obtain ⟨j, hj⟩ := List.getElem?_of_mem hq
      have hj' := (List.getElem?_eq_some_iff.mp hj).1
      have hlast' : ps[ps.length - 1]? = some (ps.getLast hne) := by
        rw [← hlast, List.getLast?_eq_getElem?]
      exact le_of_next hsorted hj (le_refl q) (by omega) hlast'
    exact lt_of_le_of_lt hle hp
  · rw [if_neg (by simpa using hp), Nat.mod_eq_of_lt hlt]

/-- Inserting at an insert slot keeps the list in order. -/
theorem IsInsertSlot.sorted {ps : List α} (hsorted : ps.Pairwise (· ≤ ·)) {p : α} {k : ℕ}
    (hk : IsInsertSlot ps p k) : (ps.insertIdx k p).Pairwise (· ≤ ·) := by
  rw [List.pairwise_iff_getElem]
  intro i j hi hj hij
  have hi' := List.getElem?_eq_getElem hi
  have hj' := List.getElem?_eq_getElem hj
  rw [List.getElem?_insertIdx] at hi' hj'
  -- two old points are in order as before, an old and the new one by the choice of the slot
  rcases Nat.lt_trichotomy i k with hik | rfl | hik
  · rw [if_pos hik] at hi'
    rcases Nat.lt_trichotomy j k with hjk | rfl | hjk
    · rw [if_pos hjk] at hj'
      exact le_of_next hsorted hi' (le_refl _) (by omega) hj'
    · rw [if_neg (by omega), if_pos rfl, if_pos hk.le_length] at hj'
      exact Option.some.inj hj' ▸ (hk.before _ _ hik hi').le
    · rw [if_neg (by omega), if_neg (by omega)] at hj'
      exact le_of_next hsorted hi' (le_refl _) (by omega) hj'
  · rw [if_neg (by omega), if_pos rfl, if_pos hk.le_length] at hi'
    rw [if_neg (by omega), if_neg (by omega)] at hj'
    exact Option.some.inj hi' ▸ hk.after _ _ (by omega) hj'
  · rw [if_neg (by omega), if_neg (by omega)] at hi' hj'
    exact le_of_next hsorted hi' (le_refl _) (by omega) hj'

/-- The slot of an element after a new one has been put in at slot `k`. -/
def slotAfterInsert (k j : ℕ) : ℕ := if j < k then j else j + 1

/-- The values a point put in at slot `k` takes over from the next point: the arc from the
point before it up to `p`. -/
def Takes (ps : List α) (p : α) (k : ℕ) (h : α) : Prop :=
  if k = ps.length then (∀ q ∈ ps, q < h) ∧ h ≤ p else h ≤ p ∨ (k = 0 ∧ ∀ q ∈ ps, q < h)

theorem insertIdx_ne_nil {β : Type*} {l : List β} {b : β} {k : ℕ} (hk : k ≤ l.length) :
    l.insertIdx k b ≠ [] := by
  intro hnil
  have := congrArg List.length hnil
  rw [List.length_insertIdx_of_le_length hk] at this
  simp at this

/-- The elements of `insertIdx` by slot: what stands before, at and after the new element. -/
theorem getElem?_slotAfterInsert {β : Type*} (l : List β) (b : β) (k j : ℕ) :
    (l.insertIdx k b)[slotAfterInsert k j]? = l[j]? := by
  unfold slotAfterInsert
  rw [List.getElem?_insertIdx]
  split_ifs with h1 h2 h3 <;> first
    | rfl
    | omega

theorem slotAfterInsert_succ (k j : ℕ) :
    slotAfterInsert (k + 1) (j + 1) = slotAfterInsert k j + 1 := by
  unfold slotAfterInsert
  split_ifs <;> omega

/-- An element is changed before or after another one is put in, -/
theorem set_slotAfterInsert {β : Type*} (l : List β) (a b : β) (k j : ℕ) :
    (l.insertIdx k b).set (slotAfterInsert k j) a = (l.set j a).insertIdx k b := by
  induction l generalizing k j with
  | nil =>
    cases k with
    | zero => rfl
    | succ k => rfl
  | cons x l ih =>
    cases k with
    | zero => rfl
    | succ k =>
      cases j with
      | zero => rfl
      | succ j =>
        rw [slotAfterInsert_succ, List.insertIdx_succ_cons, List.set_cons_succ, ih,
          List.set_cons_succ, List.insertIdx_succ_cons]

/-- or before or after another one is taken out. -/
theorem set_slotAfterErase {β : Type*} (l : List β) (a : β) {i j : ℕ} (hj : j ≠ i) :
    (l.eraseIdx i).set (slotAfterErase i j) a = (l.set j a).eraseIdx i := by
  unfold slotAfterErase
  split_ifs with h
  · exact List.set_eraseIdx_gt h
  · rw [List.set_eraseIdx_le (by omega), Nat.sub_add_cancel (by omega)]

theorem getElem?_insertIdx_of_ne {β : Type*} {l : List β} {b : β} {k j : ℕ} (hj : j ≠ k) :
    ∃ i, j = slotAfterInsert k i ∧ (l.insertIdx k b)[j]? = l[i]? := by
  refine ⟨if j < k then j else j - 1, ?_, ?_⟩
  · unfold slotAfterInsert
    split_ifs <;> omega
  · rw [List.getElem?_insertIdx]
    split_ifs <;> rfl

theorem slotAfterInsert_ne (k j : ℕ) : slotAfterInsert k j ≠ k := by
  unfold slotAfterInsert
  split_ifs <;> omega

theorem slotAfterInsert_inj {k i j : ℕ} (h : slotAfterInsert k i = slotAfterInsert k j) :
    i = j := by
  unfold slotAfterInsert at h
  split_ifs at h <;> omega

/-- The point after the new one is the point that stood at its slot. -/
theorem slotAfterInsert_mod {k n : ℕ} (hk : k ≤ n) (hn : 0 < n) :
    slotAfterInsert k (k % n) = (k + 1) % (n + 1) := by
  unfold slotAfterInsert
  rcases Nat.eq_or_lt_of_le hk with rfl | hlt
  · rw [Nat.mod_self, Nat.mod_self, if_pos hn]
  · rw [Nat.mod_eq_of_lt hlt, if_neg (Nat.lt_irrefl k), Nat.mod_eq_of_lt (by omega)]

/-- An element is put in, another one is changed, and the first one is taken out again. -/
theorem eraseIdx_set_insertIdx {β : Type*} (l : List β) (a b : β) (k j : ℕ) :
    ((l.insertIdx k b).set (slotAfterInsert k j) a).eraseIdx k = l.set j a := by
  unfold slotAfterInsert
  split_ifs with h
  · rw [← List.set_eraseIdx_gt h, List.eraseIdx_insertIdx_self]
  · rw [← List.set_eraseIdx_le (Nat.le_of_not_lt h), List.eraseIdx_insertIdx_self]

/-- **The new point serves its own position.** -/
theorem serves_insertIdx_self {ps : List α} {p : α} {k : ℕ} (hk : IsInsertSlot ps p k) :
    Serves (ps.insertIdx k p) p k := by
  have hself : (ps.insertIdx k p)[k]? = some p := by
    rw [List.getElem?_insertIdx_self, if_pos hk.le_length]
  apply Serves.next p hself (le_refl p)
  intro j q hj hq
  rw [List.getElem?_insertIdx_of_lt hj] at hq
  exact hk.before j q hj hq

/-- **Values of the points other than the next one stay where they are.** -/
theorem serves_insertIdx_other {ps : List α} {p h : α} {k j : ℕ} (hk : IsInsertSlot ps p k)
    (hs : Serves ps h j) (hj : j ≠ k % ps.length) :
    Serves (ps.insertIdx k p) h (slotAfterInsert k j) := by
  have hjlt := hs.lt_length
  have hkle := hk.le_length
  cases hs with
  | wrap hj0 hne all =>
    -- the new point stands strictly inside, below a point that is itself below `h`
    have hk0 : 0 < k := by
      rcases Nat.eq_zero_or_pos k with rfl | hpos
      · simp [hj0] at hj
      · exact hpos
    have hkn : k < ps.length := by
      rcases Nat.eq_or_lt_of_le hkle with rfl | hlt
      · simp [hj0] at hj
      · exact hlt
    apply Serves.wrap (by simp [slotAfterInsert, hj0, hk0]) (insertIdx_ne_nil hkle)
    intro q hq
    rcases (List.mem_insertIdx hkle).mp hq with rfl | hq
    · have hle := hk.after k ps[k] (Nat.le_refl k) (List.getElem?_eq_getElem hkn)
      exact lt_of_le_of_lt hle (all _ (List.getElem_mem hkn))
    · exact all q hq
  | next q hq hle before =>
    refine .next q (by rwa [getElem?_slotAfterInsert]) hle ?_
    intro i r hi hr
    by_cases hik : i = k
    · -- the new point itself: the next point stands between it and slot `j`
      subst hik
      have hij : i ≤ j := by
        unfold slotAfterInsert at hi
        split_ifs at hi <;> omega
      have hin : i < ps.length := by omega
      rw [Nat.mod_eq_of_lt hin] at hj
      rw [List.getElem?_insertIdx_self, if_pos hkle] at hr
      cases hr
      have hnext := List.getElem?_eq_getElem hin
      exact lt_of_le_of_lt (hk.after i ps[i] (Nat.le_refl i) hnext)
        (before i ps[i] (by omega) hnext)
    · -- an old point, at the slot it had before
      obtain ⟨m, rfl, hm⟩ := getElem?_insertIdx_of_ne (l := ps) (b := p) hik
      rw [hm] at hr
      refine before m r ?_ hr
      unfold slotAfterInsert at hi
      split_ifs at hi <;> omega

/-- **The new point serves the arc it takes over.** -/
theorem serves_insertIdx_taken {ps : List α} {p h : α} {k : ℕ} (hk : IsInsertSlot ps p k)
    (hne : ps ≠ []) (hs : Serves ps h (k % ps.length)) (ht : Takes ps p k h) :
    Serves (ps.insertIdx k p) h k := by
  have hpos : 0 < ps.length := List.length_pos_iff.mpr hne
  have hkle := hk.le_length
  have hself : (ps.insertIdx k p)[k]? = some p := by
    rw [List.getElem?_insertIdx_self, if_pos hkle]
  have hbelow : ∀ j r, j < k → (ps.insertIdx k p)[j]? = some r → ps[j]? = some r := by
    intro j r hj hr
    rwa [List.getElem?_insertIdx_of_lt hj] at hr
  unfold Takes at ht
  split_ifs at ht with hkn
  · -- past the last point: every old point lies below `h`
    apply Serves.next p hself ht.2
    intro j r hj hr
    exact ht.1 r (List.mem_of_getElem? (hbelow j r hj hr))
  · have hklt : k < ps.length := by omega
    rw [Nat.mod_eq_of_lt hklt] at hs
    rcases ht with hle | ⟨rfl, hall⟩
    · -- up to the new point: what lies below slot `k` lay below it before
      apply Serves.next p hself hle
      intro j r hj hr
      cases hs with
      | wrap hk0 => omega
      | next q _ _ before => exact before j r hj (hbelow j r hj hr)
    · -- beyond every point: the new one is the first of the list and takes what wraps around
      apply Serves.wrap rfl (insertIdx_ne_nil hkle)
      intro q hq
      rcases (List.mem_insertIdx hkle).mp hq with rfl | hq
      · exact lt_of_le_of_lt (hk.after 0 ps[0] (Nat.le_refl 0) (List.getElem?_eq_getElem hpos))
          (hall _ (List.getElem_mem hpos))
      · exact hall q hq

/-- **The next point keeps the rest of its arc.** -/
theorem serves_insertIdx_kept {ps : List α} {p h : α} {k : ℕ} (hk : IsInsertSlot ps p k)
    (hne : ps ≠ []) (hs : Serves ps h (k % ps.length)) (ht : ¬ Takes ps p k h) :
    Serves (ps.insertIdx k p) h (slotAfterInsert k (k % ps.length)) := by
  have hpos : 0 < ps.length := List.length_pos_iff.mpr hne
  have hkle := hk.le_length
  unfold Takes at ht
  split_ifs at ht with hkn
  · -- put in past the last point: slot `0` keeps what is at or before it or past the new point
    rw [hkn, Nat.mod_self] at hs ⊢
    have h0 : slotAfterInsert ps.length 0 = 0 := by simp [slotAfterInsert, hpos]
    rw [h0, ← hkn]
    cases hs with
    | wrap _ _ all =>
      apply Serves.wrap rfl (insertIdx_ne_nil hkle)
      intro q hq
      rcases (List.mem_insertIdx hkle).mp hq with rfl | hq
      · exact not_le.mp fun hle => ht ⟨all, hle⟩
      · exact all q hq
    | next q hq hle =>
      exact .next q (by rwa [List.getElem?_insertIdx_of_lt (by omega)]) hle (by simp)
  · have hklt : k < ps.length := by omega
    rw [Nat.mod_eq_of_lt hklt] at hs ⊢
    have hph : p < h := not_le.mp fun hle => ht (.inl hle)
    cases hs with
    | wrap hk0 _ all => exact absurd (.inr ⟨hk0, all⟩) ht
    | next q hq hle before =>
      -- the new point is the only one put in before slot `k + 1`, and `h` is past it
      refine .next q (by rwa [getElem?_slotAfterInsert]) hle ?_
      intro i r hi hr
      rw [slotAfterInsert, if_neg (Nat.lt_irrefl k)] at hi
      by_cases hik : i = k
      · subst hik
        rw [List.getElem?_insertIdx_self, if_pos hkle] at hr
        cases hr
        exact hph
      · rw [List.getElem?_insertIdx_of_lt (by omega)] at hr
        exact before i r (by omega) hr

/-! ## §4. Two circles. -/

/-- On the way from `h` up, and around past the end, `p` is met no later than `q`. -/
def Sooner (h p q : α) : Prop := (h ≤ p ∧ (q < h ∨ p ≤ q)) ∨ (p < h ∧ q < h ∧ p ≤ q)

theorem Sooner.antisymm {h p q : α} (hpq : Sooner h p q) (hqp : Sooner h q p) : p = q := by
  rcases hpq with ⟨hp, hq | hpq⟩ | ⟨hp, hq, hpq⟩
  · rcases hqp with ⟨hq', -⟩ | ⟨-, hp', -⟩
    · exact absurd hq' (not_le.mpr hq)
    · exact absurd hp (not_le.mpr hp')
  · rcases hqp with ⟨-, hp' | hqp⟩ | ⟨-, hp', -⟩
    · exact absurd hp (not_le.mpr hp')
    · exact le_antisymm hpq hqp
    · exact absurd hp (not_le.mpr hp')
  · rcases hqp with ⟨hq', -⟩ | ⟨-, -, hqp⟩
    · exact absurd hq' (not_le.mpr hq)
    · exact le_antisymm hpq hqp

/-- **The serving point is the first one met**, on a circle in order. -/
theorem Serves.sooner {ps : List α} (hsorted : ps.Pairwise (· ≤ ·)) {h p q : α} {i : ℕ}
    (hs : Serves ps h i) (hp : ps[i]? = some p) (hq : q ∈ ps) : Sooner h p q := by
  obtain ⟨j, hj⟩ := List.getElem?_of_mem hq
  cases hs with
  | wrap hi _ all =>
    -- no point is at or after `h`, and `p` is the first of the list
    exact .inr ⟨all p (List.mem_of_getElem? hp), all q hq,
      le_of_next hsorted hp (le_refl p) (by omega) hj⟩
  | next p' hp' hle before =>
    cases hp.symm.trans hp'
    refine .inl ⟨hle, ?_⟩
    by_cases hij : i ≤ j
    · exact .inr (le_of_next hsorted hp (le_refl p) hij hj)
    · exact .inl (before j q (by omega) hj)

/-- **Two circles that share both serving points** serve the value from the same one. -/
theorem Serves.eq_of_mem {ps ps' : List α} (hsorted : ps.Pairwise (· ≤ ·))
    (hsorted' : ps'.Pairwise (· ≤ ·)) {h p p' : α} {i j : ℕ} (hs : Serves ps h i)
    (hs' : Serves ps' h j) (hp : ps[i]? = some p) (hp' : ps'[j]? = some p') (hkept : p ∈ ps')
    (hold : p' ∈ ps) : p = p' :=
  (hs.sooner hsorted hp hold).antisymm (hs'.sooner hsorted' hp' hkept)

end DistDb.Lib.SuccessorRing
