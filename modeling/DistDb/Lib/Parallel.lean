/-
  DistDb.Lib.Parallel — two lists side by side.

  `List.Forall₂ R xs ys` relates the elements of two lists slot by slot.  The lemmas here single
  out one slot (`forall₂_iff_at`) and say what an update, an insertion and a removal there leave to
  be shown.
-/
import Mathlib.Data.List.Forall2
import Mathlib.Data.List.InsertIdx
import Mathlib.Data.List.Perm.Basic

namespace DistDb.Lib.Parallel

variable {α β : Type*} {R : α → β → Prop}

/-- One slot and the others. -/
theorem forall₂_iff_at {xs : List α} {ys : List β} {k : ℕ} {x : α} {y : β}
    (hx : xs[k]? = some x) (hy : ys[k]? = some y) :
    List.Forall₂ R xs ys ↔ R x y ∧ List.Forall₂ R (xs.eraseIdx k) (ys.eraseIdx k) := by
  induction k generalizing xs ys with
  | zero =>
    cases xs with
    | nil => cases hx
    | cons a xs =>
      cases ys with
      | nil => cases hy
      | cons b ys =>
        cases hx
        cases hy
        rw [List.eraseIdx_cons_zero, List.eraseIdx_cons_zero, List.forall₂_cons]
  | succ k ih =>
    cases xs with
    | nil => cases hx
    | cons a xs =>
      cases ys with
      | nil => cases hy
      | cons b ys =>
        rw [List.eraseIdx_cons_succ, List.eraseIdx_cons_succ, List.forall₂_cons,
          List.forall₂_cons, ih hx hy]
        exact and_left_comm

/-- An update of one slot in both lists. -/
theorem forall₂_set_modify_iff {xs : List α} {ys : List β} {k : ℕ} {x x' : α} {y : β} {f : β → β}
    (hx : xs[k]? = some x) (hy : ys[k]? = some y) :
    List.Forall₂ R (xs.set k x') (ys.modify k f)
      ↔ R x' (f y) ∧ List.Forall₂ R (xs.eraseIdx k) (ys.eraseIdx k) := by
  have hx' : (xs.set k x')[k]? = some x' :=
    List.getElem?_set_self (List.getElem?_eq_some_iff.mp hx).1
  have hy' : (ys.modify k f)[k]? = some (f y) := by rw [List.getElem?_modify_eq, hy]; rfl
  rw [forall₂_iff_at hx' hy', List.eraseIdx_set_eq, List.eraseIdx_modify_of_eq]

/-- An update of one slot in the left list. -/
theorem forall₂_set_iff {xs : List α} {ys : List β} {k : ℕ} {x x' : α} {y : β}
    (hx : xs[k]? = some x) (hy : ys[k]? = some y) :
    List.Forall₂ R (xs.set k x') ys
      ↔ R x' y ∧ List.Forall₂ R (xs.eraseIdx k) (ys.eraseIdx k) := by
  have h : List.Forall₂ R (xs.set k x') (ys.modify k id) ↔ _ := forall₂_set_modify_iff hx hy
  rwa [List.modify_id] at h

theorem forall₂_insertIdx_iff {xs : List α} {ys : List β} {k : ℕ} {x : α} {y : β}
    (hlen : xs.length = ys.length) (hk : k ≤ xs.length) :
    List.Forall₂ R (xs.insertIdx k x) (ys.insertIdx k y) ↔ R x y ∧ List.Forall₂ R xs ys := by
  induction k generalizing xs ys with
  | zero => rw [List.insertIdx_zero, List.insertIdx_zero, List.forall₂_cons]
  | succ k ih =>
    cases xs with
    | nil => cases hk
    | cons a xs =>
      cases ys with
      | nil => cases hlen
      | cons b ys =>
        rw [List.insertIdx_succ_cons, List.insertIdx_succ_cons, List.forall₂_cons,
          List.forall₂_cons, ih (Nat.succ.inj hlen) (Nat.le_of_succ_le_succ hk)]
        exact and_left_comm

/-- Updates of the same slot in both lists. -/
theorem forall₂_set {xs : List α} {ys : List β} (h : List.Forall₂ R xs ys) {x : α} {y : β}
    (hxy : R x y) (k : ℕ) : List.Forall₂ R (xs.set k x) (ys.set k y) := by
  induction h generalizing k with
  | nil => exact .nil
  | cons hab htail ih =>
    cases k with
    | zero => exact .cons hxy htail
    | succ k => exact .cons hab (ih k)

theorem forall₂_eraseIdx {xs : List α} {ys : List β} (h : List.Forall₂ R xs ys) (k : ℕ) :
    List.Forall₂ R (xs.eraseIdx k) (ys.eraseIdx k) := by
  induction h generalizing k with
  | nil => exact .nil
  | cons hab htail ih =>
    cases k with
    | zero => exact htail
    | succ k => exact .cons hab (ih k)

/-- Another relation, for what the right list has. -/
theorem forall₂_imp_mem {S : α → β → Prop} {xs : List α} {ys : List β}
    (h : List.Forall₂ R xs ys) (hS : ∀ x y, y ∈ ys → R x y → S x y) : List.Forall₂ S xs ys := by
  rw [List.forall₂_iff_zip] at h ⊢
  refine ⟨h.1, ?_⟩
  intro x y hxy
  exact hS x y (List.of_mem_zip hxy).2 (h.2 hxy)

/-- What stands at the same slot of both lists. -/
theorem forall₂_getElem? {xs : List α} {ys : List β} (h : List.Forall₂ R xs ys) {k : ℕ} {x : α}
    {y : β} (hx : xs[k]? = some x) (hy : ys[k]? = some y) : R x y :=
  ((forall₂_iff_at hx hy).mp h).1

/-- The last elements of lists of which the left one was extended. -/
theorem forall₂_snoc_left {xs : List α} {ys : List β} {x : α}
    (h : List.Forall₂ R (xs ++ [x]) ys) :
    ∃ ys' y, ys = ys' ++ [y] ∧ List.Forall₂ R xs ys' ∧ R x y := by
  induction xs generalizing ys with
  | nil =>
    obtain ⟨y, ys', hxy, hnil, rfl⟩ := List.forall₂_cons_left_iff.mp h
    rw [List.forall₂_nil_left_iff.mp hnil]
    exact ⟨[], y, rfl, .nil, hxy⟩
  | cons a xs ih =>
    obtain ⟨b, ys', hab, hrest, rfl⟩ := List.forall₂_cons_left_iff.mp h
    obtain ⟨ys'', y, rfl, hxs, hxy⟩ := ih hrest
    exact ⟨b :: ys'', y, rfl, .cons hab hxs, hxy⟩

theorem forall₂_snoc {xs : List α} {ys : List β} {x : α} {y : β} (h : List.Forall₂ R xs ys)
    (hxy : R x y) : List.Forall₂ R (xs ++ [x]) (ys ++ [y]) := by
  induction h with
  | nil => exact .cons hxy .nil
  | cons hab _ ih => exact .cons hab ih

/-- Two lists, each in two parts. -/
theorem forall₂_append_iff {xs xs' : List α} {ys ys' : List β} (hlen : xs.length = ys.length) :
    List.Forall₂ R (xs ++ xs') (ys ++ ys') ↔ List.Forall₂ R xs ys ∧ List.Forall₂ R xs' ys' := by
  induction xs generalizing ys with
  | nil =>
    obtain rfl : ys = [] := List.length_eq_zero_iff.mp hlen.symm
    simp
  | cons x xs ih =>
    cases ys with
    | nil => cases hlen
    | cons y ys =>
      rw [List.cons_append, List.cons_append, List.forall₂_cons, List.forall₂_cons,
        ih (Nat.succ.inj hlen), and_assoc]

/-- The elements of a list, the one at a slot first. -/
theorem perm_cons_eraseIdx {xs : List α} {k : ℕ} {x : α} (hx : xs[k]? = some x) :
    xs.Perm (x :: xs.eraseIdx k) := by
  obtain ⟨hk, rfl⟩ := List.getElem?_eq_some_iff.mp hx
  exact (List.getElem_cons_eraseIdx_perm hk).symm

/-- What an update of a slot leaves, the new element first. -/
theorem set_perm_cons_eraseIdx {xs : List α} {k : ℕ} {x : α} (hx : xs[k]? = some x) (y : α) :
    (xs.set k y).Perm (y :: xs.eraseIdx k) := by
  have hy : (xs.set k y)[k]? = some y :=
    List.getElem?_set_self (List.getElem?_eq_some_iff.mp hx).1
  have h := perm_cons_eraseIdx hy
  rwa [List.eraseIdx_set_eq] at h

/-- Two slots and the others: what an update of the one leaves when the other is removed. -/
theorem exists_perm_two {xs : List α} {i j : ℕ} {x : α} (hx : xs[j]? = some x) (hij : i ≠ j) :
    ∃ rest, (xs.eraseIdx i).Perm (x :: rest) ∧
      ∀ x', ((xs.set j x').eraseIdx i).Perm (x' :: rest) := by
  obtain ⟨k, hk, hset⟩ : ∃ k, (xs.eraseIdx i)[k]? = some x ∧
      ∀ x', (xs.set j x').eraseIdx i = (xs.eraseIdx i).set k x' := by
    rcases Nat.lt_or_gt_of_ne hij with hlt | hgt
    · refine ⟨j - 1, ?_, fun x' => List.eraseIdx_set_lt hlt⟩
      rw [List.getElem?_eraseIdx_of_ge (by omega), Nat.sub_add_cancel (by omega), hx]
    · refine ⟨j, ?_, fun x' => List.eraseIdx_set_gt hgt⟩
      rw [List.getElem?_eraseIdx_of_lt hgt, hx]
  refine ⟨(xs.eraseIdx i).eraseIdx k, perm_cons_eraseIdx hk, ?_⟩
  intro x'
  rw [hset]
  exact set_perm_cons_eraseIdx hk x'

theorem modify_perm_cons_eraseIdx {xs : List α} {k : ℕ} {x : α} (hx : xs[k]? = some x)
    (f : α → α) : (xs.modify k f).Perm (f x :: xs.eraseIdx k) := by
  have hx' : (xs.modify k f)[k]? = some (f x) := by rw [List.getElem?_modify_eq, hx]; rfl
  have h := perm_cons_eraseIdx hx'
  rwa [List.eraseIdx_modify_of_eq] at h

/-- What stands at a slot of the left list has a counterpart in the right one. -/
theorem exists_of_length_eq {xs : List α} {ys : List β} {k : ℕ} {x : α}
    (hlen : xs.length = ys.length) (hx : xs[k]? = some x) : ∃ y, ys[k]? = some y :=
  ⟨_, List.getElem?_eq_getElem (hlen ▸ (List.getElem?_eq_some_iff.mp hx).1)⟩

end DistDb.Lib.Parallel
