/-
  DistDb.Lib.KeyedList — lists of records searched front to back by a key.

  `find`, `replace` and `erase` act on the first record that carries a key.  On a list whose keys
  are distinct the first record is the only one, and the list is a finite map: the `find_*`
  lemmas give the map's equations, and `perm_of_find_eq` says that the map determines the
  records up to their order.
-/
import Mathlib.Data.List.Nodup
import Mathlib.Data.List.Perm.Basic

namespace DistDb.Lib.KeyedList

variable {α κ : Type*} [DecidableEq κ] (key : α → κ)

/-! ## §1. Search, replacement, deletion. -/

/-- The first record that carries `k`. -/
def find (l : List α) (k : κ) : Option α := l.find? (fun a => decide (key a = k))

/-- Put `a` in the place of the first record that carries its key. -/
def replace : List α → α → List α
  | [], _ => []
  | b :: bs, a => if key b = key a then a :: bs else b :: replace bs a

/-- Drop the first record that carries `k`. -/
def erase (l : List α) (k : κ) : List α := l.eraseP (fun a => decide (key a = k))

@[simp] theorem find_nil (k : κ) : find key [] k = none := rfl

theorem find_cons (a : α) (l : List α) (k : κ) :
    find key (a :: l) k = if key a = k then some a else find key l k := by
  by_cases h : key a = k <;> simp [find, h]

theorem find_append (l l' : List α) (k : κ) :
    find key (l ++ l') k = (find key l k).or (find key l' k) := List.find?_append

variable {key}

theorem mem_of_find {l : List α} {k : κ} {a : α} (h : find key l k = some a) :
    a ∈ l ∧ key a = k :=
  ⟨List.mem_of_find?_eq_some h, by simpa using List.find?_some h⟩

theorem find_eq_none {l : List α} {k : κ} : find key l k = none ↔ k ∉ l.map key := by
  simp [find]

theorem find_isSome {l : List α} {k : κ} : (find key l k).isSome ↔ k ∈ l.map key := by
  rw [Option.isSome_iff_ne_none, ne_eq, find_eq_none, not_not]

/-- With distinct keys, a record is found under its own key. -/
theorem find_eq_some {l : List α} (hl : (l.map key).Nodup) {k : κ} {a : α} :
    find key l k = some a ↔ a ∈ l ∧ key a = k := by
  refine ⟨mem_of_find, ?_⟩
  rintro ⟨ha, rfl⟩
  induction l with
  | nil => simp at ha
  | cons b l ih =>
    rw [List.map_cons, List.nodup_cons] at hl
    rw [find_cons]
    rcases List.mem_cons.mp ha with rfl | ha
    · simp
    · have hne : key b ≠ key a := fun e => hl.1 (e ▸ List.mem_map_of_mem ha)
      rw [if_neg hne, ih hl.2 ha]

/-- The record found stands behind records with other keys, and is the one that is dropped. -/
theorem find_split {l : List α} {k : κ} {a : α} (h : find key l k = some a) :
    ∃ xs ys, l = xs ++ a :: ys ∧ (∀ x ∈ xs, key x ≠ k) ∧ erase key l k = xs ++ ys := by
  obtain ⟨ha, xs, ys, rfl, hxs⟩ := List.find?_eq_some_iff_append.mp h
  have hxs : ∀ x ∈ xs, key x ≠ k := fun x hx => by simpa using hxs x hx
  refine ⟨xs, ys, rfl, hxs, ?_⟩
  rw [erase, List.eraseP_append_right _ fun x hx => by simpa using hxs x hx, List.eraseP_cons, ha]
  rfl

/-- A record in the middle whose key is new to those before it. -/
theorem find_middle {xs : List α} {a : α} (ha : key a ∉ xs.map key) (ys : List α) (k : κ) :
    find key (xs ++ a :: ys) k = if key a = k then some a else find key (xs ++ ys) k := by
  rw [find_append, find_append, find_cons]
  split_ifs with hk
  · rw [find_eq_none.mpr (hk ▸ ha), Option.none_or]
  · rfl

variable {β : Type*} (f : β → α)

/-- Search and deletion in the image of a list. -/
theorem find_map (l : List β) (k : κ) :
    find key (l.map f) k = (find (fun b => key (f b)) l k).map f := List.find?_map

theorem erase_map (l : List β) (k : κ) :
    erase key (l.map f) k = (erase (fun b => key (f b)) l k).map f := List.eraseP_map

variable {f}

/-! ## §2. The equations of the finite map. -/

theorem map_key_replace (key : α → κ) (l : List α) (a : α) :
    (replace key l a).map key = l.map key := by
  induction l with
  | nil => rfl
  | cons b l ih =>
    unfold replace
    split_ifs with h
    · simp [h]
    · simp [ih]

theorem find_replace (l : List α) (a : α) (k : κ) :
    find key (replace key l a) k
      = if key a = k ∧ key a ∈ l.map key then some a else find key l k := by
  induction l with
  | nil => simp [replace]
  | cons b l ih =>
    unfold replace
    by_cases hb : key b = key a
    · rw [if_pos hb, find_cons, find_cons]
      by_cases hk : key a = k <;> simp [hb, hk]
    · have hb' : key a ≠ key b := fun e => hb e.symm
      rw [if_neg hb, find_cons, find_cons, ih]
      by_cases hk : key b = k
      · have : key a ≠ k := fun e => hb (hk.trans e.symm)
        simp [hk, this]
      · simp [hk, hb']

/-- A record whose key is new to `l` replaces behind `l`. -/
theorem replace_append (l l' : List α) (a : α) (ha : key a ∉ l.map key) :
    replace key (l ++ l') a = l ++ replace key l' a := by
  induction l with
  | nil => rfl
  | cons b l ih =>
    rw [List.map_cons, List.mem_cons, not_or] at ha
    rw [List.cons_append, replace, if_neg fun e => ha.1 e.symm, ih ha.2, List.cons_append]

theorem sublist_erase (key : α → κ) (l : List α) (k : κ) : (erase key l k).Sublist l :=
  List.eraseP_sublist

theorem nodup_erase {l : List α} (hl : (l.map key).Nodup) (k : κ) :
    ((erase key l k).map key).Nodup := hl.sublist ((sublist_erase key l k).map key)

/-- With distinct keys, dropping the first record of a key drops every record of it. -/
theorem erase_eq_filter {l : List α} (hl : (l.map key).Nodup) (k : κ) :
    erase key l k = l.filter (fun a => decide (key a ≠ k)) := by
  induction l with
  | nil => rfl
  | cons b l ih =>
    rw [List.map_cons, List.nodup_cons] at hl
    by_cases hb : key b = k
    · -- the key stands nowhere else, so the filter keeps the rest
      have hrest : ∀ a ∈ l, key a ≠ k := fun a ha e =>
        hl.1 (hb.trans e.symm ▸ List.mem_map_of_mem ha)
      have hall : l.filter (fun a => decide (key a ≠ k)) = l :=
        List.filter_eq_self.mpr fun a ha => decide_eq_true (hrest a ha)
      rw [List.filter_cons_of_neg (by simpa using hb), hall]
      simp [erase, hb]
    · rw [List.filter_cons_of_pos (by simpa using hb), ← ih hl.2]
      simp [erase, hb]

theorem find_filter {l : List α} (hl : (l.map key).Nodup) (p : α → Bool) (k : κ) :
    find key (l.filter p) k = (find key l k).filter p := by
  have hl' : ((l.filter p).map key).Nodup := hl.sublist (List.filter_sublist.map key)
  cases hf : find key l k with
  | none =>
    rw [Option.filter_none, find_eq_none]
    exact fun h => find_eq_none.mp hf ((List.filter_sublist.map key).subset h)
  | some a =>
    obtain ⟨ha, hk⟩ := mem_of_find hf
    by_cases hp : p a
    · rw [Option.filter_some_pos hp, find_eq_some hl']
      exact ⟨List.mem_filter.mpr ⟨ha, hp⟩, hk⟩
    · -- a record of the key that passes would be the one found, which does not
      rw [Option.filter_some_neg (by simpa using hp), find_eq_none]
      intro h
      obtain ⟨b, hb, hbk⟩ := List.mem_map.mp h
      obtain ⟨hbl, hpb⟩ := List.mem_filter.mp hb
      have hab : a = b := Option.some.inj (hf.symm.trans ((find_eq_some hl).mpr ⟨hbl, hbk⟩))
      exact hp (hab ▸ hpb)

theorem find_erase {l : List α} (hl : (l.map key).Nodup) (k k' : κ) :
    find key (erase key l k) k' = if k = k' then none else find key l k' := by
  rw [erase_eq_filter hl, find_filter hl]
  cases hf : find key l k' with
  | none => simp
  | some a =>
    obtain ⟨_, hk⟩ := mem_of_find hf
    by_cases h : k = k'
    · rw [if_pos h, Option.filter_some_neg (by simp [hk, h])]
    · rw [if_neg h, Option.filter_some_pos (by simpa [hk] using fun e => h e.symm)]

theorem length_erase {l : List α} {k : κ} (hk : k ∈ l.map key) :
    (erase key l k).length = l.length - 1 := by
  obtain ⟨a, ha, hak⟩ := List.mem_map.mp hk
  exact List.length_eraseP_of_mem ha (by simpa using hak)

/-! ## §3. The map determines the records. -/

/-- Two lists with distinct keys and the same map hold the same records. -/
theorem perm_of_find_eq {l l' : List α} (hl : (l.map key).Nodup) (hl' : (l'.map key).Nodup)
    (h : ∀ k, find key l k = find key l' k) : l.Perm l' := by
  apply (List.perm_ext_iff_of_nodup hl.of_map hl'.of_map).mpr
  intro a
  have hmem := find_eq_some hl (k := key a) (a := a)
  have hmem' := find_eq_some hl' (k := key a) (a := a)
  rw [h (key a)] at hmem
  simpa using hmem.symm.trans hmem'

end DistDb.Lib.KeyedList
