/-
  DistDb.Lib.DoublyLinked — doubly linked lists in a memory of cells.

  A memory maps addresses to cells, each with a payload and two links that are an address or NULL.
  `Linked s before xs after` says that the cells at the addresses of `xs` hold its payloads and
  are linked to one another in both directions, with `before` as the backward link of the first
  and `after` as the forward link of the last.  A whole list has NULL for both.

  Main results:
    * `linked_append` — a list is two lists that point at each other's ends,
    * `Linked.unlink`, `Linked.insert` — the links that change when a cell goes or comes,
    * `linked_iff_paths` — the same in terms of the two walks, forward from the first cell and
      backward from the last one,
    * `Path.nodup` — a walk that ends visits no cell twice.
-/
import Mathlib.Data.List.Nodup
import Mathlib.Logic.Function.Basic

namespace DistDb.Lib.DoublyLinked

variable {α δ : Type*}

/-! ## §1. Cells and their links. -/

/-- A cell of the list. -/
structure Cell (α δ : Type*) where
  data : δ
  prev : Option α
  next : Option α
  deriving DecidableEq

/-- The cells that are allocated. -/
abbrev Store (α δ : Type*) := α → Option (Cell α δ)

/-- The address of the first cell of `xs`, or what follows when there is none. -/
def first : List (α × δ) → Option α → Option α
  | [], after => after
  | x :: _, _ => some x.1

/-- The address of the last cell of `xs`, or what comes before when there is none. -/
def last : Option α → List (α × δ) → Option α
  | before, [] => before
  | _, x :: xs => last (some x.1) xs

/-- The addresses of the cells. -/
def addresses (xs : List (α × δ)) : List α := xs.map Prod.fst

/-- The cells of `xs` are linked to one another, between `before` and `after`. -/
def Linked (s : Store α δ) : Option α → List (α × δ) → Option α → Prop
  | _, [], _ => True
  | before, x :: xs, after =>
    s x.1 = some ⟨x.2, before, first xs after⟩ ∧ Linked s (some x.1) xs after

variable {s s' : Store α δ} {before after : Option α} {xs ys : List (α × δ)} {x : α × δ}

theorem first_append (xs ys : List (α × δ)) (after : Option α) :
    first (xs ++ ys) after = first xs (first ys after) := by
  cases xs <;> rfl

theorem last_append (before : Option α) (xs ys : List (α × δ)) :
    last before (xs ++ ys) = last (last before xs) ys := by
  induction xs generalizing before with
  | nil => rfl
  | cons x xs ih => exact ih (some x.1)

theorem last_concat (before : Option α) (xs : List (α × δ)) (x : α × δ) :
    last before (xs ++ [x]) = some x.1 := last_append before xs [x]

theorem isNone_last_some (a : α) (xs : List (α × δ)) : (last (some a) xs).isNone = false := by
  induction xs generalizing a with
  | nil => rfl
  | cons x xs ih => exact ih x.1

theorem mem_addresses_of_first {a : α} (h : first xs none = some a) : a ∈ addresses xs := by
  cases xs with
  | nil => cases h
  | cons x xs =>
    cases h
    exact List.mem_cons_self

theorem mem_addresses_of_last {a : α} (h : last none xs = some a) : a ∈ addresses xs := by
  rcases List.eq_nil_or_concat' xs with rfl | ⟨init, x, rfl⟩
  · cases h
  · rw [last_concat] at h
    cases h
    exact List.mem_map_of_mem (List.mem_append_right _ List.mem_cons_self)

/-- **Two lists in a row.** -/
theorem linked_append : Linked s before (xs ++ ys) after ↔
    Linked s before xs (first ys after) ∧ Linked s (last before xs) ys after := by
  induction xs generalizing before with
  | nil => exact (and_iff_right trivial).symm
  | cons x xs ih =>
    show (s x.1 = some ⟨x.2, before, first (xs ++ ys) after⟩ ∧ Linked s (some x.1) (xs ++ ys) after)
      ↔ (s x.1 = some ⟨x.2, before, first xs (first ys after)⟩ ∧
          Linked s (some x.1) xs (first ys after)) ∧ Linked s (last (some x.1) xs) ys after
    rw [first_append, ih, and_assoc]

/-- A list looks at its own cells only. -/
theorem Linked.frame (h : Linked s before xs after)
    (hsame : ∀ a ∈ addresses xs, s' a = s a) : Linked s' before xs after := by
  induction xs generalizing before with
  | nil => exact trivial
  | cons x xs ih =>
    obtain ⟨hx, hxs⟩ := h
    refine ⟨(hsame x.1 List.mem_cons_self).trans hx, ih hxs ?_⟩
    intro a ha
    exact hsame a (List.mem_cons_of_mem x.1 ha)

/-- Every cell of the list is allocated. -/
theorem Linked.exists_cell (h : Linked s before xs after) {a : α} (ha : a ∈ addresses xs) :
    ∃ cell, s a = some cell := by
  induction xs generalizing before with
  | nil => cases ha
  | cons x xs ih =>
    rcases List.mem_cons.mp ha with rfl | ha
    · exact ⟨_, h.1⟩
    · exact ih h.2 ha

/-! ## §2. Walks. -/

/-- The walk along a link from `p` on visits the cells at the addresses and ends at `q`. -/
def Path (s : Store α δ) (link : Cell α δ → Option α) : Option α → List α → Option α → Prop
  | p, [], q => p = q
  | p, a :: as, q => p = some a ∧ ∃ cell, s a = some cell ∧ Path s link (link cell) as q

variable {link : Cell α δ → Option α} {p q : Option α} {as bs : List α}

theorem path_append :
    Path s link p (as ++ bs) q ↔ ∃ r, Path s link p as r ∧ Path s link r bs q := by
  induction as generalizing p with
  | nil => simp [Path]
  | cons a as ih =>
    constructor
    · rintro ⟨hp, cell, hcell, hpath⟩
      obtain ⟨r, has, hbs⟩ := ih.mp hpath
      exact ⟨r, ⟨hp, cell, hcell, has⟩, hbs⟩
    · rintro ⟨r, ⟨hp, cell, hcell, has⟩, hbs⟩
      exact ⟨hp, cell, hcell, ih.mpr ⟨r, has, hbs⟩⟩

/-- Two walks from one address to the end are the same. -/
theorem Path.unique (h : Path s link p as none) (h' : Path s link p bs none) : as = bs := by
  induction as generalizing p bs with
  | nil =>
    cases bs with
    | nil => rfl
    | cons b bs =>
      have hp : p = none := h
      rw [hp] at h'
      cases h'.1
  | cons a as ih =>
    obtain ⟨rfl, cell, hcell, hpath⟩ := h
    cases bs with
    | nil => cases (h' : some a = none)
    | cons b bs =>
      obtain ⟨hb, cell', hcell', hpath'⟩ := h'
      cases hb
      cases hcell.symm.trans hcell'
      rw [ih hpath hpath']

/-- **A walk that ends visits no cell twice**: from the second visit on it would repeat itself. -/
theorem Path.nodup (h : Path s link p as none) : as.Nodup := by
  induction as generalizing p with
  | nil => exact List.nodup_nil
  | cons a as ih =>
    have hfirst := h
    obtain ⟨rfl, cell, hcell, hpath⟩ := h
    refine List.nodup_cons.mpr ⟨?_, ih hpath⟩
    intro hmem
    obtain ⟨bs, cs, rfl⟩ := List.append_of_mem hmem
    obtain ⟨r, -, hagain⟩ := path_append.mp hpath
    have hr : r = some a := hagain.1
    rw [hr] at hagain
    have hlength := congrArg List.length (hfirst.unique hagain)
    simp at hlength
    omega

theorem Path.start {xs : List (α × δ)} (h : Path s link p (addresses xs) q) : p = first xs q := by
  cases xs with
  | nil => exact h
  | cons x xs => exact h.1

theorem Path.start_reverse {xs : List (α × δ)} (h : Path s link p (addresses xs).reverse q) :
    p = last q xs := by
  rcases List.eq_nil_or_concat' xs with rfl | ⟨init, x, rfl⟩
  · exact h
  · rw [addresses, List.map_append, List.reverse_append] at h
    rw [last_concat]
    exact h.1

/-- **A list by its two walks**: the forward one from the first cell and the backward one from the
last visit the same cells in opposite orders, which hold the payloads. -/
theorem linked_iff_paths : Linked s before xs after ↔
    Path s Cell.next (first xs after) (addresses xs) after ∧
      Path s Cell.prev (last before xs) (addresses xs).reverse before ∧
      ∀ x ∈ xs, ∃ cell, s x.1 = some cell ∧ cell.data = x.2 := by
  induction xs generalizing before with
  | nil => simp [Linked, Path, first, last, addresses]
  | cons x xs ih =>
    have hreverse : (addresses (x :: xs)).reverse = (addresses xs).reverse ++ [x.1] :=
      List.reverse_cons
    rw [hreverse, path_append]
    constructor
    · rintro ⟨hx, hxs⟩
      obtain ⟨hnext, hprev, hdata⟩ := ih.mp hxs
      exact ⟨⟨rfl, _, hx, hnext⟩, ⟨some x.1, hprev, rfl, _, hx, rfl⟩,
        List.forall_mem_cons.mpr ⟨⟨_, hx, rfl⟩, hdata⟩⟩
    · rintro ⟨⟨-, cell, hcell, hnext⟩, ⟨_, hprev, rfl, cell', hcell', hbefore⟩, hdata⟩
      obtain ⟨⟨cell'', hcell'', hx⟩, hdata⟩ := List.forall_mem_cons.mp hdata
      cases hcell.symm.trans hcell'
      cases hcell.symm.trans hcell''
      have hstart := hnext.start
      have hbefore : cell.prev = before := hbefore
      refine ⟨?_, ih.mpr ⟨hstart ▸ hnext, hprev, hdata⟩⟩
      rw [hcell, ← hstart, ← hbefore, ← hx]

/-! ## §3. Writing links. -/

variable [DecidableEq α]

/-- Write the forward link of the cell that `p` points to, if any. -/
def linkNext (s : Store α δ) (p next : Option α) : Store α δ := fun a =>
  if p = some a then (s a).map fun cell => { cell with next := next } else s a

/-- Write the backward link of the cell that `p` points to, if any. -/
def linkPrev (s : Store α δ) (p prev : Option α) : Store α δ := fun a =>
  if p = some a then (s a).map fun cell => { cell with prev := prev } else s a

variable {a : α}

theorem linkNext_of_ne (hne : p ≠ some a) : linkNext s p q a = s a := if_neg hne

theorem linkPrev_of_ne (hne : p ≠ some a) : linkPrev s p q a = s a := if_neg hne

theorem linkNext_self (s : Store α δ) (a : α) (next : Option α) :
    linkNext s (some a) next a = (s a).map fun cell => { cell with next := next } := if_pos rfl

theorem linkPrev_self (s : Store α δ) (a : α) (prev : Option α) :
    linkPrev s (some a) prev a = (s a).map fun cell => { cell with prev := prev } := if_pos rfl

/-- The two kinds of links are written independently of each other. -/
theorem linkNext_linkPrev (s : Store α δ) (p p' next prev : Option α) :
    linkNext (linkPrev s p' prev) p next = linkPrev (linkNext s p next) p' prev := by
  funext a
  simp only [linkNext, linkPrev]
  split_ifs
  · rw [Option.map_map, Option.map_map]
    rfl
  · rfl
  · rfl
  · rfl

/-- A link is written for good. -/
theorem linkNext_linkNext (s : Store α δ) (p next next' : Option α) :
    linkNext (linkNext s p next) p next' = linkNext s p next' := by
  funext a
  simp only [linkNext]
  split_ifs
  · rw [Option.map_map]
    rfl
  · rfl

theorem linkPrev_linkPrev (s : Store α δ) (p prev prev' : Option α) :
    linkPrev (linkPrev s p prev) p prev' = linkPrev s p prev' := by
  funext a
  simp only [linkPrev]
  split_ifs
  · rw [Option.map_map]
    rfl
  · rfl

theorem linkNext_eq_self {cell : Cell α δ} (h : s a = some cell) :
    linkNext s (some a) cell.next = s := by
  funext b
  by_cases hb : b = a
  · subst hb
    rw [linkNext_self, h]
    rfl
  · exact linkNext_of_ne fun e => hb (Option.some.inj e).symm

theorem linkPrev_eq_self {cell : Cell α δ} (h : s a = some cell) :
    linkPrev s (some a) cell.prev = s := by
  funext b
  by_cases hb : b = a
  · subst hb
    rw [linkPrev_self, h]
    rfl
  · exact linkPrev_of_ne fun e => hb (Option.some.inj e).symm

theorem linkNext_eq_none (h : s a = none) : linkNext s p q a = none := by
  unfold linkNext
  rw [h]
  exact ite_self none

theorem linkPrev_eq_none (h : s a = none) : linkPrev s p q a = none := by
  unfold linkPrev
  rw [h]
  exact ite_self none

/-- The links of a new cell. -/
theorem linkNext_update (s : Store α δ) (a : α) (cell : Cell α δ) (next : Option α) :
    linkNext (Function.update s a (some cell)) (some a) next
      = Function.update s a (some { cell with next := next }) := by
  funext b
  by_cases hb : b = a
  · subst hb
    rw [linkNext_self, Function.update_self, Function.update_self]
    rfl
  · rw [linkNext_of_ne fun e => hb (Option.some.inj e).symm, Function.update_of_ne hb,
      Function.update_of_ne hb]

theorem linkPrev_update (s : Store α δ) (a : α) (cell : Cell α δ) (prev : Option α) :
    linkPrev (Function.update s a (some cell)) (some a) prev
      = Function.update s a (some { cell with prev := prev }) := by
  funext b
  by_cases hb : b = a
  · subst hb
    rw [linkPrev_self, Function.update_self, Function.update_self]
    rfl
  · rw [linkPrev_of_ne fun e => hb (Option.some.inj e).symm, Function.update_of_ne hb,
      Function.update_of_ne hb]

/-- A list without the cell that is written stays as it is. -/
theorem Linked.linkNext_of_notMem (h : Linked s before xs after)
    (hp : ∀ a, p = some a → a ∉ addresses xs) : Linked (linkNext s p q) before xs after := by
  apply h.frame
  intro a ha
  exact linkNext_of_ne fun e => hp a e ha

theorem Linked.linkPrev_of_notMem (h : Linked s before xs after)
    (hp : ∀ a, p = some a → a ∉ addresses xs) : Linked (linkPrev s p q) before xs after := by
  apply h.frame
  intro a ha
  exact linkPrev_of_ne fun e => hp a e ha

/-- The last cell is given a new forward link. -/
theorem Linked.linkNext_last (h : Linked s none xs after) (hnodup : (addresses xs).Nodup)
    (next : Option α) : Linked (linkNext s (last none xs) next) none xs next := by
  rcases List.eq_nil_or_concat' xs with rfl | ⟨init, x, rfl⟩
  · exact trivial
  · obtain ⟨hinit, hx, -⟩ := linked_append.mp h
    have hnew : x.1 ∉ addresses init := by
      rw [addresses, List.map_append] at hnodup
      intro hmem
      exact List.disjoint_of_nodup_append hnodup hmem List.mem_cons_self
    rw [last_concat]
    refine linked_append.mpr ⟨hinit.linkNext_of_notMem ?_, ?_, trivial⟩
    · intro a ha
      cases ha
      exact hnew
    · rw [linkNext_self, hx]
      rfl

/-- The first cell is given a new backward link. -/
theorem Linked.linkPrev_first (h : Linked s before xs none) (hnodup : (addresses xs).Nodup)
    (prev : Option α) : Linked (linkPrev s (first xs none) prev) prev xs none := by
  cases xs with
  | nil => exact trivial
  | cons x xs =>
    obtain ⟨hx, hxs⟩ := h
    refine ⟨?_, hxs.linkPrev_of_notMem ?_⟩
    · show linkPrev s (some x.1) prev x.1 = _
      rw [linkPrev_self, hx]
      rfl
    · intro a ha
      cases ha
      exact (List.nodup_cons.mp hnodup).1

/-! ## §4. A cell goes or comes. -/

/-- The memory once the cells that `p` and `q` point to are linked to each other. -/
def join (s : Store α δ) (p q : Option α) : Store α δ := linkPrev (linkNext s p q) q p

/-- Two lists with the ends of the one linked to those of the other. -/
theorem Linked.join (hxs : Linked s none xs after) (hys : Linked s before ys none)
    (hnodup : (addresses (xs ++ ys)).Nodup) :
    Linked (join s (last none xs) (first ys none)) none (xs ++ ys) none := by
  rw [addresses, List.map_append] at hnodup
  have hdisjoint := List.disjoint_of_nodup_append hnodup
  have hlast : ∀ a, last none xs = some a → a ∉ addresses ys := fun a ha hmem =>
    hdisjoint (mem_addresses_of_last ha) hmem
  have hfirst : ∀ a, first ys none = some a → a ∉ addresses xs := fun a ha hmem =>
    hdisjoint hmem (mem_addresses_of_first ha)
  apply linked_append.mpr
  constructor
  · exact (hxs.linkNext_last hnodup.of_append_left _).linkPrev_of_notMem hfirst
  · exact (hys.linkNext_of_notMem hlast).linkPrev_first hnodup.of_append_right _

/-- **Unlinking** a cell: its neighbours are linked to each other. -/
theorem Linked.unlink (h : Linked s none (xs ++ x :: ys) none)
    (hnodup : (addresses (xs ++ x :: ys)).Nodup) :
    Linked (DoublyLinked.join s (last none xs) (first ys none)) none (xs ++ ys) none := by
  obtain ⟨hxs, -, hys⟩ := linked_append.mp h
  apply hxs.join hys
  exact hnodup.sublist (((List.Sublist.refl xs).append (List.sublist_cons_self x ys)).map _)

/-- The memory once the cell of `x` is there and linked in between `p` and `q`. -/
def splice (s : Store α δ) (p : Option α) (x : α × δ) (q : Option α) : Store α δ :=
  linkPrev (linkNext (Function.update s x.1 (some ⟨x.2, p, q⟩)) p (some x.1)) q (some x.1)

/-- **Linking in** a new cell. -/
theorem Linked.insert (h : Linked s none (xs ++ ys) none) (hnodup : (addresses (xs ++ ys)).Nodup)
    (hnew : x.1 ∉ addresses (xs ++ ys)) :
    Linked (splice s (last none xs) x (first ys none)) none (xs ++ x :: ys) none := by
  obtain ⟨hxs, hys⟩ := linked_append.mp h
  rw [addresses, List.map_append] at hnodup hnew
  have hdisjoint := List.disjoint_of_nodup_append hnodup
  have hlast : ∀ a, last none xs = some a → a ∉ addresses ys := fun a ha hmem =>
    hdisjoint (mem_addresses_of_last ha) hmem
  have hfirst : ∀ a, first ys none = some a → a ∉ addresses xs := fun a ha hmem =>
    hdisjoint hmem (mem_addresses_of_first ha)
  have hlast_new : last none xs ≠ some x.1 := fun e =>
    hnew (List.mem_append_left _ (mem_addresses_of_last e))
  have hfirst_new : first ys none ≠ some x.1 := fun e =>
    hnew (List.mem_append_right _ (mem_addresses_of_first e))
  -- the cell is new, so the two lists are not touched when it is allocated
  have hold : ∀ a ∈ addresses xs ++ addresses ys,
      Function.update s x.1 (some ⟨x.2, last none xs, first ys none⟩) a = s a := by
    intro a ha
    have hne : a ≠ x.1 := by
      rintro rfl
      exact hnew ha
    exact Function.update_of_ne hne ..
  have hxs' := hxs.frame fun a ha => hold a (List.mem_append_left _ ha)
  have hys' := hys.frame fun a ha => hold a (List.mem_append_right _ ha)
  apply linked_append.mpr
  refine ⟨?_, ?_, ?_⟩
  · exact (hxs'.linkNext_last hnodup.of_append_left _).linkPrev_of_notMem hfirst
  · show splice s (last none xs) x (first ys none) x.1 = _
    rw [splice, linkPrev_of_ne hfirst_new, linkNext_of_ne hlast_new, Function.update_self]
  · exact (hys'.linkNext_of_notMem hlast).linkPrev_first hnodup.of_append_right _

end DistDb.Lib.DoublyLinked
