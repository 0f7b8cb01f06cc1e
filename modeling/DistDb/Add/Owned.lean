/-
  DistDb.Add.Owned — what a list owns in memory, and the rest.

  A part of the program allocates the nodes and records of its lists, writes to them and releases
  them; whatever else is in memory is to stay as it is.  `Over base mem es` says that the memory is
  `base` together with the nodes `es` and their records, none of which is in `base`.  Every edit of
  a list keeps it for the same `base`, so that releasing all of the list (`free_nodes_eq`) gives
  `base` back.

  Where several parts share the memory, the others are in the rest of each.  `Owned.replace` is the
  rule for this: what one part does to its own nodes with the others in its `base` (`Owned.focus`),
  it does beside them, and they stay as they are (`Owned.frame`).

  A record stands for an `info_t` and the two strings it points to: they are allocated together and
  released together.
-/
import Mathlib.Data.Set.Finite.List
import Mathlib.Order.Lattice.Nat
import DistDb.Add.Links

namespace DistDb.Nodes

open Lib DoublyLinked

/-! ## §1. Allocation and release. -/

/-- Finitely many nodes and records are allocated. -/
def Memory.Finite (mem : Memory) : Prop :=
  {a | mem.nodes a ≠ none}.Finite ∧ {a | mem.infos a ≠ none}.Finite

/-- What `malloc` does: the addresses for a new node and a new record are not in use. -/
structure Allocator where
  malloc : Memory → ℕ × ℕ
  unused : ∀ mem : Memory, mem.Finite →
    mem.nodes (malloc mem).1 = none ∧ mem.infos (malloc mem).2 = none

/-- `info->value = strdup(value)` -/
def write_value (mem : Memory) (data : ℕ) (value : CString) : Exec Memory := do
  let info ← mem.info data
  pure { mem with infos := Function.update mem.infos data (some ⟨info.key, value⟩) }

/-- Release a record and its node: `free(node->data); free(node)`. -/
def free_node (mem : Memory) : Option ℕ → Exec Memory
  | none => throw .nullPointer
  | some node => do
    let n ← mem.node (some node)
    let _ ← mem.info n.data
    pure (mem.release node n.data)

/-- Release the nodes of the list from its head on, in at most `rounds` rounds. -/
def free_nodes (mem : Memory) (list : LlList) : ℕ → Exec Memory
  | 0 => if list.size = 0 then pure mem else throw .outOfFuel
  | rounds + 1 =>
    if list.size = 0 then pure mem
    else do
      let (mem, list, node) ← ll_remove_nth_node mem list 0
      let mem ← free_node mem node
      free_nodes mem list rounds

variable {base mem mem' : Memory} {list : LlList} {es xs ys : List Entry} {e new : Entry}

/-- The node that `malloc` gives for a record. -/
def Allocator.entry (allocator : Allocator) (mem : Memory) (info : Info CString CString) :
    Entry where
  data := (allocator.malloc mem).2
  info := info
  node := (allocator.malloc mem).1

theorem Allocator.fresh (allocator : Allocator) (hmem : mem.Finite)
    (info : Info CString CString) : Fresh mem (allocator.entry mem info) where
  node := (allocator.unused mem hmem).1
  info := (allocator.unused mem hmem).2

/-! ## §2. The memory of the list and the rest. -/

/-- The nodes and records of a list are there. -/
theorem Chained.alive (h : Chained mem list es) (he : e ∈ es) :
    mem.nodes e.node ≠ none ∧ mem.infos e.data ≠ none := by
  have hmem : e.node ∈ addresses (cells es) := by
    rw [addresses_cells]
    exact List.mem_map_of_mem he
  obtain ⟨cell, hcell⟩ := h.linked.exists_cell hmem
  rw [hcell, h.infos e he]
  exact ⟨Option.some_ne_none _, Option.some_ne_none _⟩

/-- The memory is `base` with the nodes of `es` and their records, which are not in `base`. -/
structure Over (base mem : Memory) (es : List Entry) : Prop where
  nodes_unused : ∀ e ∈ es, base.nodes e.node = none
  infos_unused : ∀ e ∈ es, base.infos e.data = none
  nodes_eq : ∀ a, (∀ e ∈ es, e.node ≠ a) → mem.nodes a = base.nodes a
  infos_eq : ∀ a, (∀ e ∈ es, e.data ≠ a) → mem.infos a = base.infos a

theorem Over.nil (base : Memory) : Over base base [] where
  nodes_unused := by simp
  infos_unused := by simp
  nodes_eq := fun _ _ => rfl
  infos_eq := fun _ _ => rfl

/-- Without any node the memory is `base`. -/
theorem Over.eq_base (h : Over base mem []) : mem = base := by
  have hnodes : mem.nodes = base.nodes := funext fun a => h.nodes_eq a (by simp)
  have hinfos : mem.infos = base.infos := funext fun a => h.infos_eq a (by simp)
  cases mem
  cases base
  exact congrArg₂ Memory.mk hnodes hinfos

/-- The order of the nodes does not matter, -/
theorem Over.perm (h : Over base mem es) {zs : List Entry} (hperm : zs.Perm es) :
    Over base mem zs where
  nodes_unused := fun x hx => h.nodes_unused x (hperm.mem_iff.mp hx)
  infos_unused := fun x hx => h.infos_unused x (hperm.mem_iff.mp hx)
  nodes_eq := fun a ha => h.nodes_eq a fun x hx => ha x (hperm.mem_iff.mpr hx)
  infos_eq := fun a ha => h.infos_eq a fun x hx => ha x (hperm.mem_iff.mpr hx)

/-- nor does what is written to them and to their records. -/
theorem Over.write (h : Over base mem es)
    (hnodes : ∀ a, (∀ e ∈ es, e.node ≠ a) → mem'.nodes a = mem.nodes a)
    (hinfos : ∀ a, (∀ e ∈ es, e.data ≠ a) → mem'.infos a = mem.infos a) : Over base mem' es where
  nodes_unused := h.nodes_unused
  infos_unused := h.infos_unused
  nodes_eq := fun a ha => (hnodes a ha).trans (h.nodes_eq a ha)
  infos_eq := fun a ha => (hinfos a ha).trans (h.infos_eq a ha)

/-- The memory without the nodes of a list and their records. -/
def Memory.outside (mem : Memory) (es : List Entry) : Memory where
  nodes := fun a => if a ∈ es.map Entry.node then none else mem.nodes a
  infos := fun a => if a ∈ es.map (fun e => e.data) then none else mem.infos a

theorem over_outside (mem : Memory) (es : List Entry) : Over (mem.outside es) mem es where
  nodes_unused := fun _ he => if_pos (List.mem_map_of_mem he)
  infos_unused := fun _ he => if_pos (List.mem_map.mpr ⟨_, he, rfl⟩)
  nodes_eq := by
    intro a ha
    refine (if_neg ?_).symm
    intro hmem
    obtain ⟨e, he, heq⟩ := List.mem_map.mp hmem
    exact ha e he heq
  infos_eq := by
    intro a ha
    refine (if_neg ?_).symm
    intro hmem
    obtain ⟨e, he, heq⟩ := List.mem_map.mp hmem
    exact ha e he heq

/-- The nodes of one list and, in the rest, those of another one. -/
theorem Over.append {rest : Memory} (h : Over rest mem xs)
    (hrest : Over base rest ys)
    (hnodes : ∀ x ∈ xs, ∀ y ∈ ys, x.node ≠ y.node) (hdata : ∀ x ∈ xs, ∀ y ∈ ys, x.data ≠ y.data) :
    Over base mem (xs ++ ys) where
  nodes_unused := by
    intro x hx
    rcases List.mem_append.mp hx with hx | hx
    · rw [← hrest.nodes_eq x.node fun y hy heq => hnodes x hx y hy heq.symm]
      exact h.nodes_unused x hx
    · exact hrest.nodes_unused x hx
  infos_unused := by
    intro x hx
    rcases List.mem_append.mp hx with hx | hx
    · rw [← hrest.infos_eq x.data fun y hy heq => hdata x hx y hy heq.symm]
      exact h.infos_unused x hx
    · exact hrest.infos_unused x hx
  nodes_eq := by
    intro a ha
    obtain ⟨hxs, hys⟩ := List.forall_mem_append.mp ha
    exact (h.nodes_eq a hxs).trans (hrest.nodes_eq a hys)
  infos_eq := by
    intro a ha
    obtain ⟨hxs, hys⟩ := List.forall_mem_append.mp ha
    exact (h.infos_eq a hxs).trans (hrest.infos_eq a hys)

/-- Joining two parts of a list writes to their nodes only, -/
theorem nodes_joined {a : ℕ} (ha : ∀ e ∈ xs ++ ys, e.node ≠ a) :
    (joined mem xs ys).nodes a = mem.nodes a := by
  show linkPrev (linkNext mem.nodes _ _) _ _ a = _
  rw [linkPrev_of_ne (first_ne fun e he => ha e (List.mem_append_right xs he)),
    linkNext_of_ne (last_ne fun e he => ha e (List.mem_append_left ys he))]

/-- and linking a new node in to theirs and the new one. -/
theorem nodes_inserted {a : ℕ} (ha : ∀ e ∈ xs ++ ys, e.node ≠ a) (hnew : e.node ≠ a) :
    (inserted mem xs e ys).nodes a = mem.nodes a := by
  show splice mem.nodes _ _ _ a = _
  rw [splice, linkPrev_of_ne (first_ne fun e he => ha e (List.mem_append_right xs he)),
    linkNext_of_ne (last_ne fun e he => ha e (List.mem_append_left ys he))]
  exact Function.update_of_ne (Ne.symm hnew) ..

/-- One of the nodes is released with its record. -/
theorem Over.release (h : Over base mem es) (he : e ∈ es) {zs : List Entry}
    (hzs : ∀ x, x ∈ es ↔ x = e ∨ x ∈ zs) : Over base (mem.release e.node e.data) zs where
  nodes_unused := fun x hx => h.nodes_unused x ((hzs x).mpr (.inr hx))
  infos_unused := fun x hx => h.infos_unused x ((hzs x).mpr (.inr hx))
  nodes_eq := by
    intro a ha
    by_cases hae : e.node = a
    · -- the released node was not in `base`
      subst hae
      exact (Function.update_self ..).trans (h.nodes_unused e he).symm
    · refine (Function.update_of_ne (Ne.symm hae) ..).trans (h.nodes_eq a ?_)
      intro x hx
      rcases (hzs x).mp hx with rfl | hx
      · exact hae
      · exact ha x hx
  infos_eq := by
    intro a ha
    by_cases hae : e.data = a
    · subst hae
      exact (Function.update_self ..).trans (h.infos_unused e he).symm
    · refine (Function.update_of_ne (Ne.symm hae) ..).trans (h.infos_eq a ?_)
      intro x hx
      rcases (hzs x).mp hx with rfl | hx
      · exact hae
      · exact ha x hx

/-- A new node is linked in between some of the nodes. -/
theorem Over.inserted (h : Over base mem es) (hxs : ∀ x ∈ xs ++ ys, x ∈ es)
    (hfresh : Fresh mem new) (hnode : ∀ x ∈ es, x.node ≠ new.node)
    (hdata : ∀ x ∈ es, x.data ≠ new.data) {zs : List Entry}
    (hzs : ∀ x, x ∈ zs ↔ x = new ∨ x ∈ es) : Over base (inserted mem xs new ys) zs where
  nodes_unused := by
    intro x hx
    rcases (hzs x).mp hx with rfl | hx
    · rw [← h.nodes_eq _ hnode]
      exact hfresh.node
    · exact h.nodes_unused x hx
  infos_unused := by
    intro x hx
    rcases (hzs x).mp hx with rfl | hx
    · rw [← h.infos_eq _ hdata]
      exact hfresh.info
    · exact h.infos_unused x hx
  nodes_eq := by
    -- the new node and those next to it are written, and all of them belong to the list
    intro a ha
    have hold : ∀ x ∈ es, x.node ≠ a := fun x hx => ha x ((hzs x).mpr (.inr hx))
    rw [nodes_inserted (fun x hx => hold x (hxs x hx)) (ha new ((hzs new).mpr (.inl rfl))),
      h.nodes_eq a hold]
  infos_eq := by
    intro a ha
    have hold : ∀ x ∈ es, x.data ≠ a := fun x hx => ha x ((hzs x).mpr (.inr hx))
    exact (Function.update_of_ne (ha new ((hzs new).mpr (.inl rfl))).symm ..).trans
      (h.infos_eq a hold)

/-- Joining the two sides of a node. -/
theorem Over.joined (h : Over base mem (xs ++ e :: ys)) :
    Over base (joined mem xs ys) (xs ++ e :: ys) := by
  apply h.write
  · intro a ha
    exact nodes_joined fun x hx => ha x (List.perm_middle.mem_iff.mpr (.tail e hx))
  · intro a _
    rfl

/-- A node of the list is unlinked and released. -/
theorem Over.released (h : Over base mem (xs ++ e :: ys)) :
    Over base ((DistDb.Nodes.joined mem xs ys).release e.node e.data) (xs ++ ys) :=
  h.joined.release (List.mem_append_right xs List.mem_cons_self)
    fun _ => List.perm_middle.mem_iff.trans List.mem_cons

/-- A node of the list is replaced by a new one at the end. -/
theorem Over.moved (h : Over base mem (xs ++ e :: ys)) (hchained : Chained mem list (xs ++ e :: ys))
    (hfresh : Fresh mem new) : Over base (moved mem xs e ys new) (xs ++ ys ++ [new]) := by
  have hsub : ∀ x ∈ xs ++ ys, x ∈ xs ++ e :: ys :=
    fun x hx => List.perm_middle.mem_iff.mpr (.tail e hx)
  have hadded := h.joined.inserted (by rwa [List.append_nil]) (hfresh.joined xs ys)
    (fun x hx => hfresh.node_ne hchained hx) (fun x hx => hfresh.data_ne hchained hx)
    fun x => List.mem_cons
  apply hadded.release (List.mem_cons_of_mem new (List.mem_append_right xs List.mem_cons_self))
  intro x
  simp only [List.mem_append, List.mem_cons]
  tauto

/-- With the list the memory is still finite, so the allocator finds unused addresses. -/
theorem Over.finite (h : Over base mem es) (hbase : base.Finite) : mem.Finite := by
  constructor
  · -- an address that is used is in `base` or that of a node of the list
    apply (hbase.1.union (List.finite_toSet (es.map Entry.node))).subset
    intro a ha
    by_contra hnot
    obtain ⟨hold, hnew⟩ := not_or.mp hnot
    refine ha ((h.nodes_eq a ?_).trans (not_not.mp hold))
    intro e he heq
    exact hnew (heq ▸ List.mem_map_of_mem he)
  · apply (hbase.2.union (List.finite_toSet (es.map fun e => e.data))).subset
    intro a ha
    by_contra hnot
    obtain ⟨hold, hnew⟩ := not_or.mp hnot
    refine ha ((h.infos_eq a ?_).trans (not_not.mp hold))
    intro e he heq
    exact hnew (List.mem_map.mpr ⟨e, he, heq⟩)

/-! ## §3. Values that are overwritten. -/

/-- The node with another value in its record. -/
def Entry.withValue (e : Entry) (value : CString) : Entry := { e with info := ⟨e.info.key, value⟩ }

/-- The memory with another value in the record of the node. -/
def written (mem : Memory) (e : Entry) (value : CString) : Memory :=
  { mem with infos := Function.update mem.infos e.data (some (e.withValue value).info) }

theorem write_value_eq (h : Chained mem list (xs ++ e :: ys)) (value : CString) :
    write_value mem e.data value = .ok (written mem e value) := by
  have hinfo : mem.infos e.data = some e.info :=
    h.infos e (List.mem_append_right xs List.mem_cons_self)
  rw [write_value, Memory.info, hinfo]
  rfl

/-- A value is written to the record of a node. -/
theorem Chained.written (h : Chained mem list (xs ++ e :: ys)) (value : CString) :
    Chained (written mem e value) list (xs ++ e.withValue value :: ys) := by
  have hcells : cells (xs ++ e.withValue value :: ys) = cells (xs ++ e :: ys) := by
    rw [cells_append, cells_append]
    rfl
  have hdata : (xs ++ e.withValue value :: ys).map (fun e => e.data)
      = (xs ++ e :: ys).map fun e => e.data := by
    rw [List.map_append, List.map_append]
    rfl
  refine ⟨hcells ▸ h.linked, hcells ▸ h.head_eq, hcells ▸ h.tail_eq, ?_, hcells ▸ h.nodup, ?_,
    hdata ▸ h.data_nodup⟩
  · rw [h.size_eq, List.length_append, List.length_append]
    rfl
  · intro x hx
    rw [List.perm_middle.mem_iff, List.mem_cons] at hx
    rcases hx with rfl | hx
    · exact Function.update_self ..
    · -- the other nodes own other records
      exact (Function.update_of_ne (h.data_ne hx) ..).trans
        (h.infos x (List.perm_middle.mem_iff.mpr (.tail e hx)))

theorem Over.written (h : Over base mem (xs ++ e :: ys)) (value : CString) :
    Over base (written mem e value) (xs ++ e.withValue value :: ys) := by
  have hsame : ∀ p : ℕ → ℕ → Prop, (∀ x ∈ xs ++ e.withValue value :: ys, p x.node x.data) ↔
      ∀ x ∈ xs ++ e :: ys, p x.node x.data := by
    intro p
    rw [List.forall_mem_append, List.forall_mem_append, List.forall_mem_cons,
      List.forall_mem_cons]
    rfl
  refine ⟨(hsame fun a _ => base.nodes a = none).mpr h.nodes_unused,
    (hsame fun _ a => base.infos a = none).mpr h.infos_unused, ?_, ?_⟩
  · intro a ha
    exact h.nodes_eq a ((hsame fun b _ => b ≠ a).mp ha)
  · intro a ha
    have ha := (hsame fun _ b => b ≠ a).mp ha
    have hne := ha e (List.mem_append_right xs List.mem_cons_self)
    exact (Function.update_of_ne (Ne.symm hne) ..).trans (h.infos_eq a ha)

/-! ## §4. Lists that are released. -/

/-- The loop releases every node and its record. -/
theorem free_nodes_eq (hchained : Chained mem list es) (hover : Over base mem es) :
    free_nodes mem list es.length = .ok base := by
  induction es generalizing mem list with
  | nil =>
    have hsize : list.size = 0 := hchained.size_eq
    show (if list.size = 0 then pure mem else throw Fault.outOfFuel) = _
    rw [if_pos hsize, hover.eq_base]
    rfl
  | cons e es ih =>
    -- the head is unlinked and released, which leaves the list of the others
    have hchained₀ : Chained mem list ([] ++ e :: es) := hchained
    have hover₀ : Over base mem ([] ++ e :: es) := hover
    have hnonempty : list.size ≠ 0 := by
      rw [hchained.size_eq]
      exact Nat.succ_ne_zero _
    have hne : ∀ x ∈ [] ++ es, x.node ≠ e.node := fun x hx => hchained₀.node_ne hx
    have hnode : (joined mem [] es).node (some e.node) = mem.node (some e.node) := node_joined hne
    have hinfo : (joined mem [] es).infos e.data = some e.info :=
      hchained.infos e List.mem_cons_self
    have hfree : free_node (joined mem [] es) (some e.node)
        = .ok ((joined mem [] es).release e.node e.data) := by
      rw [free_node, hnode, hchained₀.node_eq, ok_bind, Memory.info, hinfo]
      rfl
    rw [List.length_cons, free_nodes, if_neg hnonempty,
      show ll_remove_nth_node mem list 0 = _ from ll_remove_nth_node_eq hchained₀, ok_bind]
    show (free_node (joined mem [] es) (some e.node) >>= _) = _
    rw [hfree, ok_bind]
    exact ih (hchained₀.joined.release hne fun x hx => hchained₀.data_ne hx) hover₀.released

/-! ## §5. Several owners. -/

/-- The memory is `base` with the nodes `es` and their records, which are there, each at an address
of its own. -/
structure Owned (base mem : Memory) (es : List Entry) : Prop where
  nodes_nodup : (es.map Entry.node).Nodup
  data_nodup : (es.map fun e => e.data).Nodup
  alive : ∀ e ∈ es, mem.nodes e.node ≠ none ∧ mem.infos e.data ≠ none
  memory : Over base mem es

/-- A list owns its nodes and records. -/
theorem Chained.owned (h : Chained mem list es) (hover : Over base mem es) :
    Owned base mem es where
  nodes_nodup := addresses_cells es ▸ h.nodup
  data_nodup := h.data_nodup
  alive := fun _ he => h.alive he
  memory := hover

theorem Owned.nil (base : Memory) : Owned base base [] where
  nodes_nodup := List.nodup_nil
  data_nodup := List.nodup_nil
  alive := by simp
  memory := Over.nil base

theorem Owned.perm (h : Owned base mem es) {zs : List Entry} (hperm : zs.Perm es) :
    Owned base mem zs where
  nodes_nodup := (hperm.map Entry.node).nodup_iff.mpr h.nodes_nodup
  data_nodup := (hperm.map fun e => e.data).nodup_iff.mpr h.data_nodup
  alive := fun e he => h.alive e (hperm.mem_iff.mp he)
  memory := h.memory.perm hperm

section Frame

variable {own own' others : List Entry} {x y : Entry}

/-- What belongs to one owner does not belong to the others. -/
theorem Owned.apart (h : Owned base mem (own ++ others)) (hx : x ∈ own) (hy : y ∈ others) :
    x.node ≠ y.node ∧ x.data ≠ y.data := by
  have hnodes := h.nodes_nodup
  have hdata := h.data_nodup
  rw [List.map_append] at hnodes hdata
  have hnodes := List.disjoint_of_nodup_append hnodes
  have hdata := List.disjoint_of_nodup_append hdata
  constructor
  · intro heq
    exact hnodes (List.mem_map_of_mem hx) (heq ▸ List.mem_map_of_mem hy)
  · intro heq
    exact hdata (List.mem_map.mpr ⟨x, hx, heq⟩) (List.mem_map.mpr ⟨y, hy, rfl⟩)

/-- What is outside of one owner has what belongs to the others, -/
theorem Owned.outside_eq (h : Owned base mem (own ++ others)) (hy : y ∈ others) :
    (mem.outside own).nodes y.node = mem.nodes y.node ∧
      (mem.outside own).infos y.data = mem.infos y.data := by
  constructor
  · refine if_neg ?_
    intro hmem
    obtain ⟨x, hx, heq⟩ := List.mem_map.mp hmem
    exact (h.apart hx hy).1 heq
  · refine if_neg ?_
    intro hmem
    obtain ⟨x, hx, heq⟩ := List.mem_map.mp hmem
    exact (h.apart hx hy).2 heq

/-- and is `base` with them. -/
theorem Owned.rest (h : Owned base mem (own ++ others)) :
    Owned base (mem.outside own) others where
  nodes_nodup := by
    have hnodes := h.nodes_nodup
    rw [List.map_append] at hnodes
    exact hnodes.of_append_right
  data_nodup := by
    have hdata := h.data_nodup
    rw [List.map_append] at hdata
    exact hdata.of_append_right
  alive := by
    intro y hy
    rw [(h.outside_eq hy).1, (h.outside_eq hy).2]
    exact h.alive y (List.mem_append_right own hy)
  memory := by
    refine ⟨fun y hy => h.memory.nodes_unused y (List.mem_append_right own hy),
      fun y hy => h.memory.infos_unused y (List.mem_append_right own hy), ?_, ?_⟩
    · intro a ha
      by_cases hold : a ∈ own.map Entry.node
      · -- what belongs to the owner is gone, and was not in `base`
        obtain ⟨x, hx, rfl⟩ := List.mem_map.mp hold
        exact (if_pos hold).trans (h.memory.nodes_unused x (List.mem_append_left others hx)).symm
      · refine (if_neg hold).trans (h.memory.nodes_eq a ?_)
        intro y hy heq
        rcases List.mem_append.mp hy with hy | hy
        · exact hold (heq ▸ List.mem_map_of_mem hy)
        · exact ha y hy heq
    · intro a ha
      by_cases hold : a ∈ own.map fun e => e.data
      · obtain ⟨x, hx, rfl⟩ := List.mem_map.mp hold
        exact (if_pos hold).trans (h.memory.infos_unused x (List.mem_append_left others hx)).symm
      · refine (if_neg hold).trans (h.memory.infos_eq a ?_)
        intro y hy heq
        rcases List.mem_append.mp hy with hy | hy
        · exact hold (List.mem_map.mpr ⟨y, hy, heq⟩)
        · exact ha y hy heq

/-- For one owner the others are part of the rest. -/
theorem Owned.focus (h : Owned base mem (own ++ others)) : Owned (mem.outside own) mem own where
  nodes_nodup := by
    have hnodes := h.nodes_nodup
    rw [List.map_append] at hnodes
    exact hnodes.of_append_left
  data_nodup := by
    have hdata := h.data_nodup
    rw [List.map_append] at hdata
    exact hdata.of_append_left
  alive := fun x hx => h.alive x (List.mem_append_left others hx)
  memory := over_outside mem own

/-- Whatever one owner allocates, it takes nothing that belongs to the others, -/
theorem Owned.apart_new (h : Owned base mem (own ++ others))
    (h' : Owned (mem.outside own) mem' own') (hx : x ∈ own') (hy : y ∈ others) :
    x.node ≠ y.node ∧ x.data ≠ y.data := by
  obtain ⟨hnode, hinfo⟩ := h.rest.alive y hy
  constructor
  · intro heq
    exact hnode (heq ▸ h'.memory.nodes_unused x hx)
  · intro heq
    exact hinfo (heq ▸ h'.memory.infos_unused x hx)

/-- and whatever it writes and releases, that stays as it is. -/
theorem Owned.frame (h : Owned base mem (own ++ others))
    (h' : Owned (mem.outside own) mem' own') (hy : y ∈ others) :
    mem'.nodes y.node = mem.nodes y.node ∧ mem'.infos y.data = mem.infos y.data := by
  obtain ⟨hnode, hinfo⟩ := h.outside_eq hy
  constructor
  · rw [h'.memory.nodes_eq _ fun x hx => (h.apart_new h' hx hy).1, hnode]
  · rw [h'.memory.infos_eq _ fun x hx => (h.apart_new h' hx hy).2, hinfo]

/-- **The frame rule**: what one owner does with the others in the rest, it does beside them. -/
theorem Owned.replace (h : Owned base mem (own ++ others))
    (h' : Owned (mem.outside own) mem' own') : Owned base mem' (own' ++ others) where
  nodes_nodup := by
    rw [List.map_append]
    refine h'.nodes_nodup.append h.rest.nodes_nodup ?_
    intro a ha hothers
    obtain ⟨x, hx, rfl⟩ := List.mem_map.mp ha
    obtain ⟨y, hy, heq⟩ := List.mem_map.mp hothers
    exact (h.apart_new h' hx hy).1 heq.symm
  data_nodup := by
    rw [List.map_append]
    refine h'.data_nodup.append h.rest.data_nodup ?_
    intro a ha hothers
    obtain ⟨x, hx, heq⟩ := List.mem_map.mp ha
    obtain ⟨y, hy, heq'⟩ := List.mem_map.mp hothers
    exact (h.apart_new h' hx hy).2 (heq.trans heq'.symm)
  alive := by
    intro y hy
    rcases List.mem_append.mp hy with hy | hy
    · exact h'.alive y hy
    · rw [(h.frame h' hy).1, (h.frame h' hy).2]
      exact h.alive y (List.mem_append_right own hy)
  memory := Over.append h'.memory h.rest.memory (fun _ hx _ hy => (h.apart_new h' hx hy).1)
    fun _ hx _ hy => (h.apart_new h' hx hy).2

end Frame

/-- Without a part of it the memory is still finite. -/
theorem Memory.Finite.outside (hmem : mem.Finite) (es : List Entry) :
    (mem.outside es).Finite := by
  constructor
  · apply hmem.1.subset
    intro a ha hnone
    apply ha
    show (if _ then none else mem.nodes a) = none
    rw [hnone, ite_self]
  · apply hmem.2.subset
    intro a ha hnone
    apply ha
    show (if _ then none else mem.infos a) = none
    rw [hnone, ite_self]

/-! ## §6. An allocator. -/

/-- The memory in which nothing is allocated. -/
def Memory.empty : Memory where
  nodes := fun _ => none
  infos := fun _ => none

theorem Memory.finite_empty : Memory.empty.Finite := by
  simp [Memory.Finite, Memory.empty]

/-- The allocator that takes the least unused addresses, released ones included. -/
noncomputable def firstFit : Allocator where
  malloc := fun mem => (sInf {a | mem.nodes a = none}, sInf {a | mem.infos a = none})
  unused := by
    intro mem hmem
    obtain ⟨a, ha⟩ := hmem.1.exists_notMem
    obtain ⟨b, hb⟩ := hmem.2.exists_notMem
    have hnodes : {a | mem.nodes a = none}.Nonempty := ⟨a, not_not.mp ha⟩
    have hinfos : {a | mem.infos a = none}.Nonempty := ⟨b, not_not.mp hb⟩
    exact ⟨Nat.sInf_mem hnodes, Nat.sInf_mem hinfos⟩

end DistDb.Nodes
