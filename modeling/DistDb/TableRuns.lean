/-
  DistDb.TableRuns — any sequence of hash table operations.

  The chained table of `hashtable.c` against a finite map: `map_step` says, on the map alone, what
  each operation does and answers.  It mentions neither the hash function nor the number of
  buckets, so that tables that differ in them cannot be told apart.

  Main results:
    * `apply_table_operation_refines` — one operation,
    * `hash_table_refines_finite_map` — any number of them, from an empty table of any size and for
      any hash function on, with the entries that the chains then hold.
-/
import DistDb.Add.Hashtable
import DistDb.Lib.Run
import Mathlib.Data.Finmap

namespace DistDb

open Lib

/-! ## §1. The operations as commands. -/

/-- A call on the table. -/
inductive TableOperation (κ ν : Type)
  | put (key : κ) (value : ν)
  | get (key : κ)
  | has_key (key : κ)
  | remove_entry (key : κ)
  | get_size
  deriving DecidableEq

/-- What a call gives back. -/
inductive TableResult (ν : Type)
  | put
  | get (value : Option ν)
  | has_key (found : Bool)
  | remove_entry
  | get_size (size : ℕ)
  deriving DecidableEq

section Runs

variable {κ ν : Type} [DecidableEq κ]

/-- The code's operation. -/
def apply_table_operation (hash_function : κ → UInt32) (ht : Hashtable κ ν) :
    TableOperation κ ν → Exec (Hashtable κ ν × TableResult ν)
  | .put key value => do
    let ht ← ht_put hash_function ht key value
    pure (ht, .put)
  | .get key => do
    let value ← ht_get hash_function ht key
    pure (ht, .get value)
  | .has_key key => do
    let found ← ht_has_key hash_function ht key
    pure (ht, .has_key found)
  | .remove_entry key => do
    let ht ← ht_remove_entry hash_function ht key
    pure (ht, .remove_entry)
  | .get_size => pure (ht, .get_size (ht_get_size ht))

/-! ## §2. The reference. -/

/-- The operations on a finite map. -/
def map_step (m : Finmap fun _ : κ => ν) :
    TableOperation κ ν → (Finmap fun _ : κ => ν) × TableResult ν
  | .put key value => (m.insert key value, .put)
  | .get key => (m, .get (m.lookup key))
  | .has_key key => (m, .has_key (decide (key ∈ m)))
  | .remove_entry key => (m.erase key, .remove_entry)
  | .get_size => (m, .get_size m.keys.card)

/-! ## §3. The code against the reference. -/

/-- A well-formed table with `hmax` buckets that holds the map. -/
structure TableShows (hash : κ → UInt32) (hmax : UInt32) (ht : Hashtable κ ν)
    (m : Finmap fun _ : κ => ν) : Prop where
  wf : ht.WF hash
  hmax_eq : ht.hmax = hmax
  lookup_eq : ∀ key, ht.lookup hash key = m.lookup key
  size_eq : ht.size = m.keys.card

variable {hash : κ → UInt32} {hmax : UInt32} {ht : Hashtable κ ν} {m : Finmap fun _ : κ => ν}

theorem TableShows.isSome_lookup (h : TableShows hash hmax ht m) (key : κ) :
    (ht.lookup hash key).isSome = decide (key ∈ m) := by
  rw [h.lookup_eq, Bool.eq_iff_iff, Finmap.lookup_isSome, decide_eq_true_iff]

theorem keys_insert (m : Finmap fun _ : κ => ν) (key : κ) (value : ν) :
    (m.insert key value).keys = insert key m.keys := by
  ext key'
  rw [Finmap.mem_keys, Finmap.mem_insert, Finset.mem_insert, Finmap.mem_keys]

theorem table_shows_empty (hpos : 0 < hmax.toNat) :
    TableShows hash hmax (ht_create hmax : Hashtable κ ν) ∅ where
  wf := ht_create_wf hpos
  hmax_eq := rfl
  lookup_eq := by
    intro key
    rw [lookup_ht_create, Finmap.lookup_empty]
  size_eq := rfl

/-- `ht_put` counts a new key, and not one that was there. -/
theorem TableShows.put (h : TableShows hash hmax ht m) (key : κ) (value : ν) :
    ∃ ht', ht_put hash ht key value = .ok ht' ∧ TableShows hash hmax ht' (m.insert key value) := by
  obtain ⟨ht', hput, wf', hmax', hlookup, hsize⟩ := ht_put_spec h.wf key value
  refine ⟨ht', hput, wf', hmax'.trans h.hmax_eq, ?_, ?_⟩
  · intro key'
    rw [hlookup, Function.update_apply]
    split_ifs with hkey
    · rw [hkey, Finmap.lookup_insert]
    · rw [Finmap.lookup_insert_of_ne m hkey, h.lookup_eq]
  · rw [hsize, h.isSome_lookup, keys_insert, h.size_eq]
    by_cases hkey : key ∈ m
    · rw [if_pos (decide_eq_true hkey), Finset.card_insert_of_mem (Finmap.mem_keys.mpr hkey)]
    · rw [if_neg (by simpa using hkey), Finset.card_insert_of_notMem (mt Finmap.mem_keys.mp hkey)]

/-- `ht_remove_entry` leaves the other keys, and a table without the key as it is. -/
theorem TableShows.remove (h : TableShows hash hmax ht m) (key : κ) :
    ∃ ht', ht_remove_entry hash ht key = .ok ht' ∧ TableShows hash hmax ht' (m.erase key) := by
  obtain ⟨ht', hremove, wf', hmax', hlookup, hsize⟩ := ht_remove_entry_spec h.wf key
  refine ⟨ht', hremove, wf', hmax'.trans h.hmax_eq, ?_, ?_⟩
  · intro key'
    rw [hlookup, Function.update_apply]
    split_ifs with hkey
    · rw [hkey, Finmap.lookup_erase]
    · rw [Finmap.lookup_erase_ne hkey, h.lookup_eq]
  · rw [hsize, h.isSome_lookup, Finmap.keys_erase, h.size_eq]
    by_cases hkey : key ∈ m
    · rw [if_pos (decide_eq_true hkey), Finset.card_erase_of_mem (Finmap.mem_keys.mpr hkey)]
    · rw [if_neg (by simpa using hkey), Finset.erase_eq_of_notMem (mt Finmap.mem_keys.mp hkey)]

/-- **One operation**: it returns what the map says, and leaves a table that holds the map. -/
theorem apply_table_operation_refines (ht : Hashtable κ ν) (m : Finmap fun _ : κ => ν)
    (operation : TableOperation κ ν) (h : TableShows hash hmax ht m) :
    ∃ ht', apply_table_operation hash ht operation = .ok (ht', (map_step m operation).2) ∧
      TableShows hash hmax ht' (map_step m operation).1 := by
  cases operation with
  | put key value =>
    obtain ⟨ht', hput, h'⟩ := h.put key value
    refine ⟨ht', ?_, h'⟩
    rw [apply_table_operation, hput]
    rfl
  | get key =>
    refine ⟨ht, ?_, h⟩
    rw [apply_table_operation, ht_get_eq h.wf, h.lookup_eq]
    rfl
  | has_key key =>
    refine ⟨ht, ?_, h⟩
    rw [apply_table_operation, ht_has_key_eq h.wf, h.isSome_lookup]
    rfl
  | remove_entry key =>
    obtain ⟨ht', hremove, h'⟩ := h.remove key
    refine ⟨ht', ?_, h'⟩
    rw [apply_table_operation, hremove]
    rfl
  | get_size =>
    refine ⟨ht, ?_, h⟩
    rw [apply_table_operation, ht_get_size, h.size_eq]
    rfl

/-- An entry of a chain, as a pair of the map. -/
def Info.toSigma (e : Info κ ν) : Sigma fun _ : κ => ν := ⟨e.key, e.value⟩

/-- The chains hold each pair of the map once. -/
theorem TableShows.entries_eq (h : TableShows hash hmax ht m) :
    (ht.entries.map Info.toSigma : Multiset (Sigma fun _ : κ => ν)) = m.entries := by
  have hnodup : (ht.entries.map Info.toSigma).Nodup := by
    apply List.Nodup.of_map Sigma.fst
    rw [List.map_map]
    exact h.wf.nodup_entries
  apply (Multiset.Nodup.ext (Multiset.coe_nodup.mpr hnodup) m.nodup_entries).mpr
  intro pair
  rw [Multiset.mem_coe, List.mem_map, ← Finmap.mem_lookup_iff, Option.mem_def]
  constructor
  · intro hpair
    obtain ⟨e, he, rfl⟩ := hpair
    rw [← h.lookup_eq]
    exact (mem_entries_iff h.wf e).mp he
  · intro hpair
    rw [← h.lookup_eq] at hpair
    exact ⟨⟨pair.1, pair.2⟩, (mem_entries_iff h.wf _).mpr hpair, rfl⟩

/-- **The hash table is an exact finite map**: for every hash function and every positive number of
buckets up to `2 ^ 31`, every sequence of operations on an empty table returns, answers what the map
answers, and leads to chains that hold each pair of the map once, in as many buckets as before,
whose numbers are in the range of an `int`. -/
theorem hash_table_refines_finite_map (hash : κ → UInt32) {hmax : UInt32} (hpos : 1 ≤ hmax)
    (hint : hmax.toNat ≤ 2 ^ 31) (operations : List (TableOperation κ ν)) :
    ∃ ht', Run.run (apply_table_operation hash) (ht_create hmax) operations
        = .ok (ht', (Run.total map_step ∅ operations).2) ∧
      (ht'.entries.map Info.toSigma : Multiset (Sigma fun _ : κ => ν))
        = (Run.total map_step ∅ operations).1.entries ∧
      ht_get_hmax ht' = hmax ∧
      ∀ key, ∃ i, hash_index hash ht' key = .ok i ∧ i < 2 ^ 31 := by
  have hpos' : 0 < hmax.toNat := UInt32.le_iff_toNat_le.mp hpos
  have hempty : TableShows hash hmax (ht_create hmax : Hashtable κ ν) ∅ := table_shows_empty hpos'
  obtain ⟨ht', hrun, h'⟩ := Run.run_refines apply_table_operation_refines hempty operations
  have hint' : ht'.hmax.toNat ≤ 2 ^ 31 := h'.hmax_eq ▸ hint
  exact ⟨ht', hrun, h'.entries_eq, h'.hmax_eq, h'.wf.hash_index_int hint'⟩

end Runs

/-- Three keys in two buckets: one is written twice, and one is removed. -/
theorem hash_table_refines_finite_map_two_buckets :
    ∃ ht', Run.run (apply_table_operation hash_string) (ht_create 2) [.put (.ofString "a") 1,
        .put (.ofString "b") 2, .put (.ofString "a") 3, .put (.ofString "c") 4, .get_size,
        .remove_entry (.ofString "b"), .get (.ofString "a"), .has_key (.ofString "b"), .get_size]
      = .ok (ht', [.put, .put, .put, .put, .get_size 3, .remove_entry, .get (some (3 : ℕ)),
          .has_key false, .get_size 2]) ∧
      ht_get_hmax ht' = 2 := by
  obtain ⟨ht', hrun, -, hmax, -⟩ := hash_table_refines_finite_map hash_string
    (show (1 : UInt32) ≤ 2 by decide) (by decide) [.put (.ofString "a") (1 : ℕ),
      .put (.ofString "b") 2, .put (.ofString "a") 3, .put (.ofString "c") 4, .get_size,
      .remove_entry (.ofString "b"), .get (.ofString "a"), .has_key (.ofString "b"), .get_size]
  refine ⟨ht', hrun.trans ?_, hmax⟩
  apply congrArg fun results => Except.ok (ht', results)
  decide +kernel

end DistDb
