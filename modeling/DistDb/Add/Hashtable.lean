/-
  DistDb.Add.Hashtable — the chained hash table of `hashtable.c`.

  The table is generic in its keys and values, as the source is through its function pointers:
  the hash function is a parameter of every operation, and `compare_function` is equality.  Each
  operation takes the remainder of the key's hash by `hmax` first, and faults when `hmax` is zero.
  Sizes and indices are natural numbers.  The source keeps the remainder in an `int`; it is in its
  range in a table of at most `2 ^ 31` buckets (`WF.hash_index_int`), and larger ones are taken to
  work alike.

  `Hashtable.WF` is what every table built by `ht_create`, `ht_put` and `ht_remove_entry`
  satisfies.  On such a table the operations are those of a finite map `lookup`:
    * `ht_has_key_eq`, `ht_get_eq` — the queries read `lookup`,
    * `ht_put_spec`, `ht_remove_entry_spec` — the updates change it at one key.
-/
import DistDb.Utils
import DistDb.Add.LinkedList

namespace DistDb

open Lib

/-- `hashtable_t`: `hmax` buckets and the number of entries. -/
structure Hashtable (κ ν : Type) where
  buckets : List (List (Info κ ν))
  size : ℕ
  hmax : UInt32
  deriving DecidableEq

/-! ## §1. The operations. -/

section Operations

variable {κ ν : Type} [DecidableEq κ] (hash_function : κ → UInt32)

/-- An empty table with `hmax` buckets. -/
def ht_create (hmax : UInt32) : Hashtable κ ν :=
  { buckets := List.replicate hmax.toNat [], size := 0, hmax := hmax }

/-- `hash_function(key) % hmax` -/
def hash_index (ht : Hashtable κ ν) (key : κ) : Exec ℕ :=
  remainder (hash_function key).toNat ht.hmax.toNat

/-- The chain of bucket `i`. -/
def Hashtable.bucket (ht : Hashtable κ ν) (i : ℕ) : List (Info κ ν) := ht.buckets[i]?.getD []

def ht_has_key (ht : Hashtable κ ν) (key : κ) : Exec Bool := do
  let i ← hash_index hash_function ht key
  pure (KeyedList.find Info.key (ht.bucket i) key).isSome

/-- The value stored under the key, or NULL. -/
def ht_get (ht : Hashtable κ ν) (key : κ) : Exec (Option ν) := do
  if ← ht_has_key hash_function ht key then
    let i ← hash_index hash_function ht key
    pure ((KeyedList.find Info.key (ht.bucket i) key).map Info.value)
  else
    pure none

/-- Overwrite the value of the key in its chain, or put a new entry at the chain's head. -/
def ht_put (ht : Hashtable κ ν) (key : κ) (value : ν) : Exec (Hashtable κ ν) := do
  let i ← hash_index hash_function ht key
  if ← ht_has_key hash_function ht key then
    let chain := KeyedList.replace Info.key (ht.bucket i) ⟨key, value⟩
    pure { ht with buckets := ht.buckets.set i chain }
  else
    let chain := ll_add_nth_node (ht.bucket i) 0 ⟨key, value⟩
    pure { ht with buckets := ht.buckets.set i chain, size := ht.size + 1 }

/-- Take the first entry of the key out of its chain. -/
def ht_remove_entry (ht : Hashtable κ ν) (key : κ) : Exec (Hashtable κ ν) := do
  if ← ht_has_key hash_function ht key then
    let i ← hash_index hash_function ht key
    let node_nr := (ht.bucket i).findIdx (fun data_info => decide (data_info.key = key))
    let chain := (ll_remove_nth_node (ht.bucket i) node_nr).2
    pure { ht with buckets := ht.buckets.set i chain, size := ht.size - 1 }
  else
    pure ht

def ht_get_size (ht : Hashtable κ ν) : ℕ := ht.size

def ht_get_hmax (ht : Hashtable κ ν) : UInt32 := ht.hmax

end Operations

/-! ## §2. Well-formed tables and the map they hold. -/

namespace Hashtable

variable {κ ν : Type} (hash : κ → UInt32)

/-- The bucket of a key. -/
def index (ht : Hashtable κ ν) (key : κ) : ℕ := (hash key).toNat % ht.hmax.toNat

/-- The entries of all the chains, in the order of the buckets. -/
def entries (ht : Hashtable κ ν) : List (Info κ ν) := ht.buckets.flatten

/-- The finite map the table holds. -/
def lookup [DecidableEq κ] (ht : Hashtable κ ν) (key : κ) : Option ν :=
  (KeyedList.find Info.key (ht.bucket (ht.index hash key)) key).map Info.value

/-- A table as its operations leave it: there are `hmax > 0` buckets, every entry stands in the
bucket of its key, no chain holds a key twice, and `size` counts the entries. -/
structure WF (ht : Hashtable κ ν) : Prop where
  hmax_pos : 0 < ht.hmax.toNat
  length : ht.buckets.length = ht.hmax.toNat
  placed : ∀ i, ∀ e ∈ ht.bucket i, ht.index hash e.key = i
  nodup : ∀ i, ((ht.bucket i).map Info.key).Nodup
  size_eq : ht.size = ht.entries.length

variable {hash} {ht : Hashtable κ ν}

theorem WF.index_lt (wf : ht.WF hash) (key : κ) : ht.index hash key < ht.buckets.length :=
  wf.length ▸ Nat.mod_lt _ wf.hmax_pos

theorem WF.hash_index_eq (wf : ht.WF hash) (key : κ) :
    hash_index hash ht key = .ok (ht.index hash key) := remainder_of_pos wf.hmax_pos _

/-- In a table of at most `2 ^ 31` buckets the number of a bucket is in the range of an `int`. -/
theorem WF.hash_index_int (wf : ht.WF hash) (hint : ht.hmax.toNat ≤ 2 ^ 31) (key : κ) :
    ∃ i, hash_index hash ht key = .ok i ∧ i < 2 ^ 31 :=
  ⟨_, wf.hash_index_eq key, (Nat.mod_lt _ wf.hmax_pos).trans_le hint⟩

theorem bucket_eq_getElem {i : ℕ} (hi : i < ht.buckets.length) : ht.bucket i = ht.buckets[i] := by
  rw [bucket, List.getElem?_eq_getElem hi, Option.getD_some]

/-- **No key occurs twice in a well-formed table.** -/
theorem WF.nodup_entries (wf : ht.WF hash) : (ht.entries.map Info.key).Nodup := by
  rw [entries, List.map_flatten, List.nodup_flatten]
  constructor
  · intro keys hkeys
    obtain ⟨chain, hchain, rfl⟩ := List.mem_map.mp hkeys
    obtain ⟨i, hi, rfl⟩ := List.getElem_of_mem hchain
    exact bucket_eq_getElem hi ▸ wf.nodup i
  · rw [List.pairwise_map, List.pairwise_iff_getElem]
    intro i j hi hj hij key hkey hkey'
    obtain ⟨e, he, rfl⟩ := List.mem_map.mp hkey
    obtain ⟨e', he', hek⟩ := List.mem_map.mp hkey'
    rw [← bucket_eq_getElem hi] at he
    rw [← bucket_eq_getElem hj] at he'
    have := wf.placed i e he
    rw [← hek, wf.placed j e' he'] at this
    omega

/-! ### Rewriting one bucket. -/

/-- The table with another chain in bucket `i`. -/
def setBucket (ht : Hashtable κ ν) (i : ℕ) (chain : List (Info κ ν)) (size : ℕ) :
    Hashtable κ ν :=
  { ht with buckets := ht.buckets.set i chain, size := size }

theorem bucket_setBucket {i : ℕ} (hi : i < ht.buckets.length) (chain : List (Info κ ν))
    (size j : ℕ) : (ht.setBucket i chain size).bucket j = if i = j then chain else ht.bucket j := by
  unfold setBucket bucket
  rw [List.getElem?_set]
  split_ifs with hij <;> rfl

/-- Rewriting one chain changes the number of entries by what the chain changes. -/
theorem length_flatten_set {α : Type} (ls : List (List α)) (i : ℕ) (l : List α)
    (hi : i < ls.length) :
    (ls.set i l).flatten.length + ls[i].length = ls.flatten.length + l.length := by
  induction ls generalizing i with
  | nil => simp at hi
  | cons b ls ih =>
    cases i with
    | zero => simp; omega
    | succ i =>
      have := ih i (by simpa using hi)
      simp only [List.set_cons_succ, List.flatten_cons, List.length_append, List.getElem_cons_succ]
      omega

/-- A rewritten chain that stands in its bucket, holds no key twice and is counted keeps the
table well formed. -/
theorem WF.setBucket (wf : ht.WF hash) {i : ℕ} (hi : i < ht.buckets.length)
    {chain : List (Info κ ν)} {size : ℕ} (hplaced : ∀ e ∈ chain, ht.index hash e.key = i)
    (hnodup : (chain.map Info.key).Nodup)
    (hsize : size + (ht.bucket i).length = ht.size + chain.length) :
    (ht.setBucket i chain size).WF hash where
  hmax_pos := wf.hmax_pos
  length := by simpa [Hashtable.setBucket] using wf.length
  placed := by
    intro j e he
    rw [bucket_setBucket hi] at he
    split_ifs at he with hij
    · exact hij ▸ hplaced e he
    · exact wf.placed j e he
  nodup := by
    intro j
    rw [bucket_setBucket hi]
    split_ifs
    · exact hnodup
    · exact wf.nodup j
  size_eq := by
    have hflat := length_flatten_set ht.buckets i chain hi
    rw [← bucket_eq_getElem hi] at hflat
    have := wf.size_eq
    simp only [Hashtable.setBucket, entries] at this ⊢
    omega

theorem lookup_setBucket [DecidableEq κ] {i : ℕ} (hi : i < ht.buckets.length)
    (chain : List (Info κ ν)) (size : ℕ) (key : κ) :
    (ht.setBucket i chain size).lookup hash key
      = if ht.index hash key = i then (KeyedList.find Info.key chain key).map Info.value
        else ht.lookup hash key := by
  have hindex : (ht.setBucket i chain size).index hash key = ht.index hash key := rfl
  unfold lookup
  rw [hindex, bucket_setBucket hi]
  by_cases h : ht.index hash key = i
  · rw [if_pos h, if_pos h.symm]
  · rw [if_neg h, if_neg fun e => h e.symm]

/-- A chain that differs from its bucket in what it gives for one key changes the map there. -/
theorem lookup_setBucket_eq_update [DecidableEq κ] (key : κ)
    (hi : ht.index hash key < ht.buckets.length) {chain : List (Info κ ν)} (size : ℕ)
    {value : Option ν} (hkey : (KeyedList.find Info.key chain key).map Info.value = value)
    (hother : ∀ k, k ≠ key →
      KeyedList.find Info.key chain k
        = KeyedList.find Info.key (ht.bucket (ht.index hash key)) k) :
    (ht.setBucket (ht.index hash key) chain size).lookup hash
      = Function.update (ht.lookup hash) key value := by
  funext k
  rw [lookup_setBucket hi, Function.update_apply]
  by_cases hk : k = key
  · rw [hk, if_pos rfl, if_pos rfl, hkey]
  · rw [if_neg hk]
    by_cases hindex : ht.index hash k = ht.index hash key
    · rw [if_pos hindex, hother k hk]
      unfold lookup
      rw [hindex]
    · rw [if_neg hindex]

end Hashtable

/-! ## §3. The operations on well-formed tables. -/

section Correctness

variable {κ ν : Type} {hash : κ → UInt32} {ht : Hashtable κ ν}

theorem ht_create_wf {hmax : UInt32} (hpos : 0 < hmax.toNat) :
    (ht_create hmax : Hashtable κ ν).WF hash where
  hmax_pos := hpos
  length := List.length_replicate
  placed := by
    intro i e he
    simp only [ht_create, Hashtable.bucket, List.getElem?_replicate] at he
    split_ifs at he <;> simp at he
  nodup := by
    intro i
    simp only [ht_create, Hashtable.bucket, List.getElem?_replicate]
    split_ifs <;> simp
  size_eq := by simp [ht_create, Hashtable.entries]

variable [DecidableEq κ]

theorem lookup_ht_create (hmax : UInt32) (key : κ) :
    (ht_create hmax : Hashtable κ ν).lookup hash key = none := by
  simp only [Hashtable.lookup, Hashtable.bucket, ht_create, List.getElem?_replicate]
  split_ifs <;> simp

theorem ht_has_key_eq (wf : ht.WF hash) (key : κ) :
    ht_has_key hash ht key = .ok (ht.lookup hash key).isSome := by
  rw [ht_has_key, wf.hash_index_eq]
  simp [Hashtable.lookup, bind, Except.bind, pure, Except.pure]

theorem ht_get_eq (wf : ht.WF hash) (key : κ) :
    ht_get hash ht key = .ok (ht.lookup hash key) := by
  rw [ht_get, ht_has_key_eq wf, wf.hash_index_eq]
  cases h : ht.lookup hash key with
  | none => rfl
  | some v => exact congrArg Except.ok h

theorem lookup_isSome_iff (key : κ) :
    (ht.lookup hash key).isSome ↔ key ∈ (ht.bucket (ht.index hash key)).map Info.key := by
  rw [Hashtable.lookup, Option.isSome_map, KeyedList.find_isSome]

/-- **`ht_put` writes one key of the map.** -/
theorem ht_put_spec (wf : ht.WF hash) (key : κ) (value : ν) :
    ∃ ht', ht_put hash ht key value = .ok ht' ∧ ht'.WF hash ∧ ht'.hmax = ht.hmax ∧
      ht'.lookup hash = Function.update (ht.lookup hash) key (some value) ∧
      ht'.size = if (ht.lookup hash key).isSome then ht.size else ht.size + 1 := by
  have hi := wf.index_lt key
  have hmem : (ht.lookup hash key).isSome ↔ _ := lookup_isSome_iff key
  have hput : ht_put hash ht key value = .ok
      (if (ht.lookup hash key).isSome then
        ht.setBucket (ht.index hash key)
          (KeyedList.replace Info.key (ht.bucket (ht.index hash key)) ⟨key, value⟩) ht.size
      else ht.setBucket (ht.index hash key) (⟨key, value⟩ :: ht.bucket (ht.index hash key))
        (ht.size + 1)) := by
    rw [ht_put, wf.hash_index_eq, ht_has_key_eq wf]
    cases (ht.lookup hash key).isSome <;> rfl
  refine ⟨_, hput, ?_⟩
  by_cases hin : (ht.lookup hash key).isSome
  · -- the key is there: its entry is rewritten in place
    have hkey : key ∈ (ht.bucket (ht.index hash key)).map Info.key := hmem.mp hin
    rw [if_pos hin, if_pos hin]
    have hkeys := KeyedList.map_key_replace Info.key (ht.bucket (ht.index hash key)) ⟨key, value⟩
    refine ⟨wf.setBucket hi ?_ (hkeys ▸ wf.nodup _) ?_, rfl, ?_, rfl⟩
    · intro e he
      have : e.key ∈ (ht.bucket (ht.index hash key)).map Info.key :=
        hkeys ▸ List.mem_map_of_mem he
      obtain ⟨e', he', hek⟩ := List.mem_map.mp this
      exact hek ▸ wf.placed _ e' he'
    · have := congrArg List.length hkeys
      simp only [List.length_map] at this
      rw [this]
    · apply Hashtable.lookup_setBucket_eq_update key hi
      · rw [KeyedList.find_replace, if_pos ⟨rfl, hkey⟩]
        rfl
      · intro k hk
        rw [KeyedList.find_replace, if_neg fun e => hk e.1.symm]
  · -- the key is new: its entry goes to the front of the bucket
    have hkey : key ∉ (ht.bucket (ht.index hash key)).map Info.key := fun h => hin (hmem.mpr h)
    rw [if_neg hin, if_neg hin]
    refine ⟨wf.setBucket hi ?_ ?_ (by simp; omega), rfl, ?_, rfl⟩
    · intro e he
      rcases List.mem_cons.mp he with rfl | he
      · rfl
      · exact wf.placed _ e he
    · rw [List.map_cons, List.nodup_cons]
      exact ⟨hkey, wf.nodup _⟩
    · apply Hashtable.lookup_setBucket_eq_update key hi
      · rw [KeyedList.find_cons, if_pos rfl]
        rfl
      · intro k hk
        rw [KeyedList.find_cons, if_neg fun e => hk e.symm]

/-- Deleting at the index of the first match deletes the first match. -/
theorem eraseIdx_findIdx_eq_erase (chain : List (Info κ ν)) (key : κ)
    (hkey : key ∈ chain.map Info.key) :
    (ll_remove_nth_node chain (chain.findIdx (fun e => decide (e.key = key)))).2
      = KeyedList.erase Info.key chain key := by
  obtain ⟨e, he, hek⟩ := List.mem_map.mp hkey
  have hlt : chain.findIdx (fun e => decide (e.key = key)) < chain.length :=
    List.findIdx_lt_length_of_exists ⟨e, he, by simpa using hek⟩
  have hsome : chain.findIdx? (fun e => decide (e.key = key))
      = some (chain.findIdx (fun e => decide (e.key = key))) :=
    List.findIdx?_eq_some_of_exists ⟨e, he, by simpa using hek⟩
  rw [ll_remove_nth_node_of_lt hlt, KeyedList.erase, List.eraseP_eq_eraseIdx, hsome]

/-- **`ht_remove_entry` clears one key of the map.** -/
theorem ht_remove_entry_spec (wf : ht.WF hash) (key : κ) :
    ∃ ht', ht_remove_entry hash ht key = .ok ht' ∧ ht'.WF hash ∧ ht'.hmax = ht.hmax ∧
      ht'.lookup hash = Function.update (ht.lookup hash) key none ∧
      ht'.size = if (ht.lookup hash key).isSome then ht.size - 1 else ht.size := by
  have hi := wf.index_lt key
  have hmem : (ht.lookup hash key).isSome ↔ _ := lookup_isSome_iff key
  set i := ht.index hash key with hidef
  by_cases hin : (ht.lookup hash key).isSome
  · have hkey : key ∈ (ht.bucket i).map Info.key := hmem.mp hin
    have hremove : ht_remove_entry hash ht key
        = .ok (ht.setBucket i (KeyedList.erase Info.key (ht.bucket i) key) (ht.size - 1)) := by
      rw [ht_remove_entry, ht_has_key_eq wf, wf.hash_index_eq, hin]
      show Except.ok (ht.setBucket i (ll_remove_nth_node (ht.bucket i)
        ((ht.bucket i).findIdx (fun e => decide (e.key = key)))).2 (ht.size - 1)) = _
      rw [eraseIdx_findIdx_eq_erase _ _ hkey]
    have hsub := KeyedList.sublist_erase Info.key (ht.bucket i) key
    have hlen := KeyedList.length_erase hkey
    have hpos : 0 < (ht.bucket i).length := by
      simpa using List.length_pos_of_mem hkey
    have hsize : (ht.bucket i).length ≤ ht.size := by
      rw [wf.size_eq, Hashtable.entries, Hashtable.bucket_eq_getElem hi]
      exact List.Sublist.length_le (List.sublist_flatten_of_mem (List.getElem_mem hi))
    refine ⟨_, hremove, wf.setBucket hi ?_ (KeyedList.nodup_erase (wf.nodup i) key) ?_, rfl, ?_,
      (if_pos hin).symm⟩
    · intro e he
      exact wf.placed i e (hsub.subset he)
    · omega
    · apply Hashtable.lookup_setBucket_eq_update key hi
      · rw [KeyedList.find_erase (wf.nodup i), if_pos rfl]
        rfl
      · intro k hk
        rw [KeyedList.find_erase (wf.nodup i), if_neg fun e => hk e.symm]
  · -- the function returns at once when the key is missing
    refine ⟨ht, ?_, wf, rfl, ?_, (if_neg hin).symm⟩
    · rw [ht_remove_entry, ht_has_key_eq wf]
      simp only [Bool.not_eq_true] at hin
      rw [hin]
      rfl
    · rw [Option.not_isSome_iff_eq_none] at hin
      rw [← hin, Function.update_eq_self]

/-! ## §4. The entries of a well-formed table. -/

/-- An entry of the table is a pair of the map. -/
theorem mem_entries_iff (wf : ht.WF hash) (e : Info κ ν) :
    e ∈ ht.entries ↔ ht.lookup hash e.key = some e.value := by
  have hfind : ht.lookup hash e.key = some e.value ↔ e ∈ ht.bucket (ht.index hash e.key) := by
    rw [Hashtable.lookup, Option.map_eq_some_iff]
    constructor
    · rintro ⟨e', hf, hv⟩
      obtain ⟨hmem, hk⟩ := KeyedList.mem_of_find hf
      have : e' = e := by
        cases e'
        cases e
        exact congrArg₂ Info.mk hk hv
      exact this ▸ hmem
    · exact fun he => ⟨e, (KeyedList.find_eq_some (wf.nodup _)).mpr ⟨he, rfl⟩, rfl⟩
  rw [hfind, Hashtable.entries, List.mem_flatten]
  constructor
  · rintro ⟨chain, hchain, he⟩
    obtain ⟨i, hi, rfl⟩ := List.getElem_of_mem hchain
    rw [← Hashtable.bucket_eq_getElem hi] at he
    rwa [wf.placed i e he]
  · intro he
    have hlt := wf.index_lt e.key
    rw [Hashtable.bucket_eq_getElem hlt] at he
    exact ⟨_, List.getElem_mem hlt, he⟩

theorem lookup_of_mem_bucket (wf : ht.WF hash) {i : ℕ} {e : Info κ ν} (he : e ∈ ht.bucket i) :
    ht.lookup hash e.key = some e.value := by
  rw [Hashtable.lookup, wf.placed i e he, (KeyedList.find_eq_some (wf.nodup i)).mpr ⟨he, rfl⟩]
  rfl

/-- The entry of a key in the whole list of entries. -/
theorem find_entries_eq (wf : ht.WF hash) (key : κ) :
    KeyedList.find Info.key ht.entries key = (ht.lookup hash key).map (Info.mk key) := by
  apply Option.ext
  intro e
  rw [KeyedList.find_eq_some wf.nodup_entries, mem_entries_iff wf, Option.map_eq_some_iff]
  constructor
  · rintro ⟨h, rfl⟩
    exact ⟨e.value, h, rfl⟩
  · rintro ⟨v, h, rfl⟩
    exact ⟨h, rfl⟩

/-- The map reads the whole list of entries. -/
theorem lookup_eq_find_entries (wf : ht.WF hash) (key : κ) :
    ht.lookup hash key = (KeyedList.find Info.key ht.entries key).map Info.value := by
  rw [find_entries_eq wf, Option.map_map]
  exact Option.map_id'.symm

/-- **A table whose map is the disjoint union of two others** holds their entries together. -/
theorem entries_perm_append {ht₁ ht₂ : Hashtable κ ν} (wf : ht.WF hash) (wf₁ : ht₁.WF hash)
    (wf₂ : ht₂.WF hash) (hdisjoint : ∀ key, ht₁.lookup hash key = none ∨ ht₂.lookup hash key = none)
    (h : ∀ key, ht.lookup hash key = (ht₁.lookup hash key).or (ht₂.lookup hash key)) :
    ht.entries.Perm (ht₁.entries ++ ht₂.entries) := by
  have hnodup : ((ht₁.entries ++ ht₂.entries).map Info.key).Nodup := by
    rw [List.map_append, List.nodup_append]
    refine ⟨wf₁.nodup_entries, wf₂.nodup_entries, ?_⟩
    rintro key hkey key' hkey' rfl
    rw [← KeyedList.find_isSome, find_entries_eq wf₁, Option.isSome_map] at hkey
    rw [← KeyedList.find_isSome, find_entries_eq wf₂, Option.isSome_map] at hkey'
    rcases hdisjoint key with h' | h'
    · rw [h'] at hkey
      cases hkey
    · rw [h'] at hkey'
      cases hkey'
  apply KeyedList.perm_of_find_eq wf.nodup_entries hnodup
  intro key
  rw [KeyedList.find_append, find_entries_eq wf, find_entries_eq wf₁, find_entries_eq wf₂, h key]
  cases ht₁.lookup hash key <;> rfl

end Correctness

end DistDb
