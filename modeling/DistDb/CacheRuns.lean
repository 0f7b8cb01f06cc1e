/-
  DistDb.CacheRuns — any sequence of cache operations.

  The cache of `lru_cache.c` against a list of pairs kept from the least to the most recently used
  one: `lru_step` says, on the list alone, what each operation does and answers.

  Main results:
    * `apply_operation_refines` — one operation,
    * `cache_refines_lru_map` — any number of them, from an empty cache of any capacity on, with
      the agreement of the order list and the table in the state they lead to.
-/
import DistDb.LruCache
import DistDb.Lib.Run

namespace DistDb

open Lib Recency

/-! ## §1. The operations as commands. -/

/-- A call on the cache. -/
inductive CacheOperation
  | put (key value : CString)
  | get (key : CString)
  | remove (key : CString)
  deriving DecidableEq

/-- What a call gives back: `put` whether the key is new and which one was evicted, `get` the
value, NULL when there is none. -/
inductive CacheResult
  | put (is_new : Bool) (evicted_key : Option CString)
  | get (value : Option CString)
  | remove
  deriving DecidableEq

/-- The code's operation; `put` is given a place for the evicted key. -/
def apply_operation (cache : LruCache) : CacheOperation → Exec (LruCache × CacheResult)
  | .put key value => do
    let (cache, is_new, evicted_key) ← lru_cache_put cache key value true
    pure (cache, .put is_new evicted_key)
  | .get key => do
    let (cache, value) ← lru_cache_get cache key
    pure (cache, .get value)
  | .remove key => do
    let cache ← lru_cache_remove cache key
    pure (cache, .remove)

/-! ## §2. The reference. -/

/-- The operations on a list of at most `cap` pairs, least recently used first. -/
def lru_step (cap : ℕ) (l : List (CString × CString)) :
    CacheOperation → List (CString × CString) × CacheResult
  | .put key value =>
    if key ∈ keys l then (remove l key ++ [(key, value)], .put false none)
    else if l.length = cap then (l.tail ++ [(key, value)], .put true (keys l).head?)
    else (l ++ [(key, value)], .put true none)
  | .get key =>
    match l.find? fun e => decide (e.1 = key) with
    | some e => (remove l key ++ [(key, e.2)], .get (some e.2))
    | none => (l, .get none)
  | .remove key => (remove l key, .remove)

/-- On a list within its bound a `put` is `Recency.put`, and answers what `Recency.outcome` says. -/
theorem lru_step_put {cap : ℕ} (hcap : 0 < cap) {l : List (CString × CString)}
    (hl : l.length ≤ cap) (key value : CString) :
    lru_step cap l (.put key value)
      = (Recency.put cap l key value,
          .put (outcome cap l key).isNew (outcome cap l key).victim) := by
  by_cases hkey : key ∈ keys l
  · rw [lru_step, if_pos hkey, put_of_mem hkey, outcome_of_mem hkey]
    rfl
  · rw [lru_step, if_neg hkey]
    rcases Nat.lt_or_eq_of_le hl with hroom | hfull
    · rw [if_neg (Nat.ne_of_lt hroom), put_of_room hkey hroom, outcome_of_room hkey hroom]
      rfl
    · -- the head of the list is the victim
      rw [if_pos hfull]
      cases l with
      | nil => exact absurd hfull (Nat.ne_of_lt hcap)
      | cons e l =>
        rw [put_of_full hkey hfull, outcome_of_full hkey hfull]
        rfl

theorem lru_step_get_of_mem {cap : ℕ} {l : List (CString × CString)} (hl : (keys l).Nodup)
    {key value : CString} (hmem : (key, value) ∈ l) :
    lru_step cap l (.get key) = (Recency.put cap l key value, .get (some value)) := by
  have hfind : KeyedList.find Prod.fst l key = some (key, value) :=
    (KeyedList.find_eq_some hl).mpr ⟨hmem, rfl⟩
  have hkey : key ∈ keys l := List.mem_map_of_mem (f := Prod.fst) hmem
  rw [KeyedList.find] at hfind
  rw [lru_step, hfind, put_of_mem hkey]

theorem lru_step_get_of_notMem {cap : ℕ} {l : List (CString × CString)} {key : CString}
    (hkey : key ∉ keys l) : lru_step cap l (.get key) = (l, .get none) := by
  have hfind : KeyedList.find Prod.fst l key = none := KeyedList.find_eq_none.mpr hkey
  rw [KeyedList.find] at hfind
  rw [lru_step, hfind]

/-! ## §3. The two structures. -/

/-- The order list and the table hold the same distinct keys; the records of the order list are
distinct, and the table's word for a key is the address of the record of that key's node. -/
structure LruCache.Agrees (cache : LruCache) : Prop where
  keys_nodup : (cache.order.map InfoNode.key).Nodup
  keys_perm : (cache.ht.entries.map Info.key).Perm (cache.order.map InfoNode.key)
  data_nodup : (cache.order.map InfoNode.data).Nodup
  lookup_iff : ∀ key data, cache.ht.lookup hash_string key = some data ↔
    ∃ node ∈ cache.order, node.key = key ∧ node.data = data

theorem LruCache.WF.agrees {cache : LruCache} (wf : cache.WF) : cache.Agrees where
  keys_nodup := wf.keys_nodup
  keys_perm := by
    -- both lists of keys have no duplicates, so membership decides
    apply (List.perm_ext_iff_of_nodup wf.ht_wf.nodup_entries wf.keys_nodup).mpr
    intro key
    rw [← keys_entries, ← wf.isSome_lookup, lookup_eq_find_entries wf.ht_wf,
      Option.isSome_map, KeyedList.find_isSome]
  data_nodup := wf.data_nodup
  lookup_iff := by
    intro key data
    rw [wf.image, Option.map_eq_some_iff]
    constructor
    · rintro ⟨node, hnode, hdata⟩
      obtain ⟨hmem, hkey⟩ := KeyedList.mem_of_find hnode
      exact ⟨node, hmem, hkey, hdata⟩
    · rintro ⟨node, hmem, hkey, hdata⟩
      exact ⟨node, (KeyedList.find_eq_some wf.keys_nodup).mpr ⟨hmem, hkey⟩, hdata⟩

/-! ## §4. The code against the reference. -/

/-- `lru_cache_get` of a key that is not cached answers NULL and changes nothing. -/
theorem lru_cache_get_of_notMem {cache : LruCache} (wf : cache.WF) {key : CString}
    (hkey : key ∉ keys cache.entries) : lru_cache_get cache key = .ok (cache, none) := by
  rw [lru_cache_get, ht_has_key_eq wf.ht_wf, lookup_isSome_eq_false wf hkey]
  rfl

/-- A well-formed cache of capacity `cap` that shows the list. -/
def CacheShows (cap : ℕ) (cache : LruCache) (l : List (CString × CString)) : Prop :=
  cache.WF ∧ cache.capacity = cap ∧ cache.entries = l

/-- **One operation**: it returns what the list says, and leaves the cache with the list's pairs. -/
theorem apply_operation_refines {cap : ℕ} (cache : LruCache) (l : List (CString × CString))
    (operation : CacheOperation) (h : CacheShows cap cache l) :
    ∃ cache', apply_operation cache operation = .ok (cache', (lru_step cap l operation).2) ∧
      CacheShows cap cache' (lru_step cap l operation).1 := by
  obtain ⟨wf, rfl, rfl⟩ := h
  cases operation with
  | put key value =>
    obtain ⟨cache', hput, wf', hentries, hmax⟩ := lru_cache_put_spec wf key value
    have hpos : 0 < cache.capacity := wf.ht_wf.hmax_pos
    rw [lru_step_put hpos wf.entries_length_le]
    refine ⟨cache', ?_, wf', congrArg UInt32.toNat hmax, hentries⟩
    rw [apply_operation, hput]
    rfl
  | get key =>
    by_cases hkey : key ∈ keys cache.entries
    · -- a hit refreshes the key
      obtain ⟨⟨_, value⟩, hmem, rfl⟩ := List.mem_map.mp hkey
      obtain ⟨cache', hget, wf', hentries, hmax⟩ := lru_cache_get_spec wf hmem
      have hnodup : (keys cache.entries).Nodup := cache.keys_entries ▸ wf.keys_nodup
      rw [lru_step_get_of_mem hnodup hmem]
      refine ⟨cache', ?_, wf', congrArg UInt32.toNat hmax, hentries⟩
      rw [apply_operation, hget]
      rfl
    · rw [lru_step_get_of_notMem hkey]
      refine ⟨cache, ?_, wf, rfl, rfl⟩
      rw [apply_operation, lru_cache_get_of_notMem wf hkey]
      rfl
  | remove key =>
    obtain ⟨cache', hremove, wf', hentries, hmax⟩ := lru_cache_remove_spec wf key
    refine ⟨cache', ?_, wf', congrArg UInt32.toNat hmax, hentries⟩
    rw [apply_operation, hremove]
    rfl

/-- **The cache is an exact LRU map**: from an empty cache of any capacity on, every sequence of
operations returns, answers what the list of pairs answers, and leads to a cache that holds those
pairs, no more than fit, with its order list and its table in agreement. -/
theorem cache_refines_lru_map {cache_capacity : UInt32} (hpos : 1 ≤ cache_capacity) :
    ∃ cache, init_lru_cache cache_capacity = some cache ∧
      ∀ operations, ∃ cache',
        Run.run apply_operation cache operations
          = .ok (cache', (Run.total (lru_step cache_capacity.toNat) [] operations).2) ∧
        cache'.entries = (Run.total (lru_step cache_capacity.toNat) [] operations).1 ∧
        cache'.entries.length ≤ cache_capacity.toNat ∧ cache'.Agrees := by
  have hne : cache_capacity ≠ 0 := by
    rintro rfl
    exact absurd hpos (by decide)
  obtain ⟨cache, hinit, wf, hentries, hcap⟩ := init_lru_cache_spec hne
  refine ⟨cache, hinit, ?_⟩
  intro operations
  obtain ⟨cache', hrun, wf', hcap', hentries'⟩ :=
    Run.run_refines apply_operation_refines ⟨wf, hcap, hentries⟩ operations
  exact ⟨cache', hrun, hentries', hcap' ▸ wf'.entries_length_le, wf'.agrees⟩

/-- The read of the older of two keys saves it from the third one. -/
theorem cache_refines_lru_map_three_keys :
    ∃ cache, init_lru_cache 2 = some cache ∧ ∃ cache',
      Run.run apply_operation cache [.put (.ofString "a") (.ofString "x"),
          .put (.ofString "b") (.ofString "y"), .get (.ofString "a"),
          .put (.ofString "c") (.ofString "z"), .get (.ofString "b")]
        = .ok (cache', [.put true none, .put true none, .get (some (.ofString "x")),
            .put true (some (.ofString "b")), .get none]) ∧
      cache'.entries
        = [(.ofString "a", .ofString "x"), (.ofString "c", .ofString "z")] := by
  obtain ⟨cache, hinit, hrefines⟩ := cache_refines_lru_map (show (1 : UInt32) ≤ 2 by decide)
  obtain ⟨cache', hrun, hentries, -⟩ := hrefines [.put (.ofString "a") (.ofString "x"),
    .put (.ofString "b") (.ofString "y"), .get (.ofString "a"),
    .put (.ofString "c") (.ofString "z"), .get (.ofString "b")]
  refine ⟨cache, hinit, cache', hrun.trans ?_, hentries.trans (by decide +kernel)⟩
  apply congrArg fun results => Except.ok (cache', results)
  decide +kernel

end DistDb
