/-
  DistDb.LruCache — the cache of `lru_cache.c`.

  A cache keeps its pairs twice: in the order list, from the least to the most recently used one,
  and in a hash table, whose value for a key is the first word of the key's order node, copied
  byte by byte.  That word is the address of the node's `info_t` record, so moving a node to the
  end of the list, which releases its record and allocates a new one, leaves the table with a
  dangling address until it is refreshed.

  `LruCache.WF` ties the two structures together.  On a well-formed cache every operation returns,
  reads no released record, and acts on `LruCache.entries` as the LRU list of `Lib.Recency`:
  `lru_cache_put_spec`, `lru_cache_get_spec`, `lru_cache_remove_spec`.
-/
import DistDb.Lib.Recency
import DistDb.Add.Hashtable

namespace DistDb

open Lib

/-- `lru_cache`: the order list and the table of the addresses of its records.  `malloc` is the
next address the allocator returns. -/
structure LruCache where
  order : List (InfoNode CString CString)
  ht : Hashtable CString ℕ
  malloc : ℕ
  deriving DecidableEq

/-! ## §1. The operations. -/

/-- NULL for the capacity zero. -/
def init_lru_cache (cache_capacity : UInt32) : Option LruCache :=
  if cache_capacity = 0 then none
  else some { order := [], ht := ht_create cache_capacity, malloc := 0 }

def lru_cache_is_full (cache : LruCache) : Bool := cache.ht.hmax.toNat == cache.ht.size

/-- Write a pair and make it the most recently used one.  The result says whether the key is new
and which key was evicted; `evicted_key` says whether the caller passes a pointer for the latter. -/
def lru_cache_put (cache : LruCache) (key value : CString) (evicted_key : Bool) :
    Exec (LruCache × Bool × Option CString) := do
  if ← ht_has_key hash_string cache.ht key then
    match move_node_to_end cache.order key cache.malloc with
    | (none, _) => throw .nullPointer
    | (some node, order) =>
      let order := KeyedList.replace InfoNode.data order ⟨node.data, ⟨node.info.key, value⟩⟩
      let ht ← ht_put hash_string cache.ht key node.data
      pure ({ order := order, ht := ht, malloc := cache.malloc + 1 }, false, none)
  else
    let (order, ht, evicted) ←
      if lru_cache_is_full cache then
        match ll_remove_nth_node cache.order 0 with
        | (none, _) => throw .nullPointer
        | (some node, order) =>
          if evicted_key then do
            let ht ← ht_remove_entry hash_string cache.ht node.info.key
            pure (order, ht, some node.info.key)
          else throw .nullPointer
      else pure (cache.order, cache.ht, none)
    match ll_add_nth_node_info order order.length ⟨key, value⟩ cache.malloc with
    | (none, _) => throw .nullPointer
    | (some node, order) =>
      let ht ← ht_put hash_string ht key node.data
      pure ({ order := order, ht := ht, malloc := cache.malloc + 1 }, true, evicted)

/-- The value of the key, which becomes the most recently used one; NULL when it is absent. -/
def lru_cache_get (cache : LruCache) (key : CString) : Exec (LruCache × Option CString) := do
  if ← ht_has_key hash_string cache.ht key then
    match ← ht_get hash_string cache.ht key with
    | none => throw .nullPointer
    | some data =>
      -- the copied word is only good while the record it points to is alive
      match KeyedList.find InfoNode.data cache.order data with
      | none => throw .danglingPointer
      | some node =>
        match move_node_to_end cache.order key cache.malloc with
        | (none, _) => throw .nullPointer
        | (some new_node, order) =>
          let ht ← ht_remove_entry hash_string cache.ht key
          let ht ← ht_put hash_string ht key new_node.data
          pure ({ order := order, ht := ht, malloc := cache.malloc + 1 }, some node.info.value)
  else pure (cache, none)

/-- Drop the pair of the key. -/
def lru_cache_remove (cache : LruCache) (key : CString) : Exec LruCache := do
  if ← ht_has_key hash_string cache.ht key then
    match ll_get_node cache.order key with
    | none => throw .nullPointer
    | some node =>
      let order := ll_remove_node cache.order node
      let ht ← ht_remove_entry hash_string cache.ht key
      pure { cache with order := order, ht := ht }
  else pure cache

/-! ## §2. Well-formed caches. -/

namespace LruCache

/-- The pairs of the cache, from the least to the most recently used one. -/
def entries (cache : LruCache) : List (CString × CString) := cache.order.map InfoNode.pair

/-- The number of pairs the cache can hold. -/
def capacity (cache : LruCache) : ℕ := cache.ht.hmax.toNat

/-- The order list and the table agree: they hold the same distinct keys, the table's word for a
key is the address of the live record of that key, and there are at most `capacity` of them. -/
structure WF (cache : LruCache) : Prop where
  ht_wf : cache.ht.WF hash_string
  keys_nodup : (cache.order.map InfoNode.key).Nodup
  data_nodup : (cache.order.map InfoNode.data).Nodup
  data_lt : ∀ node ∈ cache.order, node.data < cache.malloc
  image : ∀ k, cache.ht.lookup hash_string k
    = (KeyedList.find InfoNode.key cache.order k).map InfoNode.data
  size_eq : cache.ht.size = cache.order.length
  size_le : cache.order.length ≤ cache.capacity

variable {cache : LruCache}

theorem keys_entries (cache : LruCache) :
    Recency.keys cache.entries = cache.order.map InfoNode.key := by
  simp only [Recency.keys, entries, List.map_map]
  rfl

theorem length_entries (cache : LruCache) : cache.entries.length = cache.order.length :=
  List.length_map _

theorem WF.entries_length_le (wf : cache.WF) : cache.entries.length ≤ cache.capacity :=
  length_entries cache ▸ wf.size_le

theorem WF.isSome_lookup (wf : cache.WF) (key : CString) :
    (cache.ht.lookup hash_string key).isSome ↔ key ∈ Recency.keys cache.entries := by
  rw [wf.image, Option.isSome_map, KeyedList.find_isSome, keys_entries]

theorem WF.is_full_iff (wf : cache.WF) :
    lru_cache_is_full cache = true ↔ cache.entries.length = cache.capacity := by
  rw [lru_cache_is_full, beq_iff_eq, wf.size_eq, length_entries, capacity]
  exact eq_comm

/-- Dropping the first node of a key drops its pair. -/
theorem map_pair_erase {order : List (InfoNode CString CString)}
    (h : (order.map InfoNode.key).Nodup) (key : CString) :
    (KeyedList.erase InfoNode.key order key).map InfoNode.pair
      = Recency.remove (order.map InfoNode.pair) key := by
  rw [KeyedList.erase_eq_filter h, Recency.remove, List.filter_map]
  rfl

/-- A new pair at the end of a part of the order list keeps the cache well formed, when the table
holds the address of its record and what the order list says about the other keys. -/
theorem WF.append (wf : cache.WF) {order : List (InfoNode CString CString)}
    {ht : Hashtable CString ℕ} {key : CString} (value : CString)
    (hsub : order.Sublist cache.order) (hnew : key ∉ order.map InfoNode.key)
    (ht_wf : ht.WF hash_string)
    (himage : ∀ k, ht.lookup hash_string k = if k = key then some cache.malloc
      else (KeyedList.find InfoNode.key order k).map InfoNode.data)
    (hsize : ht.size = order.length + 1) (hroom : order.length + 1 ≤ ht.hmax.toNat) :
    WF { order := order ++ [⟨cache.malloc, ⟨key, value⟩⟩], ht := ht,
         malloc := cache.malloc + 1 } where
  ht_wf := ht_wf
  keys_nodup := by
    rw [List.map_append, List.map_singleton, ← List.concat_eq_append]
    exact (wf.keys_nodup.sublist (hsub.map _)).concat hnew
  data_nodup := by
    rw [List.map_append, List.map_singleton, ← List.concat_eq_append]
    apply (wf.data_nodup.sublist (hsub.map _)).concat
    intro h
    obtain ⟨node, hnode, heq⟩ := List.mem_map.mp h
    exact Nat.ne_of_lt (wf.data_lt node (hsub.subset hnode)) heq
  data_lt := by
    intro node hnode
    rcases List.mem_append.mp hnode with h | h
    · exact Nat.lt_succ_of_lt (wf.data_lt node (hsub.subset h))
    · rw [List.mem_singleton.mp h]
      exact Nat.lt_succ_self _
  image := by
    intro k
    rw [himage, KeyedList.find_append, KeyedList.find_cons, KeyedList.find_nil]
    by_cases hk : k = key
    · -- `key` is new in `order`, so the search reaches the node at the end
      subst hk
      rw [if_pos rfl, KeyedList.find_eq_none.mpr hnew]
      simp [InfoNode.key]
    · rw [if_neg hk, if_neg (show InfoNode.key ⟨cache.malloc, ⟨key, value⟩⟩ ≠ k from
        fun e => hk e.symm), Option.or_none]
  size_eq := by simp [hsize]
  size_le := by simpa [capacity] using hroom

end LruCache

/-! ## §3. The operations on well-formed caches. -/

section Correctness

variable {cache : LruCache}

theorem init_lru_cache_spec {cache_capacity : UInt32} (hpos : cache_capacity ≠ 0) :
    ∃ cache, init_lru_cache cache_capacity = some cache ∧ cache.WF ∧ cache.entries = [] ∧
      cache.capacity = cache_capacity.toNat := by
  have hpos' : 0 < cache_capacity.toNat :=
    Nat.pos_of_ne_zero fun h => hpos (UInt32.toNat_inj.mp h)
  refine ⟨_, if_neg hpos, ⟨ht_create_wf hpos', List.nodup_nil, List.nodup_nil, by simp,
    ?_, rfl, Nat.zero_le _⟩, rfl, rfl⟩
  intro k
  rw [lookup_ht_create]
  rfl

/-- The key of a cached pair has an order node. -/
theorem exists_node {key : CString} (hkey : key ∈ Recency.keys cache.entries) :
    ∃ node, KeyedList.find InfoNode.key cache.order key = some node ∧ node.info.key = key := by
  rw [LruCache.keys_entries, ← KeyedList.find_isSome] at hkey
  obtain ⟨node, hnode⟩ := Option.isSome_iff_exists.mp hkey
  exact ⟨node, hnode, (KeyedList.mem_of_find hnode).2⟩

/-- Moving a node to the end: the shape of the cache after `lru_cache_put` of a present key and
after `lru_cache_get`. -/
theorem moved_spec (wf : cache.WF) {key : CString} (hkey : key ∈ Recency.keys cache.entries)
    {ht : Hashtable CString ℕ} (value : CString) (ht_wf : ht.WF hash_string)
    (hmax : ht.hmax = cache.ht.hmax)
    (hlookup : ht.lookup hash_string
      = Function.update (cache.ht.lookup hash_string) key (some cache.malloc))
    (hsize : ht.size = cache.ht.size) (cache' : LruCache)
    (hcache' : cache' = { order := KeyedList.erase InfoNode.key cache.order key
                            ++ [⟨cache.malloc, ⟨key, value⟩⟩],
                          ht := ht, malloc := cache.malloc + 1 }) :
    cache'.WF ∧ cache'.entries = Recency.put cache.capacity cache.entries key value ∧
      cache'.ht.hmax = cache.ht.hmax := by
  subst hcache'
  have hmem : key ∈ cache.order.map InfoNode.key := LruCache.keys_entries cache ▸ hkey
  have hlen := KeyedList.length_erase hmem
  have hpos : 0 < cache.order.length := by simpa using List.length_pos_of_mem hmem
  have hsize_le := wf.size_le
  refine ⟨wf.append value (KeyedList.sublist_erase _ _ _) ?_ ht_wf ?_ ?_ ?_, ?_, hmax⟩
  · rw [← KeyedList.find_eq_none, KeyedList.find_erase wf.keys_nodup, if_pos rfl]
  · intro k
    rw [hlookup, Function.update_apply]
    by_cases hk : k = key
    · rw [if_pos hk, if_pos hk]
    · rw [if_neg hk, if_neg hk, KeyedList.find_erase wf.keys_nodup,
        if_neg fun e => hk e.symm, wf.image]
  · rw [hsize, wf.size_eq, hlen]
    omega
  · rw [hlen, hmax]
    simp only [LruCache.capacity] at hsize_le
    omega
  · rw [Recency.put_of_mem hkey]
    simp only [LruCache.entries, List.map_append, List.map_cons, List.map_nil]
    rw [LruCache.map_pair_erase wf.keys_nodup]
    rfl

/-- A `put` of a present key moves its node to the end and gives it the new value. -/
theorem lru_cache_put_of_mem (wf : cache.WF) {key : CString}
    (hkey : key ∈ Recency.keys cache.entries) (value : CString) (evicted_key : Bool) :
    ∃ cache', lru_cache_put cache key value evicted_key = .ok (cache', false, none) ∧
      cache'.WF ∧ cache'.entries = Recency.put cache.capacity cache.entries key value ∧
      cache'.ht.hmax = cache.ht.hmax := by
  obtain ⟨ht, hht, ht_wf, hmax, hlookup, hsize⟩ := ht_put_spec wf.ht_wf key cache.malloc
  have hin := (wf.isSome_lookup key).mpr hkey
  obtain ⟨node, hnode, hnkey⟩ := exists_node hkey
  have hfresh : cache.malloc ∉ (KeyedList.erase InfoNode.key cache.order key).map
      InfoNode.data := by
    intro h
    obtain ⟨n, hn, heq⟩ := List.mem_map.mp h
    exact Nat.ne_of_lt (wf.data_lt n ((KeyedList.sublist_erase _ _ _).subset hn)) heq
  have hvalue : KeyedList.replace InfoNode.data
        (KeyedList.erase InfoNode.key cache.order key ++ [⟨cache.malloc, node.info⟩])
        ⟨cache.malloc, ⟨key, value⟩⟩
      = KeyedList.erase InfoNode.key cache.order key ++ [⟨cache.malloc, ⟨key, value⟩⟩] := by
    rw [KeyedList.replace_append _ _ _ hfresh]
    simp [KeyedList.replace]
  rw [if_pos hin] at hsize
  refine ⟨_, ?_, moved_spec wf hkey value ht_wf hmax hlookup hsize _ rfl⟩
  rw [lru_cache_put, ht_has_key_eq wf.ht_wf, hin]
  simp only [ok_bind, if_true, move_node_to_end_of_find hnode, hnkey, hht, hvalue, pure_eq_ok]

theorem lookup_isSome_eq_false (wf : cache.WF) {key : CString}
    (hkey : key ∉ Recency.keys cache.entries) :
    (cache.ht.lookup hash_string key).isSome = false := by
  rw [Bool.eq_false_iff]
  exact fun h => hkey ((wf.isSome_lookup key).mp h)

/-- A `put` of a new key appends its node while there is room. -/
theorem lru_cache_put_of_room (wf : cache.WF) {key : CString}
    (hkey : key ∉ Recency.keys cache.entries) (hroom : cache.entries.length < cache.capacity)
    (value : CString) (evicted_key : Bool) :
    ∃ cache', lru_cache_put cache key value evicted_key = .ok (cache', true, none) ∧
      cache'.WF ∧ cache'.entries = Recency.put cache.capacity cache.entries key value ∧
      cache'.ht.hmax = cache.ht.hmax := by
  obtain ⟨ht, hht, ht_wf, hmax, hlookup, hsize⟩ := ht_put_spec wf.ht_wf key cache.malloc
  have hout := lookup_isSome_eq_false wf hkey
  have hnew : key ∉ cache.order.map InfoNode.key := LruCache.keys_entries cache ▸ hkey
  have hfull : lru_cache_is_full cache = false := by
    rw [Bool.eq_false_iff]
    exact fun h => Nat.ne_of_lt hroom (wf.is_full_iff.mp h)
  rw [hout] at hsize
  refine ⟨{ order := cache.order ++ [⟨cache.malloc, ⟨key, value⟩⟩], ht := ht,
            malloc := cache.malloc + 1 }, ?_,
    wf.append value (List.Sublist.refl _) hnew ht_wf ?_ ?_ ?_, ?_, hmax⟩
  · rw [lru_cache_put, ht_has_key_eq wf.ht_wf, hout, hfull]
    simp [ll_add_nth_node_info_length, hht]
  · intro k
    rw [hlookup, Function.update_apply, wf.image]
  · rw [hsize, wf.size_eq]
    rfl
  · rw [hmax, ← LruCache.length_entries]
    exact hroom
  · rw [Recency.put_of_room hkey hroom]
    simp [LruCache.entries, InfoNode.pair]

/-- The table once the key at the head of the order list is out and a new key is in. -/
theorem evict_spec (wf : cache.WF) {node : InfoNode CString CString}
    {order : List (InfoNode CString CString)} (horder : cache.order = node :: order)
    {key : CString} (hkey : key ∉ Recency.keys cache.entries) :
    ∃ ht ht', ht_remove_entry hash_string cache.ht node.info.key = .ok ht ∧
      ht_put hash_string ht key cache.malloc = .ok ht' ∧ ht'.WF hash_string ∧
      ht'.hmax = cache.ht.hmax ∧ ht'.size = order.length + 1 ∧
      ∀ k, ht'.lookup hash_string k = if k = key then some cache.malloc
        else (KeyedList.find InfoNode.key order k).map InfoNode.data := by
  obtain ⟨ht, hht, ht_wf, hmax, hlookup, hsize⟩ := ht_remove_entry_spec wf.ht_wf node.info.key
  obtain ⟨ht', hht', ht'_wf, hmax', hlookup', hsize'⟩ := ht_put_spec ht_wf key cache.malloc
  have hnodup := wf.keys_nodup
  rw [horder, List.map_cons, List.nodup_cons] at hnodup
  have hnode_in : (cache.ht.lookup hash_string node.info.key).isSome := by
    rw [wf.isSome_lookup, LruCache.keys_entries, horder, List.map_cons]
    exact List.mem_cons_self
  have hne : key ≠ node.info.key := by
    rintro rfl
    exact hkey ((wf.isSome_lookup _).mp hnode_in)
  have hkey_out : (ht.lookup hash_string key).isSome = false := by
    rw [hlookup, Function.update_of_ne hne, lookup_isSome_eq_false wf hkey]
  have hht_size : cache.ht.size = order.length + 1 := by
    rw [wf.size_eq, horder, List.length_cons]
  rw [if_pos hnode_in, hht_size] at hsize
  rw [hkey_out, hsize] at hsize'
  refine ⟨ht, ht', hht, hht', ht'_wf, hmax'.trans hmax, hsize', ?_⟩
  intro k
  rw [hlookup', Function.update_apply, hlookup, Function.update_apply, wf.image, horder,
    KeyedList.find_cons]
  by_cases hk : k = key
  · rw [if_pos hk, if_pos hk]
  · rw [if_neg hk, if_neg hk]
    by_cases hkn : k = node.info.key
    · -- the evicted key is nowhere else in the order list
      have hnone := KeyedList.find_eq_none.mpr hnodup.1
      rw [if_pos hkn, hkn]
      exact (congrArg (Option.map InfoNode.data) hnone).symm
    · rw [if_neg hkn, if_neg (show node.key ≠ k from fun e => hkn e.symm)]

/-- A `put` of a new key into a full cache evicts the node at the head first. -/
theorem lru_cache_put_of_full (wf : cache.WF) {key : CString}
    (hkey : key ∉ Recency.keys cache.entries) (hfull : cache.entries.length = cache.capacity)
    (value : CString) :
    ∃ cache' victim, lru_cache_put cache key value true = .ok (cache', true, some victim) ∧
      Recency.outcome cache.capacity cache.entries key = .evict victim ∧
      cache'.WF ∧ cache'.entries = Recency.put cache.capacity cache.entries key value ∧
      cache'.ht.hmax = cache.ht.hmax := by
  have hout := lookup_isSome_eq_false wf hkey
  have hnew : key ∉ cache.order.map InfoNode.key := LruCache.keys_entries cache ▸ hkey
  have hlen := LruCache.length_entries cache
  have hcap : 0 < cache.capacity := wf.ht_wf.hmax_pos
  cases horder : cache.order with
  | nil =>
    -- a full cache holds a pair
    rw [horder, hfull] at hlen
    exact absurd hlen (Nat.ne_of_gt hcap)
  | cons node order =>
    obtain ⟨ht, ht', hht, hht', ht'_wf, hmax, hsize, himage⟩ := evict_spec wf horder hkey
    have hentries : cache.entries = node.pair :: order.map InfoNode.pair := by
      rw [LruCache.entries, horder, List.map_cons]
    have hsub : order.Sublist cache.order := horder ▸ List.sublist_cons_self _ _
    have hroom : order.length + 1 ≤ ht'.hmax.toNat := by
      rw [horder, List.length_cons, hfull] at hlen
      rw [hmax, ← hlen]
      exact Nat.le_refl _
    rw [horder, List.map_cons, List.mem_cons, not_or] at hnew
    refine ⟨{ order := order ++ [⟨cache.malloc, ⟨key, value⟩⟩], ht := ht',
              malloc := cache.malloc + 1 }, node.info.key, ?_, ?_,
      wf.append value hsub hnew.2 ht'_wf himage hsize hroom, ?_, hmax⟩
    · rw [lru_cache_put, ht_has_key_eq wf.ht_wf, hout, wf.is_full_iff.mpr hfull]
      simp [horder, ll_remove_nth_node, hht, hht', ll_add_nth_node_info_length]
    · rw [hentries] at hkey hfull ⊢
      exact Recency.outcome_of_full hkey hfull
    · rw [hentries] at hkey hfull ⊢
      rw [Recency.put_of_full hkey hfull]
      simp [LruCache.entries, InfoNode.pair]

/-- **`lru_cache_put` is `Recency.put`.** -/
theorem lru_cache_put_spec (wf : cache.WF) (key value : CString) :
    ∃ cache', lru_cache_put cache key value true
        = .ok (cache', (Recency.outcome cache.capacity cache.entries key).isNew,
            (Recency.outcome cache.capacity cache.entries key).victim) ∧
      cache'.WF ∧ cache'.entries = Recency.put cache.capacity cache.entries key value ∧
      cache'.ht.hmax = cache.ht.hmax := by
  by_cases hkey : key ∈ Recency.keys cache.entries
  · rw [Recency.outcome_of_mem hkey]
    exact lru_cache_put_of_mem wf hkey value true
  · rcases Nat.lt_or_eq_of_le wf.entries_length_le with hroom | hfull
    · rw [Recency.outcome_of_room hkey hroom]
      exact lru_cache_put_of_room wf hkey hroom value true
    · obtain ⟨cache', victim, hput, hout, hspec⟩ := lru_cache_put_of_full wf hkey hfull value
      rw [hout]
      exact ⟨cache', hput, hspec⟩

/-- **`lru_cache_get` reads the value and makes the key the most recently used one.**  The record
that the table's word points to is alive. -/
theorem lru_cache_get_spec (wf : cache.WF) {key value : CString}
    (hmem : (key, value) ∈ cache.entries) :
    ∃ cache', lru_cache_get cache key = .ok (cache', some value) ∧ cache'.WF ∧
      cache'.entries = Recency.put cache.capacity cache.entries key value ∧
      cache'.ht.hmax = cache.ht.hmax := by
  have hkey : key ∈ Recency.keys cache.entries := List.mem_map_of_mem (f := Prod.fst) hmem
  have hin := (wf.isSome_lookup key).mpr hkey
  obtain ⟨node, hnode_mem, hpair⟩ := List.mem_map.mp hmem
  have hnkey : node.info.key = key := congrArg Prod.fst hpair
  have hnvalue : node.info.value = value := congrArg Prod.snd hpair
  have hnode : KeyedList.find InfoNode.key cache.order key = some node :=
    (KeyedList.find_eq_some wf.keys_nodup).mpr ⟨hnode_mem, hnkey⟩
  have halive : KeyedList.find InfoNode.data cache.order node.data = some node :=
    (KeyedList.find_eq_some wf.data_nodup).mpr ⟨hnode_mem, rfl⟩
  have himage : cache.ht.lookup hash_string key = some node.data := by
    rw [wf.image, hnode]
    rfl
  obtain ⟨ht, hht, ht_wf, hmax, hlookup, hsize⟩ := ht_remove_entry_spec wf.ht_wf key
  obtain ⟨ht', hht', ht'_wf, hmax', hlookup', hsize'⟩ := ht_put_spec ht_wf key cache.malloc
  have hkey_out : (ht.lookup hash_string key).isSome = false := by
    rw [hlookup, Function.update_self]
    rfl
  have hpos : 0 < cache.ht.size := by
    rw [wf.size_eq]
    exact List.length_pos_of_mem hnode_mem
  -- the key goes out of the table and comes back in with the new address
  rw [if_pos hin] at hsize
  rw [hkey_out] at hsize'
  have hsize'' : ht'.size = cache.ht.size := by
    rw [hsize', hsize]
    simp
    omega
  have hlookup'' : ht'.lookup hash_string
      = Function.update (cache.ht.lookup hash_string) key (some cache.malloc) := by
    rw [hlookup', hlookup, Function.update_idem]
  refine ⟨_, ?_, moved_spec wf hkey value ht'_wf (hmax'.trans hmax) hlookup'' hsize'' _ rfl⟩
  have hinfo : node.info = ⟨key, value⟩ := by rw [← hnkey, ← hnvalue]
  rw [lru_cache_get, ht_has_key_eq wf.ht_wf, hin, ht_get_eq wf.ht_wf, himage]
  simp only [ok_bind, if_true, halive, move_node_to_end_of_find hnode, hht, hht', hinfo,
    pure_eq_ok]

/-- Unlinking by address and by key is the same: both name this one node. -/
theorem ll_remove_node_eq_erase (wf : cache.WF) {key : CString} {node : InfoNode CString CString}
    (hnode : KeyedList.find InfoNode.key cache.order key = some node) :
    ll_remove_node cache.order node = KeyedList.erase InfoNode.key cache.order key := by
  obtain ⟨hnode_mem, hnkey⟩ := KeyedList.mem_of_find hnode
  rw [ll_remove_node, KeyedList.erase_eq_filter wf.data_nodup,
    KeyedList.erase_eq_filter wf.keys_nodup]
  apply List.filter_congr
  intro n hn
  have hiff : n.data = node.data ↔ n.key = key := by
    constructor
    · intro h
      exact List.inj_on_of_nodup_map wf.data_nodup hn hnode_mem h ▸ hnkey
    · intro h
      exact congrArg InfoNode.data
        (List.inj_on_of_nodup_map wf.keys_nodup hn hnode_mem (h.trans hnkey.symm))
  exact decide_eq_decide.mpr (not_congr hiff)

/-- **`lru_cache_remove` drops the pair of its key and nothing else.** -/
theorem lru_cache_remove_spec (wf : cache.WF) (key : CString) :
    ∃ cache', lru_cache_remove cache key = .ok cache' ∧ cache'.WF ∧
      cache'.entries = Recency.remove cache.entries key ∧ cache'.ht.hmax = cache.ht.hmax := by
  by_cases hkey : key ∈ Recency.keys cache.entries
  · have hin := (wf.isSome_lookup key).mpr hkey
    obtain ⟨node, hnode, hnkey⟩ := exists_node hkey
    obtain ⟨ht, hht, ht_wf, hmax, hlookup, hsize⟩ := ht_remove_entry_spec wf.ht_wf key
    have hmem : key ∈ cache.order.map InfoNode.key := LruCache.keys_entries cache ▸ hkey
    have hsame := ll_remove_node_eq_erase wf hnode
    have hlen := KeyedList.length_erase hmem
    have hsub := KeyedList.sublist_erase InfoNode.key cache.order key
    rw [if_pos hin] at hsize
    refine ⟨{ cache with order := KeyedList.erase InfoNode.key cache.order key, ht := ht }, ?_,
      ⟨ht_wf, wf.keys_nodup.sublist (hsub.map _), wf.data_nodup.sublist (hsub.map _),
        fun n hn => wf.data_lt n (hsub.subset hn), ?_, ?_, ?_⟩, ?_, hmax⟩
    · rw [lru_cache_remove, ht_has_key_eq wf.ht_wf, hin]
      simp only [ok_bind, if_true, ll_get_node, hnode, hht, hsame, pure_eq_ok]
    · intro k
      rw [hlookup, Function.update_apply, KeyedList.find_erase wf.keys_nodup, wf.image]
      by_cases hk : k = key
      · rw [if_pos hk, if_pos hk.symm]
        rfl
      · rw [if_neg hk, if_neg fun e => hk e.symm]
    · rw [hsize, wf.size_eq, hlen]
    · have hle := hsub.length_le
      have := wf.size_le
      simp only [LruCache.capacity, hmax] at this ⊢
      omega
    · exact LruCache.map_pair_erase wf.keys_nodup key
  · -- the function returns at once when the key is missing
    refine ⟨cache, ?_, wf, ?_, rfl⟩
    · rw [lru_cache_remove, ht_has_key_eq wf.ht_wf, lookup_isSome_eq_false wf hkey]
      rfl
    · symm
      apply List.filter_eq_self.mpr
      intro e he
      apply decide_eq_true
      rintro rfl
      exact hkey (List.mem_map_of_mem he)

end Correctness

end DistDb
