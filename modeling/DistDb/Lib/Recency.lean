/-
  DistDb.Lib.Recency — least-recently-used lists.

  An LRU cache of capacity `cap` is a list of `(key, value)` pairs with distinct keys, ordered
  from the least to the most recently used one, at most `cap` long.  `put` writes a pair and makes
  it the most recent one; when the key is new and the list is full, the pair at the head goes.
  `LruList` carries the two invariants, so that a list that breaks them cannot be built.

  Main results: `nodup_put`, `length_put_le`, `mem_put` and the three shapes of a `put`
  (`put_of_mem`, `put_of_room`, `put_of_full`), each with what `outcome` reports; for lists of two
  capacities the inclusion property (`keys_put_suffix`); and the list as a function of the keys used
  so far (`keys_put_recent`, `mem_recent_iff`).
-/
import DistDb.Lib.KeyedList
import Mathlib.Data.List.Dedup

namespace DistDb.Lib.Recency

variable {κ ν : Type*}

/-! ## §1. The operations on the list. -/

/-- What a `put` does to the list. -/
inductive Outcome (κ : Type*)
  /-- The key was there. -/
  | hit
  /-- The key is new and there was room for it. -/
  | miss
  /-- The key is new and `victim` went to make room. -/
  | evict (victim : κ)
  deriving DecidableEq

/-- Whether the key is new. -/
def Outcome.isNew : Outcome κ → Bool
  | .hit => false
  | _ => true

/-- The key that went, if any. -/
def Outcome.victim : Outcome κ → Option κ
  | .evict victim => some victim
  | _ => none

/-- The keys, from the least to the most recently used one. -/
def keys (l : List (κ × ν)) : List κ := l.map Prod.fst

variable [DecidableEq κ]

/-- Drop the pair of `k`. -/
def remove (l : List (κ × ν)) (k : κ) : List (κ × ν) := l.filter (fun e => decide (e.1 ≠ k))

/-- Write `(k, v)` and make it the most recent pair, keeping the last `cap` pairs. -/
def put (cap : ℕ) (l : List (κ × ν)) (k : κ) (v : ν) : List (κ × ν) :=
  if k ∈ keys l then remove l k ++ [(k, v)] else (l ++ [(k, v)]).drop (l.length + 1 - cap)

/-- What a `put` of `k` does to the list. -/
def outcome (cap : ℕ) (l : List (κ × ν)) (k : κ) : Outcome κ :=
  if k ∈ keys l then .hit
  else if l.length < cap then .miss
  else match (keys l).head? with
    | some victim => .evict victim
    | none => .miss

/-! ## §2. The three shapes of a `put`. -/

theorem put_of_mem {cap : ℕ} {l : List (κ × ν)} {k : κ} (hk : k ∈ keys l) (v : ν) :
    put cap l k v = remove l k ++ [(k, v)] := if_pos hk

theorem outcome_of_mem {cap : ℕ} {l : List (κ × ν)} {k : κ} (hk : k ∈ keys l) :
    outcome cap l k = .hit := if_pos hk

theorem put_of_room {cap : ℕ} {l : List (κ × ν)} {k : κ} (hk : k ∉ keys l)
    (hroom : l.length < cap) (v : ν) : put cap l k v = l ++ [(k, v)] := by
  rw [put, if_neg hk, Nat.sub_eq_zero_of_le hroom, List.drop_zero]

theorem outcome_of_room {cap : ℕ} {l : List (κ × ν)} {k : κ} (hk : k ∉ keys l)
    (hroom : l.length < cap) : outcome cap l k = .miss := by
  rw [outcome, if_neg hk, if_pos hroom]

theorem put_of_full {cap : ℕ} {e : κ × ν} {l : List (κ × ν)} {k : κ} (hk : k ∉ keys (e :: l))
    (hfull : (e :: l).length = cap) (v : ν) : put cap (e :: l) k v = l ++ [(k, v)] := by
  have hone : (e :: l).length + 1 - cap = 1 := by omega
  rw [put, if_neg hk, hone]
  rfl

theorem outcome_of_full {cap : ℕ} {e : κ × ν} {l : List (κ × ν)} {k : κ}
    (hk : k ∉ keys (e :: l)) (hfull : (e :: l).length = cap) :
    outcome cap (e :: l) k = .evict e.1 := by
  rw [outcome, if_neg hk, if_neg (by omega)]
  rfl

theorem mem_remove {l : List (κ × ν)} {k : κ} {e : κ × ν} :
    e ∈ remove l k ↔ e ∈ l ∧ e.1 ≠ k := by
  simp [remove]

theorem notMem_keys_remove (l : List (κ × ν)) (k : κ) : k ∉ keys (remove l k) := by
  intro h
  obtain ⟨e, he, rfl⟩ := List.mem_map.mp h
  exact (mem_remove.mp he).2 rfl

/-- Every pair of the new list is the one written or an old pair of another key. -/
theorem mem_put {cap : ℕ} {l : List (κ × ν)} {k : κ} {v : ν} {e : κ × ν}
    (he : e ∈ put cap l k v) : e = (k, v) ∨ (e ∈ l ∧ e.1 ≠ k) := by
  unfold put at he
  split_ifs at he with hk
  · rcases List.mem_append.mp he with he | he
    · exact .inr (mem_remove.mp he)
    · exact .inl (List.mem_singleton.mp he)
  · rcases List.mem_append.mp (List.mem_of_mem_drop he) with he | he
    · exact .inr ⟨he, fun e' => hk (e' ▸ List.mem_map_of_mem he)⟩
    · exact .inl (List.mem_singleton.mp he)

theorem nodup_put (cap : ℕ) {l : List (κ × ν)} (hl : (keys l).Nodup) (k : κ) (v : ν) :
    (keys (put cap l k v)).Nodup := by
  have snoc : ∀ l' : List (κ × ν), (keys l').Nodup → k ∉ keys l' →
      (keys (l' ++ [(k, v)])).Nodup := by
    intro l' hl' hk
    simp only [keys, List.map_append, List.map_cons, List.map_nil]
    exact List.nodup_append.mpr ⟨hl', List.nodup_singleton k, fun a ha b hb e =>
      hk (List.mem_singleton.mp hb ▸ e ▸ ha)⟩
  unfold put
  split_ifs with hk
  · exact snoc _ (hl.sublist (List.filter_sublist.map Prod.fst)) (notMem_keys_remove l k)
  · exact (snoc l hl hk).sublist ((List.drop_sublist _ _).map Prod.fst)

theorem length_put_le {cap : ℕ} {l : List (κ × ν)} (hl : l.length ≤ cap) (k : κ) (v : ν) :
    (put cap l k v).length ≤ cap := by
  unfold put
  split_ifs with hk
  · obtain ⟨e, he, hek⟩ := List.mem_map.mp hk
    have hlt : (remove l k).length < l.length :=
      List.length_filter_lt_length_iff_exists.mpr ⟨e, he, by simp [hek]⟩
    simp
    omega
  · simp
    omega

/-! ### The order of the keys. -/

/-- What a `put` does to the keys. -/
theorem keys_put (cap : ℕ) (l : List (κ × ν)) (k : κ) (v : ν) :
    keys (put cap l k v)
      = if k ∈ keys l then (keys l).filter (fun k' => decide (k' ≠ k)) ++ [k]
        else (keys l ++ [k]).drop ((keys l).length + 1 - cap) := by
  unfold put
  split_ifs with hk
  · rw [keys, List.map_append, remove, keys, List.filter_map]
    rfl
  · rw [keys, List.map_drop, List.map_append, keys, List.length_map]
    rfl

variable {ν' : Type*}

/-- The values have no part in the order of the keys. -/
theorem keys_put_congr (cap : ℕ) {l : List (κ × ν)} {l' : List (κ × ν')} (h : keys l = keys l')
    (k : κ) (v : ν) (v' : ν') : keys (put cap l k v) = keys (put cap l' k v') := by
  rw [keys_put, keys_put, h]

theorem outcome_congr (cap : ℕ) {l : List (κ × ν)} {l' : List (κ × ν')} (h : keys l = keys l')
    (k : κ) : outcome cap l k = outcome cap l' k := by
  have hlen : l.length = l'.length := by
    rw [← List.length_map Prod.fst, ← List.length_map Prod.fst]
    exact congrArg List.length h
  unfold outcome
  rw [h, hlen]

/-! ### Two capacities. -/

theorem outcome_eq_hit_iff {cap : ℕ} {l : List (κ × ν)} {k : κ} :
    outcome cap l k = .hit ↔ k ∈ keys l := by
  constructor
  · intro h
    unfold outcome at h
    split_ifs at h with hk
    · exact hk
    · split at h <;> cases h
  · exact outcome_of_mem

/-- **The inclusion property**: the keys of a smaller list are the most recent ones of a larger
list, and stay so. -/
theorem keys_put_suffix {cap cap' : ℕ} (hcap : cap ≤ cap') {l : List (κ × ν)}
    {l' : List (κ × ν')} (h : keys l <:+ keys l') (k : κ) (v : ν) (v' : ν') :
    keys (put cap l k v) <:+ keys (put cap' l' k v') := by
  rw [keys_put, keys_put]
  by_cases hk : k ∈ keys l
  · -- a hit for both
    rw [if_pos hk, if_pos (h.subset hk)]
    obtain ⟨t, ht⟩ := h.filter fun k' => decide (k' ≠ k)
    exact ⟨t, by rw [← ht, List.append_assoc]⟩
  · rw [if_neg hk]
    by_cases hk' : k ∈ keys l'
    · -- only the larger list has the key, so what the smaller one has stays in front of it
      have hkept : (keys l).filter (fun k' => decide (k' ≠ k)) = keys l :=
        List.filter_eq_self.mpr fun k' hmem => decide_eq_true fun e => hk (e ▸ hmem)
      obtain ⟨t, ht⟩ := h.filter fun k' => decide (k' ≠ k)
      rw [hkept] at ht
      rw [if_pos hk']
      exact (List.drop_suffix _ _).trans ⟨t, by rw [← ht, List.append_assoc]⟩
    · -- the larger list keeps more of the same keys
      obtain ⟨t, ht⟩ := h
      have hlen := congrArg List.length ht
      rw [List.length_append] at hlen
      rw [if_neg hk']
      refine List.suffix_of_suffix_length_le ((List.drop_suffix _ _).trans
        ⟨t, by rw [← ht, List.append_assoc]⟩) (List.drop_suffix _ _) ?_
      rw [List.length_drop, List.length_drop, List.length_append, List.length_append,
        List.length_singleton]
      omega

/-! ## §4. The list after any uses of keys. -/

/-- The last `cap` distinct keys of a list of uses, in the order of their last uses. -/
def recent (cap : ℕ) (ks : List κ) : List κ := ks.dedup.drop (ks.dedup.length - cap)

/-- The keys used since the last use of `k`. -/
def since (k : κ) (ks : List κ) : List κ := (ks.reverse.takeWhile fun k' => decide (k' ≠ k)).reverse

theorem recent_suffix (cap : ℕ) (ks : List κ) : recent cap ks <:+ ks.dedup :=
  List.drop_suffix _ _

theorem length_recent (cap : ℕ) (ks : List κ) :
    (recent cap ks).length = min ks.dedup.length cap := by
  unfold recent
  rw [List.length_drop]
  omega

theorem length_filter_ne {ks : List κ} (hks : ks.Nodup) {k : κ} (hk : k ∈ ks) :
    (ks.filter fun k' => decide (k' ≠ k)).length + 1 = ks.length := by
  have hpos : 0 < ks.length := List.length_pos_of_mem hk
  have herase : ks.erase k = ks.filter fun k' => decide (k' ≠ k) := by
    rw [hks.erase_eq_filter]
    exact List.filter_congr fun k' _ => by simp [bne, beq_eq_decide]
  rw [← herase, List.length_erase_of_mem hk]
  omega

/-- One more use: the key moves to the end. -/
theorem dedup_concat (ks : List κ) (k : κ) :
    (ks ++ [k]).dedup = ks.dedup.filter (fun k' => decide (k' ≠ k)) ++ [k] := by
  induction ks with
  | nil => simp
  | cons k₀ ks ih =>
    rw [List.cons_append]
    by_cases hmem : k₀ ∈ ks
    · rw [List.dedup_cons_of_mem (List.mem_append_left _ hmem), ih, List.dedup_cons_of_mem hmem]
    · rw [List.dedup_cons_of_notMem hmem]
      by_cases hk : k₀ = k
      · have hin : k₀ ∈ ks ++ [k] := by simp [hk]
        rw [List.dedup_cons_of_mem hin, ih, List.filter_cons_of_neg (by simp [hk])]
      · have hnotin : k₀ ∉ ks ++ [k] := by simp [hk, hmem]
        rw [List.dedup_cons_of_notMem hnotin, ih, List.filter_cons_of_pos (by simp [hk]),
          List.cons_append]

/-- A list without a bound keeps every key. -/
theorem keys_put_suffix_dedup {cap : ℕ} {l : List (κ × ν)} {ks : List κ}
    (h : keys l <:+ ks.dedup) (k : κ) (v : ν) : keys (put cap l k v) <:+ (ks ++ [k]).dedup := by
  have hkeys : keys (ks.dedup.map fun k => (k, ())) = ks.dedup := by
    rw [keys, List.map_map]
    exact List.map_id _
  have hput : keys (put (cap + ks.dedup.length + 1) (ks.dedup.map fun k => (k, ())) k ())
      = (ks ++ [k]).dedup := by
    rw [keys_put, hkeys, dedup_concat]
    split_ifs with hk
    · rfl
    · have hkept : ks.dedup.filter (fun k' => decide (k' ≠ k)) = ks.dedup :=
        List.filter_eq_self.mpr fun k' hmem => decide_eq_true fun e => hk (e ▸ hmem)
      rw [hkept, Nat.sub_eq_zero_of_le (by omega), List.drop_zero]
  rw [← hput]
  exact keys_put_suffix (by omega) (by rw [hkeys]; exact h) k v ()

theorem length_keys_put (cap : ℕ) {l : List (κ × ν)} (hl : (keys l).Nodup) (k : κ) (v : ν) :
    (keys (put cap l k v)).length
      = if k ∈ keys l then (keys l).length else min ((keys l).length + 1) cap := by
  rw [keys_put]
  split_ifs with hk
  · rw [List.length_append, List.length_singleton, length_filter_ne hl hk]
  · rw [List.length_drop, List.length_append, List.length_singleton]
    omega

theorem length_dedup_concat (ks : List κ) (k : κ) :
    (ks ++ [k]).dedup.length = if k ∈ ks then ks.dedup.length else ks.dedup.length + 1 := by
  rw [dedup_concat, List.length_append, List.length_singleton]
  split_ifs with hk
  · exact length_filter_ne (List.nodup_dedup ks) (List.mem_dedup.mpr hk)
  · have hkept : ks.dedup.filter (fun k' => decide (k' ≠ k)) = ks.dedup :=
      List.filter_eq_self.mpr fun k' hmem =>
        decide_eq_true fun e => hk (e ▸ List.mem_dedup.mp hmem)
    rw [hkept]

/-- **A use of `k`** leaves the list with the most recent keys again. -/
theorem keys_put_recent {cap : ℕ} {l : List (κ × ν)} {ks : List κ} (h : keys l = recent cap ks)
    (k : κ) (v : ν) : keys (put cap l k v) = recent cap (ks ++ [k]) := by
  have hsuffix : keys (put cap l k v) <:+ (ks ++ [k]).dedup :=
    keys_put_suffix_dedup (by rw [h]; exact recent_suffix cap ks) k v
  have hnodup : (keys l).Nodup := by
    rw [h]
    exact (List.nodup_dedup ks).sublist (recent_suffix cap ks).sublist
  -- both lists are suffixes of the distinct keys, so that their lengths decide
  have hlength : (keys (put cap l k v)).length = (recent cap (ks ++ [k])).length := by
    rw [length_keys_put cap hnodup, h, length_recent, length_recent, length_dedup_concat]
    by_cases hrecent : k ∈ recent cap ks
    · have hk : k ∈ ks := List.mem_dedup.mp ((recent_suffix cap ks).subset hrecent)
      rw [if_pos hrecent, if_pos hk]
    · rw [if_neg hrecent]
      by_cases hk : k ∈ ks
      · -- a key that was used went because the list is full
        have hfull : cap < ks.dedup.length := by
          refine Nat.lt_of_not_le fun hle => hrecent ?_
          rw [recent, Nat.sub_eq_zero_of_le hle, List.drop_zero]
          exact List.mem_dedup.mpr hk
        rw [if_pos hk]
        omega
      · rw [if_neg hk]
        omega
  exact (List.suffix_of_suffix_length_le hsuffix (recent_suffix cap _)
    (Nat.le_of_eq hlength)).eq_of_length hlength

/-- The last use of a key. -/
theorem exists_last_use {ks : List κ} {k : κ} (hk : k ∈ ks) :
    ∃ before, ks = before ++ k :: since k ks ∧ k ∉ since k ks := by
  obtain ⟨after, before, hsplit, hnotin⟩ := List.eq_append_cons_of_mem (List.mem_reverse.mpr hk)
  have hkeep : ∀ k' ∈ after, decide (k' ≠ k) = true :=
    fun k' hmem => decide_eq_true fun e => hnotin (e ▸ hmem)
  have hsince : since k ks = after.reverse := by
    rw [since, hsplit, List.takeWhile_append_of_pos hkeep, List.takeWhile_cons_of_neg (by simp),
      List.append_nil]
  refine ⟨before.reverse, ?_, by rwa [hsince, List.mem_reverse]⟩
  rw [hsince, ← List.reverse_reverse ks, hsplit]
  simp

/-- **The reuse distance decides**: a key is among the `cap` most recent ones when fewer than `cap`
other keys were used since its last use. -/
theorem mem_recent_iff {cap : ℕ} {ks : List κ} {k : κ} :
    k ∈ recent cap ks ↔ k ∈ ks ∧ (since k ks).dedup.length < cap := by
  by_cases hk : k ∈ ks
  · obtain ⟨before, hks, hnotin⟩ := exists_last_use hk
    -- the distinct keys end in `k` and those used after it
    have hdedup : ∃ t, ks.dedup = t ++ k :: (since k ks).dedup := by
      obtain ⟨t, ht⟩ := List.suffix_union_right before (k :: (since k ks).dedup)
      refine ⟨t, ?_⟩
      rw [ht, ← List.dedup_cons_of_notMem hnotin, ← List.dedup_append, ← hks]
    obtain ⟨t, ht⟩ := hdedup
    rw [recent, ht, List.length_append, List.length_cons]
    by_cases hfew : (since k ks).dedup.length < cap
    · -- what is dropped ends before `k`
      rw [List.drop_append_of_le_length (by omega)]
      exact iff_of_true (List.mem_append_right _ List.mem_cons_self) ⟨hk, hfew⟩
    · -- `k` itself is dropped
      have hdrop : t.length + ((since k ks).dedup.length + 1) - cap
          = t.length + 1 + ((since k ks).dedup.length - cap) := by omega
      refine iff_of_false ?_ fun h => hfew h.2
      rw [hdrop, ← List.drop_drop, ← List.drop_drop, List.drop_left, List.drop_one, List.tail_cons]
      exact fun hmem => hnotin (List.mem_dedup.mp (List.mem_of_mem_drop hmem))
  · exact iff_of_false (fun h => hk (List.mem_dedup.mp ((recent_suffix cap ks).subset h)))
      fun h => hk h.1

theorem outcome_recent {cap : ℕ} {l : List (κ × ν)} {ks : List κ} (h : keys l = recent cap ks)
    (k : κ) : outcome cap l k = if k ∈ recent cap ks then .hit
      else if ks.dedup.length < cap then .miss
      else match (recent cap ks).head? with
        | some victim => .evict victim
        | none => .miss := by
  have hlength : l.length = min ks.dedup.length cap := by
    rw [← length_recent, ← h, keys, List.length_map]
  have hroom : l.length < cap ↔ ks.dedup.length < cap := by omega
  unfold outcome
  simp only [h, hroom]

/-! ## §5. The list with its invariants. -/

/-- A least-recently-used list of capacity `cap`: distinct keys, at most `cap` pairs. -/
structure LruList (κ ν : Type*) (cap : ℕ) where
  entries : List (κ × ν)
  nodup : (keys entries).Nodup
  length_le : entries.length ≤ cap

namespace LruList

variable {cap : ℕ}

/-- The list of a fresh cache. -/
def empty (κ ν : Type*) (cap : ℕ) : LruList κ ν cap := ⟨[], List.nodup_nil, Nat.zero_le cap⟩

/-- Write `(k, v)` and make it the most recent pair. -/
def put (l : LruList κ ν cap) (k : κ) (v : ν) : LruList κ ν cap :=
  ⟨Recency.put cap l.entries k v, nodup_put cap l.nodup k v, length_put_le l.length_le k v⟩

/-- What a `put` of `k` does to the list. -/
def outcome (l : LruList κ ν cap) (k : κ) : Outcome κ := Recency.outcome cap l.entries k

end LruList

end DistDb.Lib.Recency
