/-
  DistDb.Migration — documents on the move between two servers.

  `loader_add_server` takes documents out of one server and into a new one, with a loop that
  deletes from the bucket it scans; `loader_remove_server` puts all the documents of one server
  into another.  On views both are one equation:
    * `migrate_loop_spec` — the loop ends; the documents picked leave the cache and the database
      of the one server (`ServerView.without`) and are written to the other
      (`ServerView.absorb`),
    * `migrate_loop_mono` — more rounds than it needs change nothing,
    * `merge_db_spec` — every entry is written over the database.
-/
import DistDb.LoadBalancer
import DistDb.ServerView

namespace DistDb

open Lib

/-! ## §1. Moving documents between views. -/

namespace ServerView

/-- The documents of the server that `goes` picks. -/
def departing (v : ServerView) (goes : CString → Bool) (d : CString) : Option CString :=
  if goes d then v.docs d else none

/-- The server without the documents that `goes` picks. -/
def without (v : ServerView) (goes : CString → Bool) : ServerView :=
  { v with docs := fun d => if goes d then none else v.docs d
           cached := v.cached.filter fun e => (v.departing goes e.1).isNone }

/-- The server with `docs` written over its documents. -/
def absorb (v : ServerView) (docs : CString → Option CString) : ServerView :=
  { v with docs := fun d => (docs d).or (v.docs d) }

/-- The server without one document. -/
def drop (v : ServerView) (d : CString) : ServerView :=
  { v with docs := Function.update v.docs d none, cached := Recency.remove v.cached d }

/-- When nothing is picked, the server stays as it is. -/
theorem without_of_none {v : ServerView} {goes : CString → Bool}
    (h : ∀ d, v.departing goes d = none) : v.without goes = v := by
  refine ServerView.ext rfl rfl (funext ?_) ?_ rfl
  · intro d
    show (if goes d then none else v.docs d) = v.docs d
    have := h d
    unfold departing at this
    split_ifs at this ⊢ with hd
    · exact this.symm
    · rfl
  · exact List.filter_eq_self.mpr fun e _ => by rw [h e.1]; rfl

theorem absorb_of_none {v : ServerView} {docs : CString → Option CString}
    (h : ∀ d, docs d = none) : v.absorb docs = v :=
  ServerView.ext rfl rfl (funext fun d => by simp [absorb, h d]) rfl rfl

/-- Taking one picked document out first makes no difference. -/
theorem without_drop {v : ServerView} {goes : CString → Bool} {d : CString} (hd : goes d = true)
    (hdoc : (v.docs d).isSome) : (v.drop d).without goes = v.without goes := by
  refine ServerView.ext rfl rfl (funext ?_) ?_ rfl
  · intro d'
    show (if goes d' then none else Function.update v.docs d none d') = _
    rw [Function.update_apply]
    by_cases h : d' = d
    · simp [without, h, hd]
    · simp [without, h]
  · show (Recency.remove v.cached d).filter _ = v.cached.filter _
    rw [Recency.remove, List.filter_filter]
    apply List.filter_congr
    intro e _
    by_cases h : e.1 = d
    · obtain ⟨c, hc⟩ := Option.isSome_iff_exists.mp hdoc
      simp [departing, h, hd, hc]
    · simp [departing, drop, h]

/-- Writing one picked document first makes no difference. -/
theorem absorb_drop {v w : ServerView} {goes : CString → Bool} {d c : CString}
    (hd : goes d = true) (hdoc : v.docs d = some c) :
    absorb { w with docs := Function.update w.docs d (some c) } ((v.drop d).departing goes)
      = w.absorb (v.departing goes) := by
  refine ServerView.ext rfl rfl (funext fun d' => ?_) rfl rfl
  simp only [absorb, departing, drop, Function.update_apply]
  by_cases h : d' = d
  · simp [h, hd, hdoc]
  · simp [h]

end ServerView

/-! ## §2. The loop over the buckets. -/

/-- Moving the entry that the scan of bucket `b` has found. -/
theorem migrate_entry {next_s s : Server} (wf : next_s.WF) (s_wf : s.WF)
    {data : Info CString CString} (hdata : next_s.view.docs data.key = some data.value) :
    ∃ s_db cache next_db, ht_put hash_string s.db data.key data.value = .ok s_db ∧
      lru_cache_remove next_s.cache data.key = .ok cache ∧
      ht_remove_entry hash_string next_s.db data.key = .ok next_db ∧
      ({ next_s with cache := cache, db := next_db } : Server).WF ∧
      ({ s with db := s_db } : Server).WF ∧
      ({ next_s with cache := cache, db := next_db } : Server).view
        = next_s.view.drop data.key ∧
      ({ s with db := s_db } : Server).view
        = { s.view with docs := Function.update s.view.docs data.key (some data.value) } ∧
      next_db.hmax = next_s.db.hmax ∧ next_db.size + 1 = next_s.db.size := by
  obtain ⟨s_db, hput, s_db_wf, _, hdocs, _⟩ := ht_put_spec s_wf.db data.key data.value
  obtain ⟨cache, hcache, cache_wf, hcached, hcapacity⟩ := lru_cache_remove_spec wf.cache data.key
  obtain ⟨next_db, hremove, next_db_wf, hmax, hkept, hsize⟩ :=
    ht_remove_entry_spec wf.db data.key
  have hmem : data ∈ next_s.db.entries := (mem_entries_iff wf.db data).mpr hdata
  have hpos := List.length_pos_of_mem hmem
  have hin : (next_s.db.lookup hash_string data.key).isSome :=
    Option.isSome_iff_exists.mpr ⟨_, hdata⟩
  rw [if_pos hin] at hsize
  refine ⟨s_db, cache, next_db, hput, hcache, hremove,
    ⟨cache_wf, next_db_wf, wf.tasks, wf.max_size⟩, ⟨s_wf.cache, s_db_wf, s_wf.tasks, s_wf.max_size⟩,
    Server.view_of_parts rfl rfl (congrArg UInt32.toNat hcapacity).symm hkept hcached,
    Server.view_of_parts rfl rfl rfl hdocs rfl, hmax, ?_⟩
  rw [hsize, wf.db.size_eq]
  omega

/-- The keys of the buckets before `b` have all been looked at: none of them moves. -/
def Scanned (moves : CString → Bool) (next_s : Server) (b : UInt32) : Prop :=
  ∀ d, (next_s.view.docs d).isSome → next_s.db.index hash_string d < b.toNat → moves d = false

/-- Taking a document out leaves the scanned buckets scanned. -/
theorem Scanned.drop {moves : CString → Bool} {next_s next_s' : Server} {b : UInt32}
    (h : Scanned moves next_s b) {d : CString} (hview : next_s'.view = next_s.view.drop d)
    (hmax : next_s'.db.hmax = next_s.db.hmax) : Scanned moves next_s' b := by
  intro d' hd' hindex
  rw [hview] at hd'
  apply h d'
  · simp only [ServerView.drop, Function.update_apply] at hd'
    split_ifs at hd'
    · cases hd'
    · exact hd'
  · unfold Hashtable.index at hindex ⊢
    rwa [hmax] at hindex

theorem toNat_succ_of_lt {b hmax : UInt32} (hb : b < hmax) : (b + 1).toNat = b.toNat + 1 := by
  have hlt := UInt32.lt_iff_toNat_lt.mp hb
  have hmax_lt := hmax.toNat_lt
  rw [UInt32.toNat_add]
  exact Nat.mod_eq_of_lt (show b.toNat + 1 < 2 ^ 32 by omega)

/-- A bucket without an entry that moves is scanned. -/
theorem Scanned.succ {moves : CString → Bool} {next_s : Server} {b : UInt32}
    (h : Scanned moves next_s b) (hb : b < next_s.db.hmax)
    (hfind : (next_s.db.bucket b.toNat).find? (fun data => moves data.key) = none) :
    Scanned moves next_s (b + 1) := by
  intro d hd hindex
  rw [toNat_succ_of_lt hb] at hindex
  rcases Nat.lt_or_eq_of_le (Nat.le_of_lt_succ hindex) with hlt | heq
  · exact h d hd hlt
  · have hkey := (lookup_isSome_iff d).mp hd
    rw [heq] at hkey
    obtain ⟨e, he, rfl⟩ := List.mem_map.mp hkey
    simpa using List.find?_eq_none.mp hfind e he

/-- Past the last bucket the loop is over, and no document of the server is picked. -/
theorem migrate_loop_end {moves : CString → Bool} {next_s : Server} {b : UInt32} (wf : next_s.WF)
    (s : Server) (hscanned : Scanned moves next_s b) (hend : ¬ b < next_s.db.hmax) (rounds : ℕ) :
    migrate_loop moves rounds b next_s s = .ok (next_s, s) ∧
      ∀ d, next_s.view.departing moves d = none := by
  constructor
  · rw [migrate_loop.eq_def, if_neg hend]
    rfl
  · -- every bucket index is below `hmax`, so every bucket has been scanned
    intro d
    by_contra hd
    simp only [ServerView.departing, ite_eq_right_iff, not_forall] at hd
    obtain ⟨hmoves, hdoc⟩ := hd
    have hindex : next_s.db.index hash_string d < b.toNat := by
      have hlt := Nat.mod_lt (hash_string d).toNat wf.db.hmax_pos
      rw [UInt32.lt_iff_toNat_lt] at hend
      unfold Hashtable.index
      omega
    have := hscanned d (Option.isSome_iff_ne_none.mpr hdoc) hindex
    rw [hmoves] at this
    cases this

/-- **The loop over the buckets ends and moves the documents picked.**  Each round moves an entry
or finishes a bucket, so the entries and the remaining buckets bound the rounds. -/
theorem migrate_loop_spec (moves : CString → Bool) (rounds : ℕ) {next_s s : Server} {b : UInt32}
    (wf : next_s.WF) (s_wf : s.WF) (hscanned : Scanned moves next_s b)
    (hrounds : next_s.db.size + (next_s.db.hmax.toNat - b.toNat) ≤ rounds) :
    ∃ next_s' s', migrate_loop moves rounds b next_s s = .ok (next_s', s') ∧
      next_s'.WF ∧ s'.WF ∧ next_s'.view = next_s.view.without moves ∧
      s'.view = s.view.absorb (next_s.view.departing moves) := by
  induction rounds generalizing next_s s b with
  | zero =>
    have hend : ¬ b < next_s.db.hmax := by
      rw [UInt32.lt_iff_toNat_lt]
      omega
    obtain ⟨hloop, hnone⟩ := migrate_loop_end wf s hscanned hend 0
    refine ⟨next_s, s, hloop, wf, s_wf, ?_, ?_⟩
    · rw [ServerView.without_of_none hnone]
    · rw [ServerView.absorb_of_none hnone]
  | succ rounds ih =>
    by_cases hb : b < next_s.db.hmax
    · cases hfind : (next_s.db.bucket b.toNat).find? (fun data => moves data.key) with
      | some data =>
        -- the entry moves, and the bucket is scanned again
        have hmem := List.mem_of_find?_eq_some hfind
        have hmoves : moves data.key = true :=
          List.find?_some (p := fun data : Info CString CString => moves data.key) hfind
        have hdata := lookup_of_mem_bucket wf.db hmem
        obtain ⟨s_db, cache, next_db, hput, hcache, hremove, wf', s_wf', hview, s_hview, hmax,
          hsize⟩ := migrate_entry wf s_wf hdata
        have hscanned' := hscanned.drop hview hmax
        obtain ⟨next_s', s', hloop, next_wf', s'_wf, hnext, hs⟩ := ih wf' s_wf' hscanned' (by
          show next_db.size + (next_db.hmax.toNat - b.toNat) ≤ rounds
          rw [hmax]
          omega)
        refine ⟨next_s', s', ?_, next_wf', s'_wf, ?_, ?_⟩
        · rw [migrate_loop, if_pos hb, hfind]
          simp only [hput, hcache, hremove, ok_bind, UInt32.sub_add_cancel]
          exact hloop
        · have hsome := Option.isSome_iff_exists.mpr ⟨_, hdata⟩
          rw [hnext, hview, ServerView.without_drop hmoves hsome]
        · rw [hs, hview, s_hview, ServerView.absorb_drop hmoves hdata]
      | none =>
        -- no entry of the bucket moves, and the next one is scanned
        have hsucc := toNat_succ_of_lt hb
        have hscanned' := hscanned.succ hb hfind
        obtain ⟨next_s', s', hloop, hspec⟩ := ih wf s_wf hscanned' (by
          have := UInt32.lt_iff_toNat_lt.mp hb
          omega)
        refine ⟨next_s', s', ?_, hspec⟩
        rw [migrate_loop, if_pos hb, hfind]
        exact hloop
    · -- past the last bucket
      obtain ⟨hloop, hnone⟩ := migrate_loop_end wf s hscanned hb (rounds + 1)
      refine ⟨next_s, s, hloop, wf, s_wf, ?_, ?_⟩
      · rw [ServerView.without_of_none hnone]
      · rw [ServerView.absorb_of_none hnone]

/-- More rounds than the loop needs change nothing. -/
theorem migrate_loop_mono {moves : CString → Bool} {rounds : ℕ} {b : UInt32} {next_s s : Server}
    {r : Server × Server} (h : migrate_loop moves rounds b next_s s = .ok r) {rounds' : ℕ}
    (hle : rounds ≤ rounds') : migrate_loop moves rounds' b next_s s = .ok r := by
  induction rounds generalizing b next_s s rounds' with
  | zero =>
    rw [migrate_loop.eq_def] at h ⊢
    by_cases hb : b < next_s.db.hmax
    · rw [if_pos hb] at h
      cases h
    · rw [if_neg hb] at h ⊢
      exact h
  | succ rounds ih =>
    obtain ⟨n, rfl⟩ : ∃ n, rounds' = n + 1 := ⟨rounds' - 1, by omega⟩
    have hle' : rounds ≤ n := by omega
    rw [migrate_loop.eq_def] at h ⊢
    split_ifs at h ⊢ with hb
    · simp only at h ⊢
      cases hfind : (next_s.db.bucket b.toNat).find? (fun data => moves data.key) with
      | none =>
        rw [hfind] at h
        exact ih h hle'
      | some data =>
        rw [hfind] at h
        obtain ⟨s_db, hput, h⟩ := bind_eq_ok.mp h
        obtain ⟨cache, hcache, h⟩ := bind_eq_ok.mp h
        obtain ⟨next_db, hremove, h⟩ := bind_eq_ok.mp h
        simp only [hput, hcache, hremove, ok_bind]
        exact ih h hle'
    · exact h

/-! ## §3. Merging a database. -/

theorem foldlM_flatten {m : Type → Type} [Monad m] [LawfulMonad m] {α β : Type}
    (f : β → α → m β) (ls : List (List α)) (b : β) :
    ls.flatten.foldlM f b = ls.foldlM (fun b l => l.foldlM f b) b := by
  induction ls generalizing b with
  | nil => rfl
  | cons l ls ih => simp [List.foldlM_append, ih]

/-- Putting the entries of a list one after the other. -/
theorem put_all_spec (es : List (Info CString CString)) (hes : (es.map Info.key).Nodup)
    {db : Hashtable CString CString} (wf : db.WF hash_string) :
    ∃ db', es.foldlM (fun db data => ht_put hash_string db data.key data.value) db = .ok db' ∧
      db'.WF hash_string ∧
      db'.lookup hash_string
        = fun d =>
          ((KeyedList.find Info.key es d).map Info.value).or (db.lookup hash_string d) := by
  induction es generalizing db with
  | nil => exact ⟨db, rfl, wf, rfl⟩
  | cons e es ih =>
    rw [List.map_cons, List.nodup_cons] at hes
    obtain ⟨db₁, hput, wf₁, _, hlookup₁, _⟩ := ht_put_spec wf e.key e.value
    obtain ⟨db', hall, wf', hlookup'⟩ := ih hes.2 wf₁
    refine ⟨db', ?_, wf', ?_⟩
    · rw [List.foldlM_cons, hput]
      exact hall
    · funext d
      simp only [hlookup', hlookup₁]
      rw [Function.update_apply, KeyedList.find_cons]
      by_cases hd : d = e.key
      · rw [if_pos hd, if_pos hd.symm, hd, KeyedList.find_eq_none.mpr hes.1]
        rfl
      · rw [if_neg hd, if_neg fun h => hd h.symm]

/-- **`merge_db` writes every entry of the one table over the other.** -/
theorem merge_db_spec {from_db db : Hashtable CString CString} (from_wf : from_db.WF hash_string)
    (wf : db.WF hash_string) :
    ∃ db', merge_db from_db db = .ok db' ∧ db'.WF hash_string ∧
      db'.lookup hash_string
        = fun d => (from_db.lookup hash_string d).or (db.lookup hash_string d) := by
  obtain ⟨db', hall, wf', hlookup⟩ := put_all_spec from_db.entries from_wf.nodup_entries wf
  refine ⟨db', ?_, wf', ?_⟩
  · rw [← hall, Hashtable.entries, merge_db]
    exact (foldlM_flatten _ _ _).symm
  · rw [hlookup]
    funext d
    rw [lookup_eq_find_entries from_wf]

end DistDb
