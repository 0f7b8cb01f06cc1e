/-
  DistDb.ServerView — what a server is for, and that `server.c` computes it.

  A `ServerView` forgets how a server stores things: its database is a map from names to contents,
  its cache a least-recently-used list, its queue a list.  On views an EDIT or a GET is one
  equation, and the queued edits a list to be run (`edits`, `executed`, `drained`).

  The second half connects the code to it.  On a well-formed server each function of `server.c`
  returns, keeps the server well formed, and does on `Server.view` what the view's operation says:
  `server_edit_document_spec`, `server_get_document_spec`, `execute_queue_spec`,
  `server_handle_get_spec`, `server_handle_edit_spec`.
-/
import DistDb.Server

namespace DistDb

open Lib

/-! ## §1. Views of a server. -/

/-- A server from outside: the documents in its database, the pairs in its cache from the least to
the most recently used one, the pending edits from the oldest to the newest one. -/
@[ext] structure ServerView where
  id : Int32
  capacity : ℕ
  docs : CString → Option CString
  cached : List (CString × CString)
  pending : List Request

namespace ServerView

/-- The names in the cache. -/
def cachedNames (v : ServerView) : List CString := Recency.keys v.cached

/-- Write a document to the cache and to the database. -/
def edit (v : ServerView) (d c : CString) : ServerView :=
  { v with docs := Function.update v.docs d (some c)
           cached := Recency.put v.capacity v.cached d c }

/-- Make a document the most recently used one. -/
def touch (v : ServerView) (d c : CString) : ServerView :=
  { v with cached := Recency.put v.capacity v.cached d c }

/-- The log line of an access to a document. -/
def log (v : ServerView) (d : CString) : CString :=
  match Recency.outcome v.capacity v.cached d with
  | .hit => LOG_HIT d
  | .miss => LOG_MISS d
  | .evict victim => LOG_EVICT d victim

/-- The response to an executed edit. -/
def editResponse (v : ServerView) (d : CString) : Response :=
  { server_log := v.log d
    server_response := some (if d ∈ v.cachedNames ∨ (v.docs d).isSome then MSG_B d else MSG_C d)
    server_id := v.id }

/-- The cached content of a document. -/
def cachedContent (v : ServerView) (d : CString) : Option CString :=
  (KeyedList.find Prod.fst v.cached d).map Prod.snd

/-- Read a document, from the cache if it is there. -/
def get (v : ServerView) (d : CString) : ServerView × Response :=
  match (v.cachedContent d).or (v.docs d) with
  | some c =>
    (v.touch d c, { server_log := v.log d, server_response := some c, server_id := v.id })
  | none => (v, { server_log := LOG_FAULT d, server_response := none, server_id := v.id })

/-- The server after the edits `rs`, run from left to right. -/
def edits (v : ServerView) (rs : List Request) : ServerView :=
  rs.foldl (fun v r => v.edit r.doc_name r.doc_content) v

/-- What running the edits `rs` prints. -/
def executed (v : ServerView) : List Request → List Executed
  | [] => []
  | r :: rs => ⟨r, v.editResponse r.doc_name⟩ :: executed (v.edit r.doc_name r.doc_content) rs

/-- The server once its queue has been executed. -/
def drained (v : ServerView) : ServerView := { v.edits v.pending with pending := [] }

/-- The content of a document once the queue has been executed. -/
def latest (v : ServerView) (d : CString) : Option CString := v.drained.docs d

/-- The document is in the database. -/
def Stores (v : ServerView) (d : CString) : Prop := (v.docs d).isSome

/-- An edit of the document is pending. -/
def Queues (v : ServerView) (d : CString) : Prop := ∃ r ∈ v.pending, r.doc_name = d

/-- The document is on the server, stored or pending. -/
def Has (v : ServerView) (d : CString) : Prop := v.Stores d ∨ v.Queues d

/-- Append an edit to the queue. -/
def enqueue (v : ServerView) (r : Request) : ServerView := { v with pending := v.pending ++ [r] }

/-- Append an edit to the queue if there is room for it, and drop it otherwise. -/
def accept (v : ServerView) (r : Request) : ServerView :=
  if v.pending.length < TASK_QUEUE_SIZE then v.enqueue r else v

/-- The response to an edit that arrives: the same whether there was room or not. -/
def acknowledge (v : ServerView) (r : Request) : Response :=
  { server_log := LOG_LAZY_EXEC (v.accept r).pending.length
    server_response := some (MSG_A EDIT_REQUEST r.doc_name)
    server_id := v.id }

/-! ### Running edits. -/

@[simp] theorem edits_nil (v : ServerView) : v.edits [] = v := rfl

@[simp] theorem edits_cons (v : ServerView) (r : Request) (rs : List Request) :
    v.edits (r :: rs) = (v.edit r.doc_name r.doc_content).edits rs := rfl

theorem edits_append (v : ServerView) (rs rs' : List Request) :
    v.edits (rs ++ rs') = (v.edits rs).edits rs' := List.foldl_append

theorem executed_append (v : ServerView) (rs rs' : List Request) :
    v.executed (rs ++ rs') = v.executed rs ++ (v.edits rs).executed rs' := by
  induction rs generalizing v with
  | nil => rfl
  | cons r rs ih => simp [executed, ih]

theorem edits_setPending (v : ServerView) (p rs : List Request) :
    edits { v with pending := p } rs = { v.edits rs with pending := p } := by
  induction rs generalizing v with
  | nil => rfl
  | cons r rs ih => exact ih (v.edit r.doc_name r.doc_content)

theorem executed_setPending (v : ServerView) (p rs : List Request) :
    executed { v with pending := p } rs = v.executed rs := by
  induction rs generalizing v with
  | nil => rfl
  | cons r rs ih => exact congrArg (_ :: ·) (ih (v.edit r.doc_name r.doc_content))

/-- The tasks executed are the ones handed in, in their order. -/
theorem map_task_executed (v : ServerView) (rs : List Request) :
    (v.executed rs).map Executed.task = rs := by
  induction rs generalizing v with
  | nil => rfl
  | cons r rs ih => exact congrArg (r :: ·) (ih _)

@[simp] theorem id_edits (v : ServerView) (rs : List Request) : (v.edits rs).id = v.id := by
  induction rs generalizing v with
  | nil => rfl
  | cons r rs ih => exact ih _

@[simp] theorem id_drained (v : ServerView) : v.drained.id = v.id := id_edits v v.pending

/-- Without pending edits there is nothing to execute. -/
theorem drained_of_pending_nil {v : ServerView} (h : v.pending = []) : v.drained = v := by
  rw [drained, h, edits_nil, ← h]

/-- The content an edit of the list gives a document, or what was there before. -/
def overwrite (rs : List Request) (d : CString) (before : Option CString) : Option CString :=
  rs.foldl (fun acc r => if r.doc_name = d then some r.doc_content else acc) before

theorem docs_edits (v : ServerView) (rs : List Request) (d : CString) :
    (v.edits rs).docs d = overwrite rs d (v.docs d) := by
  induction rs generalizing v with
  | nil => rfl
  | cons r rs ih =>
    rw [edits_cons, ih, overwrite, overwrite, List.foldl_cons]
    congr 1
    simp only [edit, Function.update_apply]
    by_cases h : d = r.doc_name
    · rw [if_pos h, if_pos h.symm]
    · rw [if_neg h, if_neg fun e => h e.symm]

theorem overwrite_isSome (rs : List Request) (d : CString) (before : Option CString) :
    (overwrite rs d before).isSome ↔ before.isSome ∨ ∃ r ∈ rs, r.doc_name = d := by
  induction rs generalizing before with
  | nil => simp [overwrite]
  | cons r rs ih =>
    rw [overwrite, List.foldl_cons, ← overwrite, ih]
    by_cases h : r.doc_name = d
    · simp [h]
    · simp [h]

theorem latest_eq (v : ServerView) (d : CString) :
    v.latest d = overwrite v.pending d (v.docs d) := docs_edits v v.pending d

theorem latest_isSome (v : ServerView) (d : CString) : (v.latest d).isSome ↔ v.Has d := by
  rw [latest_eq, overwrite_isSome]
  rfl

theorem latest_eq_none {v : ServerView} {d : CString} : v.latest d = none ↔ ¬ v.Has d := by
  rw [← latest_isSome, Option.not_isSome_iff_eq_none]

theorem overwrite_of_not_mem {rs : List Request} {d : CString} (h : ∀ r ∈ rs, r.doc_name ≠ d)
    (before : Option CString) : overwrite rs d before = before := by
  induction rs with
  | nil => rfl
  | cons r rs ih =>
    rw [overwrite, List.foldl_cons, if_neg (h r List.mem_cons_self)]
    exact ih fun r' hr' => h r' (List.mem_cons_of_mem r hr')

theorem overwrite_append_singleton (rs : List Request) (r : Request) (d : CString)
    (before : Option CString) : overwrite (rs ++ [r]) d before
      = if r.doc_name = d then some r.doc_content else overwrite rs d before := by
  rw [overwrite, List.foldl_append]
  rfl

/-- An edit that is accepted is the latest content of its document. -/
theorem latest_enqueue (v : ServerView) (r : Request) (d : CString) :
    (v.enqueue r).latest d = if r.doc_name = d then some r.doc_content else v.latest d := by
  rw [latest_eq, latest_eq]
  exact overwrite_append_singleton ..

/-! ### What a read and an arriving edit change. -/

@[simp] theorem id_get (v : ServerView) (d : CString) : (v.get d).1.id = v.id := by
  unfold get
  split <;> rfl

@[simp] theorem docs_get (v : ServerView) (d : CString) : (v.get d).1.docs = v.docs := by
  unfold get
  split <;> rfl

@[simp] theorem pending_get (v : ServerView) (d : CString) : (v.get d).1.pending = v.pending := by
  unfold get
  split <;> rfl

@[simp] theorem id_accept (v : ServerView) (r : Request) : (v.accept r).id = v.id := by
  unfold accept
  split <;> rfl

@[simp] theorem docs_accept (v : ServerView) (r : Request) : (v.accept r).docs = v.docs := by
  unfold accept
  split <;> rfl

theorem mem_pending_accept {v : ServerView} {r r' : Request} (h : r' ∈ (v.accept r).pending) :
    r' ∈ v.pending ∨ r' = r := by
  unfold accept at h
  split at h
  · exact (List.mem_append.mp h).imp_right List.mem_singleton.mp
  · exact .inl h

/-! ### Coherence of the cache. -/

/-- Every cached pair stands in the database. -/
def Coherent (v : ServerView) : Prop := ∀ e ∈ v.cached, v.docs e.1 = some e.2

theorem Coherent.edit {v : ServerView} (h : v.Coherent) (d c : CString) :
    (v.edit d c).Coherent := by
  intro e he
  rcases Recency.mem_put he with rfl | ⟨he, hne⟩
  · exact Function.update_self ..
  · exact (Function.update_of_ne hne ..).trans (h e he)

theorem Coherent.touch {v : ServerView} (h : v.Coherent) {d c : CString} (hd : v.docs d = some c) :
    (v.touch d c).Coherent := by
  intro e he
  rcases Recency.mem_put he with rfl | ⟨he, _⟩
  · exact hd
  · exact h e he

theorem Coherent.edits {v : ServerView} (h : v.Coherent) (rs : List Request) :
    (v.edits rs).Coherent := by
  induction rs generalizing v with
  | nil => exact h
  | cons r rs ih => exact ih (h.edit _ _)

theorem Coherent.drained {v : ServerView} (h : v.Coherent) : v.drained.Coherent :=
  h.edits v.pending

@[simp] theorem latest_get_drained (v : ServerView) (d d' : CString) :
    (v.drained.get d).1.latest d' = v.latest d' := by
  rw [latest_eq, pending_get, docs_get]
  rfl

theorem mem_of_cachedContent {v : ServerView} {d c : CString} (h : v.cachedContent d = some c) :
    (d, c) ∈ v.cached := by
  obtain ⟨e, he, hc⟩ := Option.map_eq_some_iff.mp h
  obtain ⟨hmem, hd⟩ := KeyedList.mem_of_find he
  rwa [← hd, ← hc]

/-- The log line of an access begins with another letter than those of a missing document and of
an edit that is queued. -/
theorem head?_log (v : ServerView) (d : CString) : (v.log d).bytes.head? = some 67 := by
  unfold log
  cases Recency.outcome v.capacity v.cached d with
  | hit => exact (head?_logs d d 0).1
  | miss => exact (head?_logs d d 0).2.1
  | evict victim => exact (head?_logs d victim 0).2.2.1

theorem log_ne_fault (v : ServerView) (d d' : CString) : v.log d ≠ LOG_FAULT d' :=
  CString.ne_of_head? (v.head?_log d) (head?_logs d' d' 0).2.2.2.1 (by decide)

theorem log_ne_lazy_exec (v : ServerView) (d : CString) (size : ℕ) :
    v.log d ≠ LOG_LAZY_EXEC size :=
  CString.ne_of_head? (v.head?_log d) (head?_logs d d size).2.2.2.2 (by decide)

/-- On a coherent server the cache does not change what a read finds. -/
theorem Coherent.content {v : ServerView} (h : v.Coherent) (d : CString) :
    (v.cachedContent d).or (v.docs d) = v.docs d := by
  cases hc : v.cachedContent d with
  | none => rfl
  | some c => exact (h (d, c) (mem_of_cachedContent hc)).symm

/-- On a coherent server a read finds the document of the database and keeps the cache coherent. -/
theorem Coherent.get {v : ServerView} (h : v.Coherent) (d : CString) :
    (v.get d).1.Coherent ∧ (v.get d).2.server_response = v.docs d := by
  unfold ServerView.get
  rw [h.content d]
  cases hd : v.docs d with
  | none => exact ⟨h, rfl⟩
  | some c => exact ⟨h.touch hd, rfl⟩

/-- On a coherent server a read reports a missing document exactly when there is none. -/
theorem Coherent.log_get {v : ServerView} (h : v.Coherent) (d : CString) :
    (v.get d).2.server_log = LOG_FAULT d ↔ v.docs d = none := by
  unfold ServerView.get
  rw [h.content d]
  cases v.docs d with
  | none => simp
  | some c => simpa using log_ne_fault v d d

theorem Coherent.isSome_of_mem {v : ServerView} (h : v.Coherent) {d : CString}
    (hd : d ∈ v.cachedNames) : (v.docs d).isSome := by
  obtain ⟨e, he, rfl⟩ := List.mem_map.mp hd
  rw [h e he]
  rfl

end ServerView

/-! ## §2. The view of a server and what the code does to it. -/

namespace Server

/-- The server from outside. -/
def view (s : Server) : ServerView where
  id := s.id
  capacity := s.cache.capacity
  docs := s.db.lookup hash_string
  cached := s.cache.entries
  pending := s.tasks.contents

/-- A server as the code leaves it. -/
structure WF (s : Server) : Prop where
  cache : s.cache.WF
  db : s.db.WF hash_string
  tasks : s.tasks.WF
  max_size : s.tasks.max_size = TASK_QUEUE_SIZE

/-- A server whose cache and database were replaced, with the view that goes with them. -/
theorem view_of_parts {s : Server} {v : ServerView} {cache : LruCache}
    {db : Hashtable CString CString} (hid : v.id = s.id) (hpending : v.pending = s.tasks.contents)
    (hcapacity : v.capacity = cache.capacity) (hdocs : db.lookup hash_string = v.docs)
    (hcached : cache.entries = v.cached) :
    ({ s with cache := cache, db := db } : Server).view = v :=
  ServerView.ext hid.symm hcapacity.symm hdocs hcached hpending.symm

end Server

/-- A size that is positive is read as itself. -/
theorem toNat_toUInt32 {size : Int32} (h : 1 ≤ size) : (size.toUInt32.toNat : ℤ) = size.toInt := by
  have hint : 1 ≤ size.toInt := Int32.le_iff_toInt_le.mp h
  have hbmod : size.toInt = (size.toUInt32.toNat : ℤ).bmod (2 ^ 32) := by
    rw [← Int32.toInt_toBitVec, BitVec.toInt_eq_toNat_bmod]
    rfl
  have hlt := size.toUInt32.toNat_lt
  rw [hbmod, Int.bmod_def] at hint ⊢
  split_ifs at * <;> omega

/-- The double of a positive int is still below `2 ^ 32`. -/
theorem toUInt32_of_pos {cache_size : Int32} (hsize : 1 ≤ cache_size) :
    cache_size.toUInt32 * 2 ≠ 0 := by
  have hint : 1 ≤ cache_size.toInt := Int32.le_iff_toInt_le.mp hsize
  have hlt := cache_size.toInt_lt
  rw [← toNat_toUInt32 hsize] at hint hlt
  intro h
  have h := congrArg UInt32.toNat h
  rw [UInt32.toNat_mul] at h
  simp at h
  omega

theorem ne_zero_of_double {cache_size : UInt32} (hdouble : cache_size * 2 ≠ 0) :
    cache_size ≠ 0 := by
  rintro rfl
  exact hdouble rfl

/-- A new server, of any size whose double, the number of buckets of the database, does not wrap
around to zero. -/
theorem init_server_spec {cache_size : UInt32} (hdouble : cache_size * 2 ≠ 0) :
    ∃ s, init_server cache_size = some s ∧ s.WF ∧
      s.view = { id := 0, capacity := cache_size.toNat, docs := fun _ => none, cached := [],
                 pending := [] } := by
  have hsize := ne_zero_of_double hdouble
  obtain ⟨cache, hcache, wf, hentries, hcapacity⟩ := init_lru_cache_spec hsize
  have hpos : 0 < (cache_size * 2).toNat :=
    Nat.pos_of_ne_zero fun h => hdouble (UInt32.toNat_inj.mp h)
  have hqueue : (q_create TASK_QUEUE_SIZE : Queue Request).Repr [] :=
    Queue.repr_create (by decide)
  refine ⟨_, (if_neg hsize).trans (congrArg _ hcache),
    ⟨wf, ht_create_wf hpos, hqueue.wf, rfl⟩, ?_⟩
  refine ServerView.ext rfl hcapacity (funext fun d => lookup_ht_create _ d) hentries ?_
  exact hqueue.contents_eq

/-- A new server with its id. -/
theorem init_server_id_spec {cache_size : UInt32} (hdouble : cache_size * 2 ≠ 0) (id : Int32) :
    ∃ s, init_server cache_size = some s ∧ ({ s with id := id } : Server).WF ∧
      ({ s with id := id } : Server).view
        = { id := id, capacity := cache_size.toNat, docs := fun _ => none, cached := [],
            pending := [] } := by
  obtain ⟨s, hs, wf, hview⟩ := init_server_spec hdouble
  have hcapacity := congrArg ServerView.capacity hview
  have hdocs := congrArg ServerView.docs hview
  have hcached := congrArg ServerView.cached hview
  have hpending := congrArg ServerView.pending hview
  exact ⟨s, hs, ⟨wf.cache, wf.db, wf.tasks, wf.max_size⟩,
    ServerView.ext rfl hcapacity hdocs hcached hpending⟩

/-- The names of the entries and of the pending edits are the documents on the server. -/
theorem mem_names_of_has {s : Server} (wf : s.WF) {d : CString} (hd : s.view.Has d) :
    d ∈ s.db.entries.map Info.key ++ s.tasks.contents.map Request.doc_name := by
  apply List.mem_append.mpr
  rcases hd with hd | ⟨r, hr, rfl⟩
  · obtain ⟨c, hc⟩ := Option.isSome_iff_exists.mp hd
    exact .inl (List.mem_map_of_mem ((mem_entries_iff wf.db ⟨d, c⟩).mpr hc))
  · exact .inr (List.mem_map_of_mem hr)

theorem mem_cachedNames_iff {s : Server} (wf : s.WF) (d : CString) :
    d ∈ s.view.cachedNames ↔ (s.cache.ht.lookup hash_string d).isSome :=
  (wf.cache.isSome_lookup d).symm

/-- The log line of a miss is the view's. -/
theorem miss_log_eq {s : Server} (wf : s.WF) {d : CString} (hd : d ∉ s.view.cachedNames) :
    miss_log (lru_cache_is_full s.cache) d
        (Recency.outcome s.cache.capacity s.cache.entries d).victim
      = .ok (s.view.log d) := by
  have hd : d ∉ Recency.keys s.cache.entries := hd
  unfold ServerView.log
  show _ = Except.ok (match Recency.outcome s.cache.capacity s.cache.entries d with
    | .hit => LOG_HIT d | .miss => LOG_MISS d | .evict victim => LOG_EVICT d victim)
  -- `full` was read before the cache was written, so it says whether a key was evicted
  rcases Nat.lt_or_eq_of_le wf.cache.entries_length_le with hroom | hfull
  · have hnot : lru_cache_is_full s.cache = false := by
      rw [Bool.eq_false_iff]
      exact fun h => Nat.ne_of_lt hroom (wf.cache.is_full_iff.mp h)
    rw [hnot, Recency.outcome_of_room hd hroom]
    rfl
  · rw [wf.cache.is_full_iff.mpr hfull]
    obtain ⟨_, victim, _, hout, _⟩ := lru_cache_put_of_full wf.cache hd hfull d
    rw [hout]
    rfl

/-- **`server_edit_document` is the view's `edit`.** -/
theorem server_edit_document_spec {s : Server} (wf : s.WF) (d c : CString) :
    ∃ s', server_edit_document s d c = .ok (s', s.view.editResponse d) ∧ s'.WF ∧
      s'.view = s.view.edit d c ∧ s'.tasks = s.tasks := by
  obtain ⟨db, hdb, db_wf, -, hdocs, -⟩ := ht_put_spec wf.db d c
  by_cases hd : d ∈ s.view.cachedNames
  · -- HIT: no key is evicted, which is why the code may pass no pointer for it
    obtain ⟨cache, hput, cache_wf, hentries, hmax⟩ := lru_cache_put_of_mem wf.cache hd c false
    have hin := (mem_cachedNames_iff wf d).mp hd
    refine ⟨{ s with cache := cache, db := db }, ?_, ⟨cache_wf, db_wf, wf.tasks, wf.max_size⟩,
      Server.view_of_parts rfl rfl (congrArg UInt32.toNat hmax).symm hdocs hentries, rfl⟩
    have hlog : s.view.log d = LOG_HIT d := by
      unfold ServerView.log
      rw [Recency.outcome_of_mem hd]
    rw [server_edit_document, ht_has_key_eq wf.cache.ht_wf, hin]
    simp only [ok_bind, if_true, hput, hdb, pure_eq_ok, ServerView.editResponse, hlog, hd, true_or]
    rfl
  · -- the database decides between MSG_B and MSG_C, the full cache between the log lines
    obtain ⟨cache, hput, cache_wf, hentries, hmax⟩ := lru_cache_put_spec wf.cache d c
    have hout := lookup_isSome_eq_false wf.cache hd
    refine ⟨{ s with cache := cache, db := db }, ?_, ⟨cache_wf, db_wf, wf.tasks, wf.max_size⟩,
      Server.view_of_parts rfl rfl (congrArg UInt32.toNat hmax).symm hdocs hentries, rfl⟩
    rw [server_edit_document, ht_has_key_eq wf.cache.ht_wf, hout, ht_has_key_eq wf.db]
    simp only [ok_bind, Bool.false_eq_true, if_false, hput, hdb, miss_log_eq wf hd, pure_eq_ok,
      ServerView.editResponse, hd, false_or]
    rfl

/-- A document in the cache: its content is read there, and the database is not asked. -/
theorem server_get_document_of_cached {s : Server} (wf : s.WF) {d : CString}
    (hd : d ∈ s.view.cachedNames) :
    ∃ s', server_get_document s d = .ok (s', (s.view.get d).2) ∧ s'.WF ∧
      s'.view = (s.view.get d).1 := by
  have hsome := KeyedList.find_isSome.mpr hd
  obtain ⟨e, he⟩ := Option.isSome_iff_exists.mp hsome
  obtain ⟨hmem, rfl⟩ := KeyedList.mem_of_find he
  obtain ⟨cache, hget, cache_wf, hentries, hmax⟩ :=
    lru_cache_get_spec wf.cache (show (e.1, e.2) ∈ s.cache.entries from hmem)
  have hin := (mem_cachedNames_iff wf e.1).mp hd
  have hlog : s.view.log e.1 = LOG_HIT e.1 := by
    unfold ServerView.log
    rw [Recency.outcome_of_mem hd]
  have hview : s.view.get e.1 = (s.view.touch e.1 e.2,
      ⟨LOG_HIT e.1, some e.2, s.id⟩) := by
    rw [ServerView.get, ServerView.cachedContent, he, hlog]
    rfl
  refine ⟨{ s with cache := cache }, ?_, ⟨cache_wf, wf.db, wf.tasks, wf.max_size⟩, ?_⟩
  · rw [server_get_document, ht_has_key_eq wf.cache.ht_wf, hin, hview]
    simp only [ok_bind, if_true, hget, pure_eq_ok]
  · rw [hview]
    exact Server.view_of_parts rfl rfl (congrArg UInt32.toNat hmax).symm rfl hentries

/-- A document that is not in the cache: the database decides. -/
theorem server_get_document_of_not_cached {s : Server} (wf : s.WF) {d : CString}
    (hd : d ∉ s.view.cachedNames) :
    ∃ s', server_get_document s d = .ok (s', (s.view.get d).2) ∧ s'.WF ∧
      s'.view = (s.view.get d).1 := by
  have hout := lookup_isSome_eq_false wf.cache hd
  have hnone : s.view.cachedContent d = none := by
    rw [ServerView.cachedContent, KeyedList.find_eq_none.mpr hd]
    rfl
  rw [server_get_document, ht_has_key_eq wf.cache.ht_wf, hout, ht_has_key_eq wf.db,
    ht_get_eq wf.db]
  cases hc : s.db.lookup hash_string d with
  | none =>
    -- in neither: the server answers and stays as it is
    have hview : s.view.get d = (s.view, ⟨LOG_FAULT d, none, s.id⟩) := by
      rw [ServerView.get, hnone, Option.none_or, show s.view.docs d = none from hc]
      rfl
    refine ⟨s, ?_, wf, by rw [hview]⟩
    rw [hview]
    rfl
  | some c =>
    -- in the database only: the content goes through the cache, which may evict for it
    obtain ⟨cache, hput, cache_wf, hentries, hmax⟩ := lru_cache_put_spec wf.cache d c
    have hview : s.view.get d = (s.view.touch d c, ⟨s.view.log d, some c, s.id⟩) := by
      rw [ServerView.get, hnone, Option.none_or, show s.view.docs d = some c from hc]
      rfl
    refine ⟨{ s with cache := cache }, ?_, ⟨cache_wf, wf.db, wf.tasks, wf.max_size⟩, ?_⟩
    · rw [hview]
      simp only [ok_bind, Bool.false_eq_true, if_false, Option.isSome_some, if_true, hput,
        miss_log_eq wf hd, pure_eq_ok]
    · rw [hview]
      exact Server.view_of_parts rfl rfl (congrArg UInt32.toNat hmax).symm rfl hentries

/-- **`server_get_document` is the view's `get`.** -/
theorem server_get_document_spec {s : Server} (wf : s.WF) (d : CString) :
    ∃ s', server_get_document s d = .ok (s', (s.view.get d).2) ∧ s'.WF ∧
      s'.view = (s.view.get d).1 := by
  by_cases hd : d ∈ s.view.cachedNames
  · exact server_get_document_of_cached wf hd
  · exact server_get_document_of_not_cached wf hd

/-- The loop of `execute_queue` runs the pending edits in their order. -/
theorem execute_queue_loop_spec (rs : List Request) {s : Server} (wf : s.WF)
    (hrs : s.tasks.contents = rs) (rounds : ℕ) (hrounds : rs.length ≤ rounds) :
    ∃ s', execute_queue_loop rounds s = .ok (s', s.view.executed rs) ∧ s'.WF ∧
      s'.view = { s.view.edits rs with pending := [] } := by
  induction rs generalizing s rounds with
  | nil =>
    have hrepr : s.tasks.Repr [] := hrs ▸ wf.tasks
    refine ⟨s, ?_, wf, ?_⟩
    · rw [execute_queue_loop.eq_def, hrepr.is_empty]
      rfl
    · rw [ServerView.edits_nil, ← hrs]
      rfl
  | cons r rs ih =>
    have hrepr : s.tasks.Repr (r :: rs) := hrs ▸ wf.tasks
    obtain ⟨rounds, rfl⟩ : ∃ n, rounds = n + 1 :=
      ⟨rounds - 1, by simp at hrounds; omega⟩
    obtain ⟨s₁, hedit, wf₁, hview₁, htasks₁⟩ :=
      server_edit_document_spec wf r.doc_name r.doc_content
    have hrest := hrepr.dequeue
    -- the request leaves the queue only after the edit, which has not looked at the queue
    let s₂ : Server := { s₁ with tasks := (q_dequeue_request s₁.tasks).1 }
    have hrepr₂ : s₂.tasks.Repr rs := by
      show (q_dequeue_request s₁.tasks).1.Repr rs
      rwa [htasks₁]
    have wf₂ : s₂.WF := by
      refine ⟨wf₁.cache, wf₁.db, hrepr₂.wf, ?_⟩
      exact (Queue.max_size_dequeue s₁.tasks).trans wf₁.max_size
    have hview₂ : s₂.view = { s.view.edit r.doc_name r.doc_content with pending := rs } := by
      rw [← hview₁, ← hrepr₂.contents_eq]
      rfl
    -- edits and log lines of the rest do not depend on what is pending
    obtain ⟨s', hloop, wf', hview'⟩ :=
      ih wf₂ hrepr₂.contents_eq rounds (by simpa using hrounds)
    rw [hview₂, ServerView.executed_setPending] at hloop
    rw [hview₂, ServerView.edits_setPending] at hview'
    refine ⟨s', ?_, wf', hview'⟩
    rw [execute_queue_loop, hrepr.is_empty]
    simp only [List.isEmpty_cons, Bool.false_eq_true, if_false, hrepr.front, hedit, ok_bind]
    rw [hloop]
    rfl

/-- **`execute_queue` drains the server.** -/
theorem execute_queue_spec {s : Server} (wf : s.WF) :
    ∃ s', execute_queue s = .ok (s', s.view.executed s.view.pending) ∧ s'.WF ∧
      s'.view = s.view.drained :=
  execute_queue_loop_spec s.tasks.contents wf rfl s.tasks.size (by rw [wf.tasks.size_eq])

/-- **A GET drains the server and reads the document.** -/
theorem server_handle_get_spec {s : Server} (wf : s.WF) (req : Request)
    (htype : req.type = .GET_DOCUMENT) :
    ∃ s', server_handle_request s req
        = .ok (s', some (s.view.drained.get req.doc_name).2, s.view.executed s.view.pending) ∧
      s'.WF ∧ s'.view = (s.view.drained.get req.doc_name).1 := by
  obtain ⟨s₁, hexec, wf₁, hview₁⟩ := execute_queue_spec wf
  obtain ⟨s₂, hget, wf₂, hview₂⟩ := server_get_document_spec wf₁ req.doc_name
  rw [hview₁] at hget hview₂
  refine ⟨s₂, ?_, wf₂, hview₂⟩
  rw [server_handle_request, htype]
  simp only [hexec, hget, ok_bind, pure_eq_ok]

/-- **An EDIT is queued** while there is room, and dropped otherwise; the response is the same. -/
theorem server_handle_edit_spec {s : Server} (wf : s.WF) (req : Request)
    (htype : req.type = .EDIT_DOCUMENT) :
    ∃ s', server_handle_request s req = .ok (s', some (s.view.acknowledge req), []) ∧ s'.WF ∧
      s'.view = s.view.accept req := by
  have hsize : s.tasks.size = s.view.pending.length := wf.tasks.size_eq
  have hle := wf.tasks.size_le
  have hmax := wf.max_size
  have hqueue : (q_enqueue_request s.tasks req).1.Repr (s.view.accept req).pending := by
    unfold ServerView.accept
    by_cases hroom : s.view.pending.length < TASK_QUEUE_SIZE
    · rw [if_pos hroom]
      exact wf.tasks.enqueue (by omega) req
    · rw [if_neg hroom, Queue.q_enqueue_request_of_full (by omega)]
      exact wf.tasks
  refine ⟨{ s with tasks := (q_enqueue_request s.tasks req).1 }, ?_,
    ⟨wf.cache, wf.db, hqueue.wf, (Queue.max_size_enqueue _ _).trans hmax⟩, ?_⟩
  · rw [server_handle_request, htype]
    simp only [hqueue.size_eq, pure_eq_ok]
    rfl
  · unfold ServerView.accept at hqueue ⊢
    split_ifs at hqueue ⊢ <;> exact ServerView.ext rfl rfl rfl rfl hqueue.contents_eq

end DistDb
