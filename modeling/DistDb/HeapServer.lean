/-
  DistDb.HeapServer — the servers of `server.c` on the heap.

  `DistDb.Server` has the cache and the database of a server as sequences.  Here the order list of
  the cache and the chains of the database are linked lists in one memory, which other servers may
  share: an edit writes the same document to both, each time through links, records and addresses of
  its own.

  A `Coupled` server is a server on the heap with the server of `DistDb.Server` that it stands for.
  Every function of `server.c` keeps the two coupled, answers the same on both, and leaves what
  else is in the memory as it is.

  Main results:
    * `Coupled.edit_document`, `Coupled.get_document` — one document,
    * `Coupled.execute_queue` — the pending edits,
    * `Coupled.handle_request` — a request,
    * `Coupled.free_server` — releasing the server leaves what else is in the memory.
-/
import DistDb.HeapCache
import DistDb.HeapTable
import DistDb.RequestQueue
import DistDb.ServerView

namespace DistDb.Nodes

open Lib

/-! ## §1. The operations. -/

/-- `server`, but for the memory that the order list of its cache and the buckets of its database
lie in. -/
structure HeapServer where
  id : Int32
  order : LlList
  ht : Hashtable CString ℕ
  tasks : Queue Request
  buckets : List LlList
  size : ℕ
  hmax : UInt32

namespace HeapServer

/-- `s->cache` -/
def cache (s : HeapServer) (mem : Memory) : HeapCache :=
  { mem := mem, order := s.order, ht := s.ht }

/-- `s->db` -/
def db (s : HeapServer) (mem : Memory) : Table.HeapTable :=
  { mem := mem, buckets := s.buckets, size := s.size, hmax := s.hmax }

/-- The server with what an operation has made of its cache. -/
def setCache (s : HeapServer) (cache : HeapCache) : HeapServer :=
  { s with order := cache.order, ht := cache.ht }

/-- The server with what an operation has made of its database. -/
def setDb (s : HeapServer) (db : Table.HeapTable) : HeapServer :=
  { s with buckets := db.buckets, size := db.size, hmax := db.hmax }

/-- The lists of the server that lie in the memory. -/
def lists (s : HeapServer) : List LlList := s.order :: s.buckets

end HeapServer

/-- NULL for the cache size zero; the id is set by the caller. -/
def init_server (mem : Memory) (cache_size : UInt32) : Option HeapServer :=
  if cache_size = 0 then none
  else (init_lru_cache mem cache_size).map fun cache =>
    let db := Table.ht_create mem (cache_size * 2)
    { id := 0
      order := cache.order
      ht := cache.ht
      tasks := q_create TASK_QUEUE_SIZE
      buckets := db.buckets
      size := db.size
      hmax := db.hmax }

/-- Write a document to the cache and to the database. -/
def server_edit_document (allocator : Allocator) (mem : Memory) (s : HeapServer)
    (doc_name doc_content : CString) : Exec (Memory × HeapServer × Response) := do
  if ← DistDb.ht_has_key hash_string (s.cache mem).ht doc_name then
    let (cache, _, _) ←
      lru_cache_put allocator.malloc (s.cache mem) doc_name doc_content false
    let s := s.setCache cache
    let db ← Table.ht_put hash_string allocator.malloc (s.db cache.mem) doc_name doc_content
    pure (db.mem, s.setDb db,
      { server_log := LOG_HIT doc_name, server_response := some (MSG_B doc_name),
        server_id := s.id })
  else
    let full := lru_cache_is_full (s.cache mem)
    let server_response :=
      if ← Table.ht_has_key hash_string (s.db mem) doc_name then MSG_B doc_name
      else MSG_C doc_name
    let (cache, _, evicted_key) ←
      lru_cache_put allocator.malloc (s.cache mem) doc_name doc_content true
    let s := s.setCache cache
    let db ← Table.ht_put hash_string allocator.malloc (s.db cache.mem) doc_name doc_content
    let server_log ← miss_log full doc_name evicted_key
    pure (db.mem, s.setDb db,
      { server_log := server_log, server_response := some server_response, server_id := s.id })

/-- Read a document from the cache, or else from the database into the cache. -/
def server_get_document (allocator : Allocator) (mem : Memory) (s : HeapServer)
    (doc_name : CString) : Exec (Memory × HeapServer × Response) := do
  if ← DistDb.ht_has_key hash_string (s.cache mem).ht doc_name then
    match ← lru_cache_get allocator.malloc (s.cache mem) doc_name with
    | (_, none) => throw .nullPointer
    | (cache, some doc_content) =>
      pure (cache.mem, s.setCache cache,
        { server_log := LOG_HIT doc_name, server_response := some doc_content,
          server_id := s.id })
  else if ← Table.ht_has_key hash_string (s.db mem) doc_name then
    let full := lru_cache_is_full (s.cache mem)
    match ← Table.ht_get hash_string (s.db mem) doc_name with
    | none => throw .nullPointer
    | some doc_content =>
      let (cache, _, evicted_key) ←
        lru_cache_put allocator.malloc (s.cache mem) doc_name doc_content true
      let server_log ← miss_log full doc_name evicted_key
      pure (cache.mem, s.setCache cache,
        { server_log := server_log, server_response := some doc_content, server_id := s.id })
  else
    pure (mem, s,
      { server_log := LOG_FAULT doc_name, server_response := none, server_id := s.id })

/-- The loop of `execute_queue`, for at most `rounds` rounds, each with an allocator of its own. -/
def execute_queue_loop (allocators : ℕ → Allocator) (rounds : ℕ) (mem : Memory)
    (s : HeapServer) : Exec (Memory × HeapServer × List Executed) :=
  if q_is_empty s.tasks then pure (mem, s, [])
  else
    match rounds with
    | 0 => throw .outOfFuel
    | rounds + 1 =>
      match q_front s.tasks with
      | none => throw .nullPointer
      | some task => do
        let (mem, s, res) ←
          server_edit_document (allocators rounds) mem s task.doc_name task.doc_content
        let s := { s with tasks := (q_dequeue_request s.tasks).1 }
        let (mem, s, executed) ← execute_queue_loop allocators rounds mem s
        pure (mem, s, ⟨task, res⟩ :: executed)

/-- Execute all the pending edits. -/
def execute_queue (allocators : ℕ → Allocator) (mem : Memory) (s : HeapServer) :
    Exec (Memory × HeapServer × List Executed) :=
  execute_queue_loop allocators s.tasks.size mem s

/-- Handle a request of the load balancer. -/
def server_handle_request (allocators : ℕ → Allocator) (mem : Memory) (s : HeapServer)
    (req : Request) : Exec (Memory × HeapServer × Option Response × List Executed) :=
  match req.type with
  | .GET_DOCUMENT => do
    let (mem, s, executed) ← execute_queue (fun n => allocators (n + 1)) mem s
    let (mem, s, res) ← server_get_document (allocators 0) mem s req.doc_name
    pure (mem, s, some res, executed)
  | .EDIT_DOCUMENT =>
    let s := { s with tasks := (q_enqueue_request s.tasks req).1 }
    pure (mem, s, some
      { server_log := LOG_LAZY_EXEC s.tasks.size
        server_response := some (MSG_A EDIT_REQUEST req.doc_name)
        server_id := s.id }, [])
  | _ => pure (mem, s, none, [])

/-- Release the server.  The requests of its queue are not in this memory. -/
def free_server (mem : Memory) (s : HeapServer) : Exec Memory := do
  let mem ← free_lru_cache (s.cache mem)
  let _ ← q_free_request s.tasks
  Table.ht_free (s.db mem)

/-! ## §2. Coupled servers. -/

/-- The server on the heap stands for the other one: its order list has the nodes `order`, with the
pairs of the other's cache, and its chains have the nodes `chains`, with the other's records. -/
structure StandsFor (heap : HeapServer) (plain : Server) (order : List Entry)
    (chains : List (List Entry)) : Prop where
  wf : plain.WF
  id_eq : heap.id = plain.id
  tasks_eq : heap.tasks = plain.tasks
  indexes : Indexes heap.ht order
  pairs_eq : pairs order = plain.cache.entries
  capacity_eq : heap.ht.hmax.toNat = plain.cache.capacity
  chains_eq : plain.db.buckets = chains.map (List.map fun e => e.info)
  size_eq : heap.size = plain.db.size
  hmax_eq : heap.hmax = plain.db.hmax

/-- A server on the heap and the one that it stands for. -/
structure Coupled where
  heap : HeapServer
  plain : Server
  order : List Entry
  chains : List (List Entry)
  stands_for : StandsFor heap plain order chains

namespace Coupled

/-- The memory is `base` with the lists of the server. -/
def On (base mem : Memory) (p : Coupled) : Prop :=
  Table.Buckets base mem p.heap.lists (p.order :: p.chains)

variable {base mem : Memory} {p : Coupled}

theorem On.finite (h : p.On base mem) (hbase : base.Finite) (es : List Entry) :
    (mem.outside es).Finite :=
  (h.owned.memory.finite hbase).outside es

/-! ### The cache. -/

/-- For the cache the chains are part of the rest. -/
theorem On.cache (h : p.On base mem) :
    StandsOn (mem.outside p.order) p.plain.cache.capacity (p.heap.cache mem) p.order where
  chained := (List.forall₂_cons.mp h.chained).1
  memory := over_outside mem p.order
  indexes := p.stands_for.indexes
  capacity := p.stands_for.capacity_eq
  length_le := by
    rw [← length_pairs, p.stands_for.pairs_eq]
    exact p.stands_for.wf.cache.entries_length_le

/-- An operation on the caches that leaves them with the same pairs. -/
theorem On.setCache (h : p.On base mem) {cache : HeapCache} {order : List Entry}
    {plain : LruCache}
    (hcache : StandsOn (mem.outside p.order) p.plain.cache.capacity cache order)
    (wf : plain.WF) (hpairs : pairs order = plain.entries)
    (hmax : plain.ht.hmax = p.plain.cache.ht.hmax) :
    ∃ p' : Coupled, p'.heap = p.heap.setCache cache ∧
      p'.plain = { p.plain with cache := plain } ∧ p'.On base cache.mem := by
  have hcapacity : cache.ht.hmax.toNat = plain.capacity :=
    hcache.capacity.trans (congrArg UInt32.toNat hmax).symm
  have hs := p.stands_for
  refine ⟨⟨p.heap.setCache cache, { p.plain with cache := plain }, order, p.chains,
    ⟨wf, hs.wf.db, hs.wf.tasks, hs.wf.max_size⟩, hs.id_eq, hs.tasks_eq, hcache.indexes, hpairs,
    hcapacity, hs.chains_eq, hs.size_eq, hs.hmax_eq⟩, rfl, rfl, ?_⟩
  exact Table.Buckets.set_head h hcache.chained hcache.memory

theorem On.has_key_eq (h : p.On base mem) (key : CString) :
    DistDb.ht_has_key hash_string (p.heap.cache mem).ht key
      = DistDb.ht_has_key hash_string p.plain.cache.ht key := by
  rw [h.cache.ht_has_key_eq, DistDb.ht_has_key_eq p.stands_for.wf.cache.ht_wf]
  congr 1
  rw [← keys_pairs, p.stands_for.pairs_eq, eq_comm, Bool.eq_iff_iff, decide_eq_true_iff]
  exact p.stands_for.wf.cache.isSome_lookup key

theorem On.is_full_eq (h : p.On base mem) :
    lru_cache_is_full (p.heap.cache mem) = DistDb.lru_cache_is_full p.plain.cache := by
  have hs := p.stands_for
  have hsize : p.heap.ht.size = p.plain.cache.ht.size := by
    rw [hs.indexes.size_eq, ← length_pairs, hs.pairs_eq, LruCache.length_entries,
      hs.wf.cache.size_eq]
  rw [lru_cache_is_full, DistDb.lru_cache_is_full, h.cache.capacity]
  show (_ == p.heap.ht.size) = _
  rw [hsize]
  rfl

/-- `lru_cache_put` with a place for the evicted key. -/
theorem On.cache_put (hbase : base.Finite) (h : p.On base mem) (allocator : Allocator)
    (key value : CString) :
    ∃ cache plain, ∃ p' : Coupled,
      lru_cache_put allocator.malloc (p.heap.cache mem) key value true
        = .ok (cache,
            (Recency.outcome p.plain.cache.capacity p.plain.cache.entries key).isNew,
            (Recency.outcome p.plain.cache.capacity p.plain.cache.entries key).victim) ∧
      DistDb.lru_cache_put p.plain.cache key value true
        = .ok (plain,
            (Recency.outcome p.plain.cache.capacity p.plain.cache.entries key).isNew,
            (Recency.outcome p.plain.cache.capacity p.plain.cache.entries key).victim) ∧
      p'.heap = p.heap.setCache cache ∧ p'.plain = { p.plain with cache := plain } ∧
      p'.On base cache.mem := by
  obtain ⟨plain, hplain, wf, hentries, hmax⟩ :=
    DistDb.lru_cache_put_spec p.stands_for.wf.cache key value
  obtain ⟨cache, order, hput, hcache, hpairs⟩ :=
    lru_cache_put_spec (h.finite hbase _) h.cache allocator key value
  rw [p.stands_for.pairs_eq] at hput hpairs
  obtain ⟨p', hp'⟩ := h.setCache hcache wf (hpairs.trans hentries.symm) hmax
  exact ⟨cache, plain, p', hput, hplain, hp'⟩

/-- `lru_cache_put` of a key that is cached, without such a place. -/
theorem On.cache_put_hit (hbase : base.Finite) (h : p.On base mem) (allocator : Allocator)
    {key : CString} (hkey : key ∈ Recency.keys p.plain.cache.entries) (value : CString) :
    ∃ cache plain, ∃ p' : Coupled,
      lru_cache_put allocator.malloc (p.heap.cache mem) key value false
        = .ok (cache, false, none) ∧
      DistDb.lru_cache_put p.plain.cache key value false = .ok (plain, false, none) ∧
      p'.heap = p.heap.setCache cache ∧ p'.plain = { p.plain with cache := plain } ∧
      p'.On base cache.mem := by
  obtain ⟨plain, hplain, wf, hentries, hmax⟩ :=
    lru_cache_put_of_mem p.stands_for.wf.cache hkey value false
  have hcache := h.cache
  have hpairs := p.stands_for.pairs_eq
  have hnodup := hcache.indexes.keys_nodup
  rw [← hpairs, keys_pairs] at hkey
  -- the node of the key moves to the end of the order list, whatever its place
  obtain ⟨xs, e, ys, horder, rfl⟩ := exists_middle hkey
  rw [horder] at hcache hpairs hnodup
  obtain ⟨cache, new, hput, hnew, hcache'⟩ :=
    lru_cache_put_hit (h.finite hbase _) hcache allocator value false
  rw [← horder] at hcache'
  obtain ⟨p', hp'⟩ := h.setCache hcache' wf
    ((pairs_moved hnodup hnew).trans (by rw [hpairs, hentries])) hmax
  exact ⟨cache, plain, p', hput, hplain, hp'⟩

/-- `lru_cache_get` of a key that is cached. -/
theorem On.cache_get (hbase : base.Finite) (h : p.On base mem) (allocator : Allocator)
    {key : CString} (hkey : key ∈ Recency.keys p.plain.cache.entries) :
    ∃ cache plain value, ∃ p' : Coupled,
      lru_cache_get allocator.malloc (p.heap.cache mem) key = .ok (cache, some value) ∧
      DistDb.lru_cache_get p.plain.cache key = .ok (plain, some value) ∧
      p'.heap = p.heap.setCache cache ∧ p'.plain = { p.plain with cache := plain } ∧
      p'.On base cache.mem := by
  obtain ⟨⟨_, value⟩, hmem, rfl⟩ := List.mem_map.mp hkey
  obtain ⟨plain, hplain, wf, hentries, hmax⟩ :=
    DistDb.lru_cache_get_spec p.stands_for.wf.cache hmem
  rw [← p.stands_for.pairs_eq] at hmem
  obtain ⟨cache, order, hget, hcache, hpairs⟩ :=
    lru_cache_get_spec (h.finite hbase _) h.cache allocator hmem
  rw [p.stands_for.pairs_eq] at hpairs
  obtain ⟨p', hp'⟩ := h.setCache hcache wf (hpairs.trans hentries.symm) hmax
  exact ⟨cache, plain, value, p', hget, hplain, hp'⟩

/-- `lru_cache_remove` -/
theorem On.cache_remove (h : p.On base mem) (key : CString) :
    ∃ cache plain, ∃ p' : Coupled,
      lru_cache_remove (p.heap.cache mem) key = .ok cache ∧
      DistDb.lru_cache_remove p.plain.cache key = .ok plain ∧
      p'.heap = p.heap.setCache cache ∧ p'.plain = { p.plain with cache := plain } ∧
      p'.On base cache.mem := by
  obtain ⟨plain, hplain, wf, hentries, hmax⟩ :=
    DistDb.lru_cache_remove_spec p.stands_for.wf.cache key
  obtain ⟨cache, order, hremove, hcache, hpairs⟩ := lru_cache_remove_spec h.cache key
  rw [p.stands_for.pairs_eq] at hpairs
  obtain ⟨p', hp'⟩ := h.setCache hcache wf (hpairs.trans hentries.symm) hmax
  exact ⟨cache, plain, p', hremove, hplain, hp'⟩

/-! ### The database. -/

theorem On.chains_length (h : p.On base mem) : p.heap.buckets.length = p.chains.length :=
  (List.forall₂_cons.mp h.chained).2.length_eq

/-- The order list of the cache, and behind it the chains of the database. -/
theorem On.split (h : p.On base mem) :
    Table.Buckets base mem ([p.heap.order] ++ p.heap.buckets) ([p.order] ++ p.chains) := h

/-- For the database the order list is part of the rest. -/
theorem On.db (h : p.On base mem) :
    Table.Stands (mem.outside p.chains.flatten) (p.heap.db mem) p.plain.db p.chains where
  buckets := (h.split.swap rfl).focus h.chains_length
  chains_eq := p.stands_for.chains_eq
  size_eq := p.stands_for.size_eq
  hmax_eq := p.stands_for.hmax_eq

/-- An operation on the databases that leaves them with the same records. -/
theorem On.setDb (h : p.On base mem) {db : Table.HeapTable} {plain : Hashtable CString CString}
    {chains : List (List Entry)}
    (hdb : Table.Stands (mem.outside p.chains.flatten) db plain chains)
    (wf : plain.WF hash_string) :
    ∃ p' : Coupled, p'.heap = p.heap.setDb db ∧ p'.plain = { p.plain with db := plain } ∧
      p'.On base db.mem := by
  have hs := p.stands_for
  refine ⟨⟨p.heap.setDb db, { p.plain with db := plain }, p.order, chains,
    ⟨hs.wf.cache, wf, hs.wf.tasks, hs.wf.max_size⟩, hs.id_eq, hs.tasks_eq, hs.indexes,
    hs.pairs_eq, hs.capacity_eq, hdb.chains_eq, hdb.size_eq, hdb.hmax_eq⟩, rfl, rfl, ?_⟩
  -- with the chains in front, the order list is what the operation on them leaves alone
  have hreplaced := (h.split.swap rfl).replace h.chains_length hdb.buckets
  exact hreplaced.swap hdb.buckets.chained.length_eq

theorem On.db_has_key_eq (h : p.On base mem) (key : CString) :
    Table.ht_has_key hash_string (p.heap.db mem) key
      = DistDb.ht_has_key hash_string p.plain.db key :=
  h.db.ht_has_key_eq p.stands_for.wf.db key

theorem On.db_get_eq (h : p.On base mem) (key : CString) :
    Table.ht_get hash_string (p.heap.db mem) key = DistDb.ht_get hash_string p.plain.db key :=
  h.db.ht_get_eq p.stands_for.wf.db key

/-- `ht_put` -/
theorem On.db_put (hbase : base.Finite) (h : p.On base mem) (allocator : Allocator)
    (key value : CString) :
    ∃ db plain, ∃ p' : Coupled,
      Table.ht_put hash_string allocator.malloc (p.heap.db mem) key value = .ok db ∧
      DistDb.ht_put hash_string p.plain.db key value = .ok plain ∧
      p'.heap = p.heap.setDb db ∧ p'.plain = { p.plain with db := plain } ∧
      p'.On base db.mem := by
  obtain ⟨plain, hplain, wf, -⟩ := ht_put_spec p.stands_for.wf.db key value
  obtain ⟨db, plain', chains, hput, hplain', hdb⟩ :=
    h.db.put (h.finite hbase _) p.stands_for.wf.db allocator key value
  cases hplain.symm.trans hplain'
  obtain ⟨p', hp'⟩ := h.setDb hdb wf
  exact ⟨db, plain, p', hput, hplain, hp'⟩

/-- `ht_remove_entry` -/
theorem On.db_remove (h : p.On base mem) (key : CString) :
    ∃ db plain, ∃ p' : Coupled,
      Table.ht_remove_entry hash_string (p.heap.db mem) key = .ok db ∧
      DistDb.ht_remove_entry hash_string p.plain.db key = .ok plain ∧
      p'.heap = p.heap.setDb db ∧ p'.plain = { p.plain with db := plain } ∧
      p'.On base db.mem := by
  obtain ⟨plain, hplain, wf, -⟩ := ht_remove_entry_spec p.stands_for.wf.db key
  obtain ⟨db, plain', chains, hremove, hplain', hdb⟩ := h.db.remove p.stands_for.wf.db key
  cases hplain.symm.trans hplain'
  obtain ⟨p', hp'⟩ := h.setDb hdb wf
  exact ⟨db, plain, p', hremove, hplain, hp'⟩

/-! ### One document. -/

/-- Write a document to the database of a server whose cache has been written. -/
theorem edit_db (hbase : base.Finite) (h : p.On base mem) (allocator : Allocator)
    {heap : HeapServer} {plain : Server} (hheap : p.heap = heap) (hplain : p.plain = plain)
    (key value : CString) :
    ∃ db db_plain, ∃ p' : Coupled,
      Table.ht_put hash_string allocator.malloc (heap.db mem) key value = .ok db ∧
      DistDb.ht_put hash_string plain.db key value = .ok db_plain ∧
      p'.heap = heap.setDb db ∧ p'.plain = { plain with db := db_plain } ∧
      p'.On base db.mem := by
  subst hheap hplain
  exact h.db_put hbase allocator key value

/-- **`server_edit_document`** -/
theorem edit_document (hbase : base.Finite) (h : p.On base mem) (allocator : Allocator)
    (d c : CString) :
    ∃ mem' res, ∃ p' : Coupled,
      server_edit_document allocator mem p.heap d c = .ok (mem', p'.heap, res) ∧
      DistDb.server_edit_document p.plain d c = .ok (p'.plain, res) ∧ p'.On base mem' := by
  have hs := p.stands_for
  have hhas := DistDb.ht_has_key_eq hs.wf.cache.ht_wf d
  by_cases hd : d ∈ Recency.keys p.plain.cache.entries
  · -- a hit: nothing is evicted, and the log does not depend on the database
    obtain ⟨cache, plain, p₁, hput, hput', hheap, hplain, h₁⟩ :=
      h.cache_put_hit hbase allocator hd c
    obtain ⟨db, db_plain, p₂, hdb, hdb', hheap₂, hplain₂, h₂⟩ :=
      edit_db hbase h₁ allocator hheap hplain d c
    rw [(hs.wf.cache.isSome_lookup d).mpr hd] at hhas
    refine ⟨db.mem, ⟨LOG_HIT d, some (MSG_B d), p.plain.id⟩, p₂, ?_, ?_, h₂⟩
    · rw [server_edit_document, h.has_key_eq, hhas, ok_bind, if_pos rfl, hput, ok_bind]
      show (Table.ht_put hash_string allocator.malloc ((p.heap.setCache cache).db cache.mem) d c
        >>= _) = _
      rw [hdb, ok_bind, hheap₂, ← hs.id_eq]
      rfl
    · rw [DistDb.server_edit_document, hhas, ok_bind, if_pos rfl, hput', ok_bind]
      show (DistDb.ht_put hash_string p.plain.db d c >>= _) = _
      rw [hdb', ok_bind, hplain₂]
      rfl
  · -- a miss: the message depends on the database before the edit, the log on the cache before it
    obtain ⟨cache, plain, p₁, hput, hput', hheap, hplain, h₁⟩ := h.cache_put hbase allocator d c
    obtain ⟨db, db_plain, p₂, hdb, hdb', hheap₂, hplain₂, h₂⟩ :=
      edit_db hbase h₁ allocator hheap hplain d c
    have hlog := miss_log_eq hs.wf hd
    rw [lookup_isSome_eq_false hs.wf.cache hd] at hhas
    have hhas_db := DistDb.ht_has_key_eq hs.wf.db d
    refine ⟨db.mem, ⟨p.plain.view.log d, some (if (p.plain.db.lookup hash_string d).isSome
      then MSG_B d else MSG_C d), p.plain.id⟩, p₂, ?_, ?_, h₂⟩
    · rw [server_edit_document, h.has_key_eq, hhas, ok_bind, if_neg Bool.false_ne_true,
        h.db_has_key_eq, hhas_db, ok_bind, hput, ok_bind]
      show (Table.ht_put hash_string allocator.malloc ((p.heap.setCache cache).db cache.mem) d c
        >>= _) = _
      rw [hdb, ok_bind, h.is_full_eq, hlog, ok_bind, hheap₂, ← hs.id_eq]
      rfl
    · rw [DistDb.server_edit_document, hhas, ok_bind, if_neg Bool.false_ne_true, hhas_db, ok_bind,
        hput', ok_bind]
      show (DistDb.ht_put hash_string p.plain.db d c >>= _) = _
      rw [hdb', ok_bind, hlog, ok_bind, hplain₂]
      rfl

/-- **`server_get_document`** -/
theorem get_document (hbase : base.Finite) (h : p.On base mem) (allocator : Allocator)
    (d : CString) :
    ∃ mem' res, ∃ p' : Coupled,
      server_get_document allocator mem p.heap d = .ok (mem', p'.heap, res) ∧
      DistDb.server_get_document p.plain d = .ok (p'.plain, res) ∧ p'.On base mem' := by
  have hs := p.stands_for
  have hhas := DistDb.ht_has_key_eq hs.wf.cache.ht_wf d
  by_cases hd : d ∈ Recency.keys p.plain.cache.entries
  · obtain ⟨cache, plain, value, p₁, hget, hget', hheap, hplain, h₁⟩ :=
      h.cache_get hbase allocator hd
    rw [(hs.wf.cache.isSome_lookup d).mpr hd] at hhas
    refine ⟨cache.mem, ⟨LOG_HIT d, some value, p.plain.id⟩, p₁, ?_, ?_, h₁⟩
    · rw [server_get_document, h.has_key_eq, hhas, ok_bind, if_pos rfl, hget, ok_bind, hheap,
        ← hs.id_eq]
      rfl
    · rw [DistDb.server_get_document, hhas, ok_bind, if_pos rfl, hget', ok_bind, hplain]
      rfl
  · rw [lookup_isSome_eq_false hs.wf.cache hd] at hhas
    have hhas_db := DistDb.ht_has_key_eq hs.wf.db d
    have hget := DistDb.ht_get_eq hs.wf.db d
    cases hdoc : p.plain.db.lookup hash_string d with
    | none =>
      rw [hdoc] at hhas_db
      refine ⟨mem, ⟨LOG_FAULT d, none, p.plain.id⟩, p, ?_, ?_, h⟩
      · rw [server_get_document, h.has_key_eq, hhas, ok_bind, if_neg Bool.false_ne_true,
          h.db_has_key_eq, hhas_db, ← hs.id_eq]
        rfl
      · rw [DistDb.server_get_document, hhas, ok_bind, if_neg Bool.false_ne_true, hhas_db]
        rfl
    | some c =>
      -- the content goes through the cache, which may evict for it
      rw [hdoc] at hhas_db hget
      obtain ⟨cache, plain, p₁, hput, hput', hheap, hplain, h₁⟩ := h.cache_put hbase allocator d c
      have hlog := miss_log_eq hs.wf hd
      refine ⟨cache.mem, ⟨p.plain.view.log d, some c, p.plain.id⟩, p₁, ?_, ?_, h₁⟩
      · rw [server_get_document, h.has_key_eq, hhas, ok_bind, if_neg Bool.false_ne_true,
          h.db_has_key_eq, hhas_db, ok_bind]
        show (Table.ht_get hash_string (p.heap.db mem) d >>= _) = _
        rw [h.db_get_eq, hget, ok_bind]
        show (lru_cache_put allocator.malloc (p.heap.cache mem) d c true >>= _) = _
        rw [hput, ok_bind, h.is_full_eq]
        show (miss_log (DistDb.lru_cache_is_full p.plain.cache) d
          (Recency.outcome p.plain.cache.capacity p.plain.cache.entries d).victim >>= _) = _
        rw [hlog, ok_bind, hheap, ← hs.id_eq]
        rfl
      · rw [DistDb.server_get_document, hhas, ok_bind, if_neg Bool.false_ne_true, hhas_db, ok_bind]
        show (DistDb.ht_get hash_string p.plain.db d >>= _) = _
        rw [hget, ok_bind]
        show (DistDb.lru_cache_put p.plain.cache d c true >>= _) = _
        rw [hput', ok_bind]
        show (miss_log (DistDb.lru_cache_is_full p.plain.cache) d
          (Recency.outcome p.plain.cache.capacity p.plain.cache.entries d).victim >>= _) = _
        rw [hlog, ok_bind, hplain]
        rfl

/-! ### Requests. -/

/-- Another queue in both servers. -/
theorem On.setTasks (h : p.On base mem) {tasks : Queue Request} (wf : tasks.WF)
    (hmax : tasks.max_size = TASK_QUEUE_SIZE) :
    ∃ p' : Coupled, p'.heap = { p.heap with tasks := tasks } ∧
      p'.plain = { p.plain with tasks := tasks } ∧ p'.On base mem := by
  have hs := p.stands_for
  exact ⟨⟨{ p.heap with tasks := tasks }, { p.plain with tasks := tasks }, p.order, p.chains,
    ⟨hs.wf.cache, hs.wf.db, wf, hmax⟩, hs.id_eq, rfl, hs.indexes, hs.pairs_eq, hs.capacity_eq,
    hs.chains_eq, hs.size_eq, hs.hmax_eq⟩, rfl, rfl, h⟩

/-- The loop of `execute_queue`: a round edits one document, and then takes its request out. -/
theorem execute_queue_loop (hbase : base.Finite) (rs : List Request) (h : p.On base mem)
    (hrs : p.plain.tasks.contents = rs) (allocators : ℕ → Allocator) {rounds : ℕ}
    (hrounds : rs.length ≤ rounds) :
    ∃ mem' executed, ∃ p' : Coupled,
      Nodes.execute_queue_loop allocators rounds mem p.heap = .ok (mem', p'.heap, executed) ∧
      DistDb.execute_queue_loop rounds p.plain = .ok (p'.plain, executed) ∧ p'.On base mem' := by
  induction rs generalizing p mem rounds with
  | nil =>
    have hrepr : p.plain.tasks.Repr [] := hrs ▸ p.stands_for.wf.tasks
    refine ⟨mem, [], p, ?_, ?_, h⟩
    · rw [Nodes.execute_queue_loop.eq_def, p.stands_for.tasks_eq, hrepr.is_empty]
      rfl
    · rw [DistDb.execute_queue_loop.eq_def, hrepr.is_empty]
      rfl
  | cons r rs ih =>
    have hrepr : p.plain.tasks.Repr (r :: rs) := hrs ▸ p.stands_for.wf.tasks
    have hmax := (Queue.max_size_dequeue p.plain.tasks).trans p.stands_for.wf.max_size
    obtain ⟨rounds, rfl⟩ : ∃ n, rounds = n + 1 :=
      ⟨rounds - 1, by simp at hrounds; omega⟩
    obtain ⟨mem₁, res, p₁, hedit, hedit', h₁⟩ :=
      edit_document hbase h (allocators rounds) r.doc_name r.doc_content
    have htasks : p₁.plain.tasks = p.plain.tasks := by
      -- the edit has not looked at the queue
      obtain ⟨s₁, hspec, -, -, htasks⟩ :=
        server_edit_document_spec p.stands_for.wf r.doc_name r.doc_content
      cases hedit'.symm.trans hspec
      exact htasks
    obtain ⟨p₂, hheap, hplain, h₂⟩ := h₁.setTasks hrepr.dequeue.wf hmax
    have hrs₂ : p₂.plain.tasks.contents = rs := by
      rw [hplain]
      exact hrepr.dequeue.contents_eq
    obtain ⟨mem', executed, p', hloop, hloop', h'⟩ :=
      ih h₂ hrs₂ (Nat.le_of_succ_le_succ hrounds)
    rw [hheap] at hloop
    rw [hplain] at hloop'
    refine ⟨mem', ⟨r, res⟩ :: executed, p', ?_, ?_, h'⟩
    · rw [Nodes.execute_queue_loop, p.stands_for.tasks_eq, hrepr.is_empty]
      simp only [List.isEmpty_cons, Bool.false_eq_true, if_false, hrepr.front, hedit, ok_bind,
        p₁.stands_for.tasks_eq, htasks, hloop]
      rfl
    · rw [DistDb.execute_queue_loop, hrepr.is_empty]
      simp only [List.isEmpty_cons, Bool.false_eq_true, if_false, hrepr.front, hedit', ok_bind,
        htasks, hloop']
      rfl

/-- **`execute_queue`** -/
theorem execute_queue (hbase : base.Finite) (h : p.On base mem) (allocators : ℕ → Allocator) :
    ∃ mem' executed, ∃ p' : Coupled,
      Nodes.execute_queue allocators mem p.heap = .ok (mem', p'.heap, executed) ∧
      DistDb.execute_queue p.plain = .ok (p'.plain, executed) ∧ p'.On base mem' := by
  unfold Nodes.execute_queue DistDb.execute_queue
  rw [p.stands_for.tasks_eq]
  exact execute_queue_loop hbase _ h rfl allocators
    (Nat.le_of_eq p.stands_for.wf.tasks.size_eq.symm)

/-- **`server_handle_request`** -/
theorem handle_request (hbase : base.Finite) (h : p.On base mem) (allocators : ℕ → Allocator)
    (req : Request) :
    ∃ mem' answer, ∃ p' : Coupled,
      server_handle_request allocators mem p.heap req = .ok (mem', p'.heap, answer) ∧
      DistDb.server_handle_request p.plain req = .ok (p'.plain, answer) ∧ p'.On base mem' := by
  cases htype : req.type with
  | GET_DOCUMENT =>
    obtain ⟨mem₁, executed, p₁, hexec, hexec', h₁⟩ :=
      execute_queue hbase h fun n => allocators (n + 1)
    obtain ⟨mem₂, res, p₂, hget, hget', h₂⟩ := get_document hbase h₁ (allocators 0) req.doc_name
    refine ⟨mem₂, (some res, executed), p₂, ?_, ?_, h₂⟩
    · rw [server_handle_request, htype]
      simp only [hexec, hget, ok_bind, pure_eq_ok]
    · rw [DistDb.server_handle_request, htype]
      simp only [hexec', hget', ok_bind, pure_eq_ok]
  | EDIT_DOCUMENT =>
    obtain ⟨s', hspec, wf', -⟩ := server_handle_edit_spec p.stands_for.wf req htype
    rw [DistDb.server_handle_request, htype] at hspec
    obtain rfl := (Prod.mk.inj (Except.ok.inj hspec)).1
    obtain ⟨p', hheap, hplain, h'⟩ := h.setTasks wf'.tasks wf'.max_size
    refine ⟨mem, (some ⟨LOG_LAZY_EXEC (q_enqueue_request p.plain.tasks req).1.size,
      some (MSG_A EDIT_REQUEST req.doc_name), p.plain.id⟩, []), p', ?_, ?_, h'⟩
    · rw [server_handle_request, htype, hheap, p.stands_for.tasks_eq, ← p.stands_for.id_eq]
      rfl
    · rw [DistDb.server_handle_request, htype, hplain]
      rfl
  | _ =>
    refine ⟨mem, (none, []), p, ?_, ?_, h⟩
    · rw [server_handle_request, htype]
      rfl
    · rw [DistDb.server_handle_request, htype]
      rfl

/-! ### From `init_server` to `free_server`. -/

/-- **`init_server`**, with the id that the caller sets. -/
theorem init_server {cache_size : Int32} (hsize : 1 ≤ cache_size) (base : Memory) (id : Int32) :
    ∃ heap plain, Nodes.init_server base cache_size.toUInt32 = some heap ∧
      DistDb.init_server cache_size.toUInt32 = some plain ∧
      ∃ p : Coupled, p.heap = { heap with id := id } ∧ p.plain = { plain with id := id } ∧
        p.On base base := by
  have hdouble := toUInt32_of_pos hsize
  have hpos := ne_zero_of_double hdouble
  obtain ⟨plain, hplain, wf, hview⟩ := init_server_id_spec hdouble id
  obtain ⟨cache, hcache, order, hstands, hpairs⟩ := init_lru_cache_shows base hpos
  have hdb := Table.ht_create_stands base (cache_size.toUInt32 * 2)
  have hinit := hplain
  rw [DistDb.init_server, if_neg hpos] at hinit
  obtain ⟨cache_plain, -, rfl⟩ := Option.map_eq_some_iff.mp hinit
  cases (if_neg hpos : init_lru_cache base cache_size.toUInt32
    = some ⟨base, ⟨none, none, 0⟩, DistDb.ht_create cache_size.toUInt32⟩).symm.trans hcache
  have hcached := congrArg ServerView.cached hview
  have hcapacity := congrArg ServerView.capacity hview
  have hheap : Nodes.init_server base cache_size.toUInt32
      = some ⟨0, ⟨none, none, 0⟩, DistDb.ht_create cache_size.toUInt32, q_create TASK_QUEUE_SIZE,
          List.replicate (cache_size.toUInt32 * 2).toNat Table.ll_create, 0,
          cache_size.toUInt32 * 2⟩ := by
    rw [Nodes.init_server, if_neg hpos, hcache]
    rfl
  refine ⟨_, _, hheap, hplain,
    ⟨_, _, order, List.replicate (cache_size.toUInt32 * 2).toNat [],
      ⟨wf, rfl, rfl, hstands.indexes, hpairs.trans hcached.symm,
        hstands.capacity.trans hcapacity.symm, hdb.chains_eq, hdb.size_eq, hdb.hmax_eq⟩⟩,
    rfl, rfl, List.Forall₂.cons hstands.chained hdb.buckets.chained, ?_⟩
  show Owned base base (order :: List.replicate _ []).flatten
  rw [List.flatten_cons, List.flatten_replicate_nil, List.append_nil]
  exact hstands.chained.owned hstands.memory

/-- **`free_server` leaves nothing behind** of the lists of the server, and nothing else. -/
theorem free_server (h : p.On base mem) : Nodes.free_server mem p.heap = .ok base := by
  -- the order list is released first, and the chains are then alone beside `base`
  have hrest := h.split.rest rfl
  rw [List.flatten_singleton] at hrest
  have hcache : free_lru_cache (p.heap.cache mem) = .ok (mem.outside p.order) :=
    free_lru_cache_eq ⟨_, h.cache, rfl⟩
  obtain ⟨released, hreleased⟩ : ∃ released, q_free_request p.plain.tasks = .ok released := by
    have hrepr := p.stands_for.wf.tasks
    -- the loop over a full queue ends before its first round
    rcases Nat.lt_or_eq_of_le hrepr.size_le with hroom | hfull
    · refine ⟨(List.range' 0 p.plain.tasks.size).map p.plain.tasks.slot, ?_⟩
      rw [q_free_request, ← hrepr.slot_zero,
        hrepr.free_loop hroom _ 0 _ (Nat.zero_add _) hrepr.size_le]
    · exact ⟨[], hrepr.free_loop_of_full hfull _⟩
  rw [Nodes.free_server, hcache, ok_bind, p.stands_for.tasks_eq, hreleased, ok_bind]
  exact Table.free_buckets_eq hrest

end Coupled

end DistDb.Nodes
