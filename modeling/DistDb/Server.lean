/-
  DistDb.Server — the servers of `server.c`: a database, a cache in front of it and a queue of
  pending edits.

  An EDIT is only queued; the pending edits are executed, oldest first, by the next GET that
  reaches the server, and by the load balancer before it moves documents.
-/
import DistDb.LruCache
import DistDb.Add.Queue

namespace DistDb

/-! ## §1. The data. -/

/-- `request_type` -/
inductive RequestType
  | EDIT_DOCUMENT
  | GET_DOCUMENT
  | ADD_SERVER
  | REMOVE_SERVER
  deriving DecidableEq

/-- `request`.  A GET has no content: the source leaves the pointer NULL and nothing reads it. -/
structure Request where
  type : RequestType
  doc_name : CString
  doc_content : CString
  deriving DecidableEq

/-- `response`; the message is NULL when the document does not exist.  The two texts are strings of
any length: which of them fit the buffers of the source is the subject of `DistDb.Buffers`. -/
structure Response where
  server_log : CString
  server_response : Option CString
  server_id : Int32
  deriving DecidableEq

/-- `server` -/
structure Server where
  id : Int32
  cache : LruCache
  tasks : Queue Request
  db : Hashtable CString CString
  deriving DecidableEq

/-- One round of `execute_queue`: the task handed to `server_edit_document` and the response
that is printed for it. -/
structure Executed where
  task : Request
  res : Response
  deriving DecidableEq

def TASK_QUEUE_SIZE : ℕ := 1000

/-- NULL for the cache size zero; the id is set by the caller. -/
def init_server (cache_size : UInt32) : Option Server :=
  if cache_size = 0 then none
  else (init_lru_cache cache_size).map fun cache =>
    { id := 0
      cache := cache
      tasks := q_create TASK_QUEUE_SIZE
      db := ht_create (cache_size * 2) }

/-- The log line of a cache miss; `full` is read before the cache is written. -/
def miss_log (full : Bool) (doc_name : CString) (evicted_key : Option CString) : Exec CString :=
  if full then
    match evicted_key with
    | some victim => pure (LOG_EVICT doc_name victim)
    | none => throw .nullPointer
  else pure (LOG_MISS doc_name)

/-- Write a document to the cache and to the database. -/
def server_edit_document (s : Server) (doc_name doc_content : CString) :
    Exec (Server × Response) := do
  if ← ht_has_key hash_string s.cache.ht doc_name then
    let (cache, _, _) ← lru_cache_put s.cache doc_name doc_content false
    let db ← ht_put hash_string s.db doc_name doc_content
    pure ({ s with cache := cache, db := db },
      { server_log := LOG_HIT doc_name, server_response := some (MSG_B doc_name),
        server_id := s.id })
  else
    let full := lru_cache_is_full s.cache
    let server_response :=
      if ← ht_has_key hash_string s.db doc_name then MSG_B doc_name else MSG_C doc_name
    let (cache, _, evicted_key) ← lru_cache_put s.cache doc_name doc_content true
    let db ← ht_put hash_string s.db doc_name doc_content
    let server_log ← miss_log full doc_name evicted_key
    pure ({ s with cache := cache, db := db },
      { server_log := server_log, server_response := some server_response, server_id := s.id })

/-- Read a document from the cache, or else from the database into the cache. -/
def server_get_document (s : Server) (doc_name : CString) : Exec (Server × Response) := do
  if ← ht_has_key hash_string s.cache.ht doc_name then
    match ← lru_cache_get s.cache doc_name with
    | (_, none) => throw .nullPointer
    | (cache, some doc_content) =>
      pure ({ s with cache := cache },
        { server_log := LOG_HIT doc_name, server_response := some doc_content,
          server_id := s.id })
  else if ← ht_has_key hash_string s.db doc_name then
    let full := lru_cache_is_full s.cache
    match ← ht_get hash_string s.db doc_name with
    | none => throw .nullPointer
    | some doc_content =>
      let (cache, _, evicted_key) ← lru_cache_put s.cache doc_name doc_content true
      let server_log ← miss_log full doc_name evicted_key
      pure ({ s with cache := cache },
        { server_log := server_log, server_response := some doc_content, server_id := s.id })
  else
    pure (s, { server_log := LOG_FAULT doc_name, server_response := none, server_id := s.id })

/-- The loop of `execute_queue`, for at most `rounds` rounds. -/
def execute_queue_loop (rounds : ℕ) (s : Server) : Exec (Server × List Executed) :=
  if q_is_empty s.tasks then pure (s, [])
  else
    match rounds with
    | 0 => throw .outOfFuel
    | rounds + 1 =>
      match q_front s.tasks with
      | none => throw .nullPointer
      | some task => do
        let (s, res) ← server_edit_document s task.doc_name task.doc_content
        let s := { s with tasks := (q_dequeue_request s.tasks).1 }
        let (s, executed) ← execute_queue_loop rounds s
        pure (s, ⟨task, res⟩ :: executed)

/-- Execute all the pending edits.  Each round takes one of them out of the queue, so the loop
ends within `size` rounds. -/
def execute_queue (s : Server) : Exec (Server × List Executed) :=
  execute_queue_loop s.tasks.size s

/-- Handle a request of the load balancer: the response, NULL for a request of another type, and
the edits executed on the way. -/
def server_handle_request (s : Server) (req : Request) :
    Exec (Server × Option Response × List Executed) :=
  match req.type with
  | .GET_DOCUMENT => do
    let (s, executed) ← execute_queue s
    let (s, res) ← server_get_document s req.doc_name
    pure (s, some res, executed)
  | .EDIT_DOCUMENT =>
    -- whether there was room in the queue is not looked at
    let s := { s with tasks := (q_enqueue_request s.tasks req).1 }
    pure (s, some
      { server_log := LOG_LAZY_EXEC s.tasks.size
        server_response := some (MSG_A EDIT_REQUEST req.doc_name)
        server_id := s.id }, [])
  | _ => pure (s, none, [])

end DistDb
