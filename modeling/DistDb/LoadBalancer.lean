/-
  DistDb.LoadBalancer — the load balancer of `load_balancer.c`.

  The servers stand in a list in the order of their positions on the hash ring.  A document is
  served by the first server at or after its hash, and by the first server of the list past the
  last position.  Adding a server takes documents over from the next one; removing a server hands
  its documents to the next one.
-/
import DistDb.Server

namespace DistDb

/-- `load_balancer`: the ring of servers.  The two hash functions are `hash_uint` and
`hash_string`. -/
structure LoadBalancer where
  servers : List Server
  deriving DecidableEq

/-! ## §1. Routing. -/

/-- The loop of `get_server`, from the server at `slot` on. -/
def get_server_from (hash : UInt32) : List Server → ℕ → ℕ
  | [], _ => 0
  | curr_server :: rest, slot =>
    if hash ≤ hash_uint curr_server.id then slot else get_server_from hash rest (slot + 1)

/-- The slot of the server that serves the hash. -/
def get_server (main : LoadBalancer) (hash : UInt32) : ℕ := get_server_from hash main.servers 0

def init_load_balancer : LoadBalancer := { servers := [] }

/-! ## §2. Adding a server. -/

/-- Whether a key of the next server moves to the new one: it lies before the new server, or the
next server is the first of the list and the key lies at or after it. -/
def moves_key (s_hash : UInt32) (next_is_head : Bool) (next_hash : UInt32) (key : CString) :
    Bool :=
  let hash := hash_string key
  decide (hash < s_hash) || (next_is_head && decide (hash ≥ next_hash))

/-- The loop over the buckets of the next server, for at most `rounds` rounds.  A round looks for
the first key of bucket `b` that moves; when there is one, it is moved and the bucket is scanned
again from its head. -/
def migrate_loop (moves : CString → Bool) (rounds : ℕ) (b : UInt32) (next_s s : Server) :
    Exec (Server × Server) :=
  if b < next_s.db.hmax then
    match rounds with
    | 0 => throw .outOfFuel
    | rounds + 1 =>
      match (next_s.db.bucket b.toNat).find? (fun data => moves data.key) with
      | some data => do
        let s_db ← ht_put hash_string s.db data.key data.value
        let cache ← lru_cache_remove next_s.cache data.key
        let next_db ← ht_remove_entry hash_string next_s.db data.key
        -- `b--` at the restart, then the `b++` of the loop; at bucket 0 both wrap around
        migrate_loop moves rounds (b - 1 + 1) { next_s with cache := cache, db := next_db }
          { s with db := s_db }
      | none => migrate_loop moves rounds (b + 1) next_s s
  else pure (next_s, s)

/-- The rounds the loop needs: one for every entry that moves and one for every bucket. -/
def migrate_rounds (next_s : Server) : ℕ := next_s.db.size + next_s.db.hmax.toNat

/-- Add a server to the ring.  The result includes the edits executed on the way. -/
def loader_add_server (main : LoadBalancer) (server_id cache_size : Int32) :
    Exec (LoadBalancer × List Executed) :=
  match init_server cache_size.toUInt32 with
  | none => throw .nullServer
  | some s =>
    let s := { s with id := server_id }
    if main.servers.length = 0 then
      pure ({ main with servers := ll_add_nth_node main.servers 0 s }, [])
    else
      let s_hash := hash_uint server_id
      let slot := get_server main s_hash
      match main.servers.getLast? with
      | none => throw .nullNode
      | some tail_server => do
        let slot := if s_hash > hash_uint tail_server.id then main.servers.length else slot
        let next_slot ← remainder slot main.servers.length
        match ll_get_nth_node main.servers next_slot with
        | none => throw .nullNode
        | some next_s =>
          let (next_s, executed) ← execute_queue next_s
          -- the next server is the head of the list exactly when its slot is 0
          let moves := moves_key s_hash (next_slot == 0) (hash_uint next_s.id)
          let (next_s, s) ← migrate_loop moves (migrate_rounds next_s) 0 next_s s
          let servers := main.servers.set next_slot next_s
          pure ({ main with servers := ll_add_nth_node servers slot s }, executed)

/-! ## §3. Removing a server. -/

/-- Put every entry of a table, bucket by bucket, into the database `db`. -/
def merge_db (from_db db : Hashtable CString CString) : Exec (Hashtable CString CString) :=
  from_db.buckets.foldlM (fun db chain =>
    chain.foldlM (fun db data => ht_put hash_string db data.key data.value) db) db

/-- Remove from the ring the server that serves the position of the id. -/
def loader_remove_server (main : LoadBalancer) (server_id : Int32) :
    Exec (LoadBalancer × List Executed) :=
  let s_hash := hash_uint server_id
  let slot := get_server main s_hash
  match ll_get_nth_node main.servers slot with
  | none => throw .nullNode
  | some s =>
    if main.servers.length = 1 then
      -- the queue of the only server is released with it
      pure ({ main with servers := (ll_remove_nth_node main.servers slot).2 }, [])
    else do
      let next_slot ← remainder (slot + 1) main.servers.length
      match ll_get_nth_node main.servers next_slot with
      | none => throw .nullNode
      | some next_s =>
        let (s, executed) ← execute_queue s
        let db ← merge_db s.db next_s.db
        let servers := main.servers.set next_slot { next_s with db := db }
        pure ({ main with servers := (ll_remove_nth_node servers slot).2 }, executed)

/-! ## §4. Forwarding a request. -/

/-- Hand the request to the server of its document. -/
def loader_forward_request (main : LoadBalancer) (req : Request) :
    Exec (LoadBalancer × Option Response × List Executed) :=
  let hash := hash_string req.doc_name
  let slot := get_server main hash
  match ll_get_nth_node main.servers slot with
  | none => throw .nullNode
  | some s => do
    let (s, res, executed) ← server_handle_request s req
    pure ({ main with servers := main.servers.set slot s }, res, executed)

end DistDb
