/-
  DistDb.HeapBalancer — the load balancer and the command loop on the heap.

  All the servers of the ring lie in one memory.  Adding a server walks along the chains of another
  one and takes nodes out of them on the way; removing a server walks along its chains while the
  other server allocates, and then releases it.

  `Spread` says that the memory is `base` with the lists of all the servers, and `Spread.frame` that
  whatever some of the servers do with the others in their `base`, they do beside them.

  Main results:
    * `loader_add_server_agrees`, `loader_remove_server_agrees`, `loader_forward_request_agrees` —
      each does on the heap what it does in `DistDb.LoadBalancer`,
    * `free_load_balancer_eq` — releasing the load balancer leaves `base`,
    * `heap_program_refines_program` — both for every sequence of commands and all allocators.

  The list of the servers itself is a sequence here.  The requests in the queues and the buffers of
  the responses are not in this memory.
-/
import DistDb.HeapServer
import DistDb.Routing
import Mathlib.Data.Nat.Pairing

namespace DistDb.Nodes

open Lib DoublyLinked HashRing

/-! ## §1. The operations. -/

/-- `load_balancer`, with the memory that the lists of its servers lie in. -/
structure HeapBalancer where
  mem : Memory
  servers : List HeapServer

/-- The loop of `get_server`, from the server at `slot` on. -/
def get_server_from (hash : UInt32) : List HeapServer → ℕ → ℕ
  | [], _ => 0
  | curr_server :: rest, slot =>
    if hash ≤ hash_uint curr_server.id then slot else get_server_from hash rest (slot + 1)

/-- The slot of the server that serves the hash. -/
def get_server (main : HeapBalancer) (hash : UInt32) : ℕ := get_server_from hash main.servers 0

/-- The walk along a chain to the first key that moves, with what its record holds. -/
def find_moving (mem : Memory) (moves : CString → Bool) :
    ℕ → Option ℕ → Exec (Option (Info CString CString))
  | _, none => pure none
  | 0, some _ => throw .outOfFuel
  | rounds + 1, some node => do
    let n ← mem.node (some node)
    let info ← mem.info n.data
    if moves info.key then pure (some info) else find_moving mem moves rounds n.next

/-- The loop over the buckets of the next server, for at most `rounds` rounds. -/
def migrate_loop (allocators : ℕ → Allocator) (moves : CString → Bool) (rounds : ℕ) (b : UInt32)
    (mem : Memory) (next_s s : HeapServer) : Exec (Memory × HeapServer × HeapServer) :=
  if b < next_s.hmax then
    match rounds with
    | 0 => throw .outOfFuel
    | rounds + 1 => do
      let list ← (next_s.db mem).bucket b.toNat
      match ← find_moving mem moves list.size list.head with
      | some data => do
        let s_db ←
          Table.ht_put hash_string (allocators rounds).malloc (s.db mem) data.key data.value
        let cache ← lru_cache_remove (next_s.cache s_db.mem) data.key
        let next_s := next_s.setCache cache
        let next_db ← Table.ht_remove_entry hash_string (next_s.db cache.mem) data.key
        -- `b--` at the restart, then the `b++` of the loop
        migrate_loop allocators moves rounds (b - 1 + 1) next_db.mem (next_s.setDb next_db)
          (s.setDb s_db)
      | none => migrate_loop allocators moves rounds (b + 1) mem next_s s
  else pure (mem, next_s, s)

/-- Add a server to the ring. -/
def loader_add_server (allocators : ℕ → Allocator) (main : HeapBalancer)
    (server_id cache_size : Int32) : Exec (HeapBalancer × List Executed) :=
  match init_server main.mem cache_size.toUInt32 with
  | none => throw .nullServer
  | some s =>
    let s := { s with id := server_id }
    if main.servers.length = 0 then
      pure ({ main with servers := DistDb.ll_add_nth_node main.servers 0 s }, [])
    else
      let s_hash := hash_uint server_id
      let slot := get_server main s_hash
      match main.servers.getLast? with
      | none => throw .nullNode
      | some tail_server => do
        let slot := if s_hash > hash_uint tail_server.id then main.servers.length else slot
        let next_slot ← remainder slot main.servers.length
        match DistDb.ll_get_nth_node main.servers next_slot with
        | none => throw .nullNode
        | some next_s =>
          let (mem, next_s, executed) ←
            execute_queue (fun n => allocators (2 * n)) main.mem next_s
          let moves := moves_key s_hash (next_slot == 0) (hash_uint next_s.id)
          let (mem, next_s, s) ← migrate_loop (fun n => allocators (2 * n + 1)) moves
            (next_s.size + next_s.hmax.toNat) 0 mem next_s s
          let servers := main.servers.set next_slot next_s
          pure ({ mem := mem, servers := DistDb.ll_add_nth_node servers slot s }, executed)

/-- The walk along a chain of the server that leaves, which puts every record into the database of
the next one.  A link is followed after the record before it was put. -/
def merge_chain (allocators : ℕ → Allocator) (mem : Memory) (next_s : HeapServer) :
    ℕ → Option ℕ → Exec (Memory × HeapServer)
  | _, none => pure (mem, next_s)
  | 0, some _ => throw .outOfFuel
  | rounds + 1, some node => do
    let n ← mem.node (some node)
    let info ← mem.info n.data
    let db ←
      Table.ht_put hash_string (allocators rounds).malloc (next_s.db mem) info.key info.value
    let n ← db.mem.node (some node)
    merge_chain allocators db.mem (next_s.setDb db) rounds n.next

/-- The loop over the buckets of the server that leaves. -/
def merge_db (allocators : ℕ → Allocator) (mem : Memory) (next_s : HeapServer) :
    List LlList → Exec (Memory × HeapServer)
  | [] => pure (mem, next_s)
  | list :: lists => do
    let (mem, next_s) ← merge_chain (fun n => allocators (Nat.pair lists.length n)) mem next_s
      list.size list.head
    merge_db allocators mem next_s lists

/-- Remove from the ring the server that serves the position of the id, and release it. -/
def loader_remove_server (allocators : ℕ → Allocator) (main : HeapBalancer)
    (server_id : Int32) : Exec (HeapBalancer × List Executed) :=
  let s_hash := hash_uint server_id
  let slot := get_server main s_hash
  match DistDb.ll_get_nth_node main.servers slot with
  | none => throw .nullNode
  | some s =>
    if main.servers.length = 1 then do
      let mem ← free_server main.mem s
      pure ({ mem := mem, servers := (DistDb.ll_remove_nth_node main.servers slot).2 }, [])
    else do
      let next_slot ← remainder (slot + 1) main.servers.length
      match DistDb.ll_get_nth_node main.servers next_slot with
      | none => throw .nullNode
      | some next_s =>
        let (mem, s, executed) ← execute_queue (fun n => allocators (2 * n)) main.mem s
        let (mem, next_s) ← merge_db (fun n => allocators (2 * n + 1)) mem next_s s.buckets
        let mem ← free_server mem s
        let servers := main.servers.set next_slot next_s
        pure ({ mem := mem, servers := (DistDb.ll_remove_nth_node servers slot).2 }, executed)

/-- Hand the request to the server of its document. -/
def loader_forward_request (allocators : ℕ → Allocator) (main : HeapBalancer) (req : Request) :
    Exec (HeapBalancer × Option Response × List Executed) :=
  let hash := hash_string req.doc_name
  let slot := get_server main hash
  match DistDb.ll_get_nth_node main.servers slot with
  | none => throw .nullNode
  | some s => do
    let (mem, s, res, executed) ← server_handle_request allocators main.mem s req
    pure ({ mem := mem, servers := main.servers.set slot s }, res, executed)

/-- Release the servers, one after the other. -/
def free_load_balancer (main : HeapBalancer) : Exec Memory :=
  main.servers.foldlM free_server main.mem

/-- One round of the command loop, with the allocators that answer the calls of `malloc` in it. -/
def apply_request (main : HeapBalancer) : Command × (ℕ → Allocator) → Exec (HeapBalancer × Output)
  | (.ADD_SERVER server_id cache_size, allocators) =>
    if cache_size < 0 then throw .die
    else do
      let (main, executed) ← loader_add_server allocators main server_id cache_size
      pure (main, ⟨executed, none⟩)
  | (.REMOVE_SERVER server_id, allocators) => do
    let (main, executed) ← loader_remove_server allocators main server_id
    pure (main, ⟨executed, none⟩)
  | (.EDIT doc_name doc_content, allocators) => do
    let (main, response, executed) ←
      loader_forward_request allocators main (editRequest doc_name doc_content)
    pure (main, ⟨executed, response⟩)
  | (.GET doc_name, allocators) => do
    let (main, response, executed) ←
      loader_forward_request allocators main (getRequest doc_name)
    pure (main, ⟨executed, response⟩)

/-- The command loop, from an empty ring to the release of the load balancer. -/
def apply_requests (mem : Memory) (calls : List (Command × (ℕ → Allocator))) :
    Exec (Memory × List Output) := do
  let (main, outputs) ← Run.run apply_request ⟨mem, []⟩ calls
  let mem ← free_load_balancer main
  pure (mem, outputs)

/-! ## §2. Several servers in one memory. -/

namespace Coupled

/-- The nodes of the lists of the server. -/
def entries (p : Coupled) : List (List Entry) := p.order :: p.chains

end Coupled

/-- The memory is `base` with the lists of the servers, each apart from the others. -/
structure Spread (base mem : Memory) (ps : List Coupled) : Prop where
  chained : ∀ p ∈ ps, List.Forall₂ (Chained mem) p.heap.lists p.entries
  owned : Owned base mem (ps.flatMap fun p => p.entries.flatten)

section Spread

variable {base mem mem' : Memory} {ps qs : List Coupled} {p q : Coupled} {i : ℕ}

theorem spread_singleton : Spread base mem [p] ↔ p.On base mem := by
  have hflat : ([p].flatMap fun p => p.entries.flatten) = p.entries.flatten := by
    rw [List.flatMap_cons, List.flatMap_nil, List.append_nil]
  constructor
  · intro h
    exact ⟨h.chained p List.mem_cons_self, hflat ▸ h.owned⟩
  · intro h
    refine ⟨?_, hflat ▸ h.owned⟩
    intro p' hp'
    obtain rfl := List.mem_singleton.mp hp'
    exact h.chained

theorem spread_nil (base : Memory) : Spread base base [] := ⟨by simp, Owned.nil base⟩

theorem Spread.finite (h : Spread base mem ps) (hbase : base.Finite) : mem.Finite :=
  h.owned.memory.finite hbase

/-- The order of the servers does not matter. -/
theorem Spread.perm (h : Spread base mem ps) (hperm : qs.Perm ps) : Spread base mem qs where
  chained := fun p hp => h.chained p (hperm.mem_iff.mp hp)
  owned := h.owned.perm (hperm.flatMap_right _)

/-- **The frame rule**: for some of the servers the others are part of a memory that stays as it
is. -/
theorem Spread.frame (hbase : base.Finite) (h : Spread base mem (ps ++ qs)) :
    ∃ base', base'.Finite ∧ Spread base' mem ps ∧
      ∀ mem' ps', Spread base' mem' ps' → Spread base mem' (ps' ++ qs) := by
  have howned := h.owned
  rw [List.flatMap_append] at howned
  refine ⟨_, (h.finite hbase).outside _,
    ⟨fun p hp => h.chained p (List.mem_append_left qs hp), howned.focus⟩, ?_⟩
  intro mem' ps' h'
  constructor
  · intro p hp
    rcases List.mem_append.mp hp with hp | hp
    · exact h'.chained p hp
    · refine Table.forall₂_frame (h.chained p (List.mem_append_right ps hp)) ?_
      intro y hy
      exact howned.frame h'.owned (List.mem_flatMap.mpr ⟨p, hp, hy⟩)
  · rw [List.flatMap_append]
    exact howned.replace h'.owned

/-- The frame rule for one server. -/
theorem Spread.at (hbase : base.Finite) (h : Spread base mem ps) (hp : ps[i]? = some p) :
    ∃ base', base'.Finite ∧ p.On base' mem ∧
      ∀ mem' p', p'.On base' mem' → Spread base mem' (ps.set i p') := by
  have h' : Spread base mem ([p] ++ ps.eraseIdx i) :=
    h.perm (Parallel.perm_cons_eraseIdx hp).symm
  obtain ⟨base', hbase', hfocus, hreplace⟩ := h'.frame hbase
  refine ⟨base', hbase', spread_singleton.mp hfocus, ?_⟩
  intro mem' p' hp'
  exact (hreplace mem' [p'] (spread_singleton.mpr hp')).perm
    (Parallel.set_perm_cons_eraseIdx hp p')

/-- A server that owns nothing yet. -/
theorem Spread.cons_new (h : Spread base mem ps) (hq : q.On mem mem) :
    Spread base mem (q :: ps) := by
  have hnothing : q.entries.flatten = [] := by
    apply List.eq_nil_iff_forall_not_mem.mpr
    intro e he
    exact (hq.owned.alive e he).1 (hq.owned.memory.nodes_unused e he)
  constructor
  · intro p hp
    rcases List.mem_cons.mp hp with rfl | hp
    · exact hq.chained
    · exact h.chained p hp
  · rw [List.flatMap_cons, hnothing]
    exact h.owned

end Spread

/-! ## §3. Documents on the move. -/

section Moves

variable {base mem : Memory} {es : List Entry} {p q : Coupled}

/-- The walk finds the first record whose key moves. -/
theorem find_moving_eq {before : Option ℕ} (h : Linked mem.nodes before (cells es) none)
    (hinfos : ∀ e ∈ es, mem.infos e.data = some e.info) (moves : CString → Bool) :
    find_moving mem moves es.length (first (cells es) none)
      = .ok ((es.map fun e => e.info).find? fun info => moves info.key) := by
  induction es generalizing before with
  | nil => rfl
  | cons e es ih =>
    obtain ⟨he, hes⟩ := h
    have he : mem.node (some e.node) = .ok ⟨e.data, before, first (cells es) none⟩ :=
      Memory.node_of_eq he
    have hinfo : mem.info e.data = .ok e.info := by
      rw [Memory.info, hinfos e List.mem_cons_self]
      rfl
    show find_moving mem moves (es.length + 1) (some e.node) = _
    rw [find_moving, he, ok_bind, hinfo, ok_bind, List.map_cons, List.find?_cons]
    cases hmoves : moves e.info.key with
    | true => rfl
    | false => exact ih hes fun e' he' => hinfos e' (List.mem_cons_of_mem e he')

/-- The scan of a bucket. -/
theorem Coupled.On.find_moving (h : p.On base mem) (moves : CString → Bool) {b : UInt32}
    (hb : b < p.plain.db.hmax) :
    ∃ list, (p.heap.db mem).bucket b.toNat = .ok list ∧
      Nodes.find_moving mem moves list.size list.head
        = .ok ((p.plain.db.bucket b.toNat).find? fun data => moves data.key) := by
  have hdb := h.db
  have hlength : p.plain.db.buckets.length = p.chains.length := by
    rw [hdb.chains_eq, List.length_map]
  have hi : b.toNat < p.chains.length := by
    rw [← hlength, p.stands_for.wf.db.length]
    exact UInt32.lt_iff_toNat_lt.mp hb
  have hes := List.getElem?_eq_getElem hi
  obtain ⟨list, hlist⟩ :=
    Parallel.exists_of_length_eq hdb.buckets.chained.length_eq.symm hes
  have hchained := Parallel.forall₂_getElem? hdb.buckets.chained hlist hes
  refine ⟨list, Table.bucket_of_getElem? hlist, ?_⟩
  rw [hchained.size_eq, hchained.head_eq, hdb.bucket_eq hes]
  exact find_moving_eq hchained.linked hchained.infos moves

/-- **The loop over the buckets of the next server** moves the same documents on the heap. -/
theorem migrate_loop_eq (hbase : base.Finite) (allocators : ℕ → Allocator)
    (moves : CString → Bool) (rounds : ℕ) (b : UInt32) (h : Spread base mem [p, q])
    {next_s s : Server}
    (hloop : DistDb.migrate_loop moves rounds b p.plain q.plain = .ok (next_s, s)) :
    ∃ mem', ∃ p' q' : Coupled,
      migrate_loop allocators moves rounds b mem p.heap q.heap
        = .ok (mem', p'.heap, q'.heap) ∧
      p'.plain = next_s ∧ q'.plain = s ∧ Spread base mem' [p', q'] := by
  induction rounds generalizing mem p q b with
  | zero =>
    rw [DistDb.migrate_loop.eq_def] at hloop
    rw [migrate_loop.eq_def, p.stands_for.hmax_eq]
    by_cases hb : b < p.plain.db.hmax
    · rw [if_pos hb] at hloop
      cases hloop
    · rw [if_neg hb] at hloop ⊢
      cases hloop
      exact ⟨mem, p, q, rfl, rfl, rfl, h⟩
  | succ rounds ih =>
    rw [DistDb.migrate_loop.eq_def] at hloop
    rw [migrate_loop.eq_def, p.stands_for.hmax_eq]
    split_ifs at hloop ⊢ with hb
    · obtain ⟨_, -, hp, -⟩ := h.at hbase (i := 0) rfl
      obtain ⟨list, hbucket, hfind⟩ := hp.find_moving moves hb
      simp only [hbucket, hfind, ok_bind]
      simp only at hloop
      cases hdata : (p.plain.db.bucket b.toNat).find? fun data => moves data.key with
      | none =>
        rw [hdata] at hloop
        exact ih (b + 1) h hloop
      | some data =>
        rw [hdata] at hloop
        -- the new server is written, then the cache and the database of the next one
        obtain ⟨_, hbase₁, hq, hset₁⟩ := h.at hbase (i := 1) rfl
        obtain ⟨s_db, s_plain, q₁, hput, hput', hq_heap, hq_plain, hq₁⟩ :=
          hq.db_put hbase₁ (allocators rounds) data.key data.value
        have h₁ : Spread base s_db.mem [p, q₁] := hset₁ _ _ hq₁
        obtain ⟨_, -, hp₁, hset₂⟩ := h₁.at hbase (i := 0) rfl
        obtain ⟨cache, cache_plain, p₂, hcache, hcache', hp_heap, hp_plain, hp₂⟩ :=
          hp₁.cache_remove data.key
        have h₂ : Spread base cache.mem [p₂, q₁] := hset₂ _ _ hp₂
        obtain ⟨_, -, hp₂, hset₃⟩ := h₂.at hbase (i := 0) rfl
        obtain ⟨next_db, db_plain, p₃, hremove, hremove', hp_heap₃, hp_plain₃, hp₃⟩ :=
          hp₂.db_remove data.key
        have h₃ : Spread base next_db.mem [p₃, q₁] := hset₃ _ _ hp₃
        rw [hp_heap] at hremove
        rw [hp_plain] at hremove'
        have hloop₃ : DistDb.migrate_loop moves rounds (b - 1 + 1) p₃.plain q₁.plain
            = .ok (next_s, s) := by
          rw [hp_plain₃, hq_plain, hp_plain]
          simp only [hput', hcache', hremove', ok_bind] at hloop
          exact hloop
        obtain ⟨mem', p', q', hrun, hspec⟩ := ih (b - 1 + 1) h₃ hloop₃
        rw [hp_heap₃, hq_heap, hp_heap] at hrun
        refine ⟨mem', p', q', ?_, hspec⟩
        simp only [hput, hcache, hremove, ok_bind]
        exact hrun
    · cases hloop
      exact ⟨mem, p, q, rfl, rfl, rfl, h⟩

/-- The chains of a server in a memory that several share. -/
theorem Spread.chain (h : Spread base mem [p, q]) {list : LlList}
    (hmem : (list, es) ∈ p.heap.buckets.zip p.chains) : Chained mem list es :=
  (List.forall₂_iff_zip.mp
    (List.forall₂_cons.mp (h.chained p List.mem_cons_self)).2).2 hmem

/-- The records of a list of nodes, put one after the other. -/
def putAll (db : Hashtable CString CString) (chain : List (Info CString CString)) :
    Exec (Hashtable CString CString) :=
  chain.foldlM (fun db data => DistDb.ht_put hash_string db data.key data.value) db

/-- The walk along a chain: what the other server allocates on the way leaves the chain as it is. -/
theorem merge_chain_eq (hbase : base.Finite) (allocators : ℕ → Allocator) {list : LlList}
    {xs ys : List Entry} (hmem : (list, xs ++ ys) ∈ p.heap.buckets.zip p.chains)
    (h : Spread base mem [p, q]) {rounds : ℕ} (hrounds : ys.length ≤ rounds) :
    ∃ mem' db, ∃ q' : Coupled,
      merge_chain allocators mem q.heap rounds (first (cells ys) none) = .ok (mem', q'.heap) ∧
      putAll q.plain.db (ys.map fun e => e.info) = .ok db ∧
      q'.plain = { q.plain with db := db } ∧ Spread base mem' [p, q'] := by
  induction ys generalizing mem q xs rounds with
  | nil =>
    refine ⟨mem, q.plain.db, q, ?_, rfl, rfl, h⟩
    cases rounds <;> rfl
  | cons e ys ih =>
    obtain ⟨rounds, rfl⟩ : ∃ n, rounds = n + 1 :=
      ⟨rounds - 1, by simp at hrounds; omega⟩
    have hchained := h.chain hmem
    have hinfo : mem.info e.data = .ok e.info := by
      rw [Memory.info, hchained.infos e (List.mem_append_right xs List.mem_cons_self)]
      rfl
    obtain ⟨_, hbase₁, hq, hset⟩ := h.at hbase (i := 1) rfl
    obtain ⟨db, plain, q₁, hput, hput', hheap, hplain, hq₁⟩ :=
      hq.db_put hbase₁ (allocators rounds) e.info.key e.info.value
    have h₁ : Spread base db.mem [p, q₁] := hset _ _ hq₁
    -- the next node is read after the put, in a memory where the chain is still what it was
    have hmem₁ : (list, xs ++ [e] ++ ys) ∈ p.heap.buckets.zip p.chains := by
      rw [List.append_assoc]
      exact hmem
    obtain ⟨mem', db', q', hchain, hall, hplain', h'⟩ :=
      ih hmem₁ h₁ (Nat.le_of_succ_le_succ hrounds)
    rw [hheap] at hchain
    rw [hplain] at hall hplain'
    refine ⟨mem', db', q', ?_, ?_, hplain', h'⟩
    · show merge_chain allocators mem q.heap (rounds + 1) (some e.node) = _
      rw [merge_chain, hchained.node_eq, ok_bind, hinfo, ok_bind, hput, ok_bind,
        (h₁.chain hmem).node_eq, ok_bind]
      exact hchain
    · rw [List.map_cons, putAll, List.foldlM_cons, hput']
      exact hall

/-- The loop over the buckets. -/
theorem merge_db_eq (hbase : base.Finite) (allocators : ℕ → Allocator) {lists : List LlList}
    {ess : List (List Entry)}
    (hmem : List.Forall₂ (fun list es => (list, es) ∈ p.heap.buckets.zip p.chains) lists ess)
    (h : Spread base mem [p, q]) :
    ∃ mem' db, ∃ q' : Coupled,
      merge_db allocators mem q.heap lists = .ok (mem', q'.heap) ∧
      (ess.map (List.map fun e => e.info)).foldlM putAll q.plain.db = .ok db ∧
      q'.plain = { q.plain with db := db } ∧ Spread base mem' [p, q'] := by
  induction hmem generalizing mem q with
  | nil => exact ⟨mem, q.plain.db, q, rfl, rfl, rfl, h⟩
  | @cons list es lists ess hlist _ ih =>
    have hchained := h.chain hlist
    have hlist₀ : (list, [] ++ es) ∈ p.heap.buckets.zip p.chains := hlist
    obtain ⟨mem₁, db₁, q₁, hchain, hall, hplain, h₁⟩ :=
      merge_chain_eq hbase (fun n => allocators (Nat.pair lists.length n)) hlist₀ h
        (Nat.le_of_eq hchained.size_eq.symm)
    obtain ⟨mem', db', q', hrest, hrest_all, hplain', h'⟩ := ih h₁
    rw [← hchained.head_eq] at hchain
    rw [hplain] at hrest_all hplain'
    refine ⟨mem', db', q', ?_, ?_, hplain', h'⟩
    · rw [merge_db, hchain, ok_bind]
      exact hrest
    · rw [List.map_cons, List.foldlM_cons, hall]
      exact hrest_all

/-- **The records of the server that leaves** are put into the next one on the heap as on
sequences. -/
theorem merge_db_agrees (hbase : base.Finite) (allocators : ℕ → Allocator)
    (h : Spread base mem [p, q]) :
    ∃ mem' db, ∃ q' : Coupled,
      merge_db allocators mem q.heap p.heap.buckets = .ok (mem', q'.heap) ∧
      DistDb.merge_db p.plain.db q.plain.db = .ok db ∧
      q'.plain = { q.plain with db := db } ∧ Spread base mem' [p, q'] := by
  obtain ⟨_, -, hp, -⟩ := h.at hbase (i := 0) rfl
  have hmem : List.Forall₂ (fun list es => (list, es) ∈ p.heap.buckets.zip p.chains)
      p.heap.buckets p.chains := List.forall₂_iff_zip.mpr ⟨hp.chains_length, id⟩
  obtain ⟨mem', db, q', hmerge, hall, hspec⟩ := merge_db_eq hbase allocators hmem h
  rw [← p.stands_for.chains_eq] at hall
  exact ⟨mem', db, q', hmerge, hall, hspec⟩

end Moves

/-! ## §4. The load balancer. -/

/-- The load balancer on the heap stands for the other one, its servers for the other's, and the
memory is `base` with their lists. -/
def Carries (base : Memory) (heap : HeapBalancer) (plain : LoadBalancer) : Prop :=
  ∃ ps : List Coupled, heap.servers = ps.map Coupled.heap ∧ plain.servers = ps.map Coupled.plain ∧
    Spread base heap.mem ps

section Loader

variable {base : Memory} {heap : HeapBalancer} {plain : LoadBalancer} {ps : List Coupled}
  {p q : Coupled} {i : ℕ}

theorem get_server_from_eq (hash : UInt32) (ps : List Coupled) (slot : ℕ) :
    get_server_from hash (ps.map Coupled.heap) slot
      = DistDb.get_server_from hash (ps.map Coupled.plain) slot := by
  induction ps generalizing slot with
  | nil => rfl
  | cons p ps ih =>
    rw [List.map_cons, List.map_cons, get_server_from, DistDb.get_server_from, ih,
      p.stands_for.id_eq]

/-- The ids decide which server serves a hash. -/
theorem get_server_eq (hheap : heap.servers = ps.map Coupled.heap)
    (hplain : plain.servers = ps.map Coupled.plain) (hash : UInt32) :
    get_server heap hash = slot plain.ring hash := by
  rw [get_server, hheap, get_server_from_eq, ← hplain, ← DistDb.get_server_eq]
  rfl

/-- What either side has at a slot. -/
theorem server_at {α : Type} {side : Coupled → α} {servers : List α}
    (hservers : servers = ps.map side) (i : ℕ) :
    DistDb.ll_get_nth_node servers i = ps[i]?.map side := by
  rw [DistDb.ll_get_nth_node, hservers, List.getElem?_map]

theorem server_at_some {α : Type} {side : Coupled → α} {servers : List α}
    (hservers : servers = ps.map side) (hp : ps[i]? = some p) :
    DistDb.ll_get_nth_node servers i = some (side p) := by
  rw [server_at hservers, hp]
  rfl

theorem length_heap (hheap : heap.servers = ps.map Coupled.heap)
    (hplain : plain.servers = ps.map Coupled.plain) :
    heap.servers.length = plain.servers.length := by
  rw [hheap, hplain, List.length_map, List.length_map]

/-- The server at a slot of a ring that has one. -/
theorem exists_coupled (hplain : plain.servers = ps.map Coupled.plain)
    (hi : i < plain.servers.length) : ∃ p, ps[i]? = some p := by
  rw [hplain, List.length_map] at hi
  exact ⟨_, List.getElem?_eq_getElem hi⟩

/-- **`loader_forward_request`** -/
theorem loader_forward_request_agrees (hbase : base.Finite) (h : Carries base heap plain)
    (allocators : ℕ → Allocator) (req : Request) :
    Run.Agree (Carries base) (loader_forward_request allocators heap req)
      (DistDb.loader_forward_request plain req) := by
  obtain ⟨ps, hheap, hplain, h⟩ := h
  have hslot := get_server_eq hheap hplain (hash_string req.doc_name)
  have hslot' := DistDb.get_server_eq plain (hash_string req.doc_name)
  rw [loader_forward_request, DistDb.loader_forward_request]
  simp only [hslot, hslot', server_at hheap, server_at hplain]
  cases hp : ps[slot plain.ring (hash_string req.doc_name)]? with
  | none => exact .error _
  | some p =>
    obtain ⟨_, hbase', hon, hset⟩ := h.at hbase hp
    obtain ⟨mem', answer, p', hhandle, hhandle', hon'⟩ :=
      Coupled.handle_request hbase' hon allocators req
    simp only [Option.map_some, hhandle, hhandle', ok_bind]
    exact .ok answer ⟨_, by rw [List.map_set, hheap], by rw [List.map_set, hplain],
      hset mem' p' hon'⟩

/-- `loader_add_server` on a ring with servers. -/
theorem loader_add_server_next (hbase : base.Finite) (hheap : heap.servers = ps.map Coupled.heap)
    (hplain : plain.servers = ps.map Coupled.plain) (h : Spread base heap.mem ps)
    (allocators : ℕ → Allocator) (id : Int32) {cache_size : Int32} (hsize : 1 ≤ cache_size)
    (hne : ps ≠ []) :
    Run.Agree (Carries base) (loader_add_server allocators heap id cache_size)
      (DistDb.loader_add_server plain id cache_size) := by
  obtain ⟨new, new_plain, hnew, hnew', q, hq_heap, hq_plain, hq⟩ :=
    Coupled.init_server hsize heap.mem id
  have hlength := length_heap hheap hplain
  have hpos : 0 < heap.servers.length := by
    rw [hheap, List.length_map]
    exact List.length_pos_iff.mpr hne
  have hring : plain.ring ≠ [] := by
    rw [← List.length_pos_iff, LoadBalancer.length_ring, ← hlength]
    exact hpos
  have hle : addSlot plain.ring id ≤ plain.servers.length := by
    rw [← LoadBalancer.length_ring]
    exact addSlot_le _ hring id
  have hnext_slot : addSlot plain.ring id % heap.servers.length = addNextSlot plain.ring id := by
    rw [addNextSlot, LoadBalancer.length_ring, hlength]
  have hnext_lt : addNextSlot plain.ring id < plain.servers.length := by
    rw [← hnext_slot, ← hlength]
    exact Nat.mod_lt _ hpos
  obtain ⟨p, hp⟩ := exists_coupled hplain hnext_lt
  have hslot : (if hash_uint id > hash_uint (ps.getLast hne).heap.id then heap.servers.length
      else get_server heap (hash_uint id)) = addSlot plain.ring id := by
    have hlast : plain.servers.getLast? = some (ps.getLast hne).plain := by
      rw [hplain, List.getLast?_map, List.getLast?_eq_some_getLast hne]
      rfl
    rw [(ps.getLast hne).stands_for.id_eq, hlength, get_server_eq hheap hplain,
      ← DistDb.get_server_eq]
    exact add_slot_eq hlast id
  have hlast : heap.servers.getLast? = some (ps.getLast hne).heap := by
    rw [hheap, List.getLast?_map, List.getLast?_eq_some_getLast hne]
    rfl
  -- the queue of the next server is executed beside the new server, which owns nothing yet
  have hq_next : (q :: ps)[addNextSlot plain.ring id + 1]? = some p := hp
  obtain ⟨_, hbase₁, hon, hset⟩ := (h.cons_new hq).at hbase hq_next
  obtain ⟨mem₁, executed, p₁, hexec, hexec', hon₁⟩ :=
    Coupled.execute_queue hbase₁ hon fun n => allocators (2 * n)
  have h₁ : Spread base mem₁ (q :: ps.set (addNextSlot plain.ring id) p₁) := hset _ _ hon₁
  have hid : p₁.plain.id = p.plain.id := by
    obtain ⟨_, hspec, -, hview⟩ := execute_queue_spec p.stands_for.wf
    cases hexec'.symm.trans hspec
    show p₁.plain.view.id = p.plain.view.id
    rw [hview]
    exact ServerView.id_drained _
  -- the loop moves documents between these two
  have hperm := Parallel.set_perm_cons_eraseIdx hp p₁
  have hpair : Spread base mem₁ ([p₁, q] ++ ps.eraseIdx (addNextSlot plain.ring id)) :=
    h₁.perm (((hperm.cons q).trans (List.Perm.swap p₁ q _)).symm)
  obtain ⟨_, hbase₂, hfocus, hreplace⟩ := hpair.frame hbase
  obtain ⟨next_s', s', hloop, -⟩ :=
    migrate_loop_spec (goes plain.ring id p.plain.view) (migrate_rounds p₁.plain) (b := 0)
      p₁.stands_for.wf q.stands_for.wf (fun d _ hindex => absurd hindex (Nat.not_lt_zero _))
      (Nat.add_le_add_left (Nat.sub_le _ _) _)
  obtain ⟨mem₂, p₂, q₂, hmigrate, rfl, rfl, h₂⟩ :=
    migrate_loop_eq hbase₂ (fun n => allocators (2 * n + 1)) _ _ _ hfocus hloop
  rw [hq_heap] at hmigrate
  rw [hq_plain] at hloop
  have hrounds : p₁.heap.size + p₁.heap.hmax.toNat = migrate_rounds p₁.plain := by
    rw [p₁.stands_for.size_eq, p₁.stands_for.hmax_eq]
    rfl
  have hmoves : moves_key (hash_uint id) (addNextSlot plain.ring id == 0) (hash_uint p₁.heap.id)
      = goes plain.ring id p.plain.view := by
    rw [p₁.stands_for.id_eq, hid]
    rfl
  rw [loader_add_server_eq (server_at_some hplain hp) hnew' hexec' hid hloop, loader_add_server,
    hnew]
  simp only [Nat.ne_of_gt hpos, if_false, hlast, hslot, remainder_of_pos hpos, ok_bind, hnext_slot,
    server_at_some hheap hp, hexec, hmoves, hrounds, hmigrate, pure_eq_ok]
  rw [DistDb.ll_add_nth_node_of_le (by rw [List.length_set, hlength]; exact hle)]
  refine .ok executed ⟨(ps.set (addNextSlot plain.ring id) p₂).insertIdx (addSlot plain.ring id) q₂,
    ?_, ?_, ?_⟩
  · rw [List.map_insertIdx, List.map_set, hheap]
  · rw [List.map_insertIdx, List.map_set, hplain]
  · have hle' : addSlot plain.ring id ≤ (ps.set (addNextSlot plain.ring id) p₂).length := by
      rw [hplain, List.length_map] at hle
      rwa [List.length_set]
    have hperm₂ := Parallel.set_perm_cons_eraseIdx hp p₂
    exact (hreplace mem₂ [p₂, q₂] h₂).perm ((List.perm_insertIdx q₂ _ hle').trans
      ((hperm₂.cons q₂).trans (List.Perm.swap p₂ q₂ _)))

/-- **`loader_add_server`** -/
theorem loader_add_server_agrees (hbase : base.Finite) (h : Carries base heap plain)
    (allocators : ℕ → Allocator) (id : Int32) {cache_size : Int32} (hneg : ¬ cache_size < 0) :
    Run.Agree (Carries base) (loader_add_server allocators heap id cache_size)
      (DistDb.loader_add_server plain id cache_size) := by
  by_cases hzero : cache_size = 0
  · subst hzero
    exact .error Fault.nullServer
  · have hsize := (one_le_iff hneg).mpr hzero
    obtain ⟨ps, hheap, hplain, h⟩ := h
    by_cases hne : ps = []
    · -- the first server of the ring
      subst hne
      obtain ⟨new, new_plain, hnew, hnew', q, hq_heap, hq_plain, hq⟩ :=
        Coupled.init_server hsize heap.mem id
      have hheap : heap.servers = [] := hheap
      have hplain : plain.servers = [] := hplain
      rw [loader_add_server, DistDb.loader_add_server, hnew, hnew']
      simp only [hheap, hplain, List.length_nil, if_true, pure_eq_ok]
      exact .ok [] ⟨[q], by rw [List.map_singleton, hq_heap]; rfl,
        by rw [List.map_singleton, hq_plain]; rfl, h.cons_new hq⟩
    · exact loader_add_server_next hbase hheap hplain h allocators id hsize hne

/-- One of the servers is released. -/
theorem Spread.free_server (hbase : base.Finite) {mem : Memory} (h : Spread base mem (p :: ps)) :
    ∃ mem', Nodes.free_server mem p.heap = .ok mem' ∧ Spread base mem' ps := by
  have h' : Spread base mem ([p] ++ ps) := h
  obtain ⟨base', _, hfocus, hreplace⟩ := h'.frame hbase
  exact ⟨base', Coupled.free_server (spread_singleton.mp hfocus),
    hreplace base' [] (spread_nil base')⟩

/-- `loader_remove_server` on a ring of several servers. -/
theorem loader_remove_server_next (hbase : base.Finite)
    (hheap : heap.servers = ps.map Coupled.heap) (hplain : plain.servers = ps.map Coupled.plain)
    (h : Spread base heap.mem ps) (allocators : ℕ → Allocator) (id : Int32)
    (hlen : 2 ≤ plain.servers.length) :
    Run.Agree (Carries base) (loader_remove_server allocators heap id)
      (DistDb.loader_remove_server plain id) := by
  have hlength := length_heap hheap hplain
  have hring_length : 2 ≤ plain.ring.length := by rwa [LoadBalancer.length_ring]
  have hring : plain.ring ≠ [] := List.length_pos_iff.mp (by omega)
  have hpos : 0 < heap.servers.length := by omega
  have hone : heap.servers.length ≠ 1 := by omega
  have hslot_lt : slot plain.ring (hash_uint id) < plain.servers.length := by
    rw [← LoadBalancer.length_ring]
    exact slot_lt hring _
  have hnext_slot : (slot plain.ring (hash_uint id) + 1) % heap.servers.length
      = removeNextSlot plain.ring id := by
    rw [removeNextSlot, LoadBalancer.length_ring, hlength]
  have hnext_lt : removeNextSlot plain.ring id < plain.servers.length := by
    rw [← hnext_slot, ← hlength]
    exact Nat.mod_lt _ hpos
  have hne : slot plain.ring (hash_uint id) ≠ removeNextSlot plain.ring id :=
    (removeNextSlot_ne hring_length).symm
  obtain ⟨p, hp⟩ := exists_coupled hplain hslot_lt
  obtain ⟨q, hq⟩ := exists_coupled hplain hnext_lt
  -- the queue of the server is executed first
  obtain ⟨_, hbase₁, hon, hset⟩ := h.at hbase hp
  obtain ⟨mem₁, executed, p₁, hexec, hexec', hon₁⟩ :=
    Coupled.execute_queue hbase₁ hon fun n => allocators (2 * n)
  have h₁ := hset _ _ hon₁
  have hperm := Parallel.set_perm_cons_eraseIdx hp p₁
  obtain ⟨rest, hrest, hrest'⟩ := Parallel.exists_perm_two hq hne
  have hpair : Spread base mem₁ ([p₁, q] ++ rest) :=
    h₁.perm ((hperm.trans (hrest.cons p₁)).symm)
  -- its records go to the next one, beside the other servers, and it is released
  obtain ⟨_, hbase₂, hfocus, hreplace⟩ := hpair.frame hbase
  obtain ⟨mem₂, db, q₂, hmerge, hmerge', hq_plain, h₂⟩ :=
    merge_db_agrees hbase₂ (fun n => allocators (2 * n + 1)) hfocus
  obtain ⟨mem₃, hfree, h₃⟩ := Spread.free_server hbase (hreplace mem₂ [p₁, q₂] h₂)
  rw [loader_remove_server_eq hlen (server_at_some hplain hp) (server_at_some hplain hq) hexec'
    hmerge', loader_remove_server]
  simp only [get_server_eq hheap hplain, server_at_some hheap hp, hone, if_false,
    remainder_of_pos hpos, ok_bind, hnext_slot, server_at_some hheap hq, hexec, hmerge, hfree,
    pure_eq_ok]
  rw [DistDb.ll_remove_nth_node_of_lt (by rw [List.length_set, hlength]; exact hslot_lt)]
  refine .ok executed ⟨(ps.set (removeNextSlot plain.ring id) q₂).eraseIdx
    (slot plain.ring (hash_uint id)), ?_, ?_, h₃.perm (hrest' q₂)⟩
  · rw [← List.eraseIdx_map, List.map_set, hheap]
  · rw [← List.eraseIdx_map, List.map_set, hplain, hq_plain]

/-- **`loader_remove_server`** -/
theorem loader_remove_server_agrees (hbase : base.Finite) (h : Carries base heap plain)
    (allocators : ℕ → Allocator) (id : Int32) :
    Run.Agree (Carries base) (loader_remove_server allocators heap id)
      (DistDb.loader_remove_server plain id) := by
  obtain ⟨ps, hheap, hplain, h⟩ := h
  match ps, hheap, hplain, h with
  | [], hheap, hplain, h =>
    -- there is no server to be removed
    rw [loader_remove_server, DistDb.loader_remove_server]
    simp only [DistDb.ll_get_nth_node, hheap, hplain, List.map_nil, List.getElem?_nil]
    exact .error _
  | [p], hheap, hplain, h =>
    obtain ⟨mem', hfree, h'⟩ := Spread.free_server hbase h
    have hplain : plain.servers = [p.plain] := hplain
    have hslot : slot plain.ring (hash_uint id) = 0 := by
      have hring : plain.ring ≠ [] := by simp [LoadBalancer.ring, hplain]
      have hlt := slot_lt hring (hash_uint id)
      rw [LoadBalancer.length_ring, hplain, List.length_singleton] at hlt
      omega
    have hget : DistDb.ll_get_nth_node heap.servers 0 = some p.heap := server_at_some hheap rfl
    have hone : heap.servers.length = 1 := by
      rw [hheap]
      rfl
    have herase : (DistDb.ll_remove_nth_node heap.servers 0).2 = [] := by
      rw [hheap]
      rfl
    rw [loader_remove_server_only hplain, loader_remove_server]
    simp only [get_server_eq hheap hplain, hslot, hget, hone, if_true, hfree, ok_bind, herase,
      pure_eq_ok]
    exact .ok [] ⟨[], rfl, rfl, h'⟩
  | p :: q :: ps, hheap, hplain, h =>
    refine loader_remove_server_next hbase hheap hplain h allocators id ?_
    rw [hplain, List.length_map]
    exact Nat.le_add_left 2 ps.length

/-! ## §5. The command loop. -/

/-- **`free_load_balancer` leaves nothing behind** of the lists of the servers. -/
theorem free_load_balancer_eq (hbase : base.Finite) (h : Carries base heap plain) :
    free_load_balancer heap = .ok base := by
  obtain ⟨ps, hheap, -, h⟩ := h
  rw [free_load_balancer, hheap]
  clear hheap
  generalize heap.mem = mem at h
  induction ps generalizing mem with
  | nil =>
    have hmem : mem = base := h.owned.memory.eq_base
    rw [hmem]
    rfl
  | cons p ps ih =>
    obtain ⟨mem', hfree, h'⟩ := Spread.free_server hbase h
    rw [List.map_cons, List.foldlM_cons, hfree, ok_bind]
    exact ih mem' h'

/-- What is made of the outputs alone is the same on both sides. -/
theorem agree_bind {α β : Type} {R : HeapBalancer → LoadBalancer → Prop}
    {x : Exec (HeapBalancer × α)} {y : Exec (LoadBalancer × α)} (h : Run.Agree R x y)
    (f : α → β) :
    Run.Agree R (x >>= fun r => pure (r.1, f r.2)) (y >>= fun r => pure (r.1, f r.2)) := by
  cases h with
  | error e => exact .error e
  | ok o h => exact .ok (f o) h

/-- **One round of the command loop**: the same responses, or the same fault. -/
theorem apply_request_agrees (hbase : base.Finite) (heap : HeapBalancer) (plain : LoadBalancer)
    (call : Command × (ℕ → Allocator)) (h : Carries base heap plain) :
    Run.Agree (Carries base) (apply_request heap call) (DistDb.apply_request plain call.1) := by
  obtain ⟨command, allocators⟩ := call
  cases command with
  | ADD_SERVER id cache_size =>
    rw [apply_request, DistDb.apply_request]
    split_ifs with hneg
    · exact .error _
    · exact agree_bind (loader_add_server_agrees hbase h allocators id hneg)
        fun executed => (⟨executed, none⟩ : Output)
  | REMOVE_SERVER id =>
    exact agree_bind (loader_remove_server_agrees hbase h allocators id)
      fun executed => (⟨executed, none⟩ : Output)
  | EDIT d c =>
    exact agree_bind (loader_forward_request_agrees hbase h allocators (editRequest d c))
      fun answer => (⟨answer.2, answer.1⟩ : Output)
  | GET d =>
    exact agree_bind (loader_forward_request_agrees hbase h allocators (getRequest d))
      fun answer => (⟨answer.2, answer.1⟩ : Output)

end Loader

/-- **The program on the heap is the program on sequences, and it leaks nothing**: on any memory and
whatever unused addresses `malloc` gives, every sequence of commands gives the responses that it
gives on sequences and leaves the memory as it was before the first command, or ends with the
fault with which it ends on sequences. -/
theorem heap_program_refines_program {base : Memory} (hbase : base.Finite)
    (calls : List (Command × (ℕ → Allocator))) :
    apply_requests base calls
      = (DistDb.apply_requests (calls.map Prod.fst)).map fun r => (base, r.2) := by
  have hinit : Carries base ⟨base, []⟩ init_load_balancer := ⟨[], rfl, rfl, spread_nil base⟩
  have hagree := Run.run_agree (apply_request_agrees hbase) hinit calls
  rw [apply_requests, DistDb.apply_requests]
  generalize Run.run apply_request ⟨base, []⟩ calls = x at hagree
  generalize Run.run DistDb.apply_request init_load_balancer (calls.map Prod.fst) = y at hagree
  cases hagree with
  | error fault => rfl
  | ok outputs h =>
    simp only [ok_bind, free_load_balancer_eq hbase h, pure_eq_ok]
    rfl

/-- A second server takes documents over, and the first one leaves again. -/
theorem heap_program_refines_program_two_servers :
    apply_requests Memory.empty
        ([.ADD_SERVER 1 2, .EDIT (.ofString "a") (.ofString "x"), .GET (.ofString "a"),
          .ADD_SERVER 2 1, .REMOVE_SERVER 1, .GET (.ofString "a")].map fun command =>
            (command, fun _ => firstFit))
      = .ok (Memory.empty,
        [⟨[], none⟩,
          ⟨[], some ⟨LOG_LAZY_EXEC 1, some (MSG_A EDIT_REQUEST (.ofString "a")), 1⟩⟩,
          ⟨[⟨editRequest (.ofString "a") (.ofString "x"),
              ⟨LOG_MISS (.ofString "a"), some (MSG_C (.ofString "a")), 1⟩⟩],
            some ⟨LOG_HIT (.ofString "a"), some (.ofString "x"), 1⟩⟩,
          ⟨[], none⟩, ⟨[], none⟩,
          ⟨[], some ⟨LOG_MISS (.ofString "a"), some (.ofString "x"), 2⟩⟩]) := by
  have hmap : ∀ x : Exec (LoadBalancer × List Output), x.map (fun r => (Memory.empty, r.2))
      = (x.map Prod.snd).map fun outputs => (Memory.empty, outputs) := by
    intro x
    cases x <;> rfl
  rw [heap_program_refines_program Memory.finite_empty, hmap]
  refine congrArg (Except.map fun outputs => (Memory.empty, outputs))
    (?_ : _ = (Except.ok _ : Exec (List Output)))
  decide +kernel

end DistDb.Nodes
