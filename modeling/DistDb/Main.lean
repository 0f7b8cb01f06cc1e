/-
  DistDb.Main — the command loop of `main.c`.

  `apply_request` is one round of the loop of `apply_requests`, on a command that was parsed
  already; `apply_requests` runs a list of commands from an empty ring.
-/
import DistDb.LoadBalancer
import DistDb.Lib.Run

namespace DistDb

open Lib

/-- A parsed command with its arguments. -/
inductive Command
  | ADD_SERVER (server_id cache_size : Int32)
  | REMOVE_SERVER (server_id : Int32)
  | EDIT (doc_name doc_content : CString)
  | GET (doc_name : CString)
  deriving DecidableEq

/-- What a command prints: the responses to the edits it executes, then its own response. -/
structure Output where
  executed : List Executed
  response : Option Response
  deriving DecidableEq

/-- The request of an EDIT command. -/
def editRequest (doc_name doc_content : CString) : Request :=
  { type := .EDIT_DOCUMENT, doc_name := doc_name, doc_content := doc_content }

/-- The request of a GET command. -/
def getRequest (doc_name : CString) : Request :=
  { type := .GET_DOCUMENT, doc_name := doc_name, doc_content := .ofString "" }

/-- One round of the command loop. -/
def apply_request (main : LoadBalancer) : Command → Exec (LoadBalancer × Output)
  | .ADD_SERVER server_id cache_size =>
    if cache_size < 0 then throw .die
    else do
      let (main, executed) ← loader_add_server main server_id cache_size
      pure (main, ⟨executed, none⟩)
  | .REMOVE_SERVER server_id => do
    let (main, executed) ← loader_remove_server main server_id
    pure (main, ⟨executed, none⟩)
  | .EDIT doc_name doc_content => do
    let (main, response, executed) ←
      loader_forward_request main (editRequest doc_name doc_content)
    pure (main, ⟨executed, response⟩)
  | .GET doc_name => do
    let (main, response, executed) ← loader_forward_request main (getRequest doc_name)
    pure (main, ⟨executed, response⟩)

/-- The command loop, from an empty ring. -/
def apply_requests (commands : List Command) : Exec (LoadBalancer × List Output) :=
  Run.run apply_request init_load_balancer commands

end DistDb
