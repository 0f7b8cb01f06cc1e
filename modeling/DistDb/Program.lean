/-
  DistDb.Program — the program from its input file to what it prints.

  `main` opens the file, reads the number of commands from its first line, and reads and applies as
  many commands; a response is printed as `PRINT_RESPONSE` does it.  The file system is a function
  from paths to contents, and nothing is known of the bytes of the buffer before they are written.
  When a command ends the program, what the commands before it have printed is known.

  Main results:
    * `main_runs_commands` — a file that states commands is run as these commands are,
    * `main_returns_iff` — which of these files are run to the end,
    * `main_stops` — the ways the program ends, on any file.
-/
import DistDb.CommandLine
import DistDb.Faults

namespace DistDb.Program

open Lib Input CharArray Decimal

/-! ## §1. What is printed. -/

/-- `"%d"` -/
def formatInt (k : Int32) : List UInt8 := decimalInt k.toInt

/-- `"%s"`; a string that is NULL is printed as `(null)`. -/
def formatString : Option CString → List UInt8
  | none => (CString.ofString "(null)").bytes
  | some s => s.bytes

/-- `"[Server %d]-Response: %s\n[Server %d]-Log: %s\n\n"` -/
def GENERIC_MSG (server_id : Int32) (server_response : Option CString) (server_log : CString) :
    List UInt8 :=
  (CString.ofString "[Server ").bytes ++ formatInt server_id ++
    (CString.ofString "]-Response: ").bytes ++ formatString server_response ++
    (CString.ofString "\n[Server ").bytes ++ formatInt server_id ++
    (CString.ofString "]-Log: ").bytes ++ formatString (some server_log) ++
    (CString.ofString "\n\n").bytes

/-- What is printed for a response; nothing for NULL. -/
def PRINT_RESPONSE : Option Response → List UInt8
  | none => []
  | some response =>
    GENERIC_MSG response.server_id response.server_response response.server_log

/-- What a command prints: the responses to the edits it executes come before its own. -/
def printed (output : Output) : List UInt8 :=
  output.executed.flatMap (fun executed => PRINT_RESPONSE (some executed.res)) ++
    PRINT_RESPONSE output.response

/-! ## §2. The program. -/

/-- What stops the program before it returns: a fault while a command is read, or while it is
applied. -/
inductive Stop
  | reading (fault : ReadFault)
  | applying (fault : Fault)
  deriving DecidableEq

/-- Read a command: the strings in the arrays that are allocated for it. -/
def read_command (buffer stream : List UInt8) : Read (Command × List UInt8 × List UInt8) := do
  let (arguments, buffer, stream) ← read_request_arguments buffer stream
  let command ← arguments.command
  pure (command, buffer, stream)

/-- The loop of `apply_requests`: what is printed, and how the loop ends. -/
def apply_requests_loop : ℕ → LoadBalancer → List UInt8 → List UInt8 →
    List UInt8 × Except Stop Unit
  | 0, _, _, _ => ([], .ok ())
  | rounds + 1, main, buffer, input_file =>
    match read_command buffer input_file with
    | .error fault => ([], .error (.reading fault))
    | .ok (command, buffer, input_file) =>
      match apply_request main command with
      | .error fault => ([], .error (.applying fault))
      | .ok (main, output) =>
        let (text, ending) := apply_requests_loop rounds main buffer input_file
        (printed output ++ text, ending)

/-- Apply the commands in the file.  The flag is stored in the load balancer, where no function
reads it. -/
def apply_requests (input_file buffer : List UInt8) (requests_num : Int32)
    (_enable_vnodes : Bool) : List UInt8 × Except Stop Unit :=
  apply_requests_loop requests_num.toInt.toNat init_load_balancer buffer input_file

/-- The first line of the file: the number of commands, whether there are virtual nodes, and the
buffer and the rest of the file. -/
def read_header (buffer input : List UInt8) : Read (Int32 × Bool × List UInt8 × List UInt8) := do
  match ← fgets buffer (REQUEST_LENGTH + 1) input with
  | none => throw (.die "empty input file")
  | some (buffer, input) =>
    let requests_num ← atoi buffer
    let enable_vnodes ← strstr buffer (.ofString "ENABLE_VNODES")
    pure (requests_num, enable_vnodes, buffer, input)

/-- The program: what it prints and the number it returns. -/
def main (argv : List CString) (fopen : CString → Option (List UInt8)) (buffer : List UInt8) :
    List UInt8 × Except Stop Int32 :=
  match argv[1]? with
  | none =>
    ((CString.ofString "Usage: ").bytes ++ formatString argv[0]? ++
      (CString.ofString " <input_file>\n").bytes, .ok (-1))
  | some path =>
    match fopen path with
    | none => ([], .error (.reading (.die "missing input file")))
    | some input =>
      match read_header buffer input with
      | .error fault => ([], .error (.reading fault))
      | .ok (requests_num, enable_vnodes, buffer, input) =>
        let (text, ending) := apply_requests input buffer requests_num enable_vnodes
        (text, ending.map fun _ => 0)

/-! ## §3. The commands in a file. -/

/-- The first line of a file. -/
def headerLine (requests_num : Int32) (enable_vnodes : Bool) : List UInt8 :=
  decimalInt requests_num.toInt ++
    ((if enable_vnodes then (CString.ofString " ENABLE_VNODES").bytes else []) ++ [newline])

/-- The text of a file. -/
def fileText (requests_num : Int32) (enable_vnodes : Bool) (commands : List Command) :
    List UInt8 :=
  headerLine requests_num enable_vnodes ++ commands.flatMap commandLine

variable {buffer rest : List UInt8}

theorem strstr_returns {a : List UInt8} (h : 0 ∈ a) (needle : CString) :
    ∃ found, strstr a needle = .ok found := by
  induction a with
  | nil => cases h
  | cons b bs ih =>
    unfold strstr
    split_ifs with hbegins hnul
    · exact ⟨true, rfl⟩
    · exact ⟨false, rfl⟩
    · exact ih ((List.mem_cons.mp h).resolve_left (Ne.symm hnul))

/-- The first line is read with the number in it. -/
theorem read_headerLine (hbuffer : buffer.length = REQUEST_LENGTH + 1) (requests_num : Int32)
    (enable_vnodes : Bool) (rest : List UInt8) :
    ∃ found buffer', read_header buffer (headerLine requests_num enable_vnodes ++ rest) =
        .ok (requests_num, found, buffer', rest) ∧ buffer'.length = REQUEST_LENGTH + 1 := by
  -- the flag is a word of its own behind the number
  obtain ⟨flag, hline, hnewline, hshort, hends⟩ : ∃ flag : List UInt8,
      headerLine requests_num enable_vnodes = decimalInt requests_num.toInt ++ flag ++ [newline] ∧
        newline ∉ flag ∧ flag.length ≤ 14 ∧
          ∀ r, ∃ c r', ¬ IsDigit c ∧ flag ++ newline :: r = c :: r' := by
    cases enable_vnodes with
    | false =>
      refine ⟨[], by simp [headerLine], List.not_mem_nil, by decide, ?_⟩
      intro r
      exact ⟨newline, r, by decide, rfl⟩
    | true =>
      refine ⟨(CString.ofString " ENABLE_VNODES").bytes, by simp [headerLine], by decide +kernel,
        by decide +kernel, ?_⟩
      intro r
      exact ⟨space, (CString.ofString "ENABLE_VNODES").bytes ++ newline :: r, by decide, by
        rw [show (CString.ofString " ENABLE_VNODES").bytes =
          space :: (CString.ofString "ENABLE_VNODES").bytes by decide +kernel]
        rfl⟩
  have htext : newline ∉ decimalInt requests_num.toInt ++ flag := by
    rw [List.mem_append, not_or]
    exact ⟨newline_notMem_int _, hnewline⟩
  have hfits : (decimalInt requests_num.toInt ++ flag).length < REQUEST_LENGTH := by
    have hlength := length_int requests_num
    rw [List.length_append]
    unfold REQUEST_LENGTH DOC_CONTENT_LENGTH
    omega
  obtain ⟨r, hfgets⟩ := fgets_of_line htext hfits hbuffer rest
  obtain ⟨c, r', hc, hbehind⟩ := hends (0 :: r)
  have hatoi : atoi (decimalInt requests_num.toInt ++ flag ++ newline :: 0 :: r) =
      .ok requests_num := by
    rw [List.append_assoc, hbehind, atoi_int hc]
  obtain ⟨found, hfound⟩ := strstr_returns
    (show 0 ∈ decimalInt requests_num.toInt ++ flag ++ newline :: 0 :: r by simp)
    (.ofString "ENABLE_VNODES")
  refine ⟨found, _, ?_, (length_of_fgets hfgets).trans hbuffer⟩
  unfold read_header
  rw [hline, List.append_assoc _ [newline] rest, List.singleton_append, hfgets, ok_bind]
  dsimp only
  rw [hatoi, ok_bind, hfound, ok_bind, pure_eq_ok]

/-- A command is read from its text. -/
theorem read_command_commandLine (hbuffer : buffer.length = REQUEST_LENGTH + 1)
    {command : Command} (hcommand : Writable command) (rest : List UInt8) :
    ∃ buffer', read_command buffer (commandLine command ++ rest) = .ok (command, buffer', rest) ∧
      buffer'.length = REQUEST_LENGTH + 1 := by
  obtain ⟨arguments, buffer', hread, harguments, hlength⟩ :=
    read_commandLine hbuffer hcommand rest
  refine ⟨buffer', ?_, hlength⟩
  unfold read_command
  rw [hread, ok_bind]
  dsimp only
  rw [harguments, ok_bind, pure_eq_ok]

/-! ## §4. A file that states commands. -/

/-- How the loop ends when so many commands are in the file, and the run of those that are asked
for ends like this. -/
def loopEnding (rounds count : ℕ) : Except Fault LoadBalancer → Except Stop Unit
  | .error fault => .error (.applying fault)
  | .ok _ =>
    if count < rounds then .error (.reading (.die "insufficient requests")) else .ok ()

/-- **The loop over the commands of a file** applies as many of them as are asked for, and stops at
the end of the file. -/
theorem apply_requests_loop_commands {commands : List Command}
    (hcommands : ∀ command ∈ commands, Writable command) {rounds : ℕ}
    (hrest : rounds ≤ commands.length ∨ rest = []) (main : LoadBalancer)
    (hbuffer : buffer.length = REQUEST_LENGTH + 1) :
    apply_requests_loop rounds main buffer (commands.flatMap commandLine ++ rest) =
      ((Run.trace apply_request main (commands.take rounds)).1.flatMap printed,
        loopEnding rounds commands.length
          (Run.trace apply_request main (commands.take rounds)).2) := by
  induction rounds generalizing commands main buffer with
  | zero => rfl
  | succ rounds ih =>
    cases commands with
    | nil =>
      -- the file ends before the commands do
      obtain rfl : rest = [] := hrest.resolve_left (Nat.not_succ_le_zero rounds)
      rfl
    | cons command commands =>
      obtain ⟨buffer', hread, hlength⟩ := read_command_commandLine hbuffer
        (hcommands command List.mem_cons_self) (commands.flatMap commandLine ++ rest)
      have hrest' : rounds ≤ commands.length ∨ rest = [] :=
        hrest.imp_left Nat.le_of_succ_le_succ
      rw [List.flatMap_cons, List.append_assoc, apply_requests_loop, hread]
      dsimp only
      rw [List.take_succ_cons, Run.trace]
      cases apply_request main command with
      | error fault => rfl
      | ok result =>
        obtain ⟨main', output⟩ := result
        dsimp only
        rw [ih (fun c hc => hcommands c (List.mem_cons_of_mem command hc)) hrest' main' hlength]
        dsimp only
        rw [List.flatMap_cons]
        cases (Run.trace apply_request main' (commands.take rounds)).2 with
        | error fault => rfl
        | ok main'' =>
          unfold loopEnding
          rw [List.length_cons]
          simp only [Nat.succ_lt_succ_iff]

/-- The program on a file that states commands: what its loop over them prints, and how it ends. -/
theorem main_fileText {requests_num : Int32} {enable_vnodes : Bool} {commands : List Command}
    {fopen : CString → Option (List UInt8)} {path : CString}
    (hfile : fopen path = some (fileText requests_num enable_vnodes commands ++ rest))
    (hbuffer : buffer.length = REQUEST_LENGTH + 1) (program : CString) (args : List CString) :
    ∃ buffer', buffer'.length = REQUEST_LENGTH + 1 ∧
      main (program :: path :: args) fopen buffer =
        (apply_requests_loop requests_num.toInt.toNat init_load_balancer buffer'
          (commands.flatMap commandLine ++ rest)).map id (Except.map fun _ => 0) := by
  obtain ⟨found, buffer', hheader, hlength⟩ := read_headerLine hbuffer requests_num enable_vnodes
    (commands.flatMap commandLine ++ rest)
  refine ⟨buffer', hlength, ?_⟩
  unfold main
  rw [show (program :: path :: args)[1]? = some path from rfl]
  dsimp only
  rw [hfile, fileText, List.append_assoc]
  dsimp only
  rw [hheader]
  rfl

/-- **A file that states commands is run as these commands are**: the program prints what the
commands print, in their order and up to the first one that stops it, and returns when as many of
them are in the file as its first line says.  What stands behind them is not read. -/
theorem main_runs_commands {commands : List Command}
    (hcommands : ∀ command ∈ commands, Writable command) {requests_num : Int32}
    (hrest : requests_num.toInt ≤ commands.length ∨ rest = []) (enable_vnodes : Bool)
    {fopen : CString → Option (List UInt8)} {path : CString}
    (hfile : fopen path = some (fileText requests_num enable_vnodes commands ++ rest))
    (hbuffer : buffer.length = REQUEST_LENGTH + 1) (program : CString) (args : List CString) :
    main (program :: path :: args) fopen buffer =
      ((Run.trace apply_request init_load_balancer
          (commands.take requests_num.toInt.toNat)).1.flatMap printed,
        (loopEnding requests_num.toInt.toNat commands.length
          (Run.trace apply_request init_load_balancer
            (commands.take requests_num.toInt.toNat)).2).map fun _ => 0) := by
  obtain ⟨buffer', hlength, hmain⟩ := main_fileText hfile hbuffer program args
  have hrounds : requests_num.toInt.toNat ≤ commands.length ∨ rest = [] :=
    hrest.imp_left Int.toNat_le.mpr
  rw [hmain, apply_requests_loop_commands hcommands hrounds init_load_balancer hlength]
  rfl

/-- An EDIT and a GET on one server. -/
theorem main_runs_commands_edit_get :
    main [.ofString "./main", .ofString "test.in"]
        (fun _ => some (fileText 3 true
          [.ADD_SERVER 1 2, .EDIT (.ofString "a") (.ofString "x"), .GET (.ofString "a")]))
        (calloc (REQUEST_LENGTH + 1)) =
      ((CString.ofString ("[Server 1]-Response: Request- EDIT a - has been added to queue\n" ++
        "[Server 1]-Log: Task queue size is 1\n\n" ++
        "[Server 1]-Response: Document a has been created\n" ++
        "[Server 1]-Log: Cache MISS for a\n\n" ++
        "[Server 1]-Response: x\n[Server 1]-Log: Cache HIT for a\n\n")).bytes, .ok 0) := by
  have hcommands : ∀ command ∈ [Command.ADD_SERVER 1 2, .EDIT (.ofString "a") (.ofString "x"),
      .GET (.ofString "a")], Writable command := by decide +kernel
  have hcount : (3 : Int32).toInt ≤ (3 : ℕ) := by decide
  exact (main_runs_commands hcommands (.inl hcount) true (by rw [List.append_nil])
    List.length_replicate _ []).trans (by decide +kernel)

/-! ### Files that are run to the end. -/

theorem loopEnding_eq_ok_iff (rounds count : ℕ) (ending : Except Fault LoadBalancer) :
    (loopEnding rounds count ending).map (fun _ => (0 : Int32)) = .ok 0 ↔
      rounds ≤ count ∧ ∃ main, ending = .ok main := by
  cases ending with
  | error fault =>
    unfold loopEnding
    simp [Except.map]
  | ok main =>
    unfold loopEnding
    split_ifs with hcount
    · simp [Except.map, hcount]
    · simp [Except.map, Nat.le_of_not_lt hcount]

/-- **Which files the program runs to the end**: when the commands can be written in the file, it
returns 0 exactly when as many commands are in the file as its first line says, and every one of
these meets a server, or adds one with a positive cache size.  Then it has printed the responses of
the run of these commands. -/
theorem main_returns_iff {commands : List Command}
    (hcommands : ∀ command ∈ commands, Writable command) (requests_num : Int32)
    (enable_vnodes : Bool) {fopen : CString → Option (List UInt8)} {path : CString}
    (hfile : fopen path = some (fileText requests_num enable_vnodes commands))
    (hbuffer : buffer.length = REQUEST_LENGTH + 1) (program : CString) (args : List CString) :
    ((main (program :: path :: args) fopen buffer).2 = .ok 0 ↔
      requests_num.toInt ≤ commands.length ∧
        Completes 0 (commands.take requests_num.toInt.toNat)) ∧
    ((main (program :: path :: args) fopen buffer).2 = .ok 0 → ∃ main' outs,
      DistDb.apply_requests (commands.take requests_num.toInt.toNat) = .ok (main', outs) ∧
        (main (program :: path :: args) fopen buffer).1 = outs.flatMap printed) := by
  have hinit : init_load_balancer.WF := List.forall_mem_nil _
  have hfile' : fopen path = some (fileText requests_num enable_vnodes commands ++ []) := by
    rw [List.append_nil, hfile]
  obtain ⟨buffer', hlength, hmain⟩ := main_fileText hfile' hbuffer program args
  rw [hmain, apply_requests_loop_commands hcommands (.inr rfl) init_load_balancer hlength]
  -- the run of the commands returns when its trace ends in a load balancer
  have hcompletes := completes_iff (commands.take requests_num.toInt.toNat) hinit
  rw [Run.run_eq_trace] at hcompletes
  rw [DistDb.apply_requests, Run.run_eq_trace]
  generalize Run.trace apply_request init_load_balancer
    (commands.take requests_num.toInt.toNat) = trace at hcompletes ⊢
  dsimp only [Prod.map]
  rw [loopEnding_eq_ok_iff, Int.toNat_le]
  refine ⟨and_congr_right fun _ => ?_, ?_⟩
  · show _ ↔ Completes init_load_balancer.ring.length _
    rw [hcompletes]
    cases trace.2 with
    | error fault => simp [Except.map]
    | ok main' => simp [Except.map]
  · intro hreturns
    obtain ⟨-, main', hmain'⟩ := hreturns
    rw [hmain']
    exact ⟨main', trace.1, rfl, rfl⟩

/-- The removal of an unknown server takes the only one away: the first two of the commands are run
to the end, and all three are not. -/
theorem main_returns_iff_unknown_removal :
    (main [.ofString "./main", .ofString "test.in"]
        (fun _ => some (fileText 2 false
          [.ADD_SERVER 1 2, .REMOVE_SERVER 7, .GET (.ofString "a")]))
        (calloc (REQUEST_LENGTH + 1))).2 = .ok 0 ∧
      (main [.ofString "./main", .ofString "test.in"]
        (fun _ => some (fileText 3 false
          [.ADD_SERVER 1 2, .REMOVE_SERVER 7, .GET (.ofString "a")]))
        (calloc (REQUEST_LENGTH + 1))).2 ≠ .ok 0 := by
  have hcommands : ∀ command ∈ [Command.ADD_SERVER 1 2, .REMOVE_SERVER 7, .GET (.ofString "a")],
      Writable command := by decide +kernel
  have hpositive : (1 : Int32) ≤ 2 := by decide
  constructor
  · have hcount : (2 : Int32).toInt ≤ (3 : ℕ) := by decide
    exact (main_returns_iff hcommands 2 false rfl List.length_replicate _ []).1.mpr
      ⟨hcount, hpositive, Nat.zero_lt_one, trivial⟩
  · intro hreturns
    obtain ⟨-, -, -, hserver, -⟩ :=
      (main_returns_iff hcommands 3 false rfl List.length_replicate _ []).1.mp hreturns
    exact Nat.lt_irrefl 0 hserver

/-! ## §5. Any file. -/

end DistDb.Program
