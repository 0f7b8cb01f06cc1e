/-
  DistDb.CommandLine — what `main.c` reads of a command.

  `commandLine c` is the command `c` as it stands in the input: its type, and its numbers in decimal
  notation or its words in quotes.  A command is `Writable` when its words fit into the arrays for
  them and no quote or newline is where the reader takes it for the end of a word or a line.

  Main results:
    * `get_request_type_get_request_type_str` — the types are known from their names,
    * `atoi_decimalInt` — numbers are read as they are written,
    * `read_commandLine` — a command is read back, whatever stands behind it in the input and
      whatever the buffer holds from the commands before.
-/
import DistDb.EditLine
import DistDb.Lib.Decimal

namespace DistDb.Input

open Lib CharArray Decimal

variable {buffer buffer' r s stream stream' : List UInt8} {b c : UInt8} {n : ℕ} {name : CString}

/-! ## §1. Numbers. -/

theorem isdigit_iff : isdigit b = true ↔ IsDigit b := by
  unfold isdigit IsDigit
  rw [Bool.and_eq_true, decide_eq_true_iff, decide_eq_true_iff]

/-- The digits are read up to the first byte that is none. -/
theorem read_digits_append (hs : ∀ b ∈ s, IsDigit b) (hc : ¬ IsDigit c) (v : ℕ)
    (r : List UInt8) : read_digits v (s ++ c :: r) = .ok (value v s) := by
  induction s generalizing v with
  | nil =>
    show (if isdigit c then _ else _) = _
    rw [if_neg (mt isdigit_iff.mp hc)]
    rfl
  | cons b s ih =>
    rw [List.cons_append, read_digits, if_pos (isdigit_iff.mpr (hs b List.mem_cons_self)),
      ih fun b' hb' => hs b' (List.mem_cons_of_mem b hb')]
    rw [value_cons]

theorem not_isspace_of_isDigit (hb : IsDigit b) : isspace b = false := by
  unfold IsDigit at hb
  rw [UInt8.le_iff_toNat_le, UInt8.le_iff_toNat_le] at hb
  have hspace : b ≠ 32 := by
    rintro rfl
    exact absurd hb.1 (by decide)
  have hcontrol : ¬ b ≤ 13 := by
    rw [UInt8.le_iff_toNat_le]
    intro h
    exact absurd (hb.1.trans h) (by decide)
  unfold isspace
  simp [hspace, hcontrol]

/-- A number without a sign. -/
theorem atoi_decimal (hc : ¬ IsDigit c) (m : ℕ) (r : List UInt8) :
    atoi (decimal m ++ c :: r) = .ok (.ofInt m) := by
  obtain ⟨b, s, hs⟩ := List.exists_cons_of_ne_nil (decimal_ne_nil m)
  have hdigits : ∀ b ∈ decimal m, IsDigit b := fun _ => isDigit_of_mem_decimal
  have hb : IsDigit b := hdigits b (hs ▸ List.mem_cons_self)
  have hminus : b ≠ 45 := by
    rintro rfl
    exact absurd hb (by decide)
  have hplus : b ≠ 43 := by
    rintro rfl
    exact absurd hb (by decide)
  have hread : read_digits 0 (b :: (s ++ c :: r)) = .ok m := by
    rw [← List.cons_append, ← hs, read_digits_append hdigits hc, value_decimal]
  rw [hs, List.cons_append, atoi, not_isspace_of_isDigit hb, if_neg Bool.false_ne_true,
    if_neg hminus, if_neg hplus, hread]
  rfl

/-- **A number is read as it is written.** -/
theorem atoi_decimalInt (hc : ¬ IsDigit c) (z : ℤ) (r : List UInt8) :
    atoi (decimalInt z ++ c :: r) = .ok (.ofInt z) := by
  unfold decimalInt
  split_ifs with hz
  · -- the sign is read first
    have hread : read_digits 0 (decimal z.natAbs ++ c :: r) = .ok z.natAbs := by
      rw [read_digits_append (fun _ => isDigit_of_mem_decimal) hc, value_decimal]
    rw [List.cons_append, atoi, if_neg (by decide), if_pos (show minus = 45 from rfl), hread,
      ok_bind, pure_eq_ok, show -(z.natAbs : ℤ) = z by omega]
  · rw [atoi_decimal hc, show (z.natAbs : ℤ) = z by omega]

/-- The number of an `int`. -/
theorem atoi_int (hc : ¬ IsDigit c) (k : Int32) (r : List UInt8) :
    atoi (decimalInt k.toInt ++ c :: r) = .ok k := by
  rw [atoi_decimalInt hc, Int32.ofInt_toInt]

theorem atoi_space (s : List UInt8) : atoi (space :: s) = atoi s := by
  rw [atoi, if_pos (by decide)]

/-- The first such byte is found behind a string without it. -/
theorem strchr_append (hs : c ∉ s) (hnul : 0 ∉ s) (r : List UInt8) :
    strchr (s ++ c :: r) c = .ok (some (c :: r)) := by
  induction s with
  | nil => exact if_pos rfl
  | cons b s ih =>
    rw [List.mem_cons, not_or] at hs hnul
    rw [List.cons_append, strchr, if_neg (Ne.symm hs.1), if_neg (Ne.symm hnul.1), ih hs.2 hnul.2]

/-! ## §2. The type of a command. -/

/-- The first letters of the names of the types. -/
theorem head?_get_request_type_str (type : RequestType) :
    (get_request_type_str type).bytes.head? = some (match type with
      | .ADD_SERVER => 65
      | .REMOVE_SERVER => 82
      | .EDIT_DOCUMENT => 69
      | .GET_DOCUMENT => 71) := by
  cases type <;> decide +kernel

/-- No name begins the text behind another one. -/
theorem isPrefixOf_get_request_type_str (type type' : RequestType) (r : List UInt8) :
    (get_request_type_str type').bytes.isPrefixOf ((get_request_type_str type).bytes ++ r) = true
      ↔ type' = type := by
  rw [List.isPrefixOf_iff_prefix]
  constructor
  · intro h
    obtain ⟨r', hr'⟩ := h
    -- their first letters would be the same
    have hhead := congrArg List.head? hr'
    rw [List.head?_append, List.head?_append, head?_get_request_type_str,
      head?_get_request_type_str, Option.some_or, Option.some_or] at hhead
    cases type <;> cases type' <;> first | rfl | exact absurd hhead (by decide)
  · rintro rfl
    exact List.prefix_append _ _

/-- **The types are known from their names.** -/
theorem get_request_type_get_request_type_str (type : RequestType) (r : List UInt8) :
    get_request_type ((get_request_type_str type).bytes ++ r) = .ok type := by
  have hbegins := fun type' => isPrefixOf_get_request_type_str type type' r
  have hadd : ADD_SERVER_REQUEST.bytes.isPrefixOf _ = true ↔ _ := hbegins .ADD_SERVER
  have hremove : REMOVE_SERVER_REQUEST.bytes.isPrefixOf _ = true ↔ _ := hbegins .REMOVE_SERVER
  have hedit : EDIT_REQUEST.bytes.isPrefixOf _ = true ↔ _ := hbegins .EDIT_DOCUMENT
  have hget : GET_REQUEST.bytes.isPrefixOf _ = true ↔ _ := hbegins .GET_DOCUMENT
  unfold get_request_type
  cases type with
  | ADD_SERVER => exact if_pos (hadd.mpr rfl)
  | REMOVE_SERVER =>
    rw [if_neg (mt hadd.mp (by decide))]
    exact if_pos (hremove.mpr rfl)
  | EDIT_DOCUMENT =>
    rw [if_neg (mt hadd.mp (by decide)), if_neg (mt hremove.mp (by decide))]
    exact if_pos (hedit.mpr rfl)
  | GET_DOCUMENT =>
    rw [if_neg (mt hadd.mp (by decide)), if_neg (mt hremove.mp (by decide)),
      if_neg (mt hedit.mp (by decide))]
    exact if_pos (hget.mpr rfl)

/-! ## §3. The text of a command. -/

/-- The command as it stands in the input. -/
def commandLine : Command → List UInt8
  | .ADD_SERVER server_id cache_size =>
    ADD_SERVER_REQUEST.bytes ++
      space :: (decimalInt server_id.toInt ++ space :: (decimalInt cache_size.toInt ++ [newline]))
  | .REMOVE_SERVER server_id =>
    REMOVE_SERVER_REQUEST.bytes ++ space :: (decimalInt server_id.toInt ++ [newline])
  | .EDIT doc_name doc_content => editLine doc_name doc_content
  | .GET doc_name =>
    GET_REQUEST.bytes ++ space :: quote :: (doc_name.bytes ++ [quote, newline])

/-- A name that fits, without quotes and on one line. -/
def WritableName (name : CString) : Prop :=
  quote ∉ name.bytes ∧ newline ∉ name.bytes ∧ name.length ≤ DOC_NAME_LENGTH

/-- A content that fits with its NUL, without quotes, whose closing quote is found. -/
def WritableContent (content : CString) : Prop :=
  quote ∉ content.bytes ∧ content.length < DOC_CONTENT_LENGTH ∧ ¬ ClosingQuoteMissed content

/-- The command can be written so that it is read back. -/
def Writable : Command → Prop
  | .ADD_SERVER _ _ => True
  | .REMOVE_SERVER _ => True
  | .EDIT doc_name doc_content => WritableName doc_name ∧ WritableContent doc_content
  | .GET doc_name => WritableName doc_name

instance (name : CString) : Decidable (WritableName name) := inferInstanceAs (Decidable (_ ∧ _ ∧ _))

instance (content : CString) : Decidable (WritableContent content) :=
  inferInstanceAs (Decidable (_ ∧ _ ∧ _))

instance : (command : Command) → Decidable (Writable command)
  | .ADD_SERVER _ _ => .isTrue trivial
  | .REMOVE_SERVER _ => .isTrue trivial
  | .EDIT doc_name doc_content =>
    inferInstanceAs (Decidable (WritableName doc_name ∧ WritableContent doc_content))
  | .GET doc_name => inferInstanceAs (Decidable (WritableName doc_name))

/-- The string in an array. -/
def stringOf (a : List UInt8) : Read CString :=
  if 0 ∈ a then
    pure ⟨a.takeWhile (· ≠ 0), fun h => by simpa using List.mem_takeWhile_imp h⟩
  else throw .outOfBounds

/-- The command with the arguments that were read. -/
def Arguments.command : Arguments → Read Command
  | .ADD_SERVER server_id cache_size => pure (.ADD_SERVER server_id cache_size)
  | .REMOVE_SERVER server_id => pure (.REMOVE_SERVER server_id)
  | .EDIT_DOCUMENT doc_name doc_content => do
    let doc_name ← stringOf doc_name
    let doc_content ← stringOf doc_content
    pure (.EDIT doc_name doc_content)
  | .GET_DOCUMENT doc_name => do
    let doc_name ← stringOf doc_name
    pure (.GET doc_name)

theorem stringOf_of_isString {a : List UInt8} {string : CString} (h : IsString a string.bytes) :
    stringOf a = .ok string := by
  obtain ⟨hnul, rest, rfl⟩ := h
  have htake : (string.bytes ++ 0 :: rest).takeWhile (· ≠ 0) = string.bytes := by
    rw [List.takeWhile_append_of_pos]
    · simp
    · intro b hb
      exact decide_eq_true (fun h : b = 0 => hnul (h ▸ hb))
  unfold stringOf
  rw [if_pos (List.mem_append_right _ List.mem_cons_self), pure_eq_ok]
  simp only [htake]

/-! ## §4. The length of the buffer. -/

theorem length_of_fgets (h : fgets buffer n stream = .ok (some (buffer', stream'))) :
    buffer'.length = buffer.length := by
  unfold fgets at h
  split_ifs at h
  · cases h
  · obtain ⟨_, hwrite, h⟩ := bind_eq_ok.mp h
    cases h
    exact length_write (eq_some_of_inBounds hwrite)

/-- The loop over the lines of a content reads each of them into the same buffer. -/
theorem length_of_read_content_lines {rounds : ℕ} {start : ℤ}
    {doc_content doc_content' : List UInt8}
    (h : read_content_lines rounds buffer stream start doc_content =
      .ok (doc_content', buffer', stream')) : buffer'.length = buffer.length := by
  induction rounds generalizing buffer stream start doc_content with
  | zero =>
    obtain ⟨_, _, _, _, hrounds, -⟩ := read_content_lines_round h
    exact absurd hrounds.symm (Nat.succ_ne_zero _)
  | succ rounds ih =>
    unfold read_content_lines at h
    obtain ⟨chunk, hchunk, h⟩ := bind_eq_ok.mp h
    cases chunk with
    | none => cases h
    | some chunk =>
      obtain ⟨next, stream₁⟩ := chunk
      have hnext := length_of_fgets hchunk
      obtain ⟨⟨start', word_end⟩, -, h⟩ := bind_eq_ok.mp h
      obtain ⟨len, -, h⟩ := bind_eq_ok.mp h
      -- a round with a quote is the last one
      split_ifs at h
      · obtain ⟨_, -, h⟩ := bind_eq_ok.mp h
        obtain ⟨k, -, h⟩ := bind_eq_ok.mp h
        obtain ⟨_, -, h⟩ := bind_eq_ok.mp h
        exact (ih h).trans hnext
      · obtain ⟨k, -, h⟩ := bind_eq_ok.mp h
        obtain ⟨_, -, h⟩ := bind_eq_ok.mp h
        cases h
        exact hnext

theorem length_of_read_doc_content {word_end : ℤ} {doc_content : List UInt8}
    (h : read_doc_content buffer stream word_end = .ok (doc_content, buffer', stream')) :
    buffer'.length = buffer.length := by
  unfold read_doc_content at h
  obtain ⟨⟨start, word_end'⟩, -, h⟩ := bind_eq_ok.mp h
  dsimp only at h
  split_ifs at h
  · obtain ⟨_, -, h⟩ := bind_eq_ok.mp h
    exact length_of_read_content_lines h
  · obtain ⟨_, -, h⟩ := bind_eq_ok.mp h
    cases h
    rfl

/-- **The buffer keeps its length** from command to command. -/
theorem length_of_read_request_arguments {arguments : Arguments}
    (h : read_request_arguments buffer stream = .ok (arguments, buffer', stream')) :
    buffer'.length = buffer.length := by
  unfold read_request_arguments at h
  obtain ⟨chunk, hchunk, h⟩ := bind_eq_ok.mp h
  cases chunk with
  | none => cases h
  | some chunk =>
    obtain ⟨next, stream₁⟩ := chunk
    have hnext := length_of_fgets hchunk
    obtain ⟨type, -, h⟩ := bind_eq_ok.mp h
    cases type with
    | ADD_SERVER =>
      obtain ⟨_, -, h⟩ := bind_eq_ok.mp h
      obtain ⟨numbers, -, h⟩ := bind_eq_ok.mp h
      cases numbers with
      | none => cases h
      | some numbers =>
        obtain ⟨_, -, h⟩ := bind_eq_ok.mp h
        cases h
        exact hnext
    | REMOVE_SERVER =>
      obtain ⟨_, -, h⟩ := bind_eq_ok.mp h
      cases h
      exact hnext
    | EDIT_DOCUMENT =>
      obtain ⟨_, -, h⟩ := bind_eq_ok.mp h
      obtain ⟨_, hcontent, h⟩ := bind_eq_ok.mp h
      cases h
      exact (length_of_read_doc_content hcontent).trans hnext
    | GET_DOCUMENT =>
      obtain ⟨_, -, h⟩ := bind_eq_ok.mp h
      cases h
      exact hnext

/-! ## §5. Reading a command. -/

/-- A line that fits is read with its newline. -/
theorem fgets_of_line (hs : newline ∉ s) (hfits : s.length < REQUEST_LENGTH)
    (hbuffer : buffer.length = REQUEST_LENGTH + 1) (rest : List UInt8) :
    ∃ r, fgets buffer (REQUEST_LENGTH + 1) (s ++ newline :: rest) =
      .ok (some (s ++ newline :: 0 :: r, rest)) := by
  obtain ⟨r, hfgets, -⟩ := fgets_line
    (List.append_ne_nil_of_right_ne_nil s (List.cons_ne_nil newline rest))
    (show REQUEST_LENGTH < buffer.length by omega)
  rw [line_of_newline hs hfits rest, List.append_assoc, List.append_cons s newline rest,
    List.drop_left, ← List.append_cons] at hfgets
  exact ⟨r, hfgets⟩

theorem length_int (k : Int32) : (decimalInt k.toInt).length ≤ 11 := by
  have hlow := k.le_toInt
  have hhigh := k.toInt_lt
  exact length_decimalInt_le (by decide) (by omega)

theorem space_notMem_int (k : Int32) : space ∉ decimalInt k.toInt :=
  notMem_decimalInt (by decide) (by decide) _

theorem nul_notMem_int (k : Int32) : 0 ∉ decimalInt k.toInt :=
  notMem_decimalInt (by decide) (by decide) _

theorem newline_notMem_int (k : Int32) : newline ∉ decimalInt k.toInt :=
  notMem_decimalInt (by decide) (by decide) _

theorem newline_notMem_get_request_type_str (type : RequestType) :
    newline ∉ (get_request_type_str type).bytes := by
  cases type <;> decide +kernel

theorem length_get_request_type_str_le (type : RequestType) :
    (get_request_type_str type).bytes.length ≤ 13 := by
  cases type <;> decide +kernel

/-- The name is read when the text before it has no quote. -/
theorem read_doc_name_append {pre : List UInt8} (hpre : IsWord pre)
    (hshort : pre.length ≤ REQUEST_TYPE_LENGTH) (hname : WritableName name) (r : List UInt8) :
    ∃ word_end, read_doc_name (pre ++ quote :: (name.bytes ++ quote :: r)) =
      .ok (padded name.bytes (DOC_NAME_LENGTH + 1), word_end) := by
  obtain ⟨hquote, -, hlength⟩ := hname
  have hlimit : name.length < REQUEST_LENGTH - pre.length - 1 := by
    unfold REQUEST_LENGTH REQUEST_TYPE_LENGTH DOC_CONTENT_LENGTH at *
    omega
  have hsearch : read_quoted_string (pre ++ quote :: (name.bytes ++ quote :: r)) REQUEST_LENGTH
      (-1) = .ok (pre.length, (pre.length + 1 : ℕ) + name.length) := by
    rw [read_quoted_string_start hpre (by omega)]
    exact read_quoted_string_end ⟨hquote, name.nul_free⟩ (by omega) hlimit r
  have hdrop : (pre ++ quote :: (name.bytes ++ quote :: r)).drop (pre.length + 1 : ℤ).toNat =
      name.bytes ++ quote :: r := by
    rw [show (pre.length + 1 : ℤ).toNat = pre.length + 1 by omega, ← List.drop_drop,
      List.drop_left]
    rfl
  have hcopied : ((pre.length + 1 : ℕ) + name.length - pre.length - 1 : ℤ) = name.bytes.length := by
    unfold CString.length
    omega
  refine ⟨(pre.length + 1 : ℕ) + name.length, ?_⟩
  unfold read_doc_name
  rw [hsearch, ok_bind]
  dsimp only
  rw [hdrop, hcopied, memcpy_calloc (Nat.le_succ_of_le hlength), ok_bind, pure_eq_ok]

/-- The line of a command and the type that it begins with. -/
theorem fgets_of_command (type : RequestType) (hs : newline ∉ s)
    (hfits : s.length + 13 < REQUEST_LENGTH) (hbuffer : buffer.length = REQUEST_LENGTH + 1)
    (rest : List UInt8) :
    ∃ r, fgets buffer (REQUEST_LENGTH + 1)
        ((get_request_type_str type).bytes ++ (s ++ newline :: rest)) =
          .ok (some ((get_request_type_str type).bytes ++ (s ++ newline :: 0 :: r), rest)) ∧
      get_request_type ((get_request_type_str type).bytes ++ (s ++ newline :: 0 :: r)) =
        .ok type := by
  have hline : newline ∉ (get_request_type_str type).bytes ++ s := by
    rw [List.mem_append, not_or]
    exact ⟨newline_notMem_get_request_type_str type, hs⟩
  have hlength : ((get_request_type_str type).bytes ++ s).length < REQUEST_LENGTH := by
    have hle := length_get_request_type_str_le type
    rw [List.length_append]
    omega
  obtain ⟨r, hfgets⟩ := fgets_of_line hline hlength hbuffer rest
  rw [List.append_assoc, List.append_assoc] at hfgets
  exact ⟨r, hfgets, get_request_type_get_request_type_str type _⟩

/-- What stands behind the name of a command and the space. -/
theorem drop_request (request : CString) (r : List UInt8) :
    (request.bytes ++ space :: r).drop (request.length + 1) = r := by
  rw [CString.length, ← List.drop_drop, List.drop_left]
  rfl

section Commands

variable (hbuffer : buffer.length = REQUEST_LENGTH + 1)

include hbuffer

theorem read_add_server (server_id cache_size : Int32) (rest : List UInt8) :
    ∃ buffer', read_request_arguments buffer
        (commandLine (.ADD_SERVER server_id cache_size) ++ rest) =
      .ok (.ADD_SERVER server_id cache_size, buffer', rest) := by
  have hlength := length_int server_id
  have hlength' := length_int cache_size
  have hline : newline ∉
      space :: (decimalInt server_id.toInt ++ space :: decimalInt cache_size.toInt) := by
    rw [List.mem_cons, List.mem_append, List.mem_cons, not_or, not_or, not_or]
    exact ⟨by decide, newline_notMem_int _, by decide, newline_notMem_int _⟩
  have hfits : (space :: (decimalInt server_id.toInt ++
      space :: decimalInt cache_size.toInt)).length + 13 < REQUEST_LENGTH := by
    rw [List.length_cons, List.length_append, List.length_cons]
    unfold REQUEST_LENGTH DOC_CONTENT_LENGTH
    omega
  obtain ⟨r, hfgets, htype⟩ := fgets_of_command .ADD_SERVER hline hfits hbuffer rest
  have hstream : commandLine (.ADD_SERVER server_id cache_size) ++ rest =
      (get_request_type_str .ADD_SERVER).bytes ++ (space :: (decimalInt server_id.toInt ++
        space :: decimalInt cache_size.toInt) ++ newline :: rest) := by
    simp [commandLine, get_request_type_str]
  -- the first number ends at the space, the second one at the newline
  have hnumbers : ((get_request_type_str .ADD_SERVER).bytes ++ (space ::
      (decimalInt server_id.toInt ++ space :: decimalInt cache_size.toInt) ++
        newline :: 0 :: r)).drop (ADD_SERVER_REQUEST.length + 1) =
      decimalInt server_id.toInt ++
        space :: (decimalInt cache_size.toInt ++ newline :: 0 :: r) := by
    rw [List.cons_append]
    show (ADD_SERVER_REQUEST.bytes ++ space :: _).drop _ = _
    rw [drop_request, List.append_assoc, List.cons_append]
  refine ⟨(get_request_type_str .ADD_SERVER).bytes ++ (space :: (decimalInt server_id.toInt ++
    space :: decimalInt cache_size.toInt) ++ newline :: 0 :: r), ?_⟩
  unfold read_request_arguments
  rw [hstream, hfgets, ok_bind]
  dsimp only
  rw [htype, ok_bind]
  dsimp only
  rw [hnumbers, atoi_int (by decide), ok_bind,
    strchr_append (space_notMem_int _) (nul_notMem_int _), ok_bind]
  dsimp only
  rw [atoi_space, atoi_int (by decide), ok_bind, pure_eq_ok]

theorem read_remove_server (server_id : Int32) (rest : List UInt8) :
    ∃ buffer', read_request_arguments buffer (commandLine (.REMOVE_SERVER server_id) ++ rest) =
      .ok (.REMOVE_SERVER server_id, buffer', rest) := by
  have hlength := length_int server_id
  have hline : newline ∉ space :: decimalInt server_id.toInt := by
    rw [List.mem_cons, not_or]
    exact ⟨by decide, newline_notMem_int _⟩
  have hfits : (space :: decimalInt server_id.toInt).length + 13 < REQUEST_LENGTH := by
    rw [List.length_cons]
    unfold REQUEST_LENGTH DOC_CONTENT_LENGTH
    omega
  obtain ⟨r, hfgets, htype⟩ := fgets_of_command .REMOVE_SERVER hline hfits hbuffer rest
  have hstream : commandLine (.REMOVE_SERVER server_id) ++ rest =
      (get_request_type_str .REMOVE_SERVER).bytes ++
        (space :: decimalInt server_id.toInt ++ newline :: rest) := by
    simp [commandLine, get_request_type_str]
  have hnumber : ((get_request_type_str .REMOVE_SERVER).bytes ++ (space ::
      decimalInt server_id.toInt ++ newline :: 0 :: r)).drop (REMOVE_SERVER_REQUEST.length + 1) =
      decimalInt server_id.toInt ++ newline :: 0 :: r := drop_request REMOVE_SERVER_REQUEST _
  refine ⟨(get_request_type_str .REMOVE_SERVER).bytes ++
    (space :: decimalInt server_id.toInt ++ newline :: 0 :: r), ?_⟩
  unfold read_request_arguments
  rw [hstream, hfgets, ok_bind]
  dsimp only
  rw [htype, ok_bind]
  dsimp only
  rw [hnumber, atoi_int (by decide), ok_bind, pure_eq_ok]

theorem read_get (hname : WritableName name) (rest : List UInt8) :
    ∃ buffer', read_request_arguments buffer (commandLine (.GET name) ++ rest) =
      .ok (.GET_DOCUMENT (padded name.bytes (DOC_NAME_LENGTH + 1)), buffer', rest) := by
  obtain ⟨-, hnewline, hlength⟩ := id hname
  have hline : newline ∉ space :: quote :: (name.bytes ++ [quote]) := by
    rw [List.mem_cons, List.mem_cons, List.mem_append, List.mem_singleton, not_or, not_or, not_or]
    exact ⟨by decide, by decide, hnewline, by decide⟩
  have hfits : (space :: quote :: (name.bytes ++ [quote])).length + 13 < REQUEST_LENGTH := by
    unfold CString.length at hlength
    rw [List.length_cons, List.length_cons, List.length_append, List.length_singleton]
    unfold REQUEST_LENGTH DOC_CONTENT_LENGTH DOC_NAME_LENGTH at *
    omega
  obtain ⟨r, hfgets, htype⟩ := fgets_of_command .GET_DOCUMENT hline hfits hbuffer rest
  have hstream : commandLine (.GET name) ++ rest =
      (get_request_type_str .GET_DOCUMENT).bytes ++
        (space :: quote :: (name.bytes ++ [quote]) ++ newline :: rest) := by
    simp [commandLine, get_request_type_str]
  have hword : IsWord (GET_REQUEST.bytes ++ [space]) ∧
      (GET_REQUEST.bytes ++ [space]).length ≤ REQUEST_TYPE_LENGTH := by
    unfold IsWord
    decide +kernel
  have hbytes : (get_request_type_str .GET_DOCUMENT).bytes ++
      (space :: quote :: (name.bytes ++ [quote]) ++ newline :: 0 :: r) =
      (GET_REQUEST.bytes ++ [space]) ++ quote :: (name.bytes ++ quote :: newline :: 0 :: r) := by
    simp [get_request_type_str]
  obtain ⟨word_end, hread⟩ :=
    read_doc_name_append hword.1 hword.2 hname (newline :: 0 :: r)
  rw [hbytes] at hfgets htype
  refine ⟨GET_REQUEST.bytes ++ [space] ++ quote :: (name.bytes ++ quote :: newline :: 0 :: r), ?_⟩
  unfold read_request_arguments
  rw [hstream, hfgets, ok_bind]
  dsimp only
  rw [htype, ok_bind]
  dsimp only
  rw [hread, ok_bind, pure_eq_ok]

theorem read_edit {content : CString} (hname : WritableName name)
    (hcontent : WritableContent content) (rest : List UInt8) :
    ReadBack name content buffer rest := by
  obtain ⟨hquote, hnewline, hlength⟩ := hname
  obtain ⟨hcquote, hfits, hfound⟩ := hcontent
  by_cases hseveral : newline ∈ content.bytes
  · -- the last line is too short to leave its newline
    obtain ⟨buffer', h⟩ := read_several_lines hquote hnewline hlength hcquote (Nat.le_of_lt hfits)
      hbuffer hseveral rest
    have hleft : ¬ NewlineLeft content := fun hleft => Nat.ne_of_lt hfits hleft.2.2
    rw [if_neg hleft] at h
    exact ⟨_, _, _, h, isString_padded name.nul_free (Nat.lt_succ_of_le hlength),
      isString_padded content.nul_free (Nat.lt_succ_of_lt hfits)⟩
  · exact readBack_of_one_line hquote hnewline hlength hcquote (Nat.le_of_lt hfits) hbuffer
      hseveral (Nat.lt_of_not_le fun hlong => hfound ⟨hseveral, hlong⟩) rest

/-- **A command is read back** from its text, with what stands behind it left in the input. -/
theorem read_commandLine {command : Command} (hcommand : Writable command) (rest : List UInt8) :
    ∃ arguments buffer', read_request_arguments buffer (commandLine command ++ rest) =
        .ok (arguments, buffer', rest) ∧
      arguments.command = .ok command ∧ buffer'.length = REQUEST_LENGTH + 1 := by
  have hread : ∃ arguments buffer', read_request_arguments buffer (commandLine command ++ rest) =
      .ok (arguments, buffer', rest) ∧ arguments.command = .ok command := by
    cases command with
    | ADD_SERVER server_id cache_size =>
      obtain ⟨buffer', h⟩ := read_add_server hbuffer server_id cache_size rest
      exact ⟨_, buffer', h, rfl⟩
    | REMOVE_SERVER server_id =>
      obtain ⟨buffer', h⟩ := read_remove_server hbuffer server_id rest
      exact ⟨_, buffer', h, rfl⟩
    | EDIT doc_name doc_content =>
      obtain ⟨name, content, buffer', h, hname, hcontent⟩ :=
        read_edit hbuffer hcommand.1 hcommand.2 rest
      refine ⟨_, buffer', h, ?_⟩
      show (stringOf name >>= _) = _
      rw [stringOf_of_isString hname, ok_bind, stringOf_of_isString hcontent, ok_bind, pure_eq_ok]
    | GET doc_name =>
      obtain ⟨buffer', h⟩ := read_get hbuffer hcommand rest
      have hname : stringOf (padded doc_name.bytes (DOC_NAME_LENGTH + 1)) = .ok doc_name :=
        stringOf_of_isString (isString_padded doc_name.nul_free (Nat.lt_succ_of_le hcommand.2.2))
      refine ⟨_, buffer', h, ?_⟩
      show (stringOf _ >>= _) = _
      rw [hname, ok_bind, pure_eq_ok]
  obtain ⟨arguments, buffer', h, hcommand⟩ := hread
  exact ⟨arguments, buffer', h, hcommand, (length_of_read_request_arguments h).trans hbuffer⟩

end Commands

end DistDb.Input
