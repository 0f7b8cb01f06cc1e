/-
  DistDb.Input — how `main.c` reads a command.

  A command is read with `fgets` into a buffer that is used again and again, and its words are
  found by their quotes.  The content of an EDIT may go over several lines; what follows the first
  line is read by the loop of `read_content_lines`, with `fgets` again.

  The buffer and the two words are char arrays (`Lib.CharArray`), the input is the list of the
  bytes that are left of it.  An access outside of an array is a fault of the model, as are the
  DIEs of the source.  Memory is always available.
-/
import DistDb.Main
import DistDb.Lib.CharArray

namespace DistDb.Input

open Lib CharArray

/-! ## §1. How a read can fail. -/

/-- The ways a read ends without a result. -/
inductive ReadFault
  /-- `DIE` ends the program with the message. -/
  | die (message : String)
  /-- NULL is dereferenced. -/
  | nullPointer
  /-- A byte outside of an array is read or written. -/
  | outOfBounds
  /-- The model's bound on the rounds of a loop is used up. -/
  | outOfFuel
  deriving DecidableEq

/-- What a read computes: a result, or the fault that stops it. -/
abbrev Read (α : Type) : Type := Except ReadFault α

/-- The access is inside of the array. -/
def inBounds {α : Type} : Option α → Read α
  | none => throw .outOfBounds
  | some a => pure a

/-! ## §2. The functions of `string.h`, `stdlib.h` and `stdio.h`. -/

def quote : UInt8 := 34

def space : UInt8 := 32

/-- `calloc(1, size)` -/
def calloc (size : ℕ) : List UInt8 := List.replicate size 0

/-- Copy `n` bytes of `src` to `dst + offset`.  The length is a `size_t`, for which a negative
number is larger than any array. -/
def memcpy (dst : List UInt8) (offset : ℕ) (src : List UInt8) (n : ℤ) : Read (List UInt8) :=
  if n < 0 ∨ src.length < n then throw .outOfBounds
  else inBounds (write dst offset (src.take n.toNat))

/-- Copy the string in `src`, with its NUL. -/
def strcpy (dst src : List UInt8) : Read (List UInt8) := do
  let len ← inBounds (strlen src)
  inBounds (write dst 0 (src.take (len + 1)))

/-- Copy `n` bytes of the string in `src`, and zeros from its end on. -/
def strncpy (dst src : List UInt8) (n : ℤ) : Read (List UInt8) :=
  if n < 0 ∨ (src.length < n ∧ 0 ∉ src) then throw .outOfBounds
  else inBounds (write dst 0 (padded ((src.take n.toNat).takeWhile (· ≠ 0)) n.toNat))

/-- The part of the string from the first such byte on, NULL when there is none. -/
def strchr : List UInt8 → UInt8 → Read (Option (List UInt8))
  | [], _ => throw .outOfBounds
  | b :: bs, c =>
    if b = c then pure (some (b :: bs)) else if b = 0 then pure none else strchr bs c

/-- Whether the other string, which is not empty, occurs in the string. -/
def strstr : List UInt8 → CString → Read Bool
  | [], _ => throw .outOfBounds
  | b :: bs, needle =>
    if needle.bytes.isPrefixOf (b :: bs) then pure true
    else if b = 0 then pure false
    else strstr bs needle

/-- White space in the C locale. -/
def isspace (b : UInt8) : Bool := b = 32 || (9 ≤ b && b ≤ 13)

def isdigit (b : UInt8) : Bool := 48 ≤ b && b ≤ 57

/-- The number that the digits at the start of the string write. -/
def read_digits (value : ℕ) : List UInt8 → Read ℕ
  | [] => throw .outOfBounds
  | b :: bs => if isdigit b then read_digits (value * 10 + (b.toNat - 48)) bs else pure value

/-- The number at the start of the string.  C leaves a number that is no `int` undefined. -/
def atoi : List UInt8 → Read Int32
  | [] => throw .outOfBounds
  | b :: bs =>
    if isspace b then atoi bs
    else if b = 45 then do
      let value ← read_digits 0 bs
      pure (.ofInt (-value))
    else do
      let value ← read_digits 0 (if b = 43 then bs else b :: bs)
      pure (.ofInt value)

/-- Read a line of the stream into the buffer, or `n - 1` bytes of it: the buffer and the rest of
the stream, NULL at its end. -/
def fgets (buffer : List UInt8) (n : ℕ) (stream : List UInt8) :
    Read (Option (List UInt8 × List UInt8)) :=
  if stream = [] then pure none
  else do
    let chunk := line (n - 1) stream
    let buffer ← inBounds (write buffer 0 (chunk ++ [0]))
    pure (some (buffer, stream.drop chunk.length))

/-! ## §3. The functions of `utils.c` and `main.c`. -/

/-- `"GET"` -/
def GET_REQUEST : CString := .ofString "GET"

/-- `"ADD_SERVER"` -/
def ADD_SERVER_REQUEST : CString := .ofString "ADD_SERVER"

/-- `"REMOVE_SERVER"` -/
def REMOVE_SERVER_REQUEST : CString := .ofString "REMOVE_SERVER"

/-- The name of a type. -/
def get_request_type_str : RequestType → CString
  | .ADD_SERVER => ADD_SERVER_REQUEST
  | .REMOVE_SERVER => REMOVE_SERVER_REQUEST
  | .EDIT_DOCUMENT => EDIT_REQUEST
  | .GET_DOCUMENT => GET_REQUEST

/-- The type whose name the string begins with. -/
def get_request_type (request_type_str : List UInt8) : Read RequestType :=
  if ADD_SERVER_REQUEST.bytes.isPrefixOf request_type_str then pure .ADD_SERVER
  else if REMOVE_SERVER_REQUEST.bytes.isPrefixOf request_type_str then pure .REMOVE_SERVER
  else if EDIT_REQUEST.bytes.isPrefixOf request_type_str then pure .EDIT_DOCUMENT
  else if GET_REQUEST.bytes.isPrefixOf request_type_str then pure .GET_DOCUMENT
  else throw (.die "unknown request type")

/-- The loop of `read_quoted_string` from index `i` on, for `n` bytes. -/
def read_quoted_string_loop (start : ℤ) (i : ℕ) : ℕ → List UInt8 → Read (ℤ × ℤ)
  | 0, _ => pure (start, -1)
  | _ + 1, [] => throw .outOfBounds
  | n + 1, b :: bs =>
    if b = 0 then pure (start, -1)
    else if b ≠ quote then read_quoted_string_loop start (i + 1) n bs
    else if start = -1 then read_quoted_string_loop i (i + 1) n bs
    else pure (start, i)

/-- The indices of the quotes around a word: `start` is kept when it is not `-1`, and the end is
`-1` when there is none among the first `buffer_len` bytes. -/
def read_quoted_string (buffer : List UInt8) (buffer_len : ℕ) (start : ℤ) : Read (ℤ × ℤ) :=
  read_quoted_string_loop start 0 buffer_len buffer

/-- What `read_request_arguments` returns: the type and what it sets for it.  The name and the
content are the arrays allocated for them. -/
inductive Arguments
  | ADD_SERVER (server_id cache_size : Int32)
  | REMOVE_SERVER (server_id : Int32)
  | EDIT_DOCUMENT (doc_name doc_content : List UInt8)
  | GET_DOCUMENT (doc_name : List UInt8)
  deriving DecidableEq

/-- The name of the document and the index of the quote behind it. -/
def read_doc_name (buffer : List UInt8) : Read (List UInt8 × ℤ) := do
  let (word_start, word_end) ← read_quoted_string buffer REQUEST_LENGTH (-1)
  let doc_name ← memcpy (calloc (DOC_NAME_LENGTH + 1)) 0 (buffer.drop (word_start + 1).toNat)
    (word_end - word_start - 1)
  pure (doc_name, word_end)

/-- The loop over the lines of the content behind the first one, for at most `rounds` rounds.  The
results are the content, the buffer and the rest of the stream. -/
def read_content_lines (rounds : ℕ) (buffer stream : List UInt8) (word_start : ℤ)
    (doc_content : List UInt8) : Read (List UInt8 × List UInt8 × List UInt8) := do
  match ← fgets buffer (DOC_CONTENT_LENGTH + 1) stream with
  | none => throw (.die "document content is not properly quoted")
  | some (buffer, stream) =>
    match rounds with
    | 0 => throw .outOfFuel
    | rounds + 1 =>
      let (word_start, word_end) ← read_quoted_string buffer DOC_CONTENT_LENGTH word_start
      let len ← inBounds (strlen doc_content)
      let n : ℤ ←
        if word_end = -1 then do
          let len ← inBounds (strlen buffer)
          pure (len : ℤ)
        else pure word_end
      let doc_content ← memcpy doc_content len buffer n
      if word_end = -1 then read_content_lines rounds buffer stream word_start doc_content
      else pure (doc_content, buffer, stream)

/-- The content of the document, which begins in the buffer behind the name.  Every round of the
loop reads some of the stream, so that its length is a bound on their number. -/
def read_doc_content (buffer stream : List UInt8) (word_end : ℤ) :
    Read (List UInt8 × List UInt8 × List UInt8) := do
  let tmp_buffer := buffer.drop (word_end + 1).toNat
  let doc_content := calloc (DOC_CONTENT_LENGTH + 1)
  let (word_start, word_end) ← read_quoted_string tmp_buffer DOC_CONTENT_LENGTH (-1)
  let word := tmp_buffer.drop (word_start + 1).toNat
  if word_end = -1 then
    let doc_content ← strcpy doc_content word
    read_content_lines stream.length buffer stream word_start doc_content
  else
    let doc_content ← strncpy doc_content word (word_end - word_start - 1)
    pure (doc_content, buffer, stream)

/-- Read a command: its arguments, the buffer and the rest of the stream. -/
def read_request_arguments (buffer stream : List UInt8) :
    Read (Arguments × List UInt8 × List UInt8) := do
  match ← fgets buffer (REQUEST_LENGTH + 1) stream with
  | none => throw (.die "insufficient requests")
  | some (buffer, stream) =>
    match ← get_request_type buffer with
    | .ADD_SERVER =>
      let numbers := buffer.drop (ADD_SERVER_REQUEST.length + 1)
      let server_id ← atoi numbers
      match ← strchr numbers space with
      | none => throw .nullPointer
      | some numbers =>
        let cache_size ← atoi numbers
        pure (.ADD_SERVER server_id cache_size, buffer, stream)
    | .REMOVE_SERVER =>
      let server_id ← atoi (buffer.drop (REMOVE_SERVER_REQUEST.length + 1))
      pure (.REMOVE_SERVER server_id, buffer, stream)
    | .EDIT_DOCUMENT =>
      let (doc_name, word_end) ← read_doc_name buffer
      let (doc_content, buffer, stream) ← read_doc_content buffer stream word_end
      pure (.EDIT_DOCUMENT doc_name doc_content, buffer, stream)
    | .GET_DOCUMENT =>
      let (doc_name, _) ← read_doc_name buffer
      pure (.GET_DOCUMENT doc_name, buffer, stream)

end DistDb.Input
