/-
  DistDb.Lib.CharArray — the char arrays of C and the strings in them.

  An array is the list of its bytes, all of which exist: an access behind the end has no result
  (`none`).  A string ends at the first NUL.  `IsString a s` says that the array holds the string
  `s`; what stands behind its NUL does not matter.  `padded s n` is the array of `n` bytes that
  holds `s` and is zero from there on, as one from `calloc` is while a string is built up in it.

  Main results:
    * `write_padded` — a string that is extended in place,
    * `prefix_write` — what stands before the place that is written stays,
    * `line_of_newline`, `line_of_long` — what `fgets` reads of a line.
-/
import Mathlib.Data.List.Basic

namespace DistDb.Lib.CharArray

variable {a s t : List UInt8} {n : ℕ}

/-! ## §1. Strings in arrays. -/

/-- The array holds the string. -/
def IsString (a s : List UInt8) : Prop := 0 ∉ s ∧ ∃ rest, a = s ++ 0 :: rest

/-- The index of the first NUL. -/
def strlen (a : List UInt8) : Option ℕ := if 0 ∈ a then some (a.idxOf 0) else none

/-- The array of `n` bytes with the string at its start and zeros behind. -/
def padded (s : List UInt8) (n : ℕ) : List UInt8 := s ++ List.replicate (n - s.length) 0

theorem idxOf_append_zero (hs : 0 ∉ s) (rest : List UInt8) :
    (s ++ 0 :: rest).idxOf 0 = s.length := by
  rw [List.idxOf_append_of_notMem hs, List.idxOf_cons_self, Nat.add_zero]

theorem IsString.strlen (h : IsString a s) : strlen a = some s.length := by
  obtain ⟨hs, rest, rfl⟩ := h
  rw [CharArray.strlen, if_pos (by simp), idxOf_append_zero hs]

/-- A string reaches as far as an initial part without NULs. -/
theorem length_le_of_strlen (hs : 0 ∉ s) (hbegins : s <+: a) (h : CharArray.strlen a = some n) :
    s.length ≤ n := by
  obtain ⟨rest, rfl⟩ := hbegins
  unfold CharArray.strlen at h
  split_ifs at h
  cases h
  rw [List.idxOf_append_of_notMem hs]
  exact Nat.le_add_right _ _

theorem isString_padded (hs : 0 ∉ s) (hn : s.length < n) : IsString (padded s n) s := by
  refine ⟨hs, List.replicate (n - s.length - 1) 0, ?_⟩
  rw [padded, ← List.replicate_succ]
  congr 2
  omega

theorem length_padded (hn : s.length ≤ n) : (padded s n).length = n := by
  rw [padded, List.length_append, List.length_replicate]
  omega

/-! ## §2. Writing. -/

/-- The array with the bytes written at the offset. -/
def write (a : List UInt8) (offset : ℕ) (bytes : List UInt8) : Option (List UInt8) :=
  if offset + bytes.length ≤ a.length then
    some (a.take offset ++ bytes ++ a.drop (offset + bytes.length))
  else none

theorem write_of_le {offset : ℕ} {bytes : List UInt8} (h : offset + bytes.length ≤ a.length) :
    write a offset bytes = some (a.take offset ++ bytes ++ a.drop (offset + bytes.length)) :=
  if_pos h

theorem write_of_lt {offset : ℕ} {bytes : List UInt8} (h : a.length < offset + bytes.length) :
    write a offset bytes = none := if_neg (Nat.not_le.mpr h)

/-- Bytes written at the start. -/
theorem write_zero {bytes : List UInt8} (h : bytes.length ≤ a.length) :
    write a 0 bytes = some (bytes ++ a.drop bytes.length) := by
  rw [write_of_le (by omega), List.take_zero, List.nil_append, Nat.zero_add]

/-- The string `s` and its NUL, written at the start of an array of zeros. -/
theorem write_zeros (hn : s.length < n) :
    write (List.replicate n 0) 0 (s ++ [0]) = some (padded s n) := by
  have hlength : (s ++ [0]).length = s.length + 1 := List.length_append
  rw [write_zero (by rw [hlength, List.length_replicate]; exact hn), hlength, List.drop_replicate,
    List.append_assoc, List.singleton_append, ← List.replicate_succ, padded]
  congr 3
  omega

/-- **A string is extended in place**, when the array is zero behind it. -/
theorem write_padded (hn : s.length + t.length ≤ n) :
    write (padded s n) s.length t = some (padded (s ++ t) n) := by
  have hlength := length_padded (show s.length ≤ n by omega)
  rw [write_of_le (by omega), padded, List.take_left, ← List.drop_drop, List.drop_left,
    List.drop_replicate, padded, List.length_append, Nat.sub_sub]

/-- What stands before the place that is written stays. -/
theorem prefix_write {b : List UInt8} {offset : ℕ} {bytes : List UInt8} (hbegins : s <+: a)
    (hle : s.length ≤ offset) (h : write a offset bytes = some b) : s <+: b := by
  unfold write at h
  split_ifs at h
  cases h
  rw [List.append_assoc]
  exact (List.prefix_take_iff.mpr ⟨hbegins, hle⟩).trans (List.prefix_append _ _)

theorem length_write {b : List UInt8} {offset : ℕ} {bytes : List UInt8}
    (h : write a offset bytes = some b) : b.length = a.length := by
  unfold write at h
  split_ifs at h
  cases h
  rw [List.length_append, List.length_append, List.length_take, List.length_drop]
  omega

/-! ## §3. Lines. -/

def newline : UInt8 := 10

/-- What `fgets` reads of a stream: at most `n` bytes, and none after the first newline. -/
def line : ℕ → List UInt8 → List UInt8
  | 0, _ => []
  | _ + 1, [] => []
  | n + 1, c :: cs => if c = newline then [c] else c :: line n cs

theorem line_append (hs : newline ∉ s) (hn : s.length ≤ n) (t : List UInt8) :
    line n (s ++ t) = s ++ line (n - s.length) t := by
  induction s generalizing n with
  | nil => rfl
  | cons c s ih =>
    rw [List.mem_cons, not_or] at hs
    rw [List.length_cons] at hn ⊢
    obtain ⟨n, rfl⟩ : ∃ m, n = m + 1 := ⟨n - 1, by omega⟩
    rw [List.cons_append, line, if_neg (Ne.symm hs.1), ih hs.2 (by omega), Nat.add_sub_add_right,
      List.cons_append]

/-- A line that fits is read with its newline. -/
theorem line_of_newline (hs : newline ∉ s) (hn : s.length < n) (t : List UInt8) :
    line n (s ++ newline :: t) = s ++ [newline] := by
  obtain ⟨m, hm⟩ : ∃ m, n - s.length = m + 1 := ⟨n - s.length - 1, by omega⟩
  rw [line_append hs (by omega), hm, line, if_pos rfl]

/-- Of a line that does not fit a part is read. -/
theorem line_of_long (hs : newline ∉ s) (hn : s.length = n) (t : List UInt8) :
    line n (s ++ t) = s := by
  rw [line_append hs (by omega), hn, Nat.sub_self, line, List.append_nil]

/-- Something is read while there is something. -/
theorem line_ne_nil (hn : 0 < n) (hs : s ≠ []) : line n s ≠ [] := by
  cases n with
  | zero => exact absurd hn (Nat.lt_irrefl 0)
  | succ n =>
    cases s with
    | nil => exact absurd rfl hs
    | cons c s =>
      unfold line
      split_ifs <;> exact List.cons_ne_nil _ _

theorem length_line_le (n : ℕ) (s : List UInt8) : (line n s).length ≤ n := by
  induction n generalizing s with
  | zero => exact Nat.le_refl 0
  | succ n ih =>
    cases s with
    | nil => exact Nat.zero_le _
    | cons c s =>
      unfold line
      split_ifs
      · exact Nat.succ_le_succ (Nat.zero_le n)
      · exact Nat.succ_le_succ (ih s)

end DistDb.Lib.CharArray
