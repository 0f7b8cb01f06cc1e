/-
  DistDb.Utils — C strings, the two hash functions of `utils.c` and the message formats of
  `constants.h`.

  `hash_uint` places a server on the hash ring, `hash_string` a document.  The ring rests on one
  fact about them, proved here: `hash_uint` is injective (`hash_uint_injective`), so that two
  servers share a position only when they share an id.
-/
import Mathlib.Algebra.Group.Units.Basic
import Mathlib.Data.UInt
import Mathlib.Data.List.TakeWhile
import DistDb.Lib.WordMixing

namespace DistDb

/-! ## §1. How a call can fail. -/

/-- The ways a call of the program ends without a result. -/
inductive Fault
  /-- The NULL that `init_server` returns is dereferenced. -/
  | nullServer
  /-- The NULL node that `ll_get_nth_node` returns is dereferenced. -/
  | nullNode
  /-- The right operand of `%` is zero. -/
  | zeroRemainder
  /-- Some other NULL pointer is dereferenced. -/
  | nullPointer
  /-- A record that was released is read. -/
  | danglingPointer
  /-- `DIE` ends the program with a message. -/
  | die
  /-- The model's bound on the rounds of a loop is used up. -/
  | outOfFuel
  deriving DecidableEq, Repr

/-- What a call of the program computes: a result, or the fault that stops it. -/
abbrev Exec (α : Type) : Type := Except Fault α

section Sequence

variable {ε α β : Type}

@[simp] theorem ok_bind (a : α) (f : α → Except ε β) : (Except.ok a >>= f) = f a := rfl

@[simp] theorem pure_eq_ok (a : α) : (pure a : Except ε α) = .ok a := rfl

/-- A sequence of two calls returns when both of them do. -/
theorem bind_eq_ok {x : Except ε α} {f : α → Except ε β} {b : β} :
    (x >>= f) = .ok b ↔ ∃ a, x = .ok a ∧ f a = .ok b := by
  constructor
  · intro h
    cases x with
    | error e => cases h
    | ok a => exact ⟨a, rfl, h⟩
  · rintro ⟨a, rfl, h⟩
    exact h

theorem exists_ok_of_isSome {x : Except ε α} (h : x.toOption.isSome = true) : ∃ a, x = .ok a := by
  cases x with
  | error e => cases h
  | ok a => exact ⟨a, rfl⟩

/-- A sequence fails with the failure of the first call, or that of the second. -/
theorem bind_eq_error {x : Except ε α} {f : α → Except ε β} {e : ε} :
    (x >>= f) = .error e ↔ x = .error e ∨ ∃ a, x = .ok a ∧ f a = .error e := by
  cases x with
  | error e' =>
    constructor
    · intro h
      cases h
      exact .inl rfl
    · rintro (h | ⟨a, h, -⟩)
      · cases h
        rfl
      · cases h
  | ok a =>
    constructor
    · intro h
      exact .inr ⟨a, rfl, h⟩
    · rintro (h | ⟨a', h, hf⟩)
      · cases h
      · cases h
        exact hf

end Sequence

/-- The `%` of unsigned integers. -/
def remainder (a b : ℕ) : Exec ℕ := if b = 0 then throw .zeroRemainder else pure (a % b)

theorem remainder_of_pos {b : ℕ} (hb : 0 < b) (a : ℕ) : remainder a b = .ok (a % b) :=
  if_neg (Nat.ne_of_gt hb)

/-! ## §2. C strings. -/

/-- The bytes of a C string up to its NUL, which none of them is. -/
structure CString where
  bytes : List UInt8
  nul_free : 0 ∉ bytes
  deriving DecidableEq

namespace CString

/-- A string literal. -/
def ofString (s : String) : CString :=
  ⟨s.toUTF8.toList.takeWhile (· ≠ 0), fun h => by simpa using List.mem_takeWhile_imp h⟩

instance : Append CString :=
  ⟨fun s t => ⟨s.bytes ++ t.bytes, fun h =>
    (List.mem_append.mp h).elim s.nul_free t.nul_free⟩⟩

@[simp] theorem bytes_append (s t : CString) : (s ++ t).bytes = s.bytes ++ t.bytes := rfl

/-- `strlen` -/
def length (s : CString) : ℕ := s.bytes.length

@[simp] theorem length_append (s t : CString) : (s ++ t).length = s.length + t.length :=
  List.length_append

theorem head?_append {s : CString} {b : UInt8} (h : s.bytes.head? = some b) (t : CString) :
    (s ++ t).bytes.head? = some b := by
  rw [bytes_append, List.head?_append, h]
  rfl

end CString

/-! ## §3. The hash functions. -/

/-- The position of a server on the ring.  The source reads the `int` as an `unsigned int`. -/
def hash_uint (key : Int32) : UInt32 :=
  let uint_key := key.toUInt32
  let uint_key := ((uint_key >>> 16) ^^^ uint_key) * 0x45d9f3b
  let uint_key := ((uint_key >>> 16) ^^^ uint_key) * 0x45d9f3b
  (uint_key >>> 16) ^^^ uint_key

/-- The position of a document on the ring. -/
def hash_string (key : CString) : UInt32 :=
  key.bytes.foldl (fun hash c => (hash <<< 5) + hash + c.toUInt32) 5381

/-- Unsigned 32-bit integers, in their numeric order. -/
instance linearOrderUInt32 : LinearOrder UInt32 where
  le_refl := UInt32.le_refl
  le_trans _ _ _ := UInt32.le_trans
  lt_iff_le_not_ge a b := by
    rw [UInt32.not_le]
    exact ⟨fun h => ⟨UInt32.le_of_lt h, h⟩, fun h => h.2⟩
  le_antisymm _ _ := UInt32.le_antisymm
  le_total := UInt32.le_total
  toDecidableLE := inferInstance
  toDecidableEq := inferInstance
  toDecidableLT := inferInstance

theorem fold16_injective : Function.Injective (fun x : UInt32 => (x >>> 16) ^^^ x) := by
  intro x y h
  have hbits := congrArg UInt32.toBitVec h
  simp only [UInt32.toBitVec_xor, UInt32.toBitVec_shiftRight] at hbits
  exact UInt32.toBitVec_inj.mp
    (Lib.WordMixing.xor_ushiftRight_injective 32 16 (by decide) hbits)

/-- The multiplier of `hash_uint` is odd, hence a unit modulo `2 ^ 32`. -/
theorem multiplier_injective : Function.Injective (fun x : UInt32 => x * 0x45d9f3b) := by
  have hunit : IsUnit (0x45d9f3b : UInt32) :=
    IsUnit.of_mul_eq_one (0x119de1f3 : UInt32) (by decide)
  exact hunit.mul_left_injective

/-- **`hash_uint` is injective**: distinct ids have distinct positions. -/
theorem hash_uint_injective : Function.Injective hash_uint := by
  intro a b h
  have h1 := multiplier_injective (fold16_injective h)
  have h2 := multiplier_injective (fold16_injective h1)
  have h3 : a.toUInt32 = b.toUInt32 := fold16_injective h2
  cases a
  cases b
  exact congrArg Int32.ofUInt32 h3

/-! ## §4. The sizes and messages of `constants.h`. -/

def REQUEST_TYPE_LENGTH : ℕ := 64

def DOC_NAME_LENGTH : ℕ := 64

def DOC_CONTENT_LENGTH : ℕ := 4096

def REQUEST_LENGTH : ℕ := REQUEST_TYPE_LENGTH + DOC_NAME_LENGTH + DOC_CONTENT_LENGTH

/-- `"EDIT"` -/
def EDIT_REQUEST : CString := .ofString "EDIT"

/-- `"Request- %s %s - has been added to queue"` -/
def MSG_A (request doc_name : CString) : CString :=
  .ofString "Request- " ++ request ++ .ofString " " ++ doc_name ++
    .ofString " - has been added to queue"

/-- `"Document %s has been overridden"` -/
def MSG_B (doc_name : CString) : CString :=
  .ofString "Document " ++ doc_name ++ .ofString " has been overridden"

/-- `"Document %s has been created"` -/
def MSG_C (doc_name : CString) : CString :=
  .ofString "Document " ++ doc_name ++ .ofString " has been created"

/-- `"Cache HIT for %s"` -/
def LOG_HIT (doc_name : CString) : CString := .ofString "Cache HIT for " ++ doc_name

/-- `"Cache MISS for %s"` -/
def LOG_MISS (doc_name : CString) : CString := .ofString "Cache MISS for " ++ doc_name

/-- `"Cache MISS for %s - cache entry for %s has been evicted"` -/
def LOG_EVICT (doc_name evicted_key : CString) : CString :=
  .ofString "Cache MISS for " ++ doc_name ++ .ofString " - cache entry for " ++ evicted_key ++
    .ofString " has been evicted"

/-- `"Document %s doesn't exist"` -/
def LOG_FAULT (doc_name : CString) : CString :=
  .ofString "Document " ++ doc_name ++ .ofString " doesn't exist"

/-- `"Task queue size is %d"` -/
def LOG_LAZY_EXEC (size : ℕ) : CString :=
  .ofString "Task queue size is " ++ .ofString (toString size)

/-- The letters that the log lines begin with. -/
theorem head?_logs (d victim : CString) (size : ℕ) :
    (LOG_HIT d).bytes.head? = some 67 ∧ (LOG_MISS d).bytes.head? = some 67 ∧
      (LOG_EVICT d victim).bytes.head? = some 67 ∧ (LOG_FAULT d).bytes.head? = some 68 ∧
      (LOG_LAZY_EXEC size).bytes.head? = some 84 := by
  have hmiss : (LOG_MISS d).bytes.head? = some 67 := CString.head?_append (by decide +kernel) _
  refine ⟨CString.head?_append (by decide +kernel) _, hmiss, ?_, ?_, ?_⟩
  · exact CString.head?_append (CString.head?_append (CString.head?_append hmiss _) _) _
  · exact CString.head?_append (CString.head?_append (by decide +kernel) _) _
  · exact CString.head?_append (by decide +kernel) _

/-- A log line whose first letter is another one is another line. -/
theorem CString.ne_of_head? {s t : CString} {a b : UInt8} (hs : s.bytes.head? = some a)
    (ht : t.bytes.head? = some b) (hne : a ≠ b) : s ≠ t := by
  rintro rfl
  exact hne (Option.some.inj (hs.symm.trans ht))

end DistDb
