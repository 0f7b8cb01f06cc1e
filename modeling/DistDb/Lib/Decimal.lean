/-
  DistDb.Lib.Decimal — numbers written with decimal digits, as bytes.

  `decimal n` is the shortest notation of `n`, and `decimalInt z` has a minus sign in front of it
  when `z` is negative.  `value v s` is what a reader has when it has the number `v` already and
  goes over the digits `s`, as the loop of `atoi` does.

  Main results:
    * `value_decimal` — the notation of a number is read as the number,
    * `isDigit_of_mem_decimal`, `decimal_ne_nil` — it is a word of digits, and not the empty one,
    * `length_decimal_le` — a number with at most `k` digits is written with at most `k`.
-/
import Mathlib.Data.Nat.Digits.Lemmas

namespace DistDb.Lib.Decimal

/-! ## §1. Digits. -/

/-- The digits in ASCII. -/
def IsDigit (b : UInt8) : Prop := 48 ≤ b ∧ b ≤ 57

instance (b : UInt8) : Decidable (IsDigit b) := inferInstanceAs (Decidable (_ ∧ _))

/-- The digit of a number below ten. -/
def digit (d : ℕ) : UInt8 := .ofNat (48 + d)

theorem toNat_digit {d : ℕ} (hd : d < 10) : (digit d).toNat = 48 + d := by
  unfold digit
  rw [UInt8.toNat_ofNat']
  omega

theorem isDigit_digit {d : ℕ} (hd : d < 10) : IsDigit (digit d) := by
  unfold IsDigit
  rw [UInt8.le_iff_toNat_le, UInt8.le_iff_toNat_le, toNat_digit hd]
  show 48 ≤ 48 + d ∧ 48 + d ≤ 57
  omega

/-! ## §2. The notation of a number. -/

def decimal (n : ℕ) : List UInt8 :=
  if n = 0 then [digit 0] else (Nat.digits 10 n).reverse.map digit

/-- The number after the digits `s`, when it was `v` before them. -/
def value (v : ℕ) (s : List UInt8) : ℕ := s.foldl (fun v b => v * 10 + (b.toNat - 48)) v

@[simp] theorem value_nil (v : ℕ) : value v [] = v := rfl

@[simp] theorem value_cons (v : ℕ) (b : UInt8) (s : List UInt8) :
    value v (b :: s) = value (v * 10 + (b.toNat - 48)) s := List.foldl_cons ..

theorem isDigit_of_mem_decimal {n : ℕ} {b : UInt8} (hb : b ∈ decimal n) : IsDigit b := by
  unfold decimal at hb
  split_ifs at hb with hn
  · rw [List.mem_singleton.mp hb]
    exact isDigit_digit (by decide)
  · obtain ⟨d, hd, rfl⟩ := List.mem_map.mp hb
    exact isDigit_digit (Nat.digits_lt_base (by decide) (List.mem_reverse.mp hd))

theorem decimal_ne_nil (n : ℕ) : decimal n ≠ [] := by
  unfold decimal
  split_ifs with hn
  · exact List.cons_ne_nil _ _
  · simpa using Nat.digits_ne_nil_iff_ne_zero.mpr hn

theorem length_decimal_le {n k : ℕ} (hk : 0 < k) (hn : n < 10 ^ k) : (decimal n).length ≤ k := by
  unfold decimal
  split_ifs
  · exact hk
  · rw [List.length_map, List.length_reverse, Nat.digits_length_le_iff (by decide)]
    exact hn

/-- The digits, the most significant one first, are read as the number they are the digits of. -/
theorem value_reverse_digits {ds : List ℕ} (hds : ∀ d ∈ ds, d < 10) :
    value 0 (ds.reverse.map digit) = Nat.ofDigits 10 ds := by
  -- the last digit read is the first one of the list
  induction ds with
  | nil => rfl
  | cons d ds ih =>
    have hd := toNat_digit (hds d List.mem_cons_self)
    have hrest := ih fun d' hd' => hds d' (List.mem_cons_of_mem d hd')
    unfold value at hrest ⊢
    rw [List.reverse_cons, List.map_append, List.foldl_append, hrest, Nat.ofDigits_cons]
    show Nat.ofDigits 10 ds * 10 + ((digit d).toNat - 48) = d + 10 * Nat.ofDigits 10 ds
    omega

/-- **The notation of a number is read as the number.** -/
theorem value_decimal (n : ℕ) : value 0 (decimal n) = n := by
  unfold decimal
  split_ifs with hn
  · rw [hn]
    rfl
  · rw [value_reverse_digits fun d hd => Nat.digits_lt_base (by decide) hd, Nat.ofDigits_digits]

/-! ## §3. Signs. -/

def minus : UInt8 := 45

/-- The notation of a number that may be negative. -/
def decimalInt (z : ℤ) : List UInt8 :=
  if z < 0 then minus :: decimal z.natAbs else decimal z.natAbs

/-- Its bytes are digits and the sign. -/
theorem mem_decimalInt {z : ℤ} {b : UInt8} (hb : b ∈ decimalInt z) : IsDigit b ∨ b = minus := by
  unfold decimalInt at hb
  split_ifs at hb
  · rcases List.mem_cons.mp hb with h | h
    · exact .inr h
    · exact .inl (isDigit_of_mem_decimal h)
  · exact .inl (isDigit_of_mem_decimal hb)

theorem length_decimalInt_le {z : ℤ} {k : ℕ} (hk : 0 < k) (hz : z.natAbs < 10 ^ k) :
    (decimalInt z).length ≤ k + 1 := by
  have hle := length_decimal_le hk hz
  unfold decimalInt
  split_ifs
  · exact Nat.succ_le_succ hle
  · exact Nat.le_succ_of_le hle

/-- Any other byte is not among them. -/
theorem notMem_decimalInt {b : UInt8} (hdigit : ¬ IsDigit b) (hminus : b ≠ minus) (z : ℤ) :
    b ∉ decimalInt z := fun h => (mem_decimalInt h).elim hdigit hminus

end DistDb.Lib.Decimal
