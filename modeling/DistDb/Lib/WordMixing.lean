/-
  DistDb.Lib.WordMixing — folding the high bits of a machine word onto its low ones.

  `x ↦ (x >>> s) ^^^ x` is the mixing step of xor-shift-multiply hash functions.  It loses
  nothing, for every width and every shift `s > 0` (`xor_ushiftRight_injective`).
-/
import Mathlib.Data.BitVec

namespace DistDb.Lib.WordMixing

/-- Bit `i` of the folded word is the exclusive or of bits `i` and `i + s`. -/
theorem getLsbD_xor_ushiftRight {w : Nat} (s : Nat) (x : BitVec w) (i : Nat) :
    ((x >>> s) ^^^ x).getLsbD i = (x.getLsbD (s + i) ^^ x.getLsbD i) := by
  simp

/-- **The fold is injective.**  The top `s` bits are left as they are, and each lower bit is
recovered from the one `s` places above it; the induction runs down from the top bit. -/
theorem xor_ushiftRight_injective (w s : Nat) (hs : 0 < s) :
    Function.Injective (fun x : BitVec w => (x >>> s) ^^^ x) := by
  intro x y h
  have top_down : ∀ k i, w ≤ i + k → x.getLsbD i = y.getLsbD i := by
    intro k
    induction k with
    | zero =>
      intro i hi
      rw [BitVec.getLsbD_of_ge x i hi, BitVec.getLsbD_of_ge y i hi]
    | succ k ih =>
      intro i hi
      have hbit : ((x >>> s) ^^^ x).getLsbD i = ((y >>> s) ^^^ y).getLsbD i :=
        congrArg (fun z : BitVec w => z.getLsbD i) h
      rw [getLsbD_xor_ushiftRight, getLsbD_xor_ushiftRight, ih (s + i) (by omega)] at hbit
      exact Bool.xor_right_inj.mp hbit
  exact BitVec.eq_of_getLsbD_eq fun i _ => top_down w i (by omega)

end DistDb.Lib.WordMixing
