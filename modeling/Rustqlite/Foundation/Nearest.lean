import Rustqlite.Foundation.Decimal

/-!
# The nearest double

Which double a number is read as: the one it is nearest to, and the even one of
two that are as near.  The next double after the greatest finite one is infinity,
which counts as the power of two in its place.
-/

namespace Rustqlite.Foundation.Double

/-- Reading `q` gives `r`. -/
def RoundsTo (q : ℚ) (r : UInt64) : Prop :=
  ∀ r', isNaN r' = false → value r' ≠ value r →
    |q * one - value r| < |q * one - value r'| ∨
      |q * one - value r| = |q * one - value r'| ∧ absBits r % 2 = 0

/-! ## The neighbours of a double -/

variable {r r' : UInt64} {q v v' : ℚ}

section

variable {r : UInt64} {q : ℚ}

variable {b : Nat}

end

theorem RoundsTo.negate (h : RoundsTo q r) : RoundsTo (-q) (Double.negate r) := by
  intro r' hnan hne
  have hother := h (Double.negate r') (by rwa [isNaN_negate])
    (by rw [value_negate] at hne ⊢; omega)
  have hflip : ∀ v : ℚ, |-q * one - v| = |q * one - -v| := fun v => by
    rw [← abs_neg]
    congr 1
    ring
  rw [hflip, hflip, absBits_negate]
  simpa only [value_negate, Int.cast_neg, neg_neg] using hother

theorem quotientBits_le (n d : Nat) : quotientBits n d ≤ infinity := by
  unfold quotientBits
  split
  · rename_i hlt
    have hround : roundDiv n d ≤ n / d + 1 := by
      unfold roundDiv
      split <;> omega
    simp only [infinity]
    omega
  · exact min_le_right _ _

theorem isNaN_ofDecimal (negative : Bool) (m : Nat) (e : Int) :
    isNaN (ofDecimal negative m e) = false := by
  have hle := quotientBits_le (m * 10 ^ e.toNat * one) (10 ^ (-e).toNat)
  rw [isNaN, decide_eq_false_iff_not, absBits, ofDecimal,
    UInt64.toNat_ofNat']
  generalize quotientBits _ _ = bits at hle
  simp only [infinity] at hle
  cases negative <;> simp only [Bool.false_eq_true, if_false, if_true] <;> omega

end Rustqlite.Foundation.Double
