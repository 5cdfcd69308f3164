import Rustqlite.Util.FpDigits
import Rustqlite.Util.FpConvert

/-!
# The digits that are kept

Either a shorter decimal that converts back is kept, exactly as it was tried, or
the digits are rounded to 17.
-/

namespace Rustqlite.Util

open Foundation Double

/-! ## Runs of one digit -/

variable {i : Nat}

section

variable {d : Digit} {z : List Digit} {n : Nat}

theorem dropBack_le : dropBack d z n ≤ n := by
  induction n with
  | zero => exact le_rfl
  | succ n ih =>
      rw [dropBack]
      split_ifs <;> omega

end

/-! ## Keeping a shorter decimal -/

section

variable {z : List Digit} {jj : Nat}

end

/-! ## The digits of a double -/

section

variable {b : Nat}

theorem decimalDigits_seventeen (h : Finite b) :
    decimalDigits b 17 = (toDigits (digitsOf b), -tenOf b) := by
  have hbounds := digitsOf_bounds h
  have hroom : digitsOf b < 10 ^ 21 := hbounds.2.trans (by norm_num)
  have hdigits : extractDigits 21 (digitsOf b) [] = toDigits (digitsOf b) := by
    rw [extractDigits_eq hroom, if_neg (by omega), List.append_nil]
  rw [← hdigits]
  rfl

theorem length_digits (h : Finite b) :
    (toDigits (digitsOf b)).length = 18 ∧ digitsOf b < 10 ^ 18 ∨
      (toDigits (digitsOf b)).length = 19 ∧ 10 ^ 18 ≤ digitsOf b := by
  have hbounds := digitsOf_bounds h
  rcases Nat.lt_or_ge (digitsOf b) (10 ^ 18) with hlt | hge
  · exact .inl ⟨length_toDigits hbounds.1 hlt, hlt⟩
  · exact .inr ⟨length_toDigits hge hbounds.2, hge⟩

variable {z : List Digit} {v : Nat}

theorem keepDigits_seventeen (hlen : 17 < z.length) (exp : Int) :
    keepDigits b z exp 17 20 =
      roundDigits z (reducedRound b z (z.length + exp) exp) (z.length + exp) := by
  have hcarries : ¬((17 : Int) ≤ 0 ∧ z.length + exp - 17 = 0 ∧ 5 ≤ z.headD 0) := fun h => by
    omega
  have hround : (0 : Int) < 17 ∧ ((17 : Int) < z.length ∨ (20 : Int) < z.length) := by omega
  have hmin : (min (17 : Int) 20).toNat = 17 := rfl
  have hpos : ¬(17 : Int) ≤ 0 := by norm_num
  rw [keepDigits]
  simp only [if_neg hcarries, if_neg hpos, if_pos hround, hmin, if_true]

/-! ## Accepting a shorter decimal -/

theorem getD_zero_ne {n : Nat} (hn : 0 < n) : (toDigits n).getD 0 0 ≠ 0 := by
  rcases canonical_toDigits n with hzero | ⟨d, rest, hcons, hd⟩
  · have hvalue := congrArg ofDigits hzero
    rw [ofDigits_toDigits] at hvalue
    have : n = 0 := hvalue
    omega
  · rw [hcons]
    exact hd

theorem reducedRound_bounds (z : List Digit) (iDp exp : Int) :
    1 ≤ reducedRound b z iDp exp ∧ reducedRound b z iDp exp ≤ 17 := by
  rw [reducedRound]
  cases hshorter : shorter z iDp with
  | none => exact ⟨by norm_num, le_rfl⟩
  | some s =>
      have hjj : s.2 ≤ 14 := by
        rw [shorter] at hshorter
        split_ifs at hshorter
        · rw [← Option.some.inj hshorter]
          exact dropBack_le
        · rw [← Option.some.inj hshorter]
          exact dropBack_le.trans (by norm_num)
      dsimp only
      split_ifs <;> omega

end

end Rustqlite.Util
