import Rustqlite.Util.FpShorten
import Rustqlite.Util.FpText

/-!
# A real through its text

Seventeen digits are always read back as the double they were made from.  The
shorter decimal is not: `fp10Convert2` may return the double for a decimal that
lies just beyond the midpoint to a neighbour.
-/

namespace Rustqlite.Util

open Foundation Double

section

variable {r : UInt64}

theorem keepDigits_seventeen' {b : Nat} (h : Finite b) :
    ∃ z : List Digit, (z.length = 18 ∨ z.length = 19) ∧ z.getD 0 0 ≠ 0 ∧
      keepDigits b (decimalDigits b 17).1 (decimalDigits b 17).2 17 20 =
        roundDigits z (reducedRound b z (z.length + -tenOf b) (-tenOf b))
          (z.length + -tenOf b) := by
  have hbounds := digitsOf_bounds h
  have hlength := length_digits h
  apply Exists.intro (toDigits (digitsOf b))
  refine ⟨by omega, getD_zero_ne (by omega), ?_⟩
  rw [decimalDigits_seventeen h]
  dsimp only
  rw [keepDigits_seventeen (by omega)]

theorem fpDecode_eq (h : Finite (absBits r)) :
    fpDecode r 17 20 =
      (let b := absBits r
        let kept := keepDigits b (decimalDigits b 17).1 (decimalDigits b 17).2 17 20
        let digits := kept.1.rdropWhile fun d => d = 0
        let sign := if isNaN r = false ∧ value r < 0 then '-' else '+'
        ⟨sign, digits.length, kept.2, digits, 0⟩) := by
  have hexp := h.exponent_lt
  rw [fpDecode]
  dsimp only
  rw [if_neg h.pos.ne', if_neg (by omega)]

theorem decoded (h : Finite (absBits r)) : Decoded (fpDecode r 17 20) := by
  obtain ⟨-, -, he, he'⟩ := normalize_bounds h
  have hspec := tenFor_spec he he'
  rw [← tenOf] at hspec
  obtain ⟨z, hlen, hfirst, hkept⟩ := keepDigits_seventeen' h
  obtain ⟨hk, hk'⟩ := reducedRound_bounds (b := absBits r) z (z.length + -tenOf (absBits r))
    (-tenOf (absBits r))
  have hplace := roundDigits_place (z.length + -tenOf (absBits r)) z
    (reducedRound (absBits r) z (z.length + -tenOf (absBits r)) (-tenOf (absBits r)))
  rw [fpDecode_eq h]
  dsimp only
  rw [hkept]
  exact {
    finite := rfl
    count := rfl
    ne_nil := kept_ne_nil _ hk (by omega) hfirst
    length_le := (length_kept _ hk (by omega)).trans hk'
    lo := by dsimp only; omega
    hi := by dsimp only; omega }

end

end Rustqlite.Util
