import Rustqlite.Util.FpScale

/-!
# Converting a decimal back

`fp10Convert2` rounds correctly, but not always the decimal it is given: a decimal
within one part in `2 ^ 92` of a midpoint may be taken for the midpoint.
-/

namespace Rustqlite.Util

open Foundation Double

/-! ## Sticky bits -/

/-- What a number stands for whose last bit is set when anything was cut off. -/
def Sticky (u : Nat) (t : ℚ) : Prop := t = u ∨ u % 2 = 1 ∧ (u : ℚ) - 1 < t ∧ t < u + 1

theorem or_one (n : Nat) : n ||| 1 = if n % 2 = 0 then n + 1 else n := by
  have hhalf : (n ||| 1) / 2 = n / 2 := by
    rw [Nat.or_div_two, Nat.div_eq_of_lt Nat.one_lt_two, Nat.or_zero]
  have hbit : (n ||| 1) % 2 = 1 := by
    rw [Nat.or_mod_two_eq_one]
    exact .inr rfl
  split_ifs <;> omega

section

variable {u n : Nat} {t v w : ℚ}

theorem sticky_or_one (hlo : n < t) (hhi : t < n + 1) : Sticky (n ||| 1) t := by
  right
  rw [or_one]
  split_ifs with heven
  · push_cast
    refine ⟨by omega, ?_, ?_⟩ <;> linarith
  · refine ⟨by omega, ?_, ?_⟩ <;> linarith

theorem Sticky.half (h : Sticky u t) : Sticky (u / 2 ||| u % 2) (t / 2) := by
  have hsplit : (u : ℚ) = 2 * (u / 2 : Nat) + (u % 2 : Nat) := by
    exact_mod_cast (Nat.div_add_mod u 2).symm
  rcases Nat.mod_two_eq_zero_or_one u with heven | hodd
  · rw [heven] at hsplit ⊢
    rw [Nat.or_zero]
    rcases h with rfl | ⟨hodd, -⟩
    · left
      push_cast at hsplit
      linarith
    · omega
  · rw [hodd] at hsplit ⊢
    push_cast at hsplit
    rcases h with rfl | ⟨-, hlo, hhi⟩ <;> apply sticky_or_one <;> linarith

end

/-! ## The product -/

variable {e p : Int} {d : Nat}

end Rustqlite.Util
