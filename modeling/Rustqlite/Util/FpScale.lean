import Rustqlite.Util.Fp
import Rustqlite.Foundation.Nearest

/-!
# The table of powers of ten

What `powerOfTen` returns is `10 ^ p` cut to 64 bits, for every power it is asked
for, and the exponents that `fp2Convert10` estimates are right for every double.
-/

namespace Rustqlite.Util

open Foundation Double

/-! ## Powers as fractions -/

def ratioNum (p k : Int) : Nat := 10 ^ p.toNat * 2 ^ k.toNat

def ratioDen (p k : Int) : Nat := ratioNum (-p) (-k)

theorem ratioDen_pos (p k : Int) : 0 < ratioDen p k := by
  rw [ratioDen, ratioNum]
  positivity

theorem zpow_eq_div {a : ℚ} (ha : a ≠ 0) (p : Int) : a ^ p = a ^ p.toNat / a ^ (-p).toNat := by
  rw [← zpow_natCast, ← zpow_natCast, ← zpow_sub₀ ha]
  congr 1
  omega

theorem ratio_eq (p k : Int) : (10 : ℚ) ^ p * 2 ^ k = ratioNum p k / ratioDen p k := by
  rw [zpow_eq_div (by norm_num) p, zpow_eq_div (by norm_num) k, ratioDen, ratioNum, ratioNum]
  push_cast
  rw [div_mul_div_comm]

theorem le_ratio_iff (n : Nat) (p k : Int) :
    (n : ℚ) ≤ 10 ^ p * 2 ^ k ↔ n * ratioDen p k ≤ ratioNum p k := by
  have hpos : (0 : ℚ) < ratioDen p k := by exact_mod_cast ratioDen_pos p k
  rw [ratio_eq, le_div_iff₀ hpos]
  exact_mod_cast Iff.rfl

theorem ratio_lt_iff (n : Nat) (p k : Int) :
    (10 : ℚ) ^ p * 2 ^ k < n ↔ ratioNum p k < n * ratioDen p k := by
  have hpos : (0 : ℚ) < ratioDen p k := by exact_mod_cast ratioDen_pos p k
  rw [ratio_eq, div_lt_iff₀ hpos]
  exact_mod_cast Iff.rfl

def entryExact (p : Int) : Bool :=
  let h := (powerOfTen p).1
  let k := 63 - pwr10to2 p
  decide (2 ^ 63 ≤ h ∧ h < 2 ^ 64 - 2 ^ 54 ∧ h * ratioDen p k ≤ ratioNum p k ∧
    ratioNum p k < (h + 1) * ratioDen p k)

theorem entries_exact : ((List.range 696).all fun i => entryExact (i - 348)) = true := by
  decide +kernel

theorem powerOfTen_spec {p : Int} (hlo : -348 ≤ p) (hhi : p ≤ 347) :
    2 ^ 63 ≤ (powerOfTen p).1 ∧ (powerOfTen p).1 < 2 ^ 64 - 2 ^ 54 ∧
      ((powerOfTen p).1 : ℚ) ≤ 10 ^ p * 2 ^ (63 - pwr10to2 p) ∧
      (10 : ℚ) ^ p * 2 ^ (63 - pwr10to2 p) < (powerOfTen p).1 + 1 := by
  have hentry := List.all_eq_true.mp entries_exact (p + 348).toNat (List.mem_range.mpr (by omega))
  have hp : ((p + 348).toNat : Int) - 348 = p := by omega
  rw [hp, entryExact, decide_eq_true_eq] at hentry
  have hlt := (ratio_lt_iff ((powerOfTen p).1 + 1) p (63 - pwr10to2 p)).mpr hentry.2.2.2
  push_cast at hlt
  exact ⟨hentry.1, hentry.2.1, (le_ratio_iff _ _ _).mpr hentry.2.2.1, hlt⟩

def tenFor (e : Int) : Int := 17 - pwr2to10 (e + 63)

def shiftFor (e : Int) : Int := -(e + pwr10to2 (tenFor e) + 2)

def exponentRight (e : Int) : Bool :=
  let p := tenFor e
  decide (-290 ≤ p ∧ p ≤ 341 ∧ 1 ≤ shiftFor e ∧ shiftFor e ≤ 6 ∧
    10 ^ 17 * ratioDen p (e + 63) ≤ ratioNum p (e + 63) ∧
    ratioNum p (e + 63) < 10 ^ 18 * ratioDen p (e + 63))

theorem exponents_right : ((List.range 2098).all fun i => exponentRight (i - 1137)) = true := by
  decide +kernel

theorem tenFor_spec {e : Int} (hlo : -1137 ≤ e) (hhi : e ≤ 960) :
    -290 ≤ tenFor e ∧ tenFor e ≤ 341 ∧ 1 ≤ shiftFor e ∧ shiftFor e ≤ 6 ∧
      (10 : ℚ) ^ 17 ≤ 10 ^ tenFor e * 2 ^ (e + 63) ∧
      (10 : ℚ) ^ tenFor e * 2 ^ (e + 63) < 10 ^ 18 := by
  have hright :=
    List.all_eq_true.mp exponents_right (e + 1137).toNat (List.mem_range.mpr (by omega))
  have he : ((e + 1137).toNat : Int) - 1137 = e := by omega
  rw [he, exponentRight, decide_eq_true_eq] at hright
  have hle := (le_ratio_iff (10 ^ 17) _ _).mpr hright.2.2.2.2.1
  have hlt := (ratio_lt_iff (10 ^ 18) _ _).mpr hright.2.2.2.2.2
  push_cast at hle hlt
  exact ⟨hright.1, hright.2.1, hright.2.2.1, hright.2.2.2.1, hle, hlt⟩

/-!
## The binary form of a double

`normalize` writes a double as `m * 2 ^ e` with the top bit of `m` set.  Half the
distance to the next double is then `2 ^ (e + 10)` at least, also for the doubles
that are not normal, and half the distance to the one before is half of that when
`m` is a power of two.
-/

variable {b : Nat}

theorem div_bounds (a : Nat) (hb : 0 < b) :
    ((a / b : Nat) : ℚ) * b ≤ a ∧ (a : ℚ) + 1 ≤ ((a / b : Nat) + 1) * b := by
  have hlo : a / b * b ≤ a := Nat.div_mul_le_self a b
  have hhi : a + 1 ≤ (a / b + 1) * b := Nat.lt_mul_of_div_lt (Nat.lt_succ_self _) hb
  exact ⟨by exact_mod_cast hlo, by exact_mod_cast hhi⟩

theorem bitLength_of_pos {n : Nat} (h : 0 < n) : bitLength n = n.log2 + 1 :=
  if_neg (by omega)

/-! ## The significand and the exponent -/

structure Finite (b : Nat) : Prop where
  pos : 0 < b
  lt : b < infinity

theorem Finite.exponent_lt (h : Finite b) : exponent b < 2047 := by
  have hlt := h.lt
  rw [infinity] at hlt
  rw [exponent]
  omega

theorem fraction_lt (b : Nat) : fraction b < 2 ^ 52 := Nat.mod_lt _ (by norm_num)

theorem Finite.fraction_pos (h : Finite b) (hexp : exponent b = 0) : 0 < fraction b := by
  have hpos := h.pos
  rw [exponent] at hexp
  rw [fraction]
  omega

theorem normalize_normal (h : exponent b ≠ 0) :
    normalize b = ((2 ^ 52 + fraction b) * 2 ^ 11, (exponent b : Int) - 1086) := by
  have hsplit : fraction b * 2 ^ 11 + 2 ^ 63 = (2 ^ 52 + fraction b) * 2 ^ 11 := by ring
  rw [normalize, if_neg h, hsplit]

theorem normalize_subnormal (h : exponent b = 0) (hpos : 0 < fraction b) :
    normalize b = (fraction b * 2 ^ (63 - (fraction b).log2),
      -1074 - ((63 - (fraction b).log2 : Nat) : Int)) := by
  have hlen : 64 - bitLength (fraction b) = 63 - (fraction b).log2 := by
    rw [bitLength_of_pos hpos]
    omega
  rw [normalize, if_pos h, hlen]

theorem log2_fraction_lt (hpos : 0 < fraction b) : (fraction b).log2 < 52 :=
  (Nat.log2_lt (by omega)).mpr (fraction_lt b)

theorem normalize_bounds (h : Finite b) :
    2 ^ 63 ≤ (normalize b).1 ∧ (normalize b).1 < 2 ^ 64 ∧
      -1137 ≤ (normalize b).2 ∧ (normalize b).2 ≤ 960 := by
  have hlt := h.exponent_lt
  by_cases hexp : exponent b = 0
  · have hpos := h.fraction_pos hexp
    have hlog := log2_fraction_lt hpos
    have hlo : 2 ^ (fraction b).log2 ≤ fraction b := Nat.log2_self_le (by omega)
    have hhi : fraction b < 2 ^ ((fraction b).log2 + 1) := Nat.lt_log2_self
    rw [normalize_subnormal hexp hpos]
    refine ⟨?_, ?_, by dsimp only; omega, by dsimp only; omega⟩
    · calc 2 ^ 63 = 2 ^ (fraction b).log2 * 2 ^ (63 - (fraction b).log2) := by
            rw [← pow_add]; congr 1; omega
        _ ≤ fraction b * 2 ^ (63 - (fraction b).log2) := Nat.mul_le_mul_right _ hlo
    · calc fraction b * 2 ^ (63 - (fraction b).log2)
          < 2 ^ ((fraction b).log2 + 1) * 2 ^ (63 - (fraction b).log2) :=
            Nat.mul_lt_mul_of_pos_right hhi (by positivity)
        _ = 2 ^ 64 := by rw [← pow_add]; congr 1; omega
  · have hfrac := fraction_lt b
    rw [normalize_normal hexp]
    refine ⟨?_, ?_, ?_, ?_⟩ <;> dsimp only <;> omega

end Rustqlite.Util
