import Rustqlite.Foundation.Bytes

/-!
# Doubles

A 64-bit double as its bits.  What a double stands for is a whole multiple of
`2 ^ -1074`, the least positive one; the comparisons are those of the multiples.
-/

namespace Rustqlite.Foundation.Double

def one : Nat := 2 ^ 1074

def exponent (b : Nat) : Nat := b / 2 ^ 52

def fraction (b : Nat) : Nat := b % 2 ^ 52

def absBits (r : UInt64) : Nat := r.toNat % 2 ^ 63

def isNaN (r : UInt64) : Bool := decide (2047 * 2 ^ 52 < absBits r)

/-- What the bits without the sign stand for; infinity is the power of two in its place. -/
def magnitude (b : Nat) : Nat :=
  if exponent b = 0 then fraction b else (2 ^ 52 + fraction b) * 2 ^ (exponent b - 1)

def value (r : UInt64) : Int :=
  if 2 ^ 63 ≤ r.toNat then -(magnitude (absBits r) : Int) else magnitude (absBits r)

def partialCmp (x y : UInt64) : Option Ordering :=
  if isNaN x || isNaN y then none else some (compare (value x) (value y))

/-- `r as i64`: toward zero, and to the nearest bound when it is out of range. -/
def toInt64 (r : UInt64) : Int64 :=
  if isNaN r then 0
  else Int64.ofInt (max (-2 ^ 63) (min (2 ^ 63 - 1) ((value r).tdiv one)))

/-- The bits for `n`, rounded to the nearest double, and to the even one of two. -/
def natBits (n : Nat) : Nat :=
  if n = 0 then 0
  else if n.log2 ≤ 52 then (n.log2 + 1022) * 2 ^ 52 + n * 2 ^ (52 - n.log2)
  else
    let cut := 2 ^ (n.log2 - 52)
    let up := cut < 2 * (n % cut) ∨ cut = 2 * (n % cut) ∧ n / cut % 2 = 1
    (n.log2 + 1022) * 2 ^ 52 + n / cut + if up then 1 else 0

def ofInt64 (i : Int64) : UInt64 :=
  UInt64.ofNat (natBits i.toInt.natAbs + if i < 0 then 2 ^ 63 else 0)

def negate (r : UInt64) : UInt64 := r + 0x8000000000000000

/-! ## Signs and zeros -/

theorem toNat_negate (r : UInt64) : (negate r).toNat = (r.toNat + 2 ^ 63) % 2 ^ 64 := by
  rw [negate, UInt64.toNat_add]
  rfl

theorem absBits_negate (r : UInt64) : absBits (negate r) = absBits r := by
  simp only [absBits, toNat_negate]
  omega

@[simp] theorem isNaN_negate (r : UInt64) : isNaN (negate r) = isNaN r := by
  rw [isNaN, isNaN, absBits_negate]

@[simp] theorem value_negate (r : UInt64) : value (negate r) = -value r := by
  have hlt := r.toNat_lt
  rw [value, value, absBits_negate, toNat_negate]
  split_ifs <;> omega

theorem isNaN_of_value {r : UInt64} (h : value r = 0) : isNaN r = false := by
  have hmag : magnitude (absBits r) = 0 := by
    rw [value] at h
    split_ifs at h <;> omega
  rw [magnitude, exponent, fraction] at hmag
  split_ifs at hmag with hexp
  · rw [isNaN, decide_eq_false_iff_not]
    omega
  · have : 0 < 2 ^ (absBits r / 2 ^ 52 - 1) := by positivity
    rw [mul_eq_zero] at hmag
    omega

/-! ## Different bits -/

def Exact (n : Nat) : Prop := ∃ m k, m < 2 ^ 53 ∧ n = m * 2 ^ k

theorem exact_of_lt {n : Nat} (h : n < 2 ^ 53) : Exact n := ⟨n, 0, h, by simp⟩

theorem magnitude_split {e m : Nat} (hlo : 2 ^ 52 ≤ m) (hhi : m < 2 ^ 53) :
    magnitude (e * 2 ^ 52 + m) = m * 2 ^ e := by
  have hexp : exponent (e * 2 ^ 52 + m) = e + 1 := by
    simp only [exponent]
    omega
  have hfrac : fraction (e * 2 ^ 52 + m) = m - 2 ^ 52 := by
    simp only [fraction]
    omega
  rw [magnitude, hexp, hfrac, if_neg (by omega), Nat.add_sub_cancel' hlo]
  rfl

theorem dvd_of_exact {n : Nat} (hn : n ≠ 0) (h : Exact n) : 2 ^ (n.log2 - 52) ∣ n := by
  obtain ⟨m, k, hm, rfl⟩ := h
  have hlog : 2 ^ (m * 2 ^ k).log2 ≤ m * 2 ^ k := Nat.log2_self_le hn
  have hlt : m * 2 ^ k < 2 ^ (53 + k) := by
    rw [pow_add]
    exact Nat.mul_lt_mul_of_pos_right hm (by positivity)
  have hle : (m * 2 ^ k).log2 < 53 + k :=
    (Nat.pow_lt_pow_iff_right (by norm_num)).mp (hlog.trans_lt hlt)
  exact (pow_dvd_pow 2 (by omega)).trans (Dvd.intro_left m rfl)

theorem magnitude_natBits {n : Nat} (h : Exact n) : magnitude (natBits n) = n * one := by
  by_cases hn : n = 0
  · rw [natBits, if_pos hn, hn, zero_mul]
    rfl
  have hlo : 2 ^ n.log2 ≤ n := Nat.log2_self_le hn
  have hhi : n < 2 ^ (n.log2 + 1) := Nat.lt_log2_self
  rw [natBits, if_neg hn]
  split_ifs with hsmall
  · rw [magnitude_split]
    · have hexp : 52 - n.log2 + (n.log2 + 1022) = 1074 := by omega
      rw [mul_assoc, ← pow_add, hexp, one]
    · calc 2 ^ 52 = 2 ^ n.log2 * 2 ^ (52 - n.log2) := by rw [← pow_add]; congr 1; omega
        _ ≤ n * 2 ^ (52 - n.log2) := Nat.mul_le_mul_right _ hlo
    · calc n * 2 ^ (52 - n.log2) < 2 ^ (n.log2 + 1) * 2 ^ (52 - n.log2) :=
            Nat.mul_lt_mul_of_pos_right hhi (by positivity)
        _ = 2 ^ 53 := by rw [← pow_add]; congr 1; omega
  · obtain ⟨q, hq⟩ := dvd_of_exact hn h
    have hcut : 0 < 2 ^ (n.log2 - 52) := by positivity
    have hmod : n % 2 ^ (n.log2 - 52) = 0 := Nat.mod_eq_zero_of_dvd ⟨q, hq⟩
    have hdiv : n / 2 ^ (n.log2 - 52) = q := Nat.div_eq_of_eq_mul_right hcut hq
    have hup : ¬(2 ^ (n.log2 - 52) < 2 * 0 ∨ 2 ^ (n.log2 - 52) = 2 * 0 ∧ q % 2 = 1) := by omega
    simp only [hmod, hdiv, if_neg hup, add_zero]
    have hexp : 2 ^ (n.log2 - 52) * 2 ^ 52 = 2 ^ n.log2 := by rw [← pow_add]; congr 1; omega
    have hexp' : 2 ^ (n.log2 - 52) * 2 ^ 53 = 2 ^ (n.log2 + 1) := by rw [← pow_add]; congr 1; omega
    rw [magnitude_split]
    · have hpow : n.log2 + 1022 = n.log2 - 52 + 1074 := by omega
      rw [hpow, pow_add, ← mul_assoc, mul_comm q, ← hq, one]
    · exact Nat.le_of_mul_le_mul_left (by rw [hexp, ← hq]; exact hlo) hcut
    · exact Nat.lt_of_mul_lt_mul_left (a := 2 ^ (n.log2 - 52)) (by rw [hexp', ← hq]; exact hhi)

theorem two_pow_le_one {k : Nat} (h : k ≤ 1074) : 2 ^ k ≤ one := by
  rw [one]
  gcongr
  exact one_le_two

theorem one_pos : 0 < one := by
  rw [one]
  positivity

/-- A double of at least `2 ^ 53` is a whole number. -/
theorem exact_magnitude (b : Nat) : Exact (magnitude b / one) := by
  have hfrac : fraction b < 2 ^ 52 := Nat.mod_lt _ (by positivity)
  have hone : 0 < one := one_pos
  rw [magnitude]
  split_ifs with hexp
  · rw [Nat.div_eq_of_lt (hfrac.trans_le (two_pow_le_one (by norm_num)))]
    exact exact_of_lt (by positivity)
  · by_cases hbig : 1074 ≤ exponent b - 1
    · refine ⟨2 ^ 52 + fraction b, exponent b - 1 - 1074, by omega, ?_⟩
      have hsplit : exponent b - 1 = exponent b - 1 - 1074 + 1074 := by omega
      rw [hsplit, pow_add, ← mul_assoc, ← one, Nat.mul_div_cancel _ hone, ← hsplit]
    · apply exact_of_lt
      rw [Nat.div_lt_iff_lt_mul hone]
      exact Nat.mul_lt_mul_of_lt_of_le (by omega) (two_pow_le_one (by omega)) hone

/-! ## Integers as doubles -/

theorem natBits_le {n : Nat} (h : n < 2 ^ 64) : natBits n ≤ 1088 * 2 ^ 52 := by
  rw [natBits]
  split_ifs with hn hsmall
  · omega
  · have hhi : n < 2 ^ (n.log2 + 1) := Nat.lt_log2_self
    have hm : n * 2 ^ (52 - n.log2) < 2 ^ 53 :=
      calc n * 2 ^ (52 - n.log2) < 2 ^ (n.log2 + 1) * 2 ^ (52 - n.log2) :=
            Nat.mul_lt_mul_of_pos_right hhi (by positivity)
        _ = 2 ^ 53 := by rw [← pow_add]; congr 1; omega
    omega
  · have hlog : n.log2 < 64 := (Nat.log2_lt hn).mpr h
    have hhi : n < 2 ^ (n.log2 + 1) := Nat.lt_log2_self
    have hq : n / 2 ^ (n.log2 - 52) < 2 ^ 53 := by
      rw [Nat.div_lt_iff_lt_mul (by positivity), ← pow_add]
      exact hhi.trans_le (Nat.pow_le_pow_right (by norm_num) (by omega))
    dsimp only
    split_ifs <;> omega

theorem natBits_natAbs_le (i : Int64) : natBits i.toInt.natAbs ≤ 1088 * 2 ^ 52 := by
  have hlt := i.toInt_lt
  have hle := i.le_toInt
  exact natBits_le (by omega)

theorem toNat_ofInt64 (i : Int64) :
    (ofInt64 i).toNat = natBits i.toInt.natAbs + if i < 0 then 2 ^ 63 else 0 := by
  have hbits := natBits_natAbs_le i
  rw [ofInt64, UInt64.toNat_ofNat_of_lt']
  simp only [UInt64.size]
  split_ifs <;> omega

theorem absBits_ofInt64 (i : Int64) : absBits (ofInt64 i) = natBits i.toInt.natAbs := by
  have hbits := natBits_natAbs_le i
  rw [absBits, toNat_ofInt64]
  split_ifs <;> omega

@[simp] theorem isNaN_ofInt64 (i : Int64) : isNaN (ofInt64 i) = false := by
  have hbits := natBits_natAbs_le i
  rw [isNaN, absBits_ofInt64, decide_eq_false_iff_not]
  omega

theorem value_ofInt64 {i : Int64} (h : Exact i.toInt.natAbs) :
    value (ofInt64 i) = i.toInt * one := by
  have hbits := natBits_natAbs_le i
  have hneg : 2 ^ 63 ≤ (ofInt64 i).toNat ↔ i.toInt < 0 := by
    simp only [toNat_ofInt64, Int64.lt_iff_toInt_lt, Int64.toInt_zero]
    split_ifs <;> omega
  rw [value, absBits_ofInt64, magnitude_natBits h]
  simp only [hneg, Nat.cast_mul]
  split_ifs with hsign
  · rw [← Int.neg_mul, Int.ofNat_natAbs_of_nonpos hsign.le, neg_neg]
  · rw [Int.natAbs_of_nonneg (by omega)]

end Rustqlite.Foundation.Double
