import Rustqlite.Util.Fp

/-!
# What the text spells

At 17 digits `render` loses nothing: the text, read as a decimal number, is the
number that the digits stand for.
-/

namespace Rustqlite.Util

open Foundation Double

/-! ## Zeros at the end -/

variable {n exp : Int} {tail : List Char}

theorem ofNat_toNat (hlo : 0 ≤ n) (hhi : n < 10) : ((Fin.ofNat 10 n.toNat : Digit) : Int) = n := by
  have hval : ((Fin.ofNat 10 n.toNat : Digit) : Nat) = n.toNat := Nat.mod_eq_of_lt (by omega)
  omega

structure Decoded (s : FpDecode) : Prop where
  finite : s.isSpecial = 0
  count : s.n = s.digits.length
  ne_nil : s.digits ≠ []
  length_le : s.digits.length ≤ 17
  lo : -900 < s.iDp
  hi : s.iDp < 900

def FpDecode.value (s : FpDecode) : ℚ := ofDigits s.digits * 10 ^ (s.iDp - s.digits.length)

section

variable {s : FpDecode} {e2 precision : Int}

theorem wholeText_of_nonneg (h : s.n = s.digits.length) (he : 0 ≤ e2) :
    wholeText s e2 = (s.digits.take (e2 + 1).toNat ++
      List.replicate ((e2 + 1).toNat - s.digits.length) 0).map digitChar := by
  have hzeros : (e2 - min (e2 + 1) s.n + 1).toNat = (e2 + 1).toNat - s.digits.length := by omega
  have hmin : (min (e2 + 1) (s.n : Int)).toNat = min (e2 + 1).toNat s.digits.length := by omega
  rw [wholeText, if_neg (by omega)]
  dsimp only
  rw [hzeros, hmin, ← List.take_eq_take_min, List.map_append, List.map_replicate]
  rfl

theorem wholeText_of_neg (he : e2 < 0) : wholeText s e2 = [(0 : Digit)].map digitChar := by
  rw [wholeText, if_pos he]
  rfl

theorem fractionText_of_nonneg (h : s.n = s.digits.length) (he : 0 ≤ e2)
    (hp : 0 ≤ precision) (hprecision : s.digits.length ≤ e2 + 1 + precision) :
    fractionText s e2 precision true = (s.digits.drop (e2 + 1).toNat).map digitChar := by
  have hj : (min (e2 + 1) (s.n : Int)).toNat = min (e2 + 1).toNat s.digits.length := by omega
  have hnn : (if 0 < precision then max 0 (min ((s.n : Int) - min (e2 + 1) s.n) precision)
      else 0).toNat = s.digits.length - min (e2 + 1).toNat s.digits.length := by
    split_ifs <;> omega
  have hlead : ¬(e2 < -1 ∧ 0 < precision) := fun hlt => by omega
  rw [fractionText]
  simp only [if_neg hlead, if_neg (not_lt.mpr he), sub_zero, hj, hnn, Bool.true_eq_false, and_false,
    if_false, Int.toNat_zero, List.replicate_zero, List.nil_append, List.append_nil]
  rw [List.take_of_length_le (by rw [List.length_drop]), ← List.drop_eq_drop_min]

theorem fractionText_of_neg (h : s.n = s.digits.length) (he : e2 < 0)
    (hprecision : -1 - e2 + s.digits.length ≤ precision) :
    fractionText s e2 precision true =
      (List.replicate (-1 - e2).toNat 0 ++ s.digits).map digitChar := by
  have hlead : (if e2 < -1 ∧ 0 < precision then min (-1 - e2) precision else 0) = -1 - e2 := by
    split_ifs <;> omega
  have hnn : (if 0 < precision - (-1 - e2) then
      max 0 (min ((s.n : Int) - 0) (precision - (-1 - e2))) else 0).toNat = s.digits.length := by
    split_ifs <;> omega
  rw [fractionText]
  simp only [if_pos he, hlead, hnn, Int.toNat_zero, List.drop_zero, List.take_length,
    Bool.true_eq_false, and_false, if_false, List.replicate_zero, List.append_nil]
  rw [List.map_append, List.map_replicate]
  rfl

theorem pointValue_layout (ds : List Digit) (k : Nat) (x : Int) :
    pointValue (ds.take k ++ List.replicate (k - ds.length) 0) (ds.drop k) x =
      ofDigits ds * 10 ^ (x + k - ds.length) := by
  rcases Nat.le_total k ds.length with hle | hle
  · have hexp : x - (ds.length - k : Nat) = x + k - ds.length := by omega
    rw [Nat.sub_eq_zero_of_le hle, List.replicate_zero, List.append_nil, pointValue,
      List.take_append_drop, List.length_drop, hexp]
  · have hexp : x + k - ds.length = x + (k - ds.length : Nat) := by omega
    rw [List.take_of_length_le hle, List.drop_of_length_le hle, pointValue, List.append_nil,
      ofDigits_append, ofDigits_zeros, List.length_replicate, hexp, zpow_add₀ (by norm_num),
      zpow_natCast]
    push_cast [List.length_nil]
    ring_nf

theorem layout_ne_nil (ds : List Digit) {k : Nat} (hk : 0 < k) :
    ds.take k ++ List.replicate (k - ds.length) 0 ≠ [] := fun hnil => by
  have hlen := congrArg List.length hnil
  rw [List.length_append, List.length_take, List.length_replicate, List.length_nil] at hlen
  omega

theorem pointValue_small (ds : List Digit) (k : Nat) :
    pointValue [0] (List.replicate k 0 ++ ds) 0 = ofDigits ds * 10 ^ (-(k : Int) - ds.length) := by
  rw [pointValue, List.singleton_append, ofDigits_cons, ofDigits_append, ofDigits_zeros,
    List.length_append, List.length_replicate]
  simp only [Fin.val_zero, zero_mul, zero_add]
  congr 2
  push_cast
  ring

theorem layout (h : Decoded s) :
    let exp := s.iDp - 1
    let xtypeExp := exp < -4 ∨ 16 < exp
    ∃ whole frac : List Digit, whole ≠ [] ∧
      wholeText s (if xtypeExp then 0 else exp) = whole.map digitChar ∧
      fractionText s (if xtypeExp then 0 else exp) (if xtypeExp then 16 else 16 - exp) true =
        frac.map digitChar ∧
      pointValue whole frac (if xtypeExp then exp else 0) = s.value := by
  have hle := h.length_le
  dsimp only
  by_cases hexp : s.iDp - 1 < -4 ∨ 16 < s.iDp - 1
  · -- One digit before the point.
    have hvalue := pointValue_layout s.digits 1 (s.iDp - 1)
    rw [if_pos hexp, if_pos hexp, if_pos hexp, wholeText_of_nonneg h.count le_rfl,
      fractionText_of_nonneg h.count le_rfl (by norm_num) (by omega)]
    refine ⟨_, _, layout_ne_nil s.digits Nat.one_pos, rfl, rfl, hvalue.trans ?_⟩
    rw [FpDecode.value]
    congr 2
    push_cast
    ring
  · rw [if_neg hexp, if_neg hexp, if_neg hexp]
    by_cases hneg : s.iDp - 1 < 0
    · -- Zeros after the point.
      have hvalue := pointValue_small s.digits (-1 - (s.iDp - 1)).toNat
      rw [wholeText_of_neg hneg, fractionText_of_neg h.count hneg (by omega)]
      refine ⟨_, _, List.cons_ne_nil _ _, rfl, rfl, hvalue.trans ?_⟩
      rw [FpDecode.value]
      congr 2
      omega
    · -- The point among the digits, or zeros before it.
      have hvalue := pointValue_layout s.digits (s.iDp - 1 + 1).toNat 0
      rw [wholeText_of_nonneg h.count (by omega),
        fractionText_of_nonneg h.count (by omega) (by omega) (by omega)]
      refine ⟨_, _, layout_ne_nil s.digits (by omega), rfl, rfl, hvalue.trans ?_⟩
      rw [FpDecode.value]
      congr 2
      omega

end

/-! ## The whole text -/

end Rustqlite.Util
