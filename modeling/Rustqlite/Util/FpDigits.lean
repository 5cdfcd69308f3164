import Rustqlite.Util.FpScale

/-!
# Seventeen digits are enough

`fp2Convert10` gives 18 or 19 digits that are off by at most three quarters of a
unit of the last one.  Rounded to 17 digits they are still nearer to the double
than the midpoint to a neighbour is.
-/

namespace Rustqlite.Util

open Foundation Double

/-! ## The error of the conversion -/

section

variable {m : Nat} {e : Int}

def highProduct (m : Nat) (e : Int) : Nat := m * (powerOfTen (tenFor e)).1 / 2 ^ 64

def shifted (m : Nat) (e : Int) : Nat := highProduct m e / 2 ^ (shiftFor e).toNat

theorem fp2Convert10_fst :
    (fp2Convert10 m e 18).1 = (shifted m e + 2 * (shifted m e % 2)) % 2 ^ 64 / 2 := rfl

theorem two_mul_fp2Convert10 (hm : m < 2 ^ 64) (he : -1137 ≤ e) (he' : e ≤ 960) :
    shifted m e ≤ 2 * (fp2Convert10 m e 18).1 ∧
      2 * (fp2Convert10 m e 18).1 ≤ shifted m e + 1 := by
  have hspec := tenFor_spec he he'
  have hentry := powerOfTen_spec (p := tenFor e) (by omega) (by omega)
  have hprod : highProduct m e < 2 ^ 64 := by
    apply Nat.div_lt_of_lt_mul
    exact Nat.mul_lt_mul'' hm (by omega)
  have hshift : 2 ^ 1 ≤ 2 ^ (shiftFor e).toNat := Nat.pow_le_pow_right (by norm_num) (by omega)
  have hsmall : shifted m e < 2 ^ 63 := by
    apply Nat.div_lt_of_lt_mul
    omega
  rw [fp2Convert10_fst, Nat.mod_eq_of_lt (by omega)]
  rcases Nat.mod_two_eq_zero_or_one (shifted m e) with heven | hodd <;> omega

theorem scaled_eq (m : Nat) (e : Int) :
    (m : ℚ) * 2 ^ e * 10 ^ tenFor e * 2 ^ (shiftFor e + 1) * 2 ^ (64 : Int) =
      m * (10 ^ tenFor e * 2 ^ (63 - pwr10to2 (tenFor e))) := by
  have hexp : 63 - pwr10to2 (tenFor e) = e + (shiftFor e + 1) + 64 := by
    rw [shiftFor]
    ring
  generalize shiftFor e + 1 = k at hexp ⊢
  rw [hexp, zpow_add₀ (by norm_num), zpow_add₀ (by norm_num)]
  ring

theorem fp2Convert10_near (hm : m < 2 ^ 64) (he : -1137 ≤ e) (he' : e ≤ 960) :
    (m : ℚ) * 2 ^ e * 10 ^ tenFor e - 3 / 4 ≤ (fp2Convert10 m e 18).1 ∧
      ((fp2Convert10 m e 18).1 : ℚ) ≤ m * 2 ^ e * 10 ^ tenFor e + 1 / 2 := by
  have hspec := tenFor_spec he he'
  obtain ⟨-, -, hle, hlt⟩ := powerOfTen_spec (p := tenFor e) (by omega) (by omega)
  have hscaled := scaled_eq m e
  generalize (10 : ℚ) ^ tenFor e * 2 ^ (63 - pwr10to2 (tenFor e)) = t at hle hlt hscaled
  generalize (m : ℚ) * 2 ^ e * 10 ^ tenFor e = x at hscaled ⊢
  have hpow : (2 : ℚ) ^ (shiftFor e + 1) = 2 * 2 ^ (shiftFor e).toNat := by
    rw [zpow_add_one₀ (by norm_num), ← zpow_natCast, Int.toNat_of_nonneg (by omega), mul_comm]
  have htwo : (2 : ℚ) ≤ 2 ^ (shiftFor e).toNat := by
    calc (2 : ℚ) = 2 ^ 1 := by norm_num
      _ ≤ 2 ^ (shiftFor e).toNat := pow_le_pow_right₀ (by norm_num) (by omega)
  rw [hpow] at hscaled
  -- The product is cut twice, and the power of ten before it.
  have hcut := div_bounds (m * (powerOfTen (tenFor e)).1) (b := 2 ^ 64) (by norm_num)
  have hcut' := div_bounds (highProduct m e) (b := 2 ^ (shiftFor e).toNat) (by positivity)
  rw [← highProduct] at hcut
  rw [← shifted] at hcut'
  push_cast at hcut hcut'
  have hmq : (m : ℚ) < 2 ^ 64 := by exact_mod_cast hm
  have hround := two_mul_fp2Convert10 hm he he'
  have hround1 : (shifted m e : ℚ) ≤ 2 * (fp2Convert10 m e 18).1 := by exact_mod_cast hround.1
  have hround2 : 2 * ((fp2Convert10 m e 18).1 : ℚ) ≤ shifted m e + 1 := by
    exact_mod_cast hround.2
  generalize (2 : ℚ) ^ (shiftFor e).toNat = w at *
  generalize ((fp2Convert10 m e 18).1 : ℚ) = d at *
  have hupper : (m : ℚ) * t ≤ m * (powerOfTen (tenFor e)).1 + 2 ^ 64 := by nlinarith
  have hlower : (m : ℚ) * (powerOfTen (tenFor e)).1 ≤ m * t := by gcongr
  constructor
  · have hle : (x - 3 / 4) * (2 * w) ≤ d * (2 * w) := by nlinarith
    exact le_of_mul_le_mul_right hle (by linarith)
  · have hle : d * (2 * w) ≤ (x + 1 / 2) * (2 * w) := by nlinarith
    exact le_of_mul_le_mul_right hle (by linarith)

end

/-! ## Rounding to seventeen digits -/

def digitsOf (b : Nat) : Nat := (fp2Convert10 (normalize b).1 (normalize b).2 18).1

def tenOf (b : Nat) : Int := tenFor (normalize b).2

def unitsOf (b : Nat) : ℚ := (normalize b).1 * 2 ^ (normalize b).2 * 10 ^ tenOf b

variable {b k n : Nat} {y g : ℚ} {t : Int} {z : List Digit}

theorem digitsOf_near (h : Finite b) :
    unitsOf b - 3 / 4 ≤ digitsOf b ∧ (digitsOf b : ℚ) ≤ unitsOf b + 1 / 2 := by
  obtain ⟨-, hm, he, he'⟩ := normalize_bounds h
  exact fp2Convert10_near hm he he'

theorem unitsOf_bounds (h : Finite b) :
    (10 : ℚ) ^ 17 ≤ 2 ^ 53 * (2 ^ ((normalize b).2 + 10) * 10 ^ tenOf b) ∧
      2 ^ 53 * ((2 : ℚ) ^ ((normalize b).2 + 10) * 10 ^ tenOf b) < 10 ^ 18 ∧
      unitsOf b = (normalize b).1 / 2 ^ 63 *
        (2 ^ 53 * (2 ^ ((normalize b).2 + 10) * 10 ^ tenOf b)) := by
  obtain ⟨-, -, he, he'⟩ := normalize_bounds h
  have hspec := tenFor_spec he he'
  have hten : (2 : ℚ) ^ 53 * (2 ^ ((normalize b).2 + 10) * 10 ^ tenOf b) =
      10 ^ tenFor (normalize b).2 * 2 ^ ((normalize b).2 + 63) := by
    have hsplit : (normalize b).2 + 63 = (normalize b).2 + 10 + 53 := by ring
    rw [hsplit, zpow_add₀ (by norm_num) ((normalize b).2 + 10), tenOf]
    norm_cast
    ring
  rw [hten]
  refine ⟨hspec.2.2.2.2.1, hspec.2.2.2.2.2, ?_⟩
  rw [unitsOf, tenOf, zpow_add₀ (by norm_num)]
  norm_cast
  ring

theorem digitsOf_bounds (h : Finite b) : 10 ^ 17 ≤ digitsOf b ∧ digitsOf b < 10 ^ 19 := by
  obtain ⟨hm, hm', -, -⟩ := normalize_bounds h
  obtain ⟨hlo, hhi, hunits⟩ := unitsOf_bounds h
  obtain ⟨hnear, hnear'⟩ := digitsOf_near h
  have hmq : (2 : ℚ) ^ 63 ≤ (normalize b).1 := by exact_mod_cast hm
  have hmq' : ((normalize b).1 : ℚ) < 2 ^ 64 := by exact_mod_cast hm'
  have hone : (1 : ℚ) ≤ (normalize b).1 / 2 ^ 63 := by
    rw [le_div_iff₀ (by norm_num)]
    linarith
  have htwo : ((normalize b).1 : ℚ) / 2 ^ 63 < 2 := by
    rw [div_lt_iff₀ (by norm_num)]
    linarith
  constructor
  · have hlt : (10 ^ 17 : ℚ) < digitsOf b + 1 := by nlinarith
    exact Nat.lt_succ_iff.mp (by exact_mod_cast hlt)
  · have hlt : (digitsOf b : ℚ) < 10 ^ 19 := by nlinarith
    exact_mod_cast hlt

theorem digit_eq (hn : n < 10) (h : n = k) : (⟨n, hn⟩ : Digit) = Fin.ofNat 10 k := by
  subst h
  exact Fin.ext (Nat.mod_eq_of_lt hn).symm

theorem extractDigits_eq {room v : Nat} (hv : v < 10 ^ room) (z : List Digit) :
    extractDigits room v z = if v = 0 then z else toDigits v ++ z := by
  induction room generalizing v z with
  | zero =>
      rw [pow_zero, Nat.lt_one_iff] at hv
      rw [extractDigits, if_pos hv]
  | succ room ih =>
      rw [pow_succ] at hv
      rw [extractDigits]
      by_cases hten : 10 ≤ v
      · have hlast : (⟨v % 10, Nat.mod_lt v (by norm_num)⟩ : Digit) =
            Fin.ofNat 10 (v % 100 % 10) := digit_eq _ (by omega)
        rw [if_pos hten, ih (by omega), if_neg (by omega : ¬v = 0), toDigits_of_le hten, hlast]
        by_cases hhundred : v < 100
        · have hfirst : (⟨v / 10, by omega⟩ : Digit) = Fin.ofNat 10 (v % 100 / 10) :=
            digit_eq _ (by omega)
          rw [if_pos (by omega), toDigits_of_lt (by omega), hfirst]
          rfl
        · have hsecond : (⟨v / 10 % 10, Nat.mod_lt (v / 10) (by norm_num)⟩ : Digit) =
              Fin.ofNat 10 (v % 100 / 10) := digit_eq _ (by omega)
          have hdiv : v / 10 / 10 = v / 100 := Nat.div_div_eq_div_mul v 10 10
          rw [if_neg (by omega), toDigits_of_le (by omega : 10 ≤ v / 10), hdiv, hsecond]
          simp
      · rw [if_neg hten]
        by_cases hzero : v = 0
        · rw [if_neg (not_not.mpr hzero), if_pos hzero]
        · have hdigit : (⟨v, by omega⟩ : Digit) = Fin.ofNat 10 v := digit_eq _ rfl
          rw [if_pos hzero, if_neg hzero, toDigits_of_lt (by omega), hdigit]
          rfl

theorem length_toDigits (hlo : 10 ^ k ≤ n) (hhi : n < 10 ^ (k + 1)) :
    (toDigits n).length = k + 1 := by
  have hlt := ofDigits_lt (toDigits n)
  rw [ofDigits_toDigits] at hlt
  have hle : k < (toDigits n).length :=
    (Nat.pow_lt_pow_iff_right (by norm_num)).mp (hlo.trans_lt hlt)
  rcases canonical_toDigits n with hzero | ⟨d, rest, hcons, hd⟩
  · rw [hzero] at hle ⊢
    simp only [List.length_singleton] at hle ⊢
    omega
  · have hge := le_ofDigits_cons hd rest
    rw [← hcons, ofDigits_toDigits] at hge
    have : rest.length < k + 1 := (Nat.pow_lt_pow_iff_right (by norm_num)).mp (hge.trans_lt hhi)
    rw [hcons, List.length_cons] at hle ⊢
    omega

theorem drop_eq_cons (hk : k < z.length) : z.drop k = z.getD k 0 :: z.drop (k + 1) := by
  rw [List.getD_eq_getElem _ _ hk, List.drop_eq_getElem_cons hk]

theorem ofDigits_take_pos (hfirst : z.getD 0 0 ≠ 0) (hk : 1 ≤ k) (hz : 0 < z.length) :
    0 < ofDigits (z.take k) := by
  have hcons := drop_eq_cons hz
  have hk' : k = k - 1 + 1 := by omega
  rw [List.drop_zero] at hcons
  rw [hcons, hk', List.take_succ_cons]
  exact lt_of_lt_of_le (by positivity) (le_ofDigits_cons hfirst _)

/-! ## What the digits stand for -/

/-- `0.z * 10 ^ iDp`. -/
def decimalValue (z : List Digit) (iDp : Int) : ℚ := pointValue [] z iDp

theorem decimalValue_eq (z : List Digit) (iDp : Int) :
    decimalValue z iDp = ofDigits z * 10 ^ (iDp - z.length) := rfl

/-! ## Rounding -/

@[simp] theorem length_carryUp (z : List Digit) : (carryUp z).1.length = z.length := by
  induction z with
  | nil => rfl
  | cons d ds ih =>
      rw [carryUp]
      split_ifs <;> simp [ih]

theorem ofDigits_carryUp (z : List Digit) :
    ofDigits (carryUp z).1 + (if (carryUp z).2 then 10 ^ z.length else 0) = ofDigits z + 1 := by
  induction z with
  | nil => rfl
  | cons d ds ih =>
      rw [carryUp, ofDigits_cons]
      by_cases hcarry : (carryUp ds).2
      · rw [if_pos hcarry] at ih ⊢
        by_cases hnine : d = 9
        · have hval : ((9 : Digit) : Nat) = 9 := rfl
          rw [if_pos hnine, if_pos rfl, ofDigits_cons, hnine, hval, List.length_cons, pow_succ,
            Fin.val_zero]
          omega
        · have hsucc : ((d + 1 : Digit) : Nat) = d + 1 := by
            apply Fin.val_add_one_of_lt
            have hlt := d.isLt
            rw [Fin.lt_def]
            have hval : (d : Nat) ≠ 9 := fun heq => hnine (Fin.ext heq)
            have : ((Fin.last 9 : Digit) : Nat) = 9 := rfl
            omega
          rw [if_neg hnine, if_neg Bool.false_ne_true, ofDigits_cons, hsucc, length_carryUp,
            add_one_mul]
          omega
      · rw [if_neg hcarry] at ih
        rw [if_neg hcarry, if_neg Bool.false_ne_true, ofDigits_cons, length_carryUp]
        omega

theorem decimalValue_roundDigits (hk : k ≤ z.length) (iDp : Int) :
    decimalValue (roundDigits z k iDp).1 (roundDigits z k iDp).2 =
      (ofDigits (z.take k) + if 5 ≤ z.getD k 0 then 1 else 0 : Nat) * 10 ^ (iDp - k) := by
  have hlen : (z.take k).length = k := List.length_take_of_le hk
  rw [roundDigits]
  by_cases hup : 5 ≤ z.getD k 0
  · have hcarry := ofDigits_carryUp (z.take k)
    rw [if_pos hup, if_pos hup, ← hcarry]
    dsimp only
    by_cases hout : (carryUp (z.take k)).2
    · have hplace : iDp + 1 - ((carryUp (z.take k)).1.length + 1 : Nat) = iDp - k := by
        rw [length_carryUp, hlen]
        push_cast
        ring
      rw [if_pos hout, if_pos hout, decimalValue_eq, List.length_cons, hplace, ofDigits_cons,
        length_carryUp]
      push_cast
      simp only [Fin.val_one, Nat.cast_one]
      ring
    · rw [if_neg hout, if_neg hout, decimalValue_eq, length_carryUp, hlen, add_zero]
  · rw [if_neg hup, if_neg hup, decimalValue_eq, hlen, add_zero]

/-! ## What is left without zeros at the end -/

theorem decimalValue_rdropWhile (z : List Digit) (iDp : Int) :
    decimalValue (z.rdropWhile fun d => d = 0) iDp = decimalValue z iDp :=
  pointValue_rdropWhile [] z iDp

theorem rdropWhile_one_zeros (k : Nat) :
    (1 :: List.replicate k (0 : Digit)).rdropWhile (fun d => d = 0) = [1] := by
  induction k with
  | zero => rfl
  | succ k ih =>
      rw [List.replicate_succ', ← List.cons_append, List.rdropWhile_concat_pos _ _ _ (by simp), ih]

theorem carryUp_carries (h : (carryUp z).2 = true) : (carryUp z).1 = List.replicate z.length 0 := by
  induction z with
  | nil => rfl
  | cons d ds ih =>
      rw [carryUp] at h ⊢
      split_ifs at h ⊢ with hcarry hnine
      rw [ih hcarry]
      rfl

section

variable {z : List Digit} {k : Nat} (iDp : Int)

theorem roundDigits_place (z : List Digit) (k : Nat) :
    iDp ≤ (roundDigits z k iDp).2 ∧ (roundDigits z k iDp).2 ≤ iDp + 1 := by
  rw [roundDigits]
  dsimp only
  split_ifs <;> dsimp only <;> omega

theorem length_kept (hk : 1 ≤ k) (hk' : k ≤ z.length) :
    ((roundDigits z k iDp).1.rdropWhile fun d => d = 0).length ≤ k := by
  have hlen : (z.take k).length = k := List.length_take_of_le hk'
  rw [roundDigits]
  dsimp only
  split_ifs with hup hcarry
  · have hone : (1 :: (carryUp (z.take k)).1).rdropWhile (fun d => d = 0) = [1] := by
      rw [carryUp_carries hcarry, rdropWhile_one_zeros]
    rw [hone]
    exact hk
  · exact (List.rdropWhile_prefix _ _).length_le.trans (by rw [length_carryUp, hlen])
  · exact (List.rdropWhile_prefix _ _).length_le.trans hlen.le

theorem kept_ne_nil (hk : 1 ≤ k) (hk' : k ≤ z.length) (hfirst : z.getD 0 0 ≠ 0) :
    ((roundDigits z k iDp).1.rdropWhile fun d => d = 0) ≠ [] := fun hnil => by
  have hvalue := decimalValue_roundDigits hk' iDp
  rw [← decimalValue_rdropWhile, hnil] at hvalue
  have hpos := ofDigits_take_pos hfirst hk (by omega)
  have hright : (0 : ℚ) <
      (ofDigits (z.take k) + if 5 ≤ z.getD k 0 then 1 else 0 : Nat) * 10 ^ (iDp - k) := by
    apply mul_pos _ (by positivity)
    exact_mod_cast Nat.add_pos_left hpos _
  rw [← hvalue, decimalValue_eq] at hright
  simp at hright

end

end Rustqlite.Util
