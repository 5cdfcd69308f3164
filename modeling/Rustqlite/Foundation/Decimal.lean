import Rustqlite.Foundation.Double

/-!
# Decimal numbers

A number written with decimal digits, and the double that is nearest to it.
-/

namespace Rustqlite.Foundation

instance neZero_ten : NeZero (10 : Nat) := ⟨by decide⟩

abbrev Digit := Fin 10

def ofDigits (ds : List Digit) : Nat := ds.foldl (fun (n : Nat) (d : Digit) => 10 * n + d) 0

/-- The digits of a number, without a leading zero but for zero itself. -/
def toDigits (n : Nat) : List Digit :=
  if h : n < 10 then [⟨n, h⟩] else toDigits (n / 10) ++ [⟨n % 10, Nat.mod_lt n (by norm_num)⟩]

theorem toDigits_of_lt {n : Nat} (h : n < 10) : toDigits n = [⟨n, h⟩] := by
  rw [toDigits, dif_pos h]

theorem toDigits_of_le {n : Nat} (h : 10 ≤ n) :
    toDigits n = toDigits (n / 10) ++ [⟨n % 10, Nat.mod_lt n (by norm_num)⟩] := by
  rw [toDigits, dif_neg (by omega)]

@[simp] theorem ofDigits_toDigits (n : Nat) : ofDigits (toDigits n) = n := by
  induction n using Nat.strong_induction_on with
  | _ n ih =>
      by_cases h : n < 10
      · rw [toDigits_of_lt h]
        simp [ofDigits]
      · have hrest := ih (n / 10) (by omega)
        rw [toDigits_of_le (by omega)]
        simp only [ofDigits, List.foldl_append, List.foldl_cons, List.foldl_nil] at hrest ⊢
        rw [hrest]
        omega

def Canonical (ds : List Digit) : Prop := ds = [0] ∨ ∃ d rest, ds = d :: rest ∧ d ≠ 0

theorem canonical_toDigits (n : Nat) : Canonical (toDigits n) := by
  induction n using Nat.strong_induction_on with
  | _ n ih =>
      by_cases h : n < 10
      · rw [toDigits_of_lt h]
        by_cases hzero : n = 0
        · subst hzero
          exact .inl rfl
        · exact .inr ⟨⟨n, h⟩, [], rfl, fun heq => hzero (congrArg Fin.val heq)⟩
      · rw [toDigits_of_le (by omega)]
        obtain hzero | ⟨d, rest, hrest, hd⟩ := ih (n / 10) (by omega)
        · have hval := congrArg ofDigits hzero
          rw [ofDigits_toDigits] at hval
          have : n / 10 = 0 := hval
          omega
        · exact .inr ⟨d, rest ++ _, by rw [hrest]; rfl, hd⟩

namespace Double

/-- The quotient rounded to the nearest whole number, and to the even one of two. -/
def roundDiv (n d : Nat) : Nat :=
  n / d + if d < 2 * (n % d) ∨ d = 2 * (n % d) ∧ n / d % 2 = 1 then 1 else 0

def infinity : Nat := 2047 * 2 ^ 52

/-- The bits nearest to `n / d` times the least positive double. -/
def quotientBits (n d : Nat) : Nat :=
  if n / d < 2 ^ 53 then roundDiv n d
  else
    let k := (n / d).log2 - 52
    min (k * 2 ^ 52 + roundDiv n (d * 2 ^ k)) infinity

/-- The double nearest to `m * 10 ^ e`. -/
def ofDecimal (negative : Bool) (m : Nat) (e : Int) : UInt64 :=
  UInt64.ofNat (quotientBits (m * 10 ^ e.toNat * one) (10 ^ (-e).toNat) +
    if negative then 2 ^ 63 else 0)

end Double

/-!
## Decimal numbers as text

Lists of digits as numbers, and the number that a text spells: a sign, digits
with a point among them, and an exponent.
-/

/-! ## Lists of digits -/

@[simp] theorem ofDigits_nil : ofDigits [] = 0 := rfl

theorem foldl_digits (ds : List Digit) (n : Nat) :
    ds.foldl (fun (n : Nat) (d : Digit) => 10 * n + d) n = n * 10 ^ ds.length + ofDigits ds := by
  induction ds generalizing n with
  | nil => simp
  | cons d ds ih =>
      rw [ofDigits, List.foldl_cons, List.foldl_cons, ih, ih (10 * 0 + (d : Nat)), List.length_cons,
        pow_succ]
      ring

theorem ofDigits_append (xs ys : List Digit) :
    ofDigits (xs ++ ys) = ofDigits xs * 10 ^ ys.length + ofDigits ys := by
  rw [ofDigits, List.foldl_append, foldl_digits]
  rfl

theorem ofDigits_singleton (d : Digit) : ofDigits [d] = d := by simp [ofDigits]

theorem ofDigits_cons (d : Digit) (ds : List Digit) :
    ofDigits (d :: ds) = d * 10 ^ ds.length + ofDigits ds := by
  have happend := ofDigits_append [d] ds
  rwa [ofDigits_singleton, List.singleton_append] at happend

theorem ofDigits_concat (ds : List Digit) (d : Digit) :
    ofDigits (ds ++ [d]) = 10 * ofDigits ds + d := by
  rw [ofDigits_append, ofDigits_singleton, List.length_singleton, pow_one, mul_comm]

@[simp] theorem ofDigits_zeros (k : Nat) : ofDigits (List.replicate k 0) = 0 := by
  induction k with
  | zero => rfl
  | succ k ih => rw [List.replicate_succ, ofDigits_cons, ih]; simp

theorem ofDigits_lt (ds : List Digit) : ofDigits ds < 10 ^ ds.length := by
  induction ds with
  | nil => simp
  | cons d ds ih =>
      have hd := d.isLt
      rw [ofDigits_cons, List.length_cons, pow_succ]
      nlinarith

theorem le_ofDigits_cons {d : Digit} (hd : d ≠ 0) (ds : List Digit) :
    10 ^ ds.length ≤ ofDigits (d :: ds) := by
  have hpos : 1 ≤ (d : Nat) := Nat.one_le_iff_ne_zero.mpr (Fin.val_ne_zero_iff.mpr hd)
  rw [ofDigits_cons]
  nlinarith [Nat.one_le_pow ds.length 10 (by norm_num)]

/-! ## What a text spells -/

def digitChar (d : Digit) : Char := Char.ofNat ('0'.toNat + d)

def charDigit? (c : Char) : Option Digit :=
  if '0'.toNat ≤ c.toNat ∧ c.toNat ≤ '9'.toNat then some (Fin.ofNat 10 (c.toNat - '0'.toNat))
  else none

def splitDigits : List Char → List Digit × List Char
  | [] => ([], [])
  | c :: rest =>
      match charDigit? c with
      | some d => (d :: (splitDigits rest).1, (splitDigits rest).2)
      | none => ([], c :: rest)

/-- The number with these digits before the point and after it, times a power of ten. -/
def pointValue (whole frac : List Digit) (x : Int) : ℚ :=
  ofDigits (whole ++ frac) * (10 : ℚ) ^ (x - frac.length)

/-- The number that digits alone spell, and there is one of them at least. -/
def allDigits (text : List Char) : Option Nat :=
  if (splitDigits text).1 ≠ [] ∧ (splitDigits text).2 = [] then some (ofDigits (splitDigits text).1)
  else none

theorem charDigit?_digitChar (d : Digit) : charDigit? (digitChar d) = some d := by
  revert d
  decide

theorem digitChar_ne_point (d : Digit) : digitChar d ≠ '.' := by
  revert d
  decide

theorem digitChar_ne_minus (d : Digit) : digitChar d ≠ '-' := by
  revert d
  decide

theorem digitChar_eq (d : Digit) : Nat.digitChar d = digitChar d := by
  revert d
  decide

theorem toDigits_eq_map (n : Nat) : Nat.toDigits 10 n = (toDigits n).map digitChar := by
  induction n using Nat.strong_induction_on with
  | _ n ih =>
      by_cases h : n < 10
      · rw [Nat.toDigits_of_lt_base h, toDigits_of_lt h]
        exact congrArg (fun c => [c]) (digitChar_eq ⟨n, h⟩)
      · rw [Nat.toDigits_of_base_le (by norm_num) (by omega), ih (n / 10) (by omega),
          toDigits_of_le (n := n) (by omega), List.map_append]
        exact congrArg (fun c => _ ++ [c]) (digitChar_eq ⟨n % 10, Nat.mod_lt n (by norm_num)⟩)

theorem isDigit_digitChar (d : Digit) : (digitChar d).isDigit = true := by
  revert d
  decide

theorem digitChar_ne_of_not_isDigit {c : Char} (hc : c.isDigit = false) (d : Digit) :
    digitChar d ≠ c := by
  rintro rfl
  rw [isDigit_digitChar] at hc
  cases hc

theorem takeWhile_digits (ds : List Digit) :
    (ds.map digitChar).takeWhile Char.isDigit = ds.map digitChar ∧
      (ds.map digitChar).dropWhile Char.isDigit = [] := by
  have hall : ∀ c ∈ ds.map digitChar, c.isDigit = true := by
    intro c hc
    obtain ⟨d, -, rfl⟩ := List.mem_map.mp hc
    exact isDigit_digitChar d
  exact ⟨List.takeWhile_eq_self_iff.mpr hall, List.dropWhile_eq_nil_iff.mpr hall⟩

theorem toDigits_ne_nil (n : Nat) : toDigits n ≠ [] := by
  intro h
  obtain hzero | ⟨d, rest, hcons, -⟩ := canonical_toDigits n
  · rw [h] at hzero
    cases hzero
  · rw [h] at hcons
    cases hcons

theorem splitDigits_append (ds : List Digit) {rest : List Char}
    (hrest : splitDigits rest = ([], rest)) :
    splitDigits (ds.map digitChar ++ rest) = (ds, rest) := by
  induction ds with
  | nil => exact hrest
  | cons d ds ih =>
      rw [List.map_cons, List.cons_append, splitDigits, charDigit?_digitChar]
      simp only [ih]

theorem splitDigits_nil : splitDigits [] = ([], []) := rfl

theorem allDigits_map {ds : List Digit} (hds : ds ≠ []) :
    allDigits (ds.map digitChar) = some (ofDigits ds) := by
  have hsplit := splitDigits_append ds splitDigits_nil
  rw [List.append_nil] at hsplit
  rw [allDigits, hsplit, if_pos ⟨hds, rfl⟩]

theorem pointValue_concat_zero (whole frac : List Digit) (x : Int) :
    pointValue whole (frac ++ [0]) x = pointValue whole frac x := by
  have hpow : (10 : ℚ) ^ (x - frac.length) = 10 * 10 ^ (x - (frac.length + 1)) := by
    rw [← zpow_one_add₀ (by norm_num)]
    congr 1
    ring
  rw [pointValue, pointValue, ← List.append_assoc, ofDigits_concat, List.length_append,
    List.length_singleton, hpow]
  push_cast
  simp only [Fin.val_zero, Nat.cast_zero, add_zero]
  ring

theorem pointValue_rdropWhile (whole frac : List Digit) (x : Int) :
    pointValue whole (frac.rdropWhile fun d => d = 0) x = pointValue whole frac x := by
  induction frac using List.reverseRecOn with
  | nil => rfl
  | append_singleton ds d ih =>
      by_cases hd : d = 0
      · rw [List.rdropWhile_concat_pos _ _ _ (by simpa using hd), ih, hd, pointValue_concat_zero]
      · rw [List.rdropWhile_concat_neg _ _ _ (by simpa using hd)]

end Rustqlite.Foundation
