import Rustqlite.Func.DateTime
import Rustqlite.Func.DateModifiers

/-!
# Adding months

A date that is written as text, months that are added to it, and the correction
by which `floor` brings a day that the month does not have back to its last one.
-/

namespace Rustqlite.Func.Time

open Foundation Util

/-! ## Numbers of a fixed width -/

variable {n w : Nat} {c : Char} {D : Date} {m y d : Int} {p q : DateTime ℚ} {neg : Bool}

theorem length_toDigits_le (hw : 0 < w) (h : n < 10 ^ w) : (toDigits n).length ≤ w := by
  obtain hzero | ⟨d, rest, hcons, hd⟩ := canonical_toDigits n
  · rw [hzero]
    exact hw
  · have hle := le_ofDigits_cons hd rest
    rw [← hcons, ofDigits_toDigits] at hle
    have hlt := (Nat.pow_lt_pow_iff_right (by norm_num)).mp (hle.trans_lt h)
    rw [hcons, List.length_cons]
    omega

def widthDigits (w n : Nat) : List Digit :=
  List.replicate (w - (toDigits n).length) 0 ++ toDigits n

theorem padded_natCast (w n : Nat) : padded w n = (widthDigits w n).map digitChar := by
  have hneg : ¬(n : Int) < 0 := by omega
  simp only [padded, if_neg hneg, widthDigits, List.map_append, List.map_replicate,
    List.length_map, Int.natAbs_natCast]
  rfl

theorem length_widthDigits (hw : 0 < w) (h : n < 10 ^ w) : (widthDigits w n).length = w := by
  have := length_toDigits_le hw h
  rw [widthDigits, List.length_append, List.length_replicate]
  omega

theorem ofDigits_widthDigits (w n : Nat) : ofDigits (widthDigits w n) = n := by
  rw [widthDigits, ofDigits_append, ofDigits_zeros, ofDigits_toDigits]
  omega

section

variable {g : DigitGroup} {n : Nat} {rest : List Char}

theorem splitDigits_padded (w n : Nat) : splitDigits (padded w n) = (widthDigits w n, []) := by
  have h := splitDigits_append (widthDigits w n) splitDigits_nil
  rwa [List.append_nil, ← padded_natCast] at h

theorem length_padded (hw : 0 < w) (hn : n < 10 ^ w) : (padded w n).length = w := by
  rw [padded_natCast, List.length_map, length_widthDigits hw hn]

structure DigitGroup.Reads (g : DigitGroup) (n : Nat) : Prop where
  pos : 0 < g.digits
  lt : n < 10 ^ g.digits
  least : g.least ≤ n
  most : (n : Int) ≤ g.most

theorem DigitGroup.Reads.front (h : g.Reads n) (rest : List Char) :
    (padded g.digits n ++ rest).take g.digits = padded g.digits n ∧
      (padded g.digits n ++ rest).drop g.digits = rest := by
  have hlen := length_padded h.pos h.lt
  exact ⟨List.take_left' hlen, List.drop_left' hlen⟩

theorem DigitGroup.Reads.accepts (h : g.Reads n) :
    ¬((padded g.digits n).length < g.digits ∨ (splitDigits (padded g.digits n)).2 ≠ [] ∨
      (ofDigits (splitDigits (padded g.digits n)).1 : Int) < g.least ∨
        g.most < (ofDigits (splitDigits (padded g.digits n)).1 : Int)) := by
  have hleast := h.least
  have hmost := h.most
  rw [length_padded h.pos h.lt, splitDigits_padded, ofDigits_widthDigits]
  simp only [ne_eq, not_true, false_or]
  omega

theorem getDigits_next (h : g.Reads n) (hnext : g.next = some c) (groups : List DigitGroup)
    (rest : List Char) :
    getDigits (g :: groups) (padded g.digits n ++ c :: rest) =
      ((n : Int) :: (getDigits groups rest).1, (getDigits groups rest).2) := by
  rw [getDigits, (h.front (c :: rest)).1, (h.front (c :: rest)).2, if_neg h.accepts, hnext,
    splitDigits_padded, ofDigits_widthDigits]
  simp

theorem getDigits_last (h : g.Reads n) (hnext : g.next = none) (groups : List DigitGroup)
    (rest : List Char) :
    getDigits (g :: groups) (padded g.digits n ++ rest) = ([(n : Int)], rest) := by
  rw [getDigits, (h.front rest).1, (h.front rest).2, if_neg h.accepts, hnext, splitDigits_padded,
    ofDigits_widthDigits]

end

/-! ## A date as text -/

def spell (D : Date) : List Char :=
  padded 4 D.year ++ '-' :: (padded 2 D.month ++ '-' :: padded 2 D.day)

structure FourDigits (D : Date) : Prop where
  nonneg : 0 ≤ D.year
  le : D.year ≤ 9999

theorem getDigits_spell (h : FourDigits D) (rest : List Char) :
    getDigits dateFormat (spell D ++ rest) = ([D.year, D.month, D.day], rest) := by
  obtain ⟨hyear, hyear'⟩ := h
  have hmonth := D.month_pos
  have hmonth' := D.month_le
  have hday := D.day_pos
  have hday' := D.day_le.trans (monthLength_le D.year D.month)
  obtain ⟨y, hy⟩ := Int.eq_ofNat_of_zero_le hyear
  obtain ⟨m, hm⟩ := Int.eq_ofNat_of_zero_le (hmonth.trans' (by norm_num))
  obtain ⟨d, hd⟩ := Int.eq_ofNat_of_zero_le (hday.trans' (by norm_num))
  rw [spell, hy, hm, hd, dateFormat, List.append_assoc, List.cons_append, List.append_assoc,
    List.cons_append]
  have hyearReads : DigitGroup.Reads ⟨4, 0, 9999, some '-'⟩ y :=
    ⟨by norm_num, by norm_num; omega, by simp, by simp; omega⟩
  have hmonthReads : DigitGroup.Reads ⟨2, 1, 12, some '-'⟩ m :=
    ⟨by norm_num, by norm_num; omega, by simp; omega, by simp; omega⟩
  have hdayReads : DigitGroup.Reads ⟨2, 1, 31, none⟩ d :=
    ⟨by norm_num, by norm_num; omega, by simp; omega, by simp; omega⟩
  rw [getDigits_next hyearReads rfl, getDigits_next hmonthReads rfl, getDigits_last hdayReads rfl]

theorem head?_padded (hw : 0 < w) (hn : n < 10 ^ w) (rest : List Char) :
    (padded w n ++ rest).head? ≠ some '-' := by
  have hlen := length_widthDigits hw hn
  rw [padded_natCast]
  cases hds : widthDigits w n with
  | nil =>
      rw [hds] at hlen
      exact absurd hlen hw.ne
  | cons d ds =>
      simp only [List.map_cons, List.cons_append, List.head?_cons, ne_eq, Option.some.injEq]
      exact digitChar_ne_minus d

theorem head?_spell (h : FourDigits D) (rest : List Char) : (spell D ++ rest).head? ≠ some '-' := by
  obtain ⟨hyear, hyear'⟩ := h
  obtain ⟨y, hy⟩ := Int.eq_ofNat_of_zero_le hyear
  rw [spell, hy, List.append_assoc]
  exact head?_padded (by norm_num) (by norm_num; omega) _

theorem tmod_eq_zero_iff (y k : Int) : y.tmod k = 0 ↔ y % k = 0 := by
  rw [← Int.dvd_iff_tmod_eq_zero, Int.dvd_iff_emod_eq_zero]

theorem testBit_iff (hm : 1 ≤ m) (hm' : m ≤ 12) : Nat.testBit 0x15aa m.toNat = true ↔
    m ≠ 2 ∧ ¬(m = 4 ∨ m = 6 ∨ m = 9 ∨ m = 11) := by
  interval_cases m <;> decide

theorem overflowDays_eq (hm : 1 ≤ m) (hm' : m ≤ 12) (hd : d ≤ 31) :
    overflowDays y m d = max 0 (d - monthLength y m) := by
  have hleap := isLeap_iff y
  simp only [overflowDays, monthLength, tmod_eq_zero_iff, testBit_iff hm hm', ne_eq]
  split_ifs <;> simp_all <;> omega

theorem overflowDays_date (D : Date) : overflowDays D.year D.month D.day = 0 := by
  have hle := D.day_le
  rw [overflowDays_eq D.month_pos D.month_le (hle.trans (monthLength_le _ _))]
  omega

theorem computeFloor_ok (hymd : p.validYmd = true) (hd : 0 ≤ p.d) (hd' : p.d ≤ 31) (hm : 0 ≤ p.m)
    (hm' : p.m ≤ 12) : computeFloor p = .ok { p with nFloor := overflowDays p.y p.m p.d } := by
  simp only [computeFloor, hymd, hd, hd', hm, hm', debugAssert, Bool.true_or, decide_true,
    Bool.and_self, if_true, Result.ok_bind]
  rfl

theorem computeFloor_ofDate (D : Date) : computeFloor (ofDate D) = .ok (ofDate D) := by
  have hmonth := D.month_pos
  have hday := D.day_pos
  have hday' := D.day_le.trans (monthLength_le D.year D.month)
  have hfloor := computeFloor_ok (p := ofDate D) rfl (hday.trans' (by norm_num)) hday'
    (hmonth.trans' (by norm_num)) D.month_le
  have hzero : overflowDays (ofDate D).y (ofDate D).m (ofDate D).d = 0 := overflowDays_date D
  rw [hfloor, hzero]
  rfl

theorem parse_spell (h : FourDigits D) :
    parseYyyyMmDd (spell D) (DateTime.new : DateTime ℚ) = .ok (ofDate D) := by
  have hdigits := getDigits_spell h []
  have hhead := head?_spell h []
  rw [List.append_nil] at hdigits hhead
  simp only [parseYyyyMmDd, hhead, decide_false, Bool.false_eq_true, if_false, hdigits,
    List.dropWhile_nil]
  change (computeFloor (ofDate D) >>= fun p => if p.tz ≠ 0 then computeJd p else pure p) = _
  rw [computeFloor_ofDate, Result.ok_bind]
  rfl

/-! ## A number of units -/

/-- `+` or `-`, the digits of a number, and what follows them. -/
def signed (neg : Bool) (n : Nat) (unit : List Char) : List Char :=
  (if neg then '-' else '+') :: ((toDigits n).map digitChar ++ unit)

def signedValue (neg : Bool) (n : Nat) : Int := if neg then -n else n

theorem digitCount_map (ds : List Digit) : digitCount (ds.map digitChar) = ds.length := by
  have hsplit := splitDigits_append ds splitDigits_nil
  rw [List.append_nil] at hsplit
  rw [digitCount, hsplit]

theorem parseI64_signed {neg : Bool} {n : Nat} (hn : n < 2 ^ 63) :
    parseI64 (signed neg n []) = some (Int64.ofInt (signedValue neg n)) := by
  have hall : allDigits ((toDigits n).map digitChar) = some n := by
    rw [allDigits_map (toDigits_ne_nil n), ofDigits_toDigits]
  cases neg with
  | false =>
      simp only [signed, Bool.false_eq_true, if_false, List.append_nil, parseI64, hall, signedValue]
      simp only [Option.filter_some, hn, decide_true, if_true, Option.map_some]
      rfl
  | true =>
      simp only [signed, if_true, List.append_nil, parseI64, hall, signedValue]
      simp only [Option.filter_some, hn.le, decide_true, if_true, Option.map_some]

theorem numericPrefix_signed {neg : Bool} {n : Nat} (hn : n < 2 ^ 63) :
    (numericPrefix (signed neg n [])).1 = some (.int (Int64.ofInt (signedValue neg n))) := by
  have hvalue := @parseI64_signed neg n hn
  have hstart : (signed neg n []).dropWhile isAsciiWhitespace = signed neg n [] := by
    cases neg <;> rfl
  have hsign : signLength (signed neg n []) = 1 := by cases neg <;> rfl
  have hdrop : (signed neg n []).drop 1 = (toDigits n).map digitChar := by
    simp [signed]
  have hlen : (signed neg n []).length = 1 + (toDigits n).length := by
    simp [signed, Nat.add_comm]
  have hpos : 0 < (toDigits n).length := List.length_pos_of_ne_nil (toDigits_ne_nil n)
  have hend : (signed neg n []).drop (1 + (toDigits n).length) = [] := by
    rw [← hlen, List.drop_length]
  have htake : (signed neg n []).take (1 + (toDigits n).length) = signed neg n [] := by
    rw [← hlen, List.take_length]
  have hguard : ¬(1 + (toDigits n).length = 1 ∧
      1 + (toDigits n).length ≤ 1 + (toDigits n).length + 1) := by omega
  simp only [numericPrefix, hstart, hsign, hdrop, digitCount_map, hend, fractionLength,
    exponentLength, Nat.add_zero, if_neg hguard, htake, if_true, hvalue]

theorem endsNumber_digitChar (d : Digit) : endsNumber (digitChar d) = false := by
  revert d
  decide

theorem parseNumericModifier_signed (hn : n < 2 ^ 63) (unit : List Char) (p : DateTime ℚ) :
    parseNumericModifier (signed neg n (' ' :: unit)) p =
      unitModifier (signedValue neg n : ℚ) (' ' :: unit) p := by
  have hall : ∀ c ∈ (toDigits n).map digitChar, (!endsNumber c) = true := by
    intro c hc
    obtain ⟨d, -, rfl⟩ := List.mem_map.mp hc
    rw [endsNumber_digitChar]
    rfl
  have hfront : ((toDigits n).map digitChar ++ ' ' :: unit).takeWhile (fun c => !endsNumber c) =
      (toDigits n).map digitChar := by
    rw [List.takeWhile_append_of_pos hall, List.takeWhile_cons_of_neg (by decide), List.append_nil]
  have hafter : ((toDigits n).map digitChar ++ ' ' :: unit).dropWhile (fun c => !endsNumber c) =
      ' ' :: unit := by
    rw [List.dropWhile_append_of_pos hall, List.dropWhile_cons_of_neg (by decide)]
  have hprefix := @numericPrefix_signed neg n hn
  rw [signed, List.append_nil] at hprefix
  have hvalue : (asF64 (.int (Int64.ofInt (signedValue neg n))) : ℚ) = signedValue neg n := by
    change ((Int64.ofInt (signedValue neg n)).toInt : ℚ) = _
    rw [Int64.toInt_ofInt_of_le] <;> (unfold signedValue; split <;> omega)
  have hdash : (some ' ' = some '-') = False := by decide
  have hcolon : (some ' ' = some ':') = False := by decide
  rw [signed, parseNumericModifier]
  simp only [hfront, hafter, List.head?_cons, hdash, hcolon, if_false, hprefix, hvalue]

theorem trim_of_ends {d : Char} (hc : isWhitespace c = false) (hd : isWhitespace d = false)
    (s : List Char) : trim (c :: (s ++ [d])) = c :: (s ++ [d]) := by
  have hstart : trimStart (c :: (s ++ [d])) = c :: (s ++ [d]) :=
    List.dropWhile_cons_of_neg (by simp [hc])
  rw [trim, hstart, ← List.cons_append, List.rdropWhile_concat_neg _ _ _ (by simp [hd])]

theorem parseModifier_signed (hn : n < 2 ^ 63) {unit : List Char} {d : Char}
    (hd : isWhitespace d = false) (p : DateTime ℚ) (idx : Nat) :
    parseModifier (signed neg n (' ' :: (unit ++ [d]))) p idx =
      unitModifier (signedValue neg n : ℚ) (' ' :: (unit ++ [d])) p := by
  have htrim : trim (signed neg n (' ' :: (unit ++ [d]))) =
      signed neg n (' ' :: (unit ++ [d])) := by
    have hassoc : signed neg n (' ' :: (unit ++ [d])) = (if neg then '-' else '+') ::
        (((toDigits n).map digitChar ++ ' ' :: unit) ++ [d]) := by
      simp [signed]
    rw [hassoc]
    exact trim_of_ends (by cases neg <;> rfl) hd _
  rw [← parseNumericModifier_signed hn, parseModifier, htrim]
  cases neg <;> rfl

/-! ## Months -/

theorem toI32_intCast {n : Int} (h : -2147483648 ≤ n) (h' : n < 2147483648) :
    toI32 (n : ℚ) = n := by
  change clamp 32 ((n : ℚ).num.tdiv ((n : ℚ).den : Int)) = n
  rw [Rat.num_intCast, Rat.den_intCast, Nat.cast_one, Int.tdiv_one]
  norm_num [clamp]
  omega

theorem toI64_half : toI64 (0.5 : ℚ) = 0 ∧ toI64 (-0.5 : ℚ) = 0 := by decide +kernel

theorem matches_month {n : Int} (h : -176546 < n) (h' : n < 176546) :
    (clockForms.find? fun xf => xf.matches "month".toList (n : ℚ)) = none ∧
      monthForm.matches "month".toList (n : ℚ) = true := by
  have hlow : lt (lit (-176546)) (n : ℚ) = true := by
    change decide ((-176546 : ℚ) < n) = true
    exact decide_eq_true (by exact_mod_cast h)
  have hhigh : lt (n : ℚ) (lit 176546) = true := by
    change decide ((n : ℚ) < 176546) = true
    exact decide_eq_true (by exact_mod_cast h')
  constructor
  · rfl
  · have hunit : (byteLength "month".toList = "month".length ∧
        eqIgnoreCase "month".toList "month" = true) := by decide
    simp only [Xform.matches, monthForm, hunit, hlow, hhigh, decide_true, Bool.and_self]

theorem unitModifier_months {n : Int} (h : -176546 < n) (h' : n < 176546) (p : DateTime ℚ) :
    unitModifier (n : ℚ) " months".toList p =
      computeJd p >>= fun p => addMonths (n : ℚ) { p with nFloor := 0 } := by
  have hmonth := matches_month h h'
  have hskip : skipWs " months".toList = "months".toList := by decide
  have hlen : ¬(byteLength "months".toList < 3 ∨ 10 < byteLength "months".toList) := by decide
  have hplural : (if "months".toList.getLast? = some 's' then "months".toList.dropLast
      else "months".toList) = "month".toList := by decide
  simp only [unitModifier, hskip, if_neg hlen, hplural, hmonth.1, hmonth.2, if_true]

theorem normalizeMonth_exact (hm : -1000000 ≤ p.m) (hm' : p.m ≤ 1000000) (hy : -1000000 ≤ p.y)
    (hy' : p.y ≤ 1000000) :
    normalizeMonth p = .ok { p with y := p.y + (p.m - 1) / 12, m := (p.m - 1) % 12 + 1 } := by
  have hx : (p.m - (if 0 < p.m then 1 else 12)).tdiv 12 = (p.m - 1) / 12 := by
    split
    · exact Int.tdiv_eq_ediv_of_nonneg (by omega)
    · have hneg : p.m - 12 = -(12 - p.m) := by ring
      rw [hneg, Int.neg_tdiv, Int.tdiv_eq_ediv_of_nonneg (by omega)]
      omega
  have hsub : subI32 p.m (if 0 < p.m then 1 else 12) = .ok (p.m - if 0 < p.m then 1 else 12) := by
    split <;> exact subI32_ok (by omega) (by omega)
  have hback : p.m - (p.m - 1) / 12 * 12 = (p.m - 1) % 12 + 1 := by omega
  simp only [normalizeMonth, hsub, Result.ok_bind, hx]
  rw [addI32_ok (by omega) (by omega), mulI32_ok (by omega) (by omega), Result.ok_bind,
    Result.ok_bind, subI32_ok (by omega) (by omega), hback]
  rfl

def midnight (k : Int) : Int := k * msPerDay - 43200000

def dated (D : Date) : DateTime ℚ :=
  { ofDate D with iJd := midnight D.number, validJd := true }

def clocked (D : Date) : DateTime ℚ :=
  { dated D with s := ofInt 0 / lit 1000, validHms := true }

theorem computeYmdHms_dated (h : InCalendar D) : computeYmdHms (dated D) = .ok (clocked D) := by
  have hnumber := h.number
  have hms : addI64 (dated D).iJd 43200000 = .ok (D.number * msPerDay) := by
    have hsum : (dated D).iJd + 43200000 = D.number * msPerDay := Int.sub_add_cancel _ _
    rw [← hsum]
    apply addI64_ok <;> (rw [hsum, msPerDay]; omega)
  have hymd : computeYmd (dated D) = .ok (dated D) := rfl
  have hjd : computeJd (dated D) = .ok (dated D) := rfl
  have hnot : (dated D).validHms = false := rfl
  rw [computeYmdHms, hymd, Result.ok_bind, computeHms, hnot, hjd]
  simp only [Bool.false_eq_true, if_false, Result.ok_bind, hms, Int.mul_tmod_left]
  rfl

theorem addClock_midnight (hh : p.h = 0) (hmin : p.min = 0) (hs : p.s = ofInt 0 / lit 1000)
    (htz : p.tz = 0) (hlow : -1000000000000000 ≤ p.iJd) (hhigh : p.iJd ≤ 1000000000000000) :
    addClock p = .ok p := by
  have hsum : addI64 p.iJd 0 = .ok p.iJd := by
    rw [addI64_ok (by omega) (by omega), Int.add_zero]
  have hzero : toI64 (p.s * lit 1000 + lit 0.5 : ℚ) = 0 := by
    rw [hs]
    decide +kernel
  have hhours : mulI64 p.h 3600000 = .ok 0 := by rw [hh]; rfl
  have hminutes : mulI64 p.min 60000 = .ok 0 := by rw [hmin]; rfl
  have hnone : addI64 0 0 = .ok 0 := rfl
  unfold addClock
  split
  · simp only [hhours, hminutes, hnone, hzero, hsum, Result.ok_bind, htz, ne_eq, not_true, if_false]
    rw [← htz]
    rfl
  · rfl

theorem dayNumber_bounds (hy : -4713 ≤ y) (hy' : y ≤ 9999) (hm : 1 ≤ m) (hm' : m ≤ 12) (hd : 0 ≤ d)
    (hd' : d ≤ 31) : -1000 ≤ dayNumber y m d ∧ dayNumber y m d ≤ 5400000 := by
  interval_cases m <;> norm_num [dayNumber, marchYear, marchMonth, daysBefore] <;> omega

theorem remainder_whole {n : Int} (hn : -2147483648 ≤ n) (hn' : n < 2147483648) :
    xformMs monthForm ((n : ℚ) - ofInt (toI32 (n : ℚ))) (rounder (n : ℚ)) = 0 := by
  have hzero : (n : ℚ) - ofInt (toI32 (n : ℚ)) = 0 := by
    rw [toI32_intCast hn hn']
    exact sub_self _
  have hround : ∀ q : ℚ, xformMs monthForm 0 q = toI64 q := by
    intro q
    change toI64 ((0 : ℚ) * 1000 * 2592000 + q) = toI64 q
    rw [zero_mul, zero_mul, zero_add]
  rw [hzero, hround, rounder]
  split
  · exact toI64_half.2
  · exact toI64_half.1

theorem addRemainder_midnight {n : Int} (hymd : p.validYmd = true) (hraw : p.rawS = false)
    (hh : p.h = 0) (hmin : p.min = 0) (hs : p.s = ofInt 0 / lit 1000) (htz : p.tz = 0)
    (hy : -4713 ≤ p.y) (hy' : p.y ≤ 9999) (hm : 1 ≤ p.m) (hm' : p.m ≤ 12) (hd : 0 ≤ p.d)
    (hd' : p.d ≤ 31) (hn : -2147483648 ≤ n) (hn' : n < 2147483648) :
    addRemainder monthForm (n : ℚ) p =
      .ok (clearYmdHmsTz { p with
        iJd := midnight (dayNumber p.y p.m p.d), validJd := true,
        nFloor := overflowDays p.y p.m p.d }) := by
  have hbounds := dayNumber_bounds hy hy' hm hm' hd hd'
  have hday : -1000000000000000 ≤ midnight (dayNumber p.y p.m p.d) ∧
      midnight (dayNumber p.y p.m p.d) ≤ 1000000000000000 := by
    simp only [midnight, msPerDay]
    omega
  have hclock := addClock_midnight (p := { p with
    iJd := midnight (dayNumber p.y p.m p.d), validJd := true, validYmd := true, rawS := false,
    nFloor := overflowDays p.y p.m p.d }) hh hmin hs htz hday.1 hday.2
  have hsum : addI64 (midnight (dayNumber p.y p.m p.d)) 0 =
      .ok (midnight (dayNumber p.y p.m p.d)) := by
    rw [addI64_ok (by omega) (by omega), Int.add_zero]
  have hrange : ¬(p.y < -4713 ∨ 9999 < p.y) := by omega
  have hjulian : julianDay ℚ p.y p.m p.d = .ok (midnight (dayNumber p.y p.m p.d)) :=
    julianDay_exact hy hy' hm hm' hd hd'
  simp only [addRemainder, computeFloor_ok hymd hd hd' (hm.trans' (by norm_num)) hm',
    Result.ok_bind, computeJd, hymd, hraw, Bool.false_eq_true, if_false, if_true, or_false,
    if_neg hrange, hjulian, hclock, remainder_whole hn hn', hsum]
  rfl

theorem addMonths_dated (h : InCalendar D) {n : Int} (hn : -176546 < n) (hn' : n < 176546)
    (hy : -4713 ≤ shiftedYear D.year D.month n) (hy' : shiftedYear D.year D.month n ≤ 9999) :
    ∃ q, addMonths (n : ℚ) (dated D) = .ok q ∧ q.validJd = true ∧ q.validYmd = false ∧
      q.isError = false ∧
      q.iJd = midnight (dayNumber (shiftedYear D.year D.month n) (shiftedMonth D.month n) D.day) ∧
      q.nFloor = overflowDays (shiftedYear D.year D.month n) (shiftedMonth D.month n) D.day := by
  have hpos := D.month_pos
  have hle := D.month_le
  have hyear := h.last
  have hfirst := h.first
  have hday := D.day_pos
  have hday' := D.day_le.trans (monthLength_le D.year D.month)
  have hmonth : 1 ≤ shiftedMonth D.month n ∧ shiftedMonth D.month n ≤ 12 := by
    unfold shiftedMonth
    omega
  have hadd : addI32 D.month (toI32 (n : ℚ)) = .ok (D.month + n) := by
    rw [toI32_intCast (by omega) (by omega), addI32_ok (by omega) (by omega)]
  have hnormal : normalizeMonth { clocked D with m := D.month + n } = .ok { clocked D with
      y := shiftedYear D.year D.month n, m := shiftedMonth D.month n } := by
    apply normalizeMonth_exact
    · change -1000000 ≤ D.month + n
      omega
    · change D.month + n ≤ 1000000
      omega
    · change -1000000 ≤ D.year
      omega
    · change D.year ≤ 1000000
      omega
  have hrest := addRemainder_midnight (n := n) (p := { clocked D with
    y := shiftedYear D.year D.month n, m := shiftedMonth D.month n }) rfl rfl rfl rfl rfl rfl hy hy'
    hmonth.1 hmonth.2 (hday.trans' (by norm_num)) hday' (by omega) (by omega)
  have hmonths : addI32 (clocked D).m (toI32 (n : ℚ)) = .ok (D.month + n) := hadd
  rw [addMonths, computeYmdHms_dated h, Result.ok_bind, hmonths, Result.ok_bind, hnormal,
    Result.ok_bind, hrest]
  exact ⟨_, rfl, rfl, rfl, rfl, rfl, rfl⟩

/-! ## The last day of a short month -/

theorem number_of_shifted (hm : 1 ≤ m) (hm' : m ≤ 12) (hd : d ≤ 31) :
    midnight (dayNumber y m d) - overflowDays y m d * msPerDay =
      midnight (dayNumber y m (min d (monthLength y m))) := by
  have hshort : d - overflowDays y m d = min d (monthLength y m) := by
    rw [overflowDays_eq hm hm' hd]
    omega
  rw [← hshort, sub_eq_add_neg d, dayNumber_add, midnight, midnight]
  ring

theorem FourDigits.inCalendar (h : FourDigits D) : InCalendar D :=
  ⟨.inl (by have := h.nonneg; omega), h.le⟩

/-- `floor` takes back the days that the month does not have. -/
theorem parseModifier_floor {k : Int} (hjd : q.validJd = true) (idx : Nat)
    (hlow : -1000000000000000 ≤ q.iJd) (hhigh : q.iJd ≤ 1000000000000000) (hfloor : 0 ≤ q.nFloor)
    (hfloor' : q.nFloor ≤ 31) (hk : q.iJd - q.nFloor * msPerDay = k) :
    parseModifier "floor".toList q idx = .ok (clearYmdHmsTz { q with iJd := k }) := by
  have htrim : trim "floor".toList = "floor".toList := by decide
  have hdays : mulI64 q.nFloor msPerDay = .ok (q.nFloor * msPerDay) := by
    apply mulI64_ok <;> (simp only [msPerDay]; omega)
  have hsub : subI64 q.iJd (q.nFloor * msPerDay) = .ok k := by
    rw [← hk]
    apply subI64_ok <;> (simp only [msPerDay]; omega)
  have hmod : parseModifier "floor".toList q idx = (do
      let p ← computeJd q
      return clearYmdHmsTz { p with iJd := ← subI64 p.iJd (← mulI64 p.nFloor msPerDay) }) := by
    rw [parseModifier, htrim]
    rfl
  have hcomputed : computeJd q = .ok q := by rw [computeJd, hjd, if_pos rfl]
  rw [hmod, hcomputed, Result.ok_bind, hdays, Result.ok_bind, hsub]
  rfl

theorem parseModifier_months (h : FourDigits D) (hn : n < 176546) (idx : Nat) :
    parseModifier (signed neg n " months".toList) (ofDate D) idx =
      addMonths (signedValue neg n : ℚ) (dated D) := by
  have hvalue : -176546 < signedValue neg n ∧ signedValue neg n < 176546 := by
    unfold signedValue
    split <;> omega
  have hjd : computeJd (ofDate D) = .ok (dated D) :=
    computeJd_ofDate (h.nonneg.trans' (by norm_num)) h.le
  have hunit : " months".toList = ' ' :: ("month".toList ++ ['s']) := by decide
  rw [hunit, parseModifier_signed (by omega) (by decide), ← hunit,
    unitModifier_months hvalue.1 hvalue.2, hjd]
  rfl

theorem dateText_spell (h : 0 ≤ D.year) (hy : p.y = D.year) (hm : p.m = D.month)
    (hd : p.d = D.day) :
    dateText p = spell D := by
  have habs : (D.year.natAbs : Int) = D.year := Int.natAbs_of_nonneg h
  rw [dateText, hy, hm, hd, if_neg (by omega), habs]
  simp [spell]

theorem timeValue_spell (h : FourDigits D) (now : Option Int) :
    timeValue (.text (String.ofList (spell D))) now = .ok (ofDate D) := by
  have hparse : parseDateOrTime (spell D) now = .ok (ofDate D) := by
    rw [parseDateOrTime, parse_spell h]
    rfl
  simp only [timeValue, textOf, String.toList_ofList, hparse]

theorem show_date (h : FourDigits D) (hjd : q.validJd = true) (hymd : q.validYmd = false)
    (hday : q.iJd = midnight D.number) :
    validJulianDay q.iJd = true ∧ ∃ x, computeYmd q = .ok x ∧ dateText x = spell D := by
  have hnumber := h.inCalendar.number
  have hvalid : validJulianDay q.iJd = true := by
    rw [validJulianDay_iff, hday, midnight, msPerDay]
    omega
  have hback : (q.iJd + 43200000) / msPerDay = D.number := by
    rw [hday, midnight, Int.sub_add_cancel, msPerDay]
    omega
  exact ⟨hvalid, _, computeYmd_exact D hymd hjd hvalid hback, dateText_spell h.nonneg rfl rfl rfl⟩

theorem dateFn_of_modifiers (h : FourDigits D) {arg : Value} {mods : List Value} {now : Option Int}
    {r : DateTime ℚ} (harg : timeValue arg now = .ok p) (hmods : mods ≠ [])
    (happly : applyModifiers 1 mods p = .ok r) (hjd : r.validJd = true) (hymd : r.validYmd = false)
    (herr : r.isError = false) (hday : r.iJd = midnight D.number) :
    dateFn ℚ (arg :: mods) now = .ok (.text (String.ofList (spell D))) := by
  obtain ⟨hvalid, x, hx, htext⟩ := show_date h hjd hymd hday
  have hcomputed : computeJd r = .ok r := by rw [computeJd, if_pos hjd]
  have hsome : mods.isEmpty = false := List.isEmpty_eq_false_iff.mpr hmods
  have hdate : isDate (arg :: mods) now = .ok r := by
    simp only [isDate, harg, happly, hcomputed, herr, hvalid, hsome, Result.ok_bind,
      Bool.not_true, Bool.or_self, Bool.false_eq_true, if_false, Bool.false_and]
    rfl
  rw [dateFn, hdate, Result.ok_bind, hx, Result.ok_bind, htext]
  rfl

/-- Months are added in the calendar, and `floor` keeps the date in the month. -/
theorem dateFn_months_floor {D : Date} (h : FourDigits D) {neg : Bool} {n : Nat}
    (htarget : FourDigits (D.addMonths (signedValue neg n))) :
    dateFn ℚ [.text (String.ofList (spell D)),
        .text (String.ofList (signed neg n " months".toList)), .text "floor"] none =
      .ok (.text (String.ofList (spell (D.addMonths (signedValue neg n))))) := by
  have hnumber := htarget.inCalendar.number
  have hn : n < 176546 ∧ -176546 < signedValue neg n ∧ signedValue neg n < 176546 := by
    have hyear := h.nonneg
    have hyear' := h.le
    have hpos := D.month_pos
    have hle := D.month_le
    have htyear : 0 ≤ D.year + (D.month + signedValue neg n - 1) / 12 := htarget.nonneg
    have htyear' : D.year + (D.month + signedValue neg n - 1) / 12 ≤ 9999 := htarget.le
    cases neg <;> simp only [signedValue, Bool.false_eq_true, if_false, if_true] at * <;> omega
  obtain ⟨q, hq, hjd, -, herr, hday, hfloor⟩ := addMonths_dated h.inCalendar hn.2.1 hn.2.2
    (htarget.nonneg.trans' (by norm_num)) htarget.le
  have hday31 := D.day_le.trans (monthLength_le D.year D.month)
  have hover := overflowDays_eq (y := shiftedYear D.year D.month (signedValue neg n))
    (Date.shiftedMonth_pos D.month (signedValue neg n)) (Date.shiftedMonth_le D.month _) hday31
  have hlen := le_monthLength (shiftedYear D.year D.month (signedValue neg n))
    (shiftedMonth D.month (signedValue neg n))
  have hback : q.iJd - q.nFloor * msPerDay = midnight (D.addMonths (signedValue neg n)).number := by
    rw [hday, hfloor]
    exact number_of_shifted (Date.shiftedMonth_pos _ _) (Date.shiftedMonth_le _ _) hday31
  have hfloored := parseModifier_floor hjd 2 (by simp only [midnight, msPerDay] at hback; omega)
    (by simp only [midnight, msPerDay] at hback; omega) (by omega) (by omega) hback
  have hmods : applyModifiers 1 [.text (String.ofList (signed neg n " months".toList)),
      .text "floor"] (ofDate D) = .ok (clearYmdHmsTz { q with
        iJd := midnight (D.addMonths (signedValue neg n)).number }) := by
    simp only [applyModifiers, textOf, String.toList_ofList, parseModifier_months h hn.1, hq,
      Result.ok_bind, hfloored]
  exact dateFn_of_modifiers htarget (timeValue_spell h none) (List.cons_ne_nil _ _) hmods hjd rfl
    herr rfl

/-- The last of January, a month later, is the last of February. -/
theorem dateFn_months_floor_february : ∃ D E : Date, D.year = 2024 ∧ D.month = 1 ∧ D.day = 31 ∧
    E.year = 2024 ∧ E.month = 2 ∧ E.day = 29 ∧
    dateFn ℚ [.text (String.ofList (spell D)),
        .text (String.ofList (signed false 1 " months".toList)), .text "floor"] none =
      .ok (.text (String.ofList (spell E))) :=
  ⟨⟨2024, 1, 31, by norm_num, by norm_num, by norm_num, by decide⟩, _, rfl, rfl, rfl, by decide,
    by decide, by decide, dateFn_months_floor ⟨by norm_num, by norm_num⟩ ⟨by decide, by decide⟩⟩

end Rustqlite.Func.Time
