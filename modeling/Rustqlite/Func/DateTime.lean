import Rustqlite.Foundation.Text
import Rustqlite.Types.Checked
import Rustqlite.Util.Fp
import Rustqlite.Util.Numeric
import Mathlib.Data.Rat.Floor
import Rustqlite.Foundation.Calendar

/-!
# Dates and times

`func/date.rs`: a time value is a number of milliseconds, or a date and a clock,
and each is computed from the other when it is asked for.  Modifiers change the
one that suits them.
-/

namespace Rustqlite.Func.Time

open Foundation Util

/-! ## Numbers of the machine -/

/-- What the source does with an `f64`. -/
class Real64 (F : Type) extends Add F, Sub F, Mul F, Div F where
  /-- `as f64` -/
  ofInt : Int → F
  lit : ℚ → F
  ofBits : UInt64 → F
  le : F → F → Bool
  lt : F → F → Bool
  /-- `as i64` -/
  toI64 : F → Int
  /-- `as i32` -/
  toI32 : F → Int
  /-- How many thousandths `{:.3}` writes. -/
  thousandths : F → Int

export Real64 (ofInt lit ofBits le lt toI64 toI32 thousandths)

def clamp (bits : Nat) (n : Int) : Int := max (-2 ^ (bits - 1)) (min (2 ^ (bits - 1) - 1) n)

instance exactReal64 : Real64 ℚ where
  ofInt n := n
  lit q := q
  ofBits r := Double.value r / Double.one
  le a b := decide (a ≤ b)
  lt a b := decide (a < b)
  toI64 q := clamp 64 (q.num.tdiv q.den)
  toI32 q := clamp 32 (q.num.tdiv q.den)
  thousandths q := (1000 * q).num.sign * Double.roundDiv (1000 * q).num.natAbs (1000 * q).den

def fit (bits : Nat) (message : String) (n : Int) : Result Int :=
  if -2 ^ (bits - 1) ≤ n ∧ n < 2 ^ (bits - 1) then .ok n else .error (.panic message)

def addI32 (a b : Int) : Result Int := fit 32 "attempt to add with overflow" (a + b)

def subI32 (a b : Int) : Result Int := fit 32 "attempt to subtract with overflow" (a - b)

def mulI32 (a b : Int) : Result Int := fit 32 "attempt to multiply with overflow" (a * b)

def addI64 (a b : Int) : Result Int := fit 64 "attempt to add with overflow" (a + b)

def subI64 (a b : Int) : Result Int := fit 64 "attempt to subtract with overflow" (a - b)

def mulI64 (a b : Int) : Result Int := fit 64 "attempt to multiply with overflow" (a * b)

def negI64 (a : Int) : Result Int := fit 64 "attempt to negate with overflow" (-a)

def asI32 (n : Int) : Int := n.bmod (2 ^ 32)

def debugAssert (condition : Bool) : Result Unit :=
  if condition then .ok () else .error (.panic "assertion failed")

/-! ## Time values -/

def maxIJdPos : Int := 464269060799999

def msPerDay : Int := 86400000

def unixEpochIJd : Int := 210866760000000

structure DateTime (F : Type) where
  iJd : Int
  y : Int
  m : Int
  d : Int
  h : Int
  min : Int
  tz : Int
  s : F
  validJd : Bool
  validYmd : Bool
  validHms : Bool
  nFloor : Int
  rawS : Bool
  isError : Bool
  useSubsec : Bool
  isUtc : Bool
  isLocal : Bool

variable {F : Type} [Real64 F]

def DateTime.new : DateTime F where
  iJd := 0
  y := 0
  m := 0
  d := 0
  h := 0
  min := 0
  tz := 0
  s := lit 0
  validJd := false
  validYmd := false
  validHms := false
  nFloor := 0
  rawS := false
  isError := false
  useSubsec := false
  isUtc := false
  isLocal := false

def datetimeError : DateTime F := { DateTime.new with isError := true }

def clearYmdHmsTz (p : DateTime F) : DateTime F :=
  { p with validYmd := false, validHms := false, tz := 0 }

def addClock (p : DateTime F) : Result (DateTime F) :=
  if p.validHms then do
    let minutes ← addI64 (← mulI64 p.h 3600000) (← mulI64 p.min 60000)
    let iJd ← addI64 p.iJd (← addI64 minutes (toI64 (p.s * lit 1000 + lit 0.5)))
    if p.tz ≠ 0 then
      let iJd ← subI64 iJd (← mulI64 p.tz 60000)
      return { p with
        iJd, validYmd := false, validHms := false, tz := 0, isUtc := true, isLocal := false }
    else return { p with iJd }
  else return p

def shiftYear (y m : Int) : Result (Int × Int) :=
  if m ≤ 2 then do return (← subI32 y 1, ← addI32 m 12) else .ok (y, m)

def julianDay (F : Type) [Real64 F] (y m d : Int) : Result Int := do
  let shifted ← shiftYear y m
  let a := (← addI32 shifted.1 4800).tdiv 100
  let b ← addI32 (← subI32 38 a) (a.tdiv 4)
  let x1 := (← mulI32 36525 (← addI32 shifted.1 4716)).tdiv 100
  let x2 := (← mulI32 306001 (← addI32 shifted.2 1)).tdiv 10000
  return toI64 (((ofInt x1 + ofInt x2 + ofInt d + ofInt b - lit 1524.5) * ofInt msPerDay : F))

def computeJd (p : DateTime F) : Result (DateTime F) :=
  if p.validJd then .ok p
  else
    let (y, m, d) := if p.validYmd then (p.y, p.m, p.d) else (2000, 1, 1)
    if y < -4713 ∨ 9999 < y ∨ p.rawS then .ok datetimeError
    else do
      let iJd ← julianDay F y m d
      addClock { p with iJd, validJd := true }

def validJulianDay (iJd : Int) : Bool := 0 ≤ iJd && iJd ≤ maxIJdPos

def computeYmd (p : DateTime F) : Result (DateTime F) :=
  if p.validYmd then .ok p
  else if !p.validJd then .ok { p with y := 2000, m := 1, d := 1, validYmd := true }
  else if !validJulianDay p.iJd then .ok datetimeError
  else do
    let z := (← addI64 p.iJd 43200000).tdiv msPerDay
    let alpha ← subI64 (toI64 ((ofInt z + lit 32044.75) / lit 36524.25 : F)) 52
    let a ← addI64 (← subI64 (← addI64 (← addI64 z 1) alpha) ((← addI64 alpha 100).tdiv 4)) 25
    let b ← addI64 a 1524
    let c := toI64 ((ofInt b - lit 122.1) / lit 365.25 : F)
    -- `c & 32767`
    let d := (← mulI64 36525 (c % 32768)).tdiv 100
    let rest ← subI64 b d
    let e := toI64 (ofInt rest / lit 30.6001 : F)
    let x1 := toI64 (lit 30.6001 * ofInt e : F)
    let day ← subI64 rest x1
    let m ← subI64 e (if e < 14 then 1 else 13)
    let y ← subI64 c (if 2 < asI32 m then 4716 else 4715)
    return { p with d := asI32 day, m := asI32 m, y := asI32 y, validYmd := true }

def computeHms (p : DateTime F) : Result (DateTime F) :=
  if p.validHms then .ok p
  else do
    let p ← computeJd p
    let dayMs := (← addI64 p.iJd 43200000).tmod msPerDay
    let dayMin := dayMs.tdiv 60000
    return { p with
      s := ofInt (dayMs.tmod 60000) / lit 1000, min := asI32 (dayMin.tmod 60),
      h := asI32 (dayMin.tdiv 60), rawS := false, validHms := true }

def computeYmdHms (p : DateTime F) : Result (DateTime F) := do computeHms (← computeYmd p)

def overflowDays (y m d : Int) : Int :=
  if d ≤ 28 then 0
  else if Nat.testBit 0x15aa m.toNat then 0
  else if m ≠ 2 then if d = 31 then 1 else 0
  else if y.tmod 4 ≠ 0 ∨ y.tmod 100 = 0 ∧ y.tmod 400 ≠ 0 then d - 28
  else d - 29

def computeFloor (p : DateTime F) : Result (DateTime F) := do
  debugAssert (p.validYmd || p.isError)
  debugAssert (0 ≤ p.d && p.d ≤ 31)
  debugAssert (0 ≤ p.m && p.m ≤ 12)
  return { p with nFloor := overflowDays p.y p.m p.d }

/-!
## Julian days

`compute_jd` numbers the days of the calendar and `compute_ymd` finds the date of
a number again.
-/

/-! ## Steps that stay in their types -/

section

variable {a b n : Int}

theorem addI32_ok (h : -2147483648 ≤ a + b) (h' : a + b < 2147483648) : addI32 a b = .ok (a + b) :=
  if_pos ⟨h, h'⟩

theorem subI32_ok (h : -2147483648 ≤ a - b) (h' : a - b < 2147483648) : subI32 a b = .ok (a - b) :=
  if_pos ⟨h, h'⟩

theorem mulI32_ok (h : -2147483648 ≤ a * b) (h' : a * b < 2147483648) : mulI32 a b = .ok (a * b) :=
  if_pos ⟨h, h'⟩

theorem addI64_ok (h : -9223372036854775808 ≤ a + b) (h' : a + b < 9223372036854775808) :
    addI64 a b = .ok (a + b) :=
  if_pos ⟨h, h'⟩

theorem subI64_ok (h : -9223372036854775808 ≤ a - b) (h' : a - b < 9223372036854775808) :
    subI64 a b = .ok (a - b) :=
  if_pos ⟨h, h'⟩

theorem mulI64_ok (h : -9223372036854775808 ≤ a * b) (h' : a * b < 9223372036854775808) :
    mulI64 a b = .ok (a * b) :=
  if_pos ⟨h, h'⟩

theorem asI32_of_lt (h : -2147483648 ≤ n) (h' : n < 2147483648) : asI32 n = n :=
  Int.bmod_eq_of_le (by norm_num; omega) (by norm_num; omega)

theorem clamp_of_lt (h : -9223372036854775808 ≤ n) (h' : n < 9223372036854775808) :
    clamp 64 n = n := by
  norm_num [clamp]
  omega

theorem toI64_intCast (h : -9223372036854775808 ≤ n) (h' : n < 9223372036854775808) :
    toI64 (n : ℚ) = n := by
  change clamp 64 ((n : ℚ).num.tdiv ((n : ℚ).den : Int)) = n
  rw [Rat.num_intCast, Rat.den_intCast, Nat.cast_one, Int.tdiv_one, clamp_of_lt h h']

theorem toI64_day (h : -1000000000 ≤ n) (h' : n ≤ 1000000000) :
    toI64 (((n : ℚ) - 1524.5) * (msPerDay : ℚ)) = (n - 1524) * msPerDay - 43200000 := by
  have hexact : ((n : ℚ) - 1524.5) * (msPerDay : ℚ) =
      (((n - 1524) * msPerDay - 43200000 : Int) : ℚ) := by
    rw [msPerDay]
    push_cast
    ring
  rw [hexact, toI64_intCast] <;> (simp only [msPerDay]; omega)

theorem toI64_div {k : Nat} (hn : 0 ≤ n) (hk : 0 < k) (h' : n < 9223372036854775808) :
    toI64 ((n : ℚ) / k) = n / k := by
  have hq : (0 : ℚ) ≤ n / k := by positivity
  have hnum : 0 ≤ ((n : ℚ) / k).num := Rat.num_nonneg.mpr hq
  have hfloor : ((n : ℚ) / k).num / (((n : ℚ) / k).den : Int) = n / k := by
    rw [← Rat.floor_def', Rat.floor_intCast_div_natCast]
  have hle : n / k ≤ n := Int.ediv_le_self k hn
  have hpos : 0 ≤ n / k := Int.ediv_nonneg hn (by omega)
  change clamp 64 (((n : ℚ) / k).num.tdiv (((n : ℚ) / k).den : Int)) = n / k
  rw [Int.tdiv_eq_ediv_of_nonneg hnum, hfloor, clamp_of_lt (by omega) (by omega)]

end

/-! ## From a date to its day -/

theorem julianDay_exact {y m d : Int} (hy : -4713 ≤ y) (hy' : y ≤ 9999) (hm : 1 ≤ m) (hm' : m ≤ 12)
    (hd : 0 ≤ d) (hd' : d ≤ 31) :
    julianDay ℚ y m d = .ok (dayNumber y m d * msPerDay - 43200000) := by
  have hshift : shiftYear y m = .ok (marchYear y m, marchMonth m) := by
    unfold shiftYear marchYear marchMonth
    split
    · rw [subI32_ok (by omega) (by omega), addI32_ok (by omega) (by omega)]
      rfl
    · rfl
  have hY : -4714 ≤ marchYear y m ∧ marchYear y m ≤ 9999 := by
    unfold marchYear
    split <;> omega
  have hM : 3 ≤ marchMonth m ∧ marchMonth m ≤ 14 := by
    unfold marchMonth
    split <;> omega
  simp only [julianDay, hshift, Result.ok_bind, dayNumber]
  generalize marchYear y m = Y at hY
  generalize marchMonth m = M at hM
  have ha : (Y + 4800).tdiv 100 = (Y + 4800) / 100 := Int.tdiv_eq_ediv_of_nonneg (by omega)
  have hb : ((Y + 4800) / 100).tdiv 4 = (Y + 4800) / 100 / 4 :=
    Int.tdiv_eq_ediv_of_nonneg (by omega)
  have hx1 : (36525 * (Y + 4716)).tdiv 100 = 36525 * (Y + 4716) / 100 :=
    Int.tdiv_eq_ediv_of_nonneg (by omega)
  have hx2 : (306001 * (M + 1)).tdiv 10000 = daysBefore M := Int.tdiv_eq_ediv_of_nonneg (by omega)
  have hdays : 122 ≤ daysBefore M ∧ daysBefore M ≤ 459 := by
    unfold daysBefore
    omega
  simp (disch := omega) only [addI32_ok, subI32_ok, mulI32_ok, Result.ok_bind, ha, hb, hx1, hx2]
  have hsum : ((36525 * (Y + 4716) / 100 : Int) : ℚ) + (daysBefore M : ℚ) + (d : ℚ) +
      ((38 - (Y + 4800) / 100 + (Y + 4800) / 100 / 4 : Int) : ℚ) =
      ((36525 * (Y + 4716) / 100 + daysBefore M + d +
        (38 - (Y + 4800) / 100 + (Y + 4800) / 100 / 4) : Int) : ℚ) := by
    push_cast
    rfl
  have hday := toI64_day (n := 36525 * (Y + 4716) / 100 + daysBefore M + d +
    (38 - (Y + 4800) / 100 + (Y + 4800) / 100 / 4)) (by omega) (by omega)
  rw [← hsum] at hday
  refine congrArg Except.ok (hday.trans ?_)
  have hcentury : (Y + 4800) / 100 = Y / 100 + 48 := by omega
  have hera : (Y / 100 + 48) / 4 = Y / 400 + 12 := by omega
  have hyears : 36525 * (Y + 4716) / 100 = 365 * Y + Y / 4 + 1722519 := by omega
  rw [hcentury, hera, hyears]
  ring

/-! ## From a day to its date -/

structure YearDay (Y D : Int) : Prop where
  pos : 123 ≤ D
  le : D ≤ 488
  leap : D = 488 → Y % 4 = 3 ∧ (Y % 100 ≠ 99 ∨ Y % 400 = 399)

def yearNumber (Y D : Int) : Int := 365 * Y + Y / 4 - Y / 100 + Y / 400 + D + 1720997

namespace YearDay

variable {Y D : Int}

theorem century (h : YearDay Y D) : (4 * yearNumber Y D + 128179) / 146097 = Y / 100 + 48 := by
  obtain ⟨hpos, hle, hleap⟩ := h
  have hera : Y / 100 = 4 * (Y / 400) + Y / 100 % 4 := by omega
  have hyear : Y = 100 * (Y / 100) + Y % 100 := by omega
  have hquarter : Y / 4 = 25 * (Y / 100) + Y % 100 / 4 := by omega
  have hlow : 146097 * (Y / 100 + 48) ≤ 4 * yearNumber Y D + 128179 := by
    simp only [yearNumber]
    omega
  have hhigh : 4 * yearNumber Y D + 128179 < 146097 * (Y / 100 + 49) := by
    simp only [yearNumber]
    by_cases hlast : D = 488
    · have := hleap hlast
      omega
    · omega
  omega

theorem julian (Y D : Int) : yearNumber Y D + 1 + (Y / 100 - 4) - (Y / 100 + 96) / 4 + 25 + 1524 =
    365 * Y + Y / 4 + D + 1722519 := by
  have hera : (Y / 100 + 96) / 4 = Y / 400 + 24 := by omega
  rw [hera, yearNumber]
  ring

theorem year (h : YearDay Y D) :
    (20 * (365 * Y + Y / 4 + D + 1722519) - 2442) / 7305 = Y + 4716 := by
  obtain ⟨hpos, hle, hleap⟩ := h
  by_cases hlast : D = 488
  · have := hleap hlast
    omega
  · omega

theorem start (Y : Int) : 36525 * (Y + 4716) / 100 = 365 * Y + Y / 4 + 1722519 := by omega

end YearDay

theorem yearDay_of (D : Date) :
    YearDay (marchYear D.year D.month) (daysBefore (marchMonth D.month) + D.day) := by
  obtain ⟨y, m, d, hm, hm', hd, hd'⟩ := D
  have hleap := isLeap_iff y
  cases h : isLeap y <;> interval_cases m <;>
    norm_num [marchYear, marchMonth, daysBefore, monthLength, h] at hleap hd' ⊢ <;>
    exact ⟨by omega, by omega, by omega⟩

theorem number_eq (D : Date) : D.number =
    yearNumber (marchYear D.year D.month) (daysBefore (marchMonth D.month) + D.day) := by
  rw [Date.number, dayNumber, yearNumber]
  ring

theorem month_of (D : Date) :
    10000 * (daysBefore (marchMonth D.month) + D.day) / 306001 = marchMonth D.month + 1 := by
  obtain ⟨y, m, d, hm, hm', hd, hd'⟩ := D
  cases h : isLeap y <;> interval_cases m <;>
    norm_num [marchMonth, daysBefore, monthLength, h] at hd' ⊢ <;> omega

theorem validJulianDay_iff (iJd : Int) :
    validJulianDay iJd = true ↔ 0 ≤ iJd ∧ iJd ≤ 464269060799999 := by
  rw [validJulianDay, Bool.and_eq_true, decide_eq_true_eq, decide_eq_true_eq]
  rfl

theorem toI64_ratio {q : ℚ} {n : Int} {k : Nat} (hq : q = (n : ℚ) / k) (hn : 0 ≤ n) (hk : 0 < k)
    (hlt : n < 9223372036854775808) : toI64 q = n / k := by
  rw [hq, toI64_div hn hk hlt]

theorem century_step {Y D : Int} (h : YearDay Y D) (hz : 0 ≤ yearNumber Y D)
    (hz' : yearNumber Y D ≤ 5373484) :
    toI64 (((yearNumber Y D : ℚ) + 32044.75) / 36524.25) = Y / 100 + 48 := by
  rw [← h.century]
  apply toI64_ratio (k := 146097) _ (by omega) (by norm_num) (by omega)
  push_cast
  ring

theorem year_step {Y D : Int} (h : YearDay Y D) (hY : -4716 ≤ Y) (hY' : Y ≤ 10000) :
    toI64 ((((365 * Y + Y / 4 + D + 1722519 : Int) : ℚ) - 122.1) / 365.25) = Y + 4716 := by
  have hpos := h.pos
  have hle := h.le
  rw [← h.year]
  apply toI64_ratio (k := 7305) _ (by omega) (by norm_num) (by omega)
  push_cast
  ring

theorem month_step (D : Date) :
    toI64 (((daysBefore (marchMonth D.month) + D.day : Int) : ℚ) / 30.6001) =
      marchMonth D.month + 1 := by
  have hpos := (yearDay_of D).pos
  have hle := (yearDay_of D).le
  rw [← month_of D]
  apply toI64_ratio (k := 306001) _ (by omega) (by norm_num) (by omega)
  push_cast
  ring

theorem days_step {M : Int} (hM : 0 ≤ M) (hM' : M ≤ 14) :
    toI64 ((30.6001 : ℚ) * ((M + 1 : Int) : ℚ)) = daysBefore M := by
  apply toI64_ratio (k := 10000) _ (by omega) (by norm_num) (by omega)
  push_cast
  ring

theorem computeYmd_exact (D : Date) {p : DateTime ℚ} (hymd : p.validYmd = false)
    (hjd : p.validJd = true) (hvalid : validJulianDay p.iJd = true)
    (hday : (p.iJd + 43200000) / msPerDay = D.number) :
    computeYmd p = .ok { p with d := D.day, m := D.month, y := D.year, validYmd := true } := by
  have hyd := yearDay_of D
  have he := month_step D
  rw [number_eq] at hday
  have hrange := (validJulianDay_iff p.iJd).mp hvalid
  have hz : 0 ≤ yearNumber (marchYear D.year D.month) (daysBefore (marchMonth D.month) + D.day) ∧
      yearNumber (marchYear D.year D.month) (daysBefore (marchMonth D.month) + D.day) ≤
        5373484 := by
    rw [← hday]
    simp only [msPerDay]
    omega
  have hpos := D.month_pos
  have hle := D.month_le
  have hday_pos := D.day_pos
  have hM : 3 ≤ marchMonth D.month ∧ marchMonth D.month ≤ 14 := by
    unfold marchMonth
    split <;> omega
  have hdays : 122 ≤ daysBefore (marchMonth D.month) := by
    unfold daysBefore
    omega
  generalize hY : marchYear D.year D.month = Y at hday hyd hz
  generalize hM' : marchMonth D.month = M at hday hyd hz hM he hdays
  have halpha := century_step hyd hz.1 hz.2
  have hjulian := YearDay.julian Y (daysBefore M + D.day)
  have hstart := YearDay.start Y
  have hfirst := hyd.pos
  have hlast := hyd.le
  have hYrange : -4716 ≤ Y ∧ Y ≤ 10000 := by
    simp only [yearNumber] at hz
    omega
  have hc := year_step hyd hYrange.1 hYrange.2
  have hztdiv : (p.iJd + 43200000).tdiv msPerDay = yearNumber Y (daysBefore M + D.day) := by
    rw [Int.tdiv_eq_ediv_of_nonneg (by omega), hday]
  have hx1 := days_step (M := M) (by omega) (by omega)
  simp only [computeYmd, hymd, hjd, hvalid, Bool.false_eq_true, Bool.not_true, if_false]
  rw [addI64_ok (by omega) (by omega), Result.ok_bind, hztdiv]
  simp only [ofInt, lit]
  have hleave : (Y / 100 - 4 + 100).tdiv 4 = (Y / 100 + 96) / 4 := by
    rw [Int.tdiv_eq_ediv_of_nonneg (by omega)]
    congr 1
    ring
  have hcentury' : subI64 (Y / 100 + 48) 52 = .ok (Y / 100 - 4) := by
    rw [subI64_ok (by omega) (by omega)]
    congr 1
    ring
  have hmask : (Y + 4716) % 32768 = Y + 4716 := by omega
  have hd : (36525 * (Y + 4716)).tdiv 100 = 365 * Y + Y / 4 + 1722519 := by
    rw [Int.tdiv_eq_ediv_of_nonneg (by omega), hstart]
  have hrest : subI64 (365 * Y + Y / 4 + (daysBefore M + D.day) + 1722519)
      (365 * Y + Y / 4 + 1722519) = .ok (daysBefore M + D.day) := by
    rw [subI64_ok (by omega) (by omega)]
    congr 1
    ring
  have hdayOk : subI64 (daysBefore M + D.day) (daysBefore M) = .ok D.day := by
    rw [subI64_ok (by omega) (by omega), add_sub_cancel_left]
  have hmonthOk : subI64 (M + 1) (if M + 1 < 14 then 1 else 13) = .ok D.month := by
    have hback : M + 1 - (if M + 1 < 14 then 1 else 13) = D.month := by
      unfold marchMonth at hM'
      split at hM' <;> split <;> omega
    rw [subI64_ok (by omega) (by omega), hback]
  have hyearOk : subI64 (Y + 4716) (if 2 < D.month then 4716 else 4715) = .ok D.year := by
    have hback : Y + 4716 - (if 2 < D.month then 4716 else 4715) = D.year := by
      unfold marchYear at hY
      split at hY <;> split <;> omega
    rw [subI64_ok (by omega) (by omega), hback]
  have hfits : asI32 D.year = D.year ∧ asI32 D.month = D.month ∧ asI32 D.day = D.day := by
    have hyear_near : Y ≤ D.year ∧ D.year ≤ Y + 1 := by
      unfold marchYear at hY
      split at hY <;> omega
    exact ⟨asI32_of_lt (by omega) (by omega), asI32_of_lt (by omega) (by omega),
      asI32_of_lt (by omega) (by omega)⟩
  rw [halpha, hcentury', Result.ok_bind]
  simp (disch := omega) only [addI64_ok, Result.ok_bind, hleave, subI64_ok]
  simp only [hjulian, hc, hmask]
  simp (disch := omega) only [mulI64_ok, Result.ok_bind, hd, hrest, he, hx1, hdayOk, hmonthOk,
    hfits, hyearOk]
  rfl

/-! ## The round trip -/

def ofDate (D : Date) : DateTime ℚ :=
  { DateTime.new with y := D.year, m := D.month, d := D.day, validYmd := true }

/-- From the first day that begins after the start of the count to the last of four digits. -/
structure InCalendar (D : Date) : Prop where
  first : -4713 < D.year ∨ D.year = -4713 ∧ (11 < D.month ∨ D.month = 11 ∧ 25 ≤ D.day)
  last : D.year ≤ 9999

theorem InCalendar.number {D : Date} (h : InCalendar D) : 1 ≤ D.number ∧ D.number ≤ 5373484 := by
  obtain ⟨hfirst, hlast⟩ := h
  obtain ⟨y, m, d, hm, hm', hd, hd'⟩ := D
  have hlen := hd'.trans (monthLength_le y m)
  interval_cases m <;> norm_num [Date.number, dayNumber, marchYear, marchMonth, daysBefore] at * <;>
    omega

theorem computeJd_ofDate {D : Date} (h : -4713 ≤ D.year) (h' : D.year ≤ 9999) :
    computeJd (ofDate D) =
      .ok { ofDate D with iJd := D.number * msPerDay - 43200000, validJd := true } := by
  have hday := D.day_le.trans (monthLength_le D.year D.month)
  have hjulian := julianDay_exact h h' D.month_pos D.month_le (D.day_pos.trans' (by norm_num)) hday
  have hrange : ¬(D.year < -4713 ∨ 9999 < D.year) := by omega
  simp only [computeJd, ofDate, DateTime.new, Bool.false_eq_true, or_false, if_false, if_true,
    if_neg hrange, hjulian, Result.ok_bind, addClock]
  rfl

/-- `compute_ymd` returns the date that `compute_jd` was given, and the next date is a day later. -/
theorem julian_round_trip {D : Date} (h : InCalendar D) : ∃ p q : DateTime ℚ,
    computeJd (ofDate D) = .ok p ∧ computeYmd (clearYmdHmsTz p) = .ok q ∧
      q.y = D.year ∧ q.m = D.month ∧ q.d = D.day ∧
      (InCalendar D.next → ∃ p', computeJd (ofDate D.next) = .ok p' ∧
        p'.iJd = p.iJd + msPerDay) := by
  have hnumber := h.number
  have hfirst : -4713 ≤ D.year := by
    have := h.first
    omega
  refine ⟨_, _, computeJd_ofDate hfirst h.last, computeYmd_exact D rfl rfl ?_ ?_, rfl, rfl, rfl, ?_⟩
  · simp only [clearYmdHmsTz, validJulianDay_iff, msPerDay]
    omega
  · simp only [clearYmdHmsTz, msPerDay]
    omega
  · intro hnext
    have hfirst' : -4713 ≤ D.next.year := by
      have := hnext.first
      omega
    refine ⟨_, computeJd_ofDate hfirst' hnext.last, ?_⟩
    simp only [Date.number_next]
    ring

theorem julian_round_trip_leapDay : ∃ D : Date, D.year = 2000 ∧ D.month = 2 ∧ D.day = 29 ∧
    ∃ p q : DateTime ℚ, computeJd (ofDate D) = .ok p ∧ computeYmd (clearYmdHmsTz p) = .ok q ∧
      q.y = D.year ∧ q.m = D.month ∧ q.d = D.day ∧
      (InCalendar D.next → ∃ p', computeJd (ofDate D.next) = .ok p' ∧
        p'.iJd = p.iJd + msPerDay) :=
  ⟨⟨2000, 2, 29, by norm_num, by norm_num, by norm_num, by decide⟩, rfl, rfl, rfl,
    julian_round_trip ⟨by norm_num, by norm_num⟩⟩

end Rustqlite.Func.Time
