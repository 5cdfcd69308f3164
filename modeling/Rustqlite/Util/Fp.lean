import Rustqlite.Foundation.Decimal
import Mathlib.Data.List.DropRight

/-!
# Rendering a real as text

`util/fp.rs`: the binary form of a double is turned into decimal digits by one
multiplication with a tabulated power of ten, the digits are rounded, and
`render` lays them out.  A `u64` is a natural number, an `i32` an integer, and a
double its bits.
-/

namespace Rustqlite.Util

open Foundation Double

/-! ## Multiplying -/

def multiply128 (a b : Nat) : Nat × Nat := (a * b / 2 ^ 64, a * b % 2 ^ 64)

def multiply160 (a aLo b : Nat) : Nat × Nat :=
  let r := a * b + aLo * b / 2 ^ 32
  (r / 2 ^ 64, r / 2 ^ 32 % 2 ^ 32)

/-! ## Powers of ten -/

def pwr10to2 (p : Int) : Int := p * 108853 / 2 ^ 15

def pwr2to10 (p : Int) : Int := p * 78913 / 2 ^ 18

def powersOf10First : Int := -348
def powersOf10Last : Int := 347

def aBase : List Nat :=
  [0x8000000000000000, 0xa000000000000000, 0xc800000000000000, 0xfa00000000000000,
    0x9c40000000000000, 0xc350000000000000, 0xf424000000000000, 0x9896800000000000,
    0xbebc200000000000, 0xee6b280000000000, 0x9502f90000000000, 0xba43b74000000000,
    0xe8d4a51000000000, 0x9184e72a00000000, 0xb5e620f480000000, 0xe35fa931a0000000,
    0x8e1bc9bf04000000, 0xb1a2bc2ec5000000, 0xde0b6b3a76400000, 0x8ac7230489e80000,
    0xad78ebc5ac620000, 0xd8d726b7177a8000, 0x878678326eac9000, 0xa968163f0a57b400,
    0xd3c21bcecceda100, 0x84595161401484a0, 0xa56fa5b99019a5c8]

def aScale : List Nat :=
  [0x8049a4ac0c5811ae, 0xcf42894a5dce35ea, 0xa76c582338ed2621, 0x873e4f75e2224e68,
    0xda7f5bf590966848, 0xb080392cc4349dec, 0x8e938662882af53e, 0xe65829b3046b0afa,
    0xba121a4650e4ddeb, 0x964e858c91ba2655, 0xf2d56790ab41c2a2, 0xc428d05aa4751e4c,
    0x9e74d1b791e07e48, 0xcccccccccccccccc, 0xcecb8f27f4200f3a, 0xa70c3c40a64e6c51,
    0x86f0ac99b4e8dafd, 0xda01ee641a708de9, 0xb01ae745b101e9e4, 0x8e41ade9fbebc27d,
    0xe5d3ef282a242e81, 0xb9a74a0637ce2ee1, 0x95f83d0a1fb69cd9, 0xf24a01a73cf2dccf,
    0xc3b8358109e84f07, 0x9e19db92b4e31ba9]

def aScaleLo : List Nat :=
  [0x205b896d, 0x52064cad, 0xaf2af2b8, 0x5a7744a7, 0xaf39a475, 0xbd8d794e, 0x547eb47b,
    0x0cb4a5a3, 0x92f34d62, 0x3a6a07f9, 0xfae27299, 0xaa97e14c, 0x775ea265, 0xcccccccc,
    0x00000000, 0x999090b6, 0x69a028bb, 0xe80e6f48, 0x5ec05dd0, 0x14588f14, 0x8f1668c9,
    0x6d953e2c, 0x4abdaf10, 0xbc633b39, 0x0a862f81, 0x6c07a2c2]

def scaledPower (g n : Int) : Nat × Nat :=
  let s := aScale.getD (g + 13).toNat 0
  let sLo := aScaleLo.getD (g + 13).toNat 0
  if n = 0 then (s, sLo)
  else
    let r := multiply160 s sLo (aBase.getD n.toNat 0)
    if r.1 < 2 ^ 63 then (2 * r.1 + r.2 / 2 ^ 31 % 2, 2 * r.2 % 2 ^ 32 + 1) else r

/-- The top 64 bits of `10 ^ p`, and the 32 bits below them. -/
def powerOfTen (p : Int) : Nat × Nat :=
  if p < 0 then
    if p = -1 then (aScale.getD 13 0, aScaleLo.getD 13 0)
    else if p.tmod 27 ≠ 0 then scaledPower (p.tdiv 27 - 1) (p.tmod 27 + 27)
    else scaledPower (p.tdiv 27) (p.tmod 27)
  else if p < 27 then (aBase.getD p.toNat 0, 0)
  else scaledPower (p / 27) (p % 27)

/-! ## Between binary and decimal -/

/-- `n` digits of `m * 2 ^ e`, where the top bit of `m` is set, and their power of ten. -/
def fp2Convert10 (m : Nat) (e n : Int) : Nat × Int :=
  let p := n - 1 - pwr2to10 (e + 63)
  let h := (multiply128 m (powerOfTen p).1).1
  if n = 18 then
    let h := h / 2 ^ (-(e + pwr10to2 p + 2)).toNat
    ((h + 2 * (h % 2)) % 2 ^ 64 / 2, -p)
  else (h / 2 ^ (-(e + pwr10to2 p + 1)).toNat, -p)

/-- `64 - leading_zeros`. -/
def bitLength (n : Nat) : Nat := if n = 0 then 0 else n.log2 + 1

/--
The product of `x` with a power of ten, without its low `s` bits; the last bit is
set when something is cut off.  The power is one too high when it is not exact,
and `pwr10l` is what it is too high by.
-/
def stickyProduct (x pwr10h pwr10l s : Nat) : Nat :=
  let product := multiply128 x pwr10h
  let hi := product.1
  let mid1 := product.2 / 2 ^ 32
  if hi % 2 ^ s = 0 then
    let mid2 := (multiply128 x (pwr10l * 2 ^ 32)).1 / 2 ^ 32
    let sticky := if 1 < (mid1 + 2 ^ 32 - mid2) % 2 ^ 32 then 1 else 0
    (hi - if mid1 < mid2 then 1 else 0) / 2 ^ s ||| sticky
  else hi / 2 ^ s ||| 1

/-- The bits of `u * 2 ^ -(e + 2)`, of which `u` has the last bit sticky. -/
def packDouble (u : Nat) (e : Int) : Nat :=
  let adj := if 2 ^ 55 - 2 ≤ u then 1 else 0
  let u := if adj = 1 then u / 2 ||| u % 2 else u
  let e := e - adj
  let m := (u + 1 + u / 4 % 2) % 2 ^ 64 / 4
  if e ≤ -972 then infinity
  else if m / 2 ^ 52 % 2 = 1 then m - 2 ^ 52 ||| (1075 - e).toNat * 2 ^ 52
  else m

def fp10Convert2 (d : Nat) (p : Int) : Nat :=
  if p < powersOf10First then 0
  else if powersOf10Last < p then infinity
  else
    let b : Int := bitLength d
    let lp := pwr10to2 p
    let e := 53 - b - lp
    if 1130 ≤ e then 0
    else
      let e := min e 1074
      let s := -(e - (64 - b) + lp + 3)
      let pwr10 := powerOfTen p
      let pwr10h := if pwr10.2 ≠ 0 then (pwr10.1 + 1) % 2 ^ 64 else pwr10.1
      let pwr10l := if pwr10.2 ≠ 0 then 2 ^ 32 - 1 - pwr10.2 else pwr10.2
      packDouble (stickyProduct (d * 2 ^ (64 - b).toNat) pwr10h pwr10l s.toNat) e

/-! ## The digits -/

/-- The decimal form of a double: `0.digits * 10 ^ iDp`. -/
structure FpDecode where
  sign : Char
  n : Nat
  iDp : Int
  digits : List Digit
  /-- `1` for an infinity and `2` for a NaN. -/
  isSpecial : Nat
  deriving DecidableEq

/-- The binary form of a finite double other than zero, with the top bit set. -/
def normalize (bits : Nat) : Nat × Int :=
  if exponent bits = 0 then
    let nn := 64 - bitLength (fraction bits)
    (fraction bits * 2 ^ nn, -1074 - nn)
  else (fraction bits * 2 ^ 11 + 2 ^ 63, exponent bits - 1086)

/-- The digits of `v`, two at a time from the right, before those that are there. -/
def extractDigits : Nat → Nat → List Digit → List Digit
  | 0, _, z => z
  | room + 1, v, z =>
      if 10 ≤ v then
        extractDigits room (v / 100)
          (Fin.ofNat 10 (v % 100 / 10) :: Fin.ofNat 10 (v % 100 % 10) :: z)
      else if v ≠ 0 then Fin.ofNat 10 v :: z
      else z

/-- How many digits are left of the first `jj` when those equal to `d` are dropped at the end. -/
def dropBack (d : Digit) (z : List Digit) : Nat → Nat
  | 0 => 0
  | jj + 1 => if z.getD jj 0 = d then dropBack d z jj else jj + 1

/--
A shorter decimal to try in place of 17 digits, and how many digits it keeps: a
run of nines is rounded up, and a run of zeros cut off.  A whole number is cut to
13 digits in any case.
-/
def shorter (z : List Digit) (iDp : Int) : Option (Nat × Nat) :=
  if z.getD 15 0 = 9 ∧ z.getD 14 0 = 9 then
    let jj := dropBack 9 z 14
    some (ofDigits (z.take jj) + 1, jj)
  else if z.length ≤ iDp ∨ z.getD 15 0 = 0 ∧ z.getD 14 0 = 0 ∧ z.getD 13 0 = 0 then
    let jj := dropBack 0 z 13
    some (ofDigits (z.take jj), jj)
  else none

/-- How many digits to keep: fewer than 17 if the shorter decimal converts back to `bits`. -/
def reducedRound (bits : Nat) (z : List Digit) (iDp exp : Int) : Nat :=
  match shorter z iDp with
  | some (v, jj) => if fp10Convert2 v (exp + z.length - jj) = bits then jj + 1 else 17
  | none => 17

/-- One more in the last digit; the flag says that a one is carried out at the front. -/
def carryUp : List Digit → List Digit × Bool
  | [] => ([], true)
  | d :: ds =>
      if (carryUp ds).2 then
        if d = 9 then (0 :: (carryUp ds).1, true) else ((d + 1) :: (carryUp ds).1, false)
      else (d :: (carryUp ds).1, false)

def roundDigits (z : List Digit) (k : Nat) (iDp : Int) : List Digit × Int :=
  if 5 ≤ z.getD k 0 then
    let up := carryUp (z.take k)
    if up.2 then (1 :: up.1, iDp + 1) else (up.1, iDp)
  else (z.take k, iDp)

def keepDigits (bits : Nat) (z : List Digit) (exp iRound mxRound : Int) : List Digit × Int :=
  let iDp := z.length + exp
  -- Rounding to a place after the point may leave nothing but a carry.
  let carries := iRound ≤ 0 ∧ iDp - iRound = 0 ∧ 5 ≤ z.headD 0
  let z := if carries then 0 :: z else z
  let iDp := if carries then iDp + 1 else iDp
  let iRound := if carries then 1 else if iRound ≤ 0 then iDp - iRound else iRound
  if 0 < iRound ∧ (iRound < z.length ∨ mxRound < z.length) then
    let k := (min iRound mxRound).toNat
    roundDigits z (if k = 17 then reducedRound bits z iDp exp else k) iDp
  else (z, iDp)

/-- The digits of a finite double other than zero, before they are rounded, and their exponent. -/
def decimalDigits (bits : Nat) (iRound : Int) : List Digit × Int :=
  let convN := if iRound ≤ 0 ∨ 18 ≤ iRound then 18 else iRound + 1
  let v := fp2Convert10 (normalize bits).1 (normalize bits).2 convN
  -- The buffer has 21 bytes.
  (extractDigits 21 v.1 [], v.2)

def fpDecode (r : UInt64) (iRound mxRound : Int) : FpDecode :=
  let sign := if isNaN r = false ∧ value r < 0 then '-' else '+'
  let bits := absBits r
  if bits = 0 then ⟨'+', 1, 1, [0], 0⟩
  else if exponent bits = 0x7ff then ⟨sign, 0, 0, [], if bits = infinity then 1 else 2⟩
  else
    let z := decimalDigits bits iRound
    let kept := keepDigits bits z.1 z.2 iRound mxRound
    let digits := kept.1.rdropWhile fun d => d = 0
    ⟨sign, digits.length, kept.2, digits, 0⟩

/-! ## The text -/

inductive Conv where
  | generic
  | fixed
  deriving DecidableEq

def wholeText (s : FpDecode) (e2 : Int) : List Char :=
  if e2 < 0 then ['0']
  else
    let j := min (e2 + 1) s.n
    (s.digits.take j.toNat).map digitChar ++ List.replicate (e2 - j + 1).toNat '0'

/-- The digits after the point: zeros, what is left of the digits, and zeros again. -/
def fractionText (s : FpDecode) (e2 precision : Int) (flagRtz : Bool) : List Char :=
  let j := if e2 < 0 then 0 else min (e2 + 1) s.n
  let lead := if e2 < -1 ∧ 0 < precision then min (-1 - e2) precision else 0
  let precision := precision - lead
  let nn := if 0 < precision then max 0 (min (s.n - j) precision) else 0
  let precision := precision - nn
  List.replicate lead.toNat '0' ++ ((s.digits.drop j.toNat).take nn.toNat).map digitChar ++
    List.replicate (if 0 < precision ∧ flagRtz = false then precision.toNat else 0) '0'

/-- Without the zeros at the end; a point that is then the last keeps one of them or goes too. -/
def trimZeros (out : List Char) (altform2 : Bool) : List Char :=
  let out := out.rdropWhile fun c => c = '0'
  if out.getLast? = some '.' then if altform2 then out ++ ['0'] else out.dropLast else out

def byteDigit (n : Int) : Char := Char.ofNat ('0'.toNat + n.toNat)

def exponentText (exp : Int) : List Char :=
  let mag := if exp < 0 then -exp else exp
  let hundreds := if 100 ≤ mag then [byteDigit (mag / 100)] else []
  let mag := if 100 ≤ mag then mag % 100 else mag
  'e' :: (if exp < 0 then '-' else '+') ::
    (hundreds ++ [byteDigit (mag / 10), byteDigit (mag % 10)])

def render (r : UInt64) (precision : Int) (gtype : Conv) (altform2 : Bool) : String :=
  let precision := if precision < 0 then 6 else precision
  let precision := if gtype = .generic ∧ precision = 0 then 1 else precision
  let iRound := if gtype = .generic then precision else -precision
  let s := fpDecode r iRound (if altform2 then 20 else 16)
  if s.isSpecial ≠ 0 then
    if s.isSpecial = 2 then "NaN" else if s.sign = '-' then "-Inf" else "Inf"
  else
    let exp := s.iDp - 1
    let xtypeExp := gtype = .generic ∧ (exp < -4 ∨ precision - 1 < exp)
    let precision :=
      if gtype = .generic then
        if xtypeExp then precision - 1 else precision - 1 - exp
      else precision
    let flagRtz := if gtype = .generic then true else altform2
    let e2 := if xtypeExp then 0 else s.iDp - 1
    let flagDp := decide (0 < precision) || altform2
    let out := (if s.sign = '-' then ['-'] else []) ++ wholeText s e2 ++
      (if flagDp then ['.'] else []) ++ fractionText s e2 precision flagRtz
    let out := if flagRtz && flagDp then trimZeros out altform2 else out
    String.ofList (out ++ if xtypeExp then exponentText exp else [])

/-- `%!.17g`, which is how a real is stored and shown as text. -/
def fpToText (r : UInt64) : String := render r 17 .generic true

end Rustqlite.Util
