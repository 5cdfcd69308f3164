import Rustqlite.Func.DateTime

/-!
# Reading dates and modifiers

The texts that the date functions are given.  A text is a list of characters;
the offsets of the source count bytes, which is the same for the ASCII characters
that are looked for.
-/

namespace Rustqlite.Func.Time

open Foundation Util

variable {F : Type} [Real64 F]

/-! ## Pieces of a text -/

/-- One group of the format of `get_digits`: how many digits, and what stands after them. -/
structure DigitGroup where
  digits : Nat
  least : Int
  most : Int
  next : Option Char

def getDigits : List DigitGroup → List Char → List Int × List Char
  | [], s => ([], s)
  | g :: groups, s =>
      let front := s.take g.digits
      let val : Int := ofDigits (splitDigits front).1
      if front.length < g.digits ∨ (splitDigits front).2 ≠ [] ∨ val < g.least ∨ g.most < val then
        ([], s)
      else
        match g.next, s.drop g.digits with
        | none, rest => ([val], rest)
        | some c, d :: rest =>
            if d = c then (val :: (getDigits groups rest).1, (getDigits groups rest).2)
            else ([val], d :: rest)
        | some _, [] => ([val], [])

/-- `20c:20e`, and the other formats. -/
def hourMinute : List DigitGroup := [⟨2, 0, 24, some ':'⟩, ⟨2, 0, 59, none⟩]

def zoneFormat : List DigitGroup := [⟨2, 0, 14, some ':'⟩, ⟨2, 0, 59, none⟩]

def secondFormat : List DigitGroup := [⟨2, 0, 59, none⟩]

def dateFormat : List DigitGroup :=
  [⟨4, 0, 9999, some '-'⟩, ⟨2, 1, 12, some '-'⟩, ⟨2, 1, 31, none⟩]

def shiftFormat (digits : Nat) : List DigitGroup :=
  [⟨digits, 0, 9999, some '-'⟩, ⟨2, 0, 12, some '-'⟩, ⟨2, 0, 31, none⟩]

def skipWs (s : List Char) : List Char := s.dropWhile isAsciiWhitespace

def isWhitespace (c : Char) : Bool :=
  let n := c.toNat
  (9 ≤ n && n ≤ 13) || n = 0x20 || n = 0x85 || n = 0xa0 || n = 0x1680 ||
    (0x2000 ≤ n && n ≤ 0x200a) || n = 0x2028 || n = 0x2029 || n = 0x202f || n = 0x205f || n = 0x3000

def trimStart (s : List Char) : List Char := s.dropWhile isWhitespace

def trim (s : List Char) : List Char := (trimStart s).rdropWhile isWhitespace

def eqIgnoreCase (s : List Char) (word : String) : Bool :=
  s.map Char.toLower == word.toList.map Char.toLower

def byteLength (s : List Char) : Nat := (s.map Char.utf8Size).sum

def sliceStr : List Char → Nat → Result (List Char)
  | s, 0 => .ok s
  | [], _ + 1 => .error (.panic "byte index is out of bounds")
  | c :: s, start + 1 =>
      if c.utf8Size ≤ start + 1 then sliceStr s (start + 1 - c.utf8Size)
      else .error (.panic "byte index is not a char boundary")

/-! ## Times -/

def orElse {α : Type} (x y : Result α) : Result α :=
  match x with
  | .ok a => .ok a
  | .error e => if e.code = .panic then .error e else y

def notATimezone : Error := .msg "not a timezone"

def parseTimezone (s : List Char) (p : DateTime F) : Result (DateTime F) :=
  match skipWs s with
  | [] => .ok { p with tz := 0 }
  | c :: rest =>
      if c = 'Z' ∨ c = 'z' then
        if skipWs rest = [] then .ok { p with isLocal := false, isUtc := true }
        else .error (.msg "bad timezone")
      else if c = '-' ∨ c = '+' then
        match getDigits zoneFormat rest with
        | ([hours, minutes], rest) => do
            let tz ← mulI32 (if c = '-' then -1 else 1) (← addI32 minutes (← mulI32 hours 60))
            let p := { p with tz }
            let p := if tz = 0 then { p with isLocal := false, isUtc := true } else p
            if skipWs rest = [] then return p
            else throw (.msg "trailing chars after timezone")
        | _ => .error (.msg "bad timezone")
      else .error notATimezone

def fraction (digits : List Digit) : F :=
  let read := digits.foldl
    (fun (acc : F × F) (d : Digit) => (acc.1 * lit 10 + ofInt d.val, acc.2 * lit 10)) (lit 0, lit 1)
  let ms := read.1 / read.2
  if lt (lit 0.999) ms then lit 0.999 else ms

def parseSeconds (s : List Char) : Result (F × List Char) :=
  match s with
  | ':' :: rest =>
      match getDigits secondFormat rest with
      | ([sec], '.' :: d :: rest) =>
          if d.isDigit then
            .ok (ofInt sec + fraction (splitDigits (d :: rest)).1, (splitDigits (d :: rest)).2)
          else .ok (ofInt sec, '.' :: d :: rest)
      | ([sec], rest) => .ok (ofInt sec, rest)
      | _ => .error (.msg "bad seconds")
  | rest => .ok (lit 0, rest)

def parseHhMmSs (s : List Char) (p : DateTime F) : Result (DateTime F) :=
  match getDigits hourMinute s with
  | ([h, min], rest) => do
      let seconds ← parseSeconds (F := F) rest
      let p := { p with validJd := false, rawS := false, validHms := true, h, min, s := seconds.1 }
      match parseTimezone seconds.2 p with
      | .ok p => return p
      | .error e => if e = notATimezone then return { p with tz := 0 } else throw e
  | _ => .error (.msg "bad HH:MM")

/-- What a failed reading of the clock has changed is not looked at again. -/
def parseYyyyMmDd (s : List Char) (p : DateTime F) : Result (DateTime F) := do
  let neg : Bool := s.head? = some '-'
  match getDigits dateFormat (if neg then s.drop 1 else s) with
  | ([y, m, d], rest) =>
      let rest := rest.dropWhile fun c => isAsciiWhitespace c || c = 'T'
      let p ← orElse (parseHhMmSs rest p)
        (if rest = [] then .ok { p with validHms := false }
          else .error (.msg "bad time after date"))
      let p ← computeFloor
        { p with validJd := false, validYmd := true, y := if neg then -y else y, m, d }
      if p.tz ≠ 0 then computeJd p else return p
  | _ => throw (.msg "bad YYYY-MM-DD")

def setRawDateNumber (p : DateTime F) (r : F) : DateTime F :=
  let p := { p with s := r, rawS := true }
  if le (lit 0) r && lt r (lit 5373484.5) then
    { p with iJd := toI64 (r * ofInt msPerDay + lit 0.5), validJd := true }
  else p

def autoAdjustDate (p : DateTime F) : DateTime F :=
  if !p.rawS || p.validJd then { p with rawS := false }
  else if le (lit (-210866760000)) p.s && le p.s (lit 25340230799) then
    let r := p.s * lit 1000 + ofInt unixEpochIJd
    { clearYmdHmsTz p with iJd := toI64 (r + lit 0.5), validJd := true, rawS := false }
  else p

def setNow (now : Option Int) (message : String) (p : DateTime F) : Result (DateTime F) :=
  match now with
  | none => .error (.msg message)
  | some jd =>
      if 0 < jd then
        .ok (clearYmdHmsTz { p with iJd := jd, validJd := true, isUtc := true, isLocal := false })
      else .error (.msg "no current time")

def asF64 : Value → F
  | .int i => ofInt i.toInt
  | .real r => ofBits r
  | _ => lit 0

def needsContext : String := "date functions need a runtime context"

def parseDateOrTime (s : List Char) (now : Option Int) : Result (DateTime F) :=
  orElse (parseYyyyMmDd s DateTime.new)
    (orElse (parseHhMmSs s DateTime.new)
      (if eqIgnoreCase s "now" then setNow now needsContext DateTime.new
      else
        match numericPrefix s with
        | (some val, true) => .ok (setRawDateNumber DateTime.new (asF64 val))
        | _ =>
            if eqIgnoreCase s "subsec" || eqIgnoreCase s "subsecond" then
              setNow now needsContext { DateTime.new with useSubsec := true }
            else .error (.msg "bad date/time")))

/-! ## Modifiers -/

structure Xform where
  name : String
  rLimit : ℚ
  rXform : ℚ

def clockForms : List Xform :=
  [⟨"second", 4.6427e14, 1⟩, ⟨"minute", 7.7379e12, 60⟩, ⟨"hour", 1.2897e11, 3600⟩,
    ⟨"day", 5373485, 86400⟩]

def monthForm : Xform := ⟨"month", 176546, 2592000⟩

def yearForm : Xform := ⟨"year", 14713, 31536000⟩

/-- The unit is this one, and the number is not too large for it. -/
def Xform.matches (xf : Xform) (unit : List Char) (r : F) : Bool :=
  byteLength unit = xf.name.length && eqIgnoreCase unit xf.name &&
    lt (lit (-xf.rLimit)) r && lt r (lit xf.rLimit)

def rounder (r : F) : F := if lt r (lit 0) then lit (-0.5) else lit 0.5

/-- `r` units, rounded to milliseconds. -/
def xformMs (xf : Xform) (r : F) (rounding : F) : Int :=
  toI64 (r * lit 1000 * lit xf.rXform + rounding)

def normalizeMonth (p : DateTime F) : Result (DateTime F) := do
  let x := (← subI32 p.m (if 0 < p.m then 1 else 12)).tdiv 12
  return { p with y := ← addI32 p.y x, m := ← subI32 p.m (← mulI32 x 12) }

/-- What months and years leave over is added as days of their mean length. -/
def addRemainder (xf : Xform) (r : F) (p : DateTime F) : Result (DateTime F) := do
  let p ← computeJd { (← computeFloor p) with validJd := false }
  let iJd ← addI64 p.iJd (xformMs xf (r - ofInt (toI32 r)) (rounder r))
  return clearYmdHmsTz { p with iJd }

def addMonths (r : F) (p : DateTime F) : Result (DateTime F) := do
  let p ← computeYmdHms p
  let p ← normalizeMonth { p with m := ← addI32 p.m (toI32 r) }
  addRemainder monthForm r p

def addYears (r : F) (p : DateTime F) : Result (DateTime F) := do
  let p ← computeYmdHms p
  debugAssert (0 ≤ p.m && p.m ≤ 12)
  addRemainder yearForm r { p with y := ← addI32 p.y (toI32 r) }

def unitModifier (r : F) (rest : List Char) (p : DateTime F) : Result (DateTime F) :=
  let unit := skipWs rest
  if byteLength unit < 3 ∨ 10 < byteLength unit then .error (.msg "bad unit length")
  else
    let unit := if unit.getLast? = some 's' then unit.dropLast else unit
    do
      let p := { (← computeJd p) with nFloor := 0 }
      match clockForms.find? fun xf => xf.matches unit r with
      | some xf =>
          let p ← computeJd p
          return clearYmdHmsTz { p with iJd := ← addI64 p.iJd (xformMs xf r (rounder r)) }
      | none =>
          if monthForm.matches unit r then addMonths r p
          else if yearForm.matches unit r then addYears r p
          else throw (.msg "unknown unit")

/-- `±HH:MM:SS.FFF` -/
def clockModifier (z0 : Char) (s : List Char) (p : DateTime F) : Result (DateTime F) := do
  let tx ← parseHhMmSs (if z0.isDigit then s else s.drop 1) DateTime.new
  let tx ← computeJd (F := F) tx
  let iJd ← subI64 tx.iJd 43200000
  let iJd ← subI64 iJd (← mulI64 (iJd.tdiv msPerDay) msPerDay)
  let iJd ← if z0 = '-' then negI64 iJd else .ok iJd
  let p := clearYmdHmsTz (← computeJd p)
  return { p with iJd := ← addI64 p.iJd iJd }

/-- The `HH:MM` that may follow a date; what follows it is not read. -/
def afterDate (sFull : List Char) (p : DateTime F) : Result (DateTime F) := do
  let after := trimStart (← sliceStr sFull 12)
  if after = [] then return p
  else if 5 ≤ byteLength after then
    match getDigits hourMinute after with
    | ([h, m], _) =>
        let minutes ← addI64 (← mulI64 h 3600000) (← mulI64 m 60000)
        return { p with iJd := ← addI64 p.iJd minutes }
    | _ => throw (.msg "bad HH:MM in ±YYYY-MM-DD modifier")
  else throw (.msg "bad HH:MM in ±YYYY-MM-DD modifier")

def applyYearMonthDayModifier (p : DateTime F) (z0 : Char) (y m d : Int) (sFull : List Char) :
    Result (DateTime F) :=
  if 12 ≤ m then .error (.msg "bad month in ±YYYY-MM-DD modifier")
  else if 31 ≤ d then .error (.msg "bad day in ±YYYY-MM-DD modifier")
  else do
    let p := { (← computeYmdHms p) with validJd := false }
    let y ← if z0 = '-' then subI32 p.y y else addI32 p.y y
    let m ← if z0 = '-' then subI32 p.m m else addI32 p.m m
    let p ← computeJd (← computeFloor (← normalizeMonth { p with y, m }))
    let days ← mulI64 (if z0 = '-' then -d else d) msPerDay
    let p := { p with validHms := false, validYmd := false, iJd := ← addI64 p.iJd days }
    afterDate sFull p

def endsNumber (c : Char) : Bool := c = ':' || isAsciiWhitespace c || c = '-'

def shiftOf (n : Nat) (s : List Char) : Option (Int × Int × Int) :=
  if n = 5 ∨ n = 6 then
    match (getDigits (shiftFormat (n - 1)) s).1 with
    | [y, m, d] => some (y, m, d)
    | _ => none
  else none

def parseNumericModifier (s : List Char) (p : DateTime F) : Result (DateTime F) :=
  match s with
  | [] => .error (.panic "index out of bounds")
  | z0 :: rest =>
      let front := rest.takeWhile fun c => !endsNumber c
      let after := rest.dropWhile fun c => !endsNumber c
      let shift := if after.head? = some '-' then shiftOf (1 + byteLength front) rest else none
      match shift, (numericPrefix (z0 :: front)).1 with
      | some (y, m, d), _ => applyYearMonthDayModifier p z0 y m d s
      | none, none => .error (.msg "bad numeric modifier")
      | none, some val =>
          if after.head? = some '-' then .error (.msg "bad ±YYYY-MM-DD modifier")
          else if after.head? = some ':' then clockModifier z0 s p
          else unitModifier (asF64 val) after p

/-- A whole number from 0 for Sunday to 6. -/
def weekdayNumber (F : Type) [Real64 F] (rest : List Char) : Option Int :=
  match numericPrefix rest with
  | (some val, true) =>
      let r : F := asF64 val
      let n := toI64 r
      if le (lit 0) r && lt r (lit 7) && le (ofInt n) r && le r (ofInt n) then some n else none
  | _ => none

def moveToWeekday (n : Int) (p : DateTime F) : Result (DateTime F) := do
  let p ← computeYmdHms p
  let p ← computeJd { p with tz := 0, validJd := false }
  let z := ((← addI64 p.iJd 129600000).tdiv msPerDay).tmod 7
  let z ← if n < z then subI64 z 7 else .ok z
  let iJd ← addI64 p.iJd (← mulI64 (← subI64 n z) msPerDay)
  return clearYmdHmsTz { p with iJd }

def startOf (rest : List Char) (p : DateTime F) : Result (DateTime F) :=
  if !p.validJd && !p.validYmd && !p.validHms then .error (.msg "start of on empty date")
  else do
    let p := { (← computeYmd p) with
      validHms := true, h := 0, min := 0, s := lit 0, rawS := false, tz := 0, validJd := false }
    if eqIgnoreCase rest "month" then return { p with d := 1 }
    else if eqIgnoreCase rest "year" then return { p with m := 1, d := 1 }
    else if eqIgnoreCase rest "day" then return p
    else throw (.msg "bad start of")

def unrecognized : Error := .msg "unrecognized modifier"

def unixEpoch (idx : Nat) (p : DateTime F) : Result (DateTime F) :=
  if 1 < idx then .error (.msg "unixepoch out of place")
  else
    let r := p.s * lit 1000 + ofInt unixEpochIJd
    if le (lit 0) r && lt r (lit 464269060800000) then
      .ok { clearYmdHmsTz p with iJd := toI64 (r + lit 0.5), validJd := true, rawS := false }
    else .error unrecognized

def parseModifier (s : List Char) (p : DateTime F) (idx : Nat) : Result (DateTime F) :=
  match trim s with
  | [] => .error (.msg "empty modifier")
  | c :: rest =>
      let s := c :: rest
      match c.toLower with
      | 'a' =>
          if eqIgnoreCase s "auto" then
            if 1 < idx then .error (.msg "auto out of place") else .ok (autoAdjustDate p)
          else .error unrecognized
      | 'c' =>
          if eqIgnoreCase s "ceiling" then do
            return { clearYmdHmsTz (← computeJd p) with nFloor := 0 }
          else .error unrecognized
      | 'f' =>
          if eqIgnoreCase s "floor" then do
            let p ← computeJd p
            return clearYmdHmsTz { p with iJd := ← subI64 p.iJd (← mulI64 p.nFloor msPerDay) }
          else .error unrecognized
      | 'j' =>
          if eqIgnoreCase s "julianday" then
            if 1 < idx then .error (.msg "julianday out of place")
            else if p.validJd && p.rawS then .ok { p with rawS := false }
            else .error unrecognized
          else .error unrecognized
      | 'l' =>
          if eqIgnoreCase s "localtime" then do
            return { (← computeJd p) with isUtc := false, isLocal := true }
          else .error unrecognized
      | 'u' =>
          if eqIgnoreCase s "unixepoch" && p.rawS then unixEpoch idx p
          else if eqIgnoreCase s "utc" then do
            let p ← if !p.isUtc then computeJd p else .ok p
            return { p with isUtc := true, isLocal := false }
          else .error unrecognized
      | 'w' =>
          match s.dropPrefix? "weekday ".toList with
          | some rest =>
              match weekdayNumber F (trim rest) with
              | some n => moveToWeekday n p
              | none => .error unrecognized
          | none => .error unrecognized
      | 's' =>
          match s.dropPrefix? "start of ".toList with
          | some rest => startOf (trim rest) p
          | none =>
              if eqIgnoreCase s "subsec" || eqIgnoreCase s "subsecond" then
                .ok { p with useSubsec := true }
              else .error unrecognized
      | _ =>
          if c = '+' || c = '-' || c.isDigit then parseNumericModifier s p
          else .error unrecognized

/-! ## The functions -/

def textOf : Value → Option (List Char)
  | .null => none
  | .int i => some (toString i).toList
  | .real r => some (fpToText r).toList
  | .text s => some s.toList
  | .blob b => some (fromUtf8Lossy b).toList

def applyModifiers : Nat → List Value → DateTime F → Result (DateTime F)
  | _, [], p => .ok p
  | idx, arg :: args, p =>
      match textOf arg with
      | none => .error (.msg "NULL modifier")
      | some s => do applyModifiers (idx + 1) args (← parseModifier s p idx)

def timeValue (arg : Value) (now : Option Int) : Result (DateTime F) :=
  match arg with
  | .int _ | .real _ => .ok (setRawDateNumber DateTime.new (asF64 arg))
  | _ =>
      match textOf arg with
      | none => .error (.msg "NULL date")
      | some s => parseDateOrTime s now

def isDate (args : List Value) (now : Option Int) : Result (DateTime F) :=
  match args with
  | [] => setNow now "no 'now' context" DateTime.new
  | arg :: modifiers => do
      let p ← timeValue arg now
      let p ← computeJd (← applyModifiers 1 modifiers p)
      if p.isError || !validJulianDay p.iJd then throw (.msg "bad date/time")
      else if modifiers.isEmpty && p.validYmd && 28 < p.d then return { p with validYmd := false }
      else return p

/-- `{:0w}` for an integer. -/
def padded (w : Nat) (n : Int) : List Char :=
  let digits := (toDigits n.natAbs).map digitChar
  if n < 0 then '-' :: List.replicate (w - 1 - digits.length) '0' ++ digits
  else List.replicate (w - digits.length) '0' ++ digits

def dateText (p : DateTime F) : List Char :=
  (if p.y < 0 then ['-'] else []) ++ padded 4 p.y.natAbs ++ '-' :: padded 2 p.m ++
    '-' :: padded 2 p.d

def nullOnError (x : Result Value) : Result Value := orElse x (.ok .null)

def dateFn (F : Type) [Real64 F] (args : List Value) (now : Option Int) : Result Value :=
  nullOnError do
    let x ← computeYmd (← isDate (F := F) args now)
    return .text (String.ofList (dateText x))

end Rustqlite.Func.Time
