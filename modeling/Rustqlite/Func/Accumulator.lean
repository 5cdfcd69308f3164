import Rustqlite.Types.Value
import Rustqlite.Func.JsonRender
import Rustqlite.Func.Like

/-!
# Aggregate and window functions

The kinds of functions that are computed over several rows, as a query names
them.
-/

namespace Rustqlite.Func

inductive AggregateKind where
  | count
  | sum
  | total
  | avg
  | min
  | max
  | groupConcat
  | jsonGroupArray
  | jsonGroupObject
  | rowNumber
  | rank
  | denseRank
  | percentRank
  | cumeDist
  | ntile
  | firstValue
  | lastValue
  | nthValue
  | lead
  | lag
  deriving DecidableEq

/-- The kinds that need an `OVER` clause. -/
def AggregateKind.windowOnly : AggregateKind → Bool
  | .rowNumber | .rank | .denseRank | .percentRank | .cumeDist | .ntile | .firstValue
  | .lastValue | .nthValue | .lead | .lag => true
  | _ => false

/-!
## Accumulators

What an aggregate keeps for a group of rows: `step` takes a row in, `inverse`
takes the oldest one out when a window's frame slides on, and `value` reads the
result without an end to the accumulation.
-/

open Foundation

structure RealArithmetic extends Numerals where
  add : UInt64 → UInt64 → UInt64
  sub : UInt64 → UInt64 → UInt64
  div : UInt64 → UInt64 → UInt64

/-! ## Integers and reals -/

def fitsInt64 (n : Int) : Bool := decide (-2 ^ 63 ≤ n ∧ n < 2 ^ 63)

def checkedAdd (a b : Int64) : Option Int64 :=
  if fitsInt64 (a.toInt + b.toInt) then some (Int64.ofInt (a.toInt + b.toInt)) else none

def checkedSub (a b : Int64) : Option Int64 :=
  if fitsInt64 (a.toInt - b.toInt) then some (Int64.ofInt (a.toInt - b.toInt)) else none

/-- `r.fract() == 0.0`, which holds of no infinity and no NaN. -/
def isWhole (r : UInt64) : Bool :=
  decide (Double.exponent (Double.absBits r) ≠ 2047 ∧ Double.value r % Double.one = 0)

def prefixF64 (n : Numerals) (s : String) : UInt64 :=
  match (n.numericPrefix s).1 with
  | some (.int i) => Double.ofInt64 i
  | some (.real r) => r
  | _ => 0

def prefixI64 (n : Numerals) (s : String) : Int64 :=
  match (n.numericPrefix s).1 with
  | some (.int i) => i
  | some (.real r) => Double.toInt64 r
  | _ => 0

def asF64 (n : Numerals) : Value → UInt64
  | .int i => Double.ofInt64 i
  | .real r => r
  | .text s => prefixF64 n s
  | .blob b => prefixF64 n (fromUtf8Lossy b)
  | .null => 0

def asI64 (n : Numerals) : Value → Int64
  | .int i => i
  | .real r => Double.toInt64 r
  | .text s => prefixI64 n s
  | .blob b => prefixI64 n (fromUtf8Lossy b)
  | .null => 0

/-! ## The state -/

/--
The counters of rows are 64-bit in the source: a row moves each of them by one,
so none of them wraps before 2 ^ 63 rows.
-/
structure Accumulator where
  kind : AggregateKind
  count : Int
  sumI : Int64
  sumR : UInt64
  hasReal : Bool
  overflowed : Bool
  best : Option Value
  concat : Option String
  sep : String
  finalized : Bool
  nValue : Int
  nStep : Int
  nTotal : Int
  nParam : Int64
  nthStep : Int
  captured : Option Value
  jsonArray : Option String
  jsonObject : Option String
  deriving DecidableEq

def Accumulator.new (kind : AggregateKind) : Accumulator where
  kind := kind
  count := 0
  sumI := 0
  sumR := 0
  hasReal := false
  overflowed := false
  best := none
  concat := none
  sep := ","
  finalized := false
  nValue := 0
  nStep := 0
  nTotal := 0
  nParam := 0
  nthStep := 0
  captured := none
  jsonArray := none
  jsonObject := none

def argument : List Value → Option Value
  | [] | .null :: _ => none
  | v :: _ => some v

/-- What `group_concat` joins with from this row on. -/
def captureSep (n : Numerals) (sep : String) (count : Int) (args : List Value) : String :=
  match (args[1]?).bind (toText n) with
  | some s => if s ≠ "" ∨ count = 0 then s else sep
  | none => sep

def jsonRenderValueArg (n : Numerals) : Value → String
  | .null | .blob _ => "null"
  | .int i => toString i
  | .real r => n.fpToText r
  | .text s => String.ofList (Json.renderString s)

namespace Accumulator

/-! ## One row more -/

/-- Adds (or takes away) an integer, and goes over to reals when 64 bits do not hold the result. -/
def moveInt (checked : Int64 → Int64 → Option Int64) (real : UInt64 → UInt64 → UInt64)
    (acc : Accumulator) (i : Int64) (r : UInt64) : Accumulator :=
  match checked acc.sumI i with
  | some newI => { acc with sumI := newI }
  | none => { acc with
      sumR := real (Double.ofInt64 acc.sumI) r, hasReal := true, overflowed := true }

def moveSum (n : Numerals) (checked : Int64 → Int64 → Option Int64)
    (real : UInt64 → UInt64 → UInt64) (acc : Accumulator) (arg : Value) : Accumulator :=
  if acc.hasReal then { acc with sumR := real acc.sumR (asF64 n arg) }
  else match arg with
    | .int i => moveInt checked real acc i (Double.ofInt64 i)
    | .real r => { acc with sumR := real (Double.ofInt64 acc.sumI) r, hasReal := true }
    | v =>
        let r := asF64 n v
        if isWhole r then moveInt checked real acc (Double.toInt64 r) r
        else { acc with sumR := real (Double.ofInt64 acc.sumI) r, hasReal := true }

def takesBest (kind : AggregateKind) (arg cur : Value) : Bool :=
  memCompare arg cur .binary = if kind = .min then .lt else .gt

def stepBest (acc : Accumulator) (arg : Value) : Accumulator :=
  match acc.best with
  | none => { acc with count := acc.count + 1, best := some arg }
  | some cur => { acc with
      count := acc.count + 1, best := some (if takesBest acc.kind arg cur then arg else cur) }

def stepConcat (n : Numerals) (acc : Accumulator) (args : List Value) : Accumulator :=
  let acc := { acc with sep := captureSep n acc.sep acc.count args }
  match argument args with
  | none => acc
  | some arg =>
      let text := (toText n arg).getD ""
      { acc with
        count := acc.count + 1
        concat := match acc.concat with
          | none => some text
          | some cur => some (cur ++ acc.sep ++ text) }

def stepJsonArray (n : Numerals) (acc : Accumulator) (args : List Value) : Accumulator :=
  let rendered := jsonRenderValueArg n (args.headD .null)
  { acc with
    count := acc.count + 1
    jsonArray := match acc.jsonArray with
      | none => some ("[" ++ rendered)
      | some cur => some (cur ++ "," ++ rendered) }

def stepJsonObject (n : Numerals) (acc : Accumulator) (args : List Value) : Accumulator :=
  match args.head?.bind (toText n) with
  | none => acc
  | some name =>
      let entry := String.ofList (Json.renderString name) ++ ":" ++
        jsonRenderValueArg n ((args[1]?).getD .null)
      { acc with
        count := acc.count + 1
        jsonObject := match acc.jsonObject with
          | none => some ("\x7b" ++ entry)
          | some cur => some (cur ++ "," ++ entry) }

def stepNth (n : Numerals) (acc : Accumulator) (args : List Value) : Accumulator :=
  let nth := match args[1]? with
    | some v => (asI64 n v).toInt
    | none => 1
  if nth ≤ 0 then acc
  else { acc with
    nthStep := acc.nthStep + 1
    captured := if acc.nthStep + 1 = nth then args.head? else acc.captured }

/-- `finalized` stands for a result that was read for good; the next row begins anew. -/
def step (R : RealArithmetic) (acc : Accumulator) (args : List Value) (isCountStar : Bool) :
    Accumulator :=
  let acc := if acc.finalized then new acc.kind else acc
  match acc.kind with
  | .count =>
      if isCountStar || (argument args).isSome then { acc with count := acc.count + 1 } else acc
  | .sum | .total | .avg =>
      match argument args with
      | none => acc
      | some arg => moveSum R.toNumerals checkedAdd R.add { acc with count := acc.count + 1 } arg
  | .min | .max =>
      match argument args with
      | none => acc
      | some arg => stepBest acc arg
  | .groupConcat => stepConcat R.toNumerals acc args
  | .jsonGroupArray => stepJsonArray R.toNumerals acc args
  | .jsonGroupObject => stepJsonObject R.toNumerals acc args
  | .rowNumber => { acc with count := acc.count + 1 }
  | .rank => { acc with
      nStep := acc.nStep + 1, nValue := if acc.nValue = 0 then acc.nStep + 1 else acc.nValue }
  | .denseRank => { acc with nStep := 1 }
  | .percentRank | .cumeDist => { acc with nTotal := acc.nTotal + 1 }
  | .ntile => { acc with
      nParam := if acc.nTotal = 0 then (args.head?.map (asI64 R.toNumerals)).getD acc.nParam
        else acc.nParam
      nTotal := acc.nTotal + 1 }
  | .firstValue =>
      if acc.nthStep = 0 then { acc with captured := args.head?, nthStep := 1 } else acc
  | .lastValue => { acc with captured := args.head?, nthStep := acc.nthStep + 1 }
  | .nthValue => stepNth R.toNumerals acc args
  | .lead | .lag => acc

/-! ## The oldest row less -/

/-- `drain(..n)` on the characters of a string, which panics past the end and inside a character. -/
def drain : Nat → List Char → Option (List Char)
  | 0, cs => some cs
  | _ + 1, [] => none
  | n + 1, c :: cs =>
      if c.utf8Size ≤ n + 1 then drain (n + 1 - c.utf8Size) cs else none

/-- How many bytes of the joined text go with a value of `textLen` bytes. -/
def dropLen (curLen textLen sepLen : Nat) : Nat :=
  if textLen + sepLen ≤ curLen then textLen + sepLen else curLen

def inverseConcat (n : Numerals) (acc : Accumulator) (args : List Value) : Option Accumulator :=
  match argument args with
  | none => some acc
  | some arg =>
      let textLen := ((toText n arg).getD "").utf8ByteSize
      let acc := { acc with count := acc.count - 1 }
      match acc.concat with
      | none => some acc
      | some cur =>
          if cur.utf8ByteSize ≤ textLen then some { acc with concat := none }
          else
            (drain (dropLen cur.utf8ByteSize textLen acc.sep.utf8ByteSize) cur.toList).map
              fun rest => { acc with
                concat := if rest.isEmpty then none else some (String.ofList rest) }

/-- `none` is the panic of a cut that falls inside a character. -/
def inverse (R : RealArithmetic) (acc : Accumulator) (args : List Value) (isCountStar : Bool) :
    Option Accumulator :=
  if acc.finalized then some acc
  else match acc.kind with
  | .count =>
      some (if isCountStar || (argument args).isSome then { acc with count := acc.count - 1 }
        else acc)
  | .sum | .total | .avg =>
      some (match argument args with
        | none => acc
        | some arg => moveSum R.toNumerals checkedSub R.sub { acc with count := acc.count - 1 } arg)
  | .min | .max | .jsonGroupArray | .jsonGroupObject =>
      some { acc with count := acc.count - 1 }
  | .groupConcat => inverseConcat R.toNumerals acc args
  | .percentRank | .cumeDist | .ntile => some { acc with nStep := acc.nStep + 1 }
  | .lastValue => some { acc with
      nthStep := acc.nthStep - 1
      captured := if acc.nthStep - 1 ≤ 0 then none else acc.captured }
  | .rowNumber | .rank | .denseRank | .firstValue | .nthValue | .lead | .lag => some acc

/-! ## The result so far -/

def total (acc : Accumulator) : UInt64 :=
  if acc.hasReal then acc.sumR else Double.ofInt64 acc.sumI

def value (R : RealArithmetic) (acc : Accumulator) : Value :=
  match acc.kind with
  | .count => .int (Int64.ofInt acc.count)
  | .sum =>
      if acc.count = 0 then .null
      else if acc.hasReal then .real acc.sumR
      else .int acc.sumI
  | .total => .real acc.total
  | .avg =>
      if acc.count = 0 then .null
      else .real (R.div acc.total (Double.ofInt64 (Int64.ofInt acc.count)))
  | .min | .max => acc.best.getD .null
  | .groupConcat => (acc.concat.map Value.text).getD .null
  | .jsonGroupArray => .text ((acc.jsonArray.map (· ++ "]")).getD "[]")
  | .jsonGroupObject => .text ((acc.jsonObject.map (· ++ "\x7d")).getD "\x7b\x7d")
  | _ => .null

end Accumulator

end Rustqlite.Func
