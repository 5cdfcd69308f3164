import Rustqlite.Foundation.Decimal
import Rustqlite.Types.Value

/-!
# Numbers in texts

`str::parse` on the texts the source calls it with, and the number at the front of
a text.
-/

namespace Rustqlite.Util

open Foundation

def parseExponent : List Char → Option Int
  | [] => some 0
  | c :: rest =>
      if c = 'e' ∨ c = 'E' then
        match rest with
        | '-' :: digits => (allDigits digits).map fun n : Nat => -(n : Int)
        | '+' :: digits => (allDigits digits).map fun n : Nat => (n : Int)
        | digits => (allDigits digits).map fun n : Nat => (n : Int)
      else none

def parseUnsigned (negative : Bool) (text : List Char) : Option UInt64 :=
  match splitDigits text with
  | (whole, '.' :: rest) =>
      if whole = [] ∧ (splitDigits rest).1 = [] then none
      else (parseExponent (splitDigits rest).2).map fun x =>
        Double.ofDecimal negative (ofDigits (whole ++ (splitDigits rest).1))
          (x - (splitDigits rest).1.length)
  | (whole, rest) =>
      if whole = [] then none
      else (parseExponent rest).map (Double.ofDecimal negative (ofDigits whole))

/-- `parse::<f64>`, without the names of infinity and of what is not a number. -/
def parseF64 : List Char → Option UInt64
  | '-' :: text => parseUnsigned true text
  | '+' :: text => parseUnsigned false text
  | text => parseUnsigned false text

def parseU64 (text : List Char) : Option Nat := (allDigits text).filter (· < 2 ^ 64)

def parseI64 : List Char → Option Int64
  | '-' :: text =>
      ((allDigits text).filter (· ≤ 2 ^ 63)).map fun n : Nat => Int64.ofInt (-(n : Int))
  | '+' :: text => ((allDigits text).filter (· < 2 ^ 63)).map Int64.ofNat
  | text => ((allDigits text).filter (· < 2 ^ 63)).map Int64.ofNat

def isAsciiWhitespace (c : Char) : Bool :=
  c = ' ' || c = '\t' || c = '\n' || c = '\r' || c = Char.ofNat 12

def signLength : List Char → Nat
  | '-' :: _ | '+' :: _ => 1
  | _ => 0

def digitCount (text : List Char) : Nat := (splitDigits text).1.length

def fractionLength : List Char → Nat
  | '.' :: text => 1 + digitCount text
  | _ => 0

def exponentLength : List Char → Nat
  | c :: text =>
      if c = 'e' ∨ c = 'E' then
        let digits := digitCount (text.drop (signLength text))
        if digits = 0 then 0 else 1 + signLength text + digits
      else 0
  | [] => 0

/-- The number at the front of a text, and whether it is all of the text. -/
def numericPrefix (s : List Char) : Option Value × Bool :=
  let s := s.dropWhile isAsciiWhitespace
  let wholeEnd := signLength s + digitCount (s.drop (signLength s))
  let fractionEnd := wholeEnd + fractionLength (s.drop wholeEnd)
  if wholeEnd = signLength s ∧ fractionEnd ≤ wholeEnd + 1 then (none, false)
  else
    let tokenEnd := fractionEnd + exponentLength (s.drop fractionEnd)
    let token := s.take tokenEnd
    let real := Value.real ((parseF64 token).getD 0)
    let value :=
      if tokenEnd = wholeEnd then
        match parseI64 token with
        | some i => .int i
        | none => real
      else real
    (some value, (s.drop tokenEnd).all isAsciiWhitespace)

end Rustqlite.Util
