import Rustqlite.Foundation.Nearest
import Rustqlite.Parser.Ast
import Rustqlite.Util.Numeric

/-!
# Literals

The rules of the grammar for a number, a string, a blob and the keywords among
the literals, and the expression that is built from what they match.
-/

namespace Rustqlite.Parser

open Foundation Util

/-! ## The rules of the grammar -/

/-- What a rule matches at the front of a text, and what follows it. -/
abbrev Rule := List Char → Option (List Char × List Char)

namespace Rule

def one (p : Char → Bool) : Rule
  | c :: rest => if p c then some ([c], rest) else none
  | [] => none

def many (p : Char → Bool) : Rule := fun text => some (text.takeWhile p, text.dropWhile p)

def some1 (p : Char → Bool) : Rule := fun text =>
  if text.takeWhile p = [] then none else many p text

def seq (r s : Rule) : Rule := fun text =>
  (r text).bind fun front => (s front.2).map fun back => (front.1 ++ back.1, back.2)

/-- The first rule that matches; the second is not tried when more follows. -/
def alt (r s : Rule) : Rule := fun text => (r text).or (s text)

def opt (r : Rule) : Rule := fun text => (r text).or (some ([], text))

end Rule

open Rule

def isHexDigit (c : Char) : Bool :=
  c.isDigit || ('a' ≤ c && c ≤ 'f') || ('A' ≤ c && c ≤ 'F')

def identCont (c : Char) : Bool := c.isAlphanum || c = '_'

def isQuote (c : Char) : Bool := c.toNat = 39

def isSign (c : Char) : Bool := c = '+' || c = '-'

def hexInt : Rule :=
  seq (one fun c => c = '0') (seq (one fun c => c = 'x' || c = 'X') (some1 isHexDigit))

def exponent : Rule :=
  seq (one fun c => c = 'e' || c = 'E') (seq (opt (one isSign)) (some1 Char.isDigit))

def floatOrInt : Rule :=
  alt
    (seq (some1 Char.isDigit)
      (seq (opt (seq (one fun c => c = '.') (many Char.isDigit))) (opt exponent)))
    (seq (one fun c => c = '.') (seq (some1 Char.isDigit) (opt exponent)))

def signedFloatOrInt : Rule := seq (opt (one isSign)) floatOrInt

def number : Rule := alt hexInt signedFloatOrInt

/-- What stands between the quotes: two of them in a row belong to it. -/
def stringBody : List Char → List Char × List Char
  | [] => ([], [])
  | [c] => if isQuote c then ([], [c]) else ([c], [])
  | c :: d :: rest =>
      if isQuote c then
        if isQuote d then (c :: d :: (stringBody rest).1, (stringBody rest).2)
        else ([], c :: d :: rest)
      else (c :: (stringBody (d :: rest)).1, (stringBody (d :: rest)).2)

def string : Rule := seq (one isQuote) (seq (fun text => some (stringBody text)) (one isQuote))

def blob : Rule :=
  seq (one fun c => c = 'x' || c = 'X') (seq (one isQuote) (seq (many isHexDigit) (one isQuote)))

def bindParam : Rule :=
  alt (seq (one fun c => c = '?') (many Char.isDigit))
    (seq (one fun c => c = '@' || c = ':' || c = '$') (some1 identCont))

def keyword (word : String) : Rule := fun text =>
  let (front, rest) := text.splitAt word.length
  if front.map Char.toLower = word.toList ∧ (rest.head?.all fun c => !identCont c) then
    some (front, rest)
  else none

inductive LiteralRule where
  | number
  | string
  | blob
  | bindParam
  | null
  | true
  | false
  deriving DecidableEq

/-- The alternatives of `literal`, in the order they are tried. -/
def literalRules : List (LiteralRule × Rule) :=
  [(.number, number), (.string, string), (.blob, blob), (.bindParam, bindParam),
    (.null, keyword "null"), (.true, keyword "true"), (.false, keyword "false")]

def literal (text : List Char) : Option (LiteralRule × List Char × List Char) :=
  literalRules.findSome? fun alternative =>
    (alternative.2 text).map fun m => (alternative.1, m.1, m.2)

/-! ## What is built -/

theorem isNaN_parseUnsigned {negative : Bool} {text : List Char} {r : UInt64}
    (h : parseUnsigned negative text = some r) : Double.isNaN r = false := by
  unfold parseUnsigned at h
  split at h <;> split at h
  · cases h
  · simp only [Option.map_eq_some_iff] at h
    obtain ⟨x, -, rfl⟩ := h
    exact Double.isNaN_ofDecimal _ _ _
  · cases h
  · simp only [Option.map_eq_some_iff] at h
    obtain ⟨x, -, rfl⟩ := h
    exact Double.isNaN_ofDecimal _ _ _

theorem isNaN_parseF64 (text : List Char) : Double.isNaN ((parseF64 text).getD 0) = false := by
  cases h : parseF64 text with
  | none => decide
  | some r =>
      unfold parseF64 at h
      split at h <;> exact isNaN_parseUnsigned h

def parseReal (text : List Char) : RealLiteral := ⟨(parseF64 text).getD 0, isNaN_parseF64 text⟩

theorem isNaN_infinity : Double.isNaN (UInt64.ofNat Double.infinity) = false := by decide

def hexVal (c : Char) : UInt8 :=
  if c.isDigit then c.toUInt8 - '0'.toUInt8
  else if 'a' ≤ c ∧ c ≤ 'f' then c.toUInt8 - 'a'.toUInt8 + 10
  else if 'A' ≤ c ∧ c ≤ 'F' then c.toUInt8 - 'A'.toUInt8 + 10
  else 0

/-- A number of more than 64 bits is out of the subset and becomes infinity. -/
def buildHex (digits : List Char) : Literal :=
  let v := digits.foldl (fun (v : Nat) c => 16 * v + (hexVal c).toNat) 0
  if v < 2 ^ 64 then .integer (Int64.ofNat v) else .real ⟨_, isNaN_infinity⟩

def buildNumber (text : List Char) : Literal :=
  if text.take 2 = ['0', 'x'] ∨ text.take 2 = ['0', 'X'] then buildHex (text.drop 2)
  else
    let negative : Bool := text.head? = some '-'
    let unsigned := text.drop (signLength text)
    if unsigned.any fun c => c = '.' || c = 'e' || c = 'E' then .real (parseReal text)
    else
      match parseU64 unsigned with
      | some v =>
          if negative ∧ v = 2 ^ 63 then .integer Int64.minValue
          else if v < 2 ^ 63 then .integer ((if negative then -1 else 1) * Int64.ofNat v)
          else .real (parseReal text)
      | none => .real (parseReal text)

def undouble : List Char → List Char
  | [] => []
  | [c] => [c]
  | c :: d :: rest =>
      if isQuote c && isQuote d then c :: undouble rest else c :: undouble (d :: rest)

def unquoteString (text : List Char) : String := String.ofList (undouble (text.drop 1).dropLast)

def hexPairs : List Char → Bytes
  | hi :: lo :: rest => (hexVal hi <<< 4 ||| hexVal lo) :: hexPairs rest
  | _ => []

def parseBlob (text : List Char) : Bytes := hexPairs (text.drop 2).dropLast

def buildLiteralExpr {S W : Type} (rule : LiteralRule) (text : List Char) : Expr S W :=
  match rule with
  | .bindParam => .bindParam (String.ofList text)
  | .number => .literal (buildNumber text)
  | .string => .literal (.text (unquoteString text))
  | .blob => .literal (.blob (parseBlob text))
  | .null => .literal .null
  | .true => .literal (.bool true)
  | .false => .literal (.bool false)

def readLiteral {S W : Type} (text : String) : Option (Expr S W) :=
  match literal text.toList with
  | some (rule, token, []) => some (buildLiteralExpr rule token)
  | _ => none

end Rustqlite.Parser
