import Rustqlite.Types.Affinity
import Rustqlite.Types.Error

/-!
# LIKE and GLOB

The pattern matcher.  The pattern and the text are given by what is left of
them to read, and a NUL character reads as their end.
-/

namespace Rustqlite.Func

open Foundation

structure CompareInfo where
  matchAll : Char
  matchOne : Char
  noCase : Bool
  matchSet : Bool

def likeInfo : CompareInfo := ⟨'%', '_', true, false⟩

def globInfo : CompareInfo := ⟨'*', '?', false, true⟩

inductive Outcome where
  | matched
  | noMatch
  | noWildcardMatch
  deriving DecidableEq

def nul : Char := Char.ofNat 0

def read : List Char → Char × List Char
  | [] => (nul, [])
  | c :: cs => (c, cs)

/-- Whether a pattern character that stands for itself agrees with one of the text. -/
def sameChar (info : CompareInfo) (c c2 : Char) : Bool :=
  c = c2 || (info.noCase && c.toLower = c2.toLower && isAscii c && isAscii c2)

/-! ## Sets -/

def setLoop (c : Char) : Char → Bool → List Char → Option (Bool × List Char)
  | _, _, [] => none
  | _, seen, [c2] =>
      if c2 = nul then none
      else if c2 = ']' then some (seen, [])
      else none
  | priorC, seen, c2 :: next :: rest =>
      if c2 = nul then none
      else if c2 = ']' then some (seen, next :: rest)
      else if c2 = '-' ∧ next ≠ ']' ∧ next ≠ nul ∧ priorC ≠ nul then
        setLoop c nul (seen || (priorC ≤ c && c ≤ next)) rest
      else setLoop c c2 (seen || c = c2) (next :: rest)

def matchSet (pattern string : List Char) : Option (List Char × List Char) :=
  let (c, string) := read string
  if c = nul then none
  else
    let (invert, pattern) :=
      if (read pattern).1 = '^' then (true, (read pattern).2) else (false, pattern)
    let (seen, pattern) :=
      if (read pattern).1 = ']' then (decide (c = ']'), (read pattern).2) else (false, pattern)
    match setLoop c nul seen pattern with
    | none => none
    | some (seen, pattern) => if seen = invert then none else some (pattern, string)

/-! ## Patterns -/

/-- What follows a run of wildcards, unless the text is too short for it. -/
def skipRun (info : CompareInfo) : List Char → List Char → Option (List Char × List Char)
  | [], string => some ([], string)
  | c :: pattern, string =>
      if c = info.matchAll then skipRun info pattern string
      else if c = info.matchOne then
        if (read string).1 = nul then none else skipRun info pattern (read string).2
      else some (c :: pattern, string)

def tryFrom (f : List Char → Outcome) : List Char → Outcome
  | [] => if f [] = .noMatch then .noWildcardMatch else f []
  | c :: string =>
      if f (c :: string) = .noMatch then
        if c = nul then .noWildcardMatch else tryFrom f string
      else f (c :: string)

def compare (info : CompareInfo) (matchOther : Char) : Nat → List Char → List Char → Outcome
  | 0, _, _ => .noMatch
  | _ + 1, [], string => if string = [] then .matched else .noMatch
  | fuel + 1, c :: pattern, string =>
      if c = nul then if string = [] then .matched else .noMatch
      else if c = info.matchAll then
        match skipRun info pattern string with
        | none => .noWildcardMatch
        | some (pattern, string) =>
            if (read pattern).1 = nul then .matched
            else if (read pattern).1 = matchOther ∧ info.matchSet = false then
              if (read (read pattern).2).1 = nul then .noWildcardMatch
              else tryFrom (compare info matchOther fuel (read pattern).2) string
            else tryFrom (compare info matchOther fuel pattern) string
      else if c = matchOther ∧ info.matchSet = true then
        match matchSet pattern string with
        | none => .noMatch
        | some (pattern, string) => compare info matchOther fuel pattern string
      else if c = matchOther then
        if (read pattern).1 = nul then .noMatch
        else if sameChar info (read pattern).1 (read string).1 then
          compare info matchOther fuel (read pattern).2 (read string).2
        else .noMatch
      else if sameChar info c (read string).1 ∨ c = info.matchOne ∧ (read string).1 ≠ nul then
        compare info matchOther fuel pattern (read string).2
      else .noMatch

def patternCompare (pattern string : List Char) (info : CompareInfo) (matchOther : Char) : Bool :=
  compare info matchOther (pattern.length + 1) pattern string = .matched

/-! ## The functions -/

def toText (n : Numerals) : Value → Option String
  | .null => none
  | .int i => some (toString i)
  | .real r => some (n.fpToText r)
  | .text s => some s
  | .blob b => some (fromUtf8Lossy b)

def parseEscape (n : Numerals) (escape : Value) : Result Char :=
  match (toText n escape).map String.toList with
  | some [c] => .ok c
  | _ => .error (.msg "ESCAPE expression must be a single character")

def boolVal (b : Bool) : Value := .int (if b then 1 else 0)

def like (n : Numerals) (pattern text : Value) (escape : Option Value) : Result Value := do
  match toText n pattern, toText n text with
  | some p, some t =>
      if escape = some .null then return .null
      let esc ← match escape with
        | none => pure nul
        | some e => parseEscape n e
      return boolVal (patternCompare p.toList t.toList likeInfo esc)
  | _, _ => return .null

def glob (n : Numerals) (pattern text : Value) : Value :=
  match toText n pattern, toText n text with
  | some p, some t => boolVal (patternCompare p.toList t.toList globInfo '[')
  | _, _ => .null

end Rustqlite.Func
