import Rustqlite.Foundation.Decimal
import Rustqlite.Foundation.Grammar
import Rustqlite.Types.Affinity
import Rustqlite.Types.Error

/-!
# JSON

The tree of a JSON text, the parser that builds it and the renderer that writes
it out.  The parser holds the bytes that are left in place of a position.  A
deeply nested text is parsed by the same function on a thread of its own.
-/

namespace Rustqlite.Func.Json

open Foundation

inductive JsonNode where
  | null
  | bool (b : Bool)
  | int (i : Int64)
  | real (r : UInt64)
  | string (s : String)
  | array (items : List JsonNode)
  | object (entries : List (String × JsonNode))

def jsonMaxDepth : Nat := 1000

/-! ## Bytes -/

def malformed {α : Type} (rest : Bytes) (msg : String) : Except Failure (α × Bytes) :=
  .error ⟨rest, "malformed JSON: " ++ msg⟩

/-- A byte as Rust prints the character of its number for a programmer. -/
def debugChar (b : UInt8) : String :=
  let shown :=
    if b = 0 then "\\0"
    else if b = '\t'.toUInt8 then "\\t"
    else if b = '\r'.toUInt8 then "\\r"
    else if b = '\n'.toUInt8 then "\\n"
    else if b = 0x27 then "\\'"
    else if b = '\\'.toUInt8 then "\\\\"
    else if b < 0x20 ∨ (0x7f ≤ b ∧ b ≤ 0xa0) ∨ b = 0xad then
      "\\u\x7b" ++ String.ofList (Nat.toDigits 16 b.toNat) ++ "\x7d"
    else String.singleton (Char.ofNat b.toNat)
  "'" ++ shown ++ "'"

def next? (c : Char) : Bytes → Option Bytes
  | [] => none
  | b :: rest => if b = c.toUInt8 then some rest else none

def expect (c : Char) : Parser Unit := fun rest =>
  match next? c rest with
  | some rest => .ok ((), rest)
  | none => malformed rest ("expected " ++ debugChar c.toUInt8)

def isWs (b : UInt8) : Bool :=
  b = ' '.toUInt8 || b = '\t'.toUInt8 || b = '\n'.toUInt8 || b = '\r'.toUInt8

def skipWs (rest : Bytes) : Bytes := rest.dropWhile isWs

def parseLiteral (lit : String) (value : JsonNode) : Parser JsonNode := fun rest =>
  if utf8Bytes lit <+: rest then .ok (value, rest.drop (utf8Bytes lit).length)
  else malformed rest ("expected '" ++ lit ++ "'")

/-! ## Strings -/

def hexDigit (b : UInt8) : Option Nat :=
  if '0'.toUInt8 ≤ b ∧ b ≤ '9'.toUInt8 then some (b.toNat - '0'.toNat)
  else if 'a'.toUInt8 ≤ b ∧ b ≤ 'f'.toUInt8 then some (b.toNat - 'a'.toNat + 10)
  else if 'A'.toUInt8 ≤ b ∧ b ≤ 'F'.toUInt8 then some (b.toNat - 'A'.toNat + 10)
  else none

def parse4Hex : Parser Nat
  | a :: b :: c :: d :: rest =>
      match hexDigit a, hexDigit b, hexDigit c, hexDigit d with
      | some a, some b, some c, some d => .ok (((a * 16 + b) * 16 + c) * 16 + d, rest)
      | _, _, _, _ => malformed rest "invalid hex digit in \\u escape"
  | rest => malformed rest "incomplete \\u escape"

def isHighSurrogate (cp : Nat) : Bool := 0xd800 ≤ cp && cp ≤ 0xdbff

def isLowSurrogate (cp : Nat) : Bool := 0xdc00 ≤ cp && cp ≤ 0xdfff

def charFromU32 (cp : Nat) : Option Char := if h : cp.isValidChar then some (Char.ofNatAux cp h)
    else none

/-- The code point of a surrogate pair. -/
def combined (hi lo : Nat) : Nat := 0x10000 + (hi - 0xd800) * 0x400 + (lo - 0xdc00)

/-- The code unit that has to follow a high surrogate. -/
def parseLowSurrogate : Parser Nat := fun rest =>
  match next? '\\' rest with
  | none => malformed rest "expected low surrogate"
  | some rest =>
      match next? 'u' rest with
      | none => malformed rest "expected '\\u' for low surrogate"
      | some rest => do
          let (lo, rest) ← parse4Hex rest
          if isLowSurrogate lo then .ok (lo, rest) else malformed rest "invalid low surrogate"

def pushCodePoint (cp : Nat) (msg : String) : Parser Char := fun rest =>
  match charFromU32 cp with
  | some c => .ok (c, rest)
  | none => malformed rest msg

def parseUnit (cp : Nat) : Parser Char := fun rest =>
  if isHighSurrogate cp then do
    let (lo, rest) ← parseLowSurrogate rest
    pushCodePoint (combined cp lo) "invalid surrogate pair" rest
  else if isLowSurrogate cp then malformed rest "unexpected low surrogate"
  else pushCodePoint cp "invalid codepoint" rest

def parseUnicode : Parser Char := fun rest => do
  let (cp, rest) ← parse4Hex rest
  parseUnit cp rest

def shortEscapes : List (Char × Char) :=
  [('"', '"'), ('\\', '\\'), ('/', '/'), ('b', Char.ofNat 0x08), ('f', Char.ofNat 0x0c),
    ('n', '\n'), ('r', '\r'), ('t', '\t')]

def parseEscape : Parser Char
  | [] => malformed [] "unterminated escape"
  | esc :: rest =>
      match shortEscapes.find? fun e => e.1.toUInt8 = esc with
      | some (_, c) => .ok (c, rest)
      | none =>
          if esc = 'u'.toUInt8 then parseUnicode rest
          else malformed rest "invalid escape character"

/-- One character, or all the characters up to the next that is ASCII. -/
def chunkLen (rest : Bytes) : Nat := max 1 (rest.takeWhile fun b => 0x80 ≤ b).length

/-- Every turn takes a byte, so that `fuel` is not used up. -/
def parseStringLoop : Nat → List Char → Parser String
  | 0, _, rest => malformed rest "unterminated string"
  | _, _, [] => malformed [] "unterminated string"
  | fuel + 1, out, b :: after =>
      if b = '"'.toUInt8 then .ok (String.ofList out, after)
      else if b = '\\'.toUInt8 then do
        let (c, rest) ← parseEscape after
        parseStringLoop fuel (out ++ [c]) rest
      else if b < 0x20 then malformed (b :: after) "unescaped control character in string"
      else
        let len := chunkLen (b :: after)
        match fromUtf8 ((b :: after).take len) with
        | some cs => parseStringLoop fuel (out ++ cs) ((b :: after).drop len)
        | none => malformed (b :: after) "invalid UTF-8 in string"

def parseString : Parser String := fun rest => do
  let ((), rest) ← expect '"' rest
  parseStringLoop (rest.length + 1) [] rest

/-! ## Numbers -/

structure NumberText where
  negative : Bool
  int : List Digit
  frac : Option (List Digit)
  /-- Whether it is negative, and its digits. -/
  exp : Option (Bool × List Digit)

def digit? (b : UInt8) : Option Digit :=
  if h : '0'.toNat ≤ b.toNat ∧ b.toNat ≤ '9'.toNat then
    some ⟨b.toNat - '0'.toNat, by
      have h1 : b.toNat ≤ 57 := h.2
      have h0 : '0'.toNat = 48 := rfl
      omega⟩
  else none

def scanDigits : Bytes → List Digit × Bytes
  | [] => ([], [])
  | b :: rest =>
      match digit? b with
      | some d => (d :: (scanDigits rest).1, (scanDigits rest).2)
      | none => ([], b :: rest)

def parseInteger : Parser (List Digit)
  | [] => malformed [] "expected digit in number"
  | b :: rest =>
      match digit? b with
      | some d =>
          if d = 0 then .ok ([0], rest)
          else .ok (d :: (scanDigits rest).1, (scanDigits rest).2)
      | none => malformed (b :: rest) "expected digit in number"

def parseDigits (msg : String) : Parser (List Digit) := fun rest =>
  match scanDigits rest with
  | ([], _) => malformed rest msg
  | (ds, rest) => .ok (ds, rest)

def parseFraction : Parser (Option (List Digit)) := fun rest =>
  match next? '.' rest with
  | none => .ok (none, rest)
  | some rest => do
      let (ds, rest) ← parseDigits "expected digit after '.'" rest
      return (some ds, rest)

def parseExponent : Parser (Option (Bool × List Digit)) := fun rest =>
  match (next? 'e' rest).or (next? 'E' rest) with
  | none => .ok (none, rest)
  | some rest => do
      let negative := (next? '-' rest).isSome
      let rest := ((next? '+' rest).or (next? '-' rest)).getD rest
      let (ds, rest) ← parseDigits "expected digit in exponent" rest
      return (some (negative, ds), rest)

/-- `str::parse::<f64>`, which takes every number that is written so. -/
def NumberText.toReal (n : NumberText) : UInt64 :=
  let frac := n.frac.getD []
  let exp : Int :=
    match n.exp with
    | none => 0
    | some (negative, ds) => if negative then -(ofDigits ds : Int) else ofDigits ds
  Double.ofDecimal n.negative (ofDigits (n.int ++ frac)) (exp - frac.length)

def NumberText.toInt (n : NumberText) : Int :=
  if n.negative then -(ofDigits n.int : Int) else ofDigits n.int

def NumberText.node (n : NumberText) : JsonNode :=
  if n.frac.isNone ∧ n.exp.isNone ∧ -2 ^ 63 ≤ n.toInt ∧ n.toInt < 2 ^ 63 then
    .int (Int64.ofInt n.toInt)
  else .real n.toReal

def parseNumber : Parser JsonNode := fun rest => do
  let negative := (next? '-' rest).isSome
  let rest := (next? '-' rest).getD rest
  let (int, rest) ← parseInteger rest
  let (frac, rest) ← parseFraction rest
  let (exp, rest) ← parseExponent rest
  return (NumberText.node ⟨negative, int, frac, exp⟩, rest)

/-! ## Arrays and objects -/

/-- The loop over the parts of an array or an object, up to what closes it. -/
def parseParts {α : Type} (part : Parser α) (close : Char) (msg : String) :
    Nat → List α → Parser (List α)
  | 0, _, rest => malformed rest msg
  | fuel + 1, parts, rest => do
      let (a, rest) ← part (skipWs rest)
      let parts := parts ++ [a]
      match next? ',' (skipWs rest), next? close (skipWs rest) with
      | some rest, _ => parseParts part close msg fuel parts rest
      | none, some rest => .ok (parts, rest)
      | none, none => malformed (skipWs rest) msg

def parseBracketed {α : Type} (part : Parser α) («open» close : Char) (msg : String) :
    Parser (List α) := fun rest => do
  let ((), rest) ← expect «open» rest
  match next? close (skipWs rest) with
  | some rest => .ok ([], rest)
  | none => parseParts part close msg (rest.length + 1) [] (skipWs rest)

def parseArray (value : Parser JsonNode) : Parser JsonNode := fun rest => do
  let (items, rest) ← parseBracketed value '[' ']' "expected ',' or ']' in array" rest
  return (.array items, rest)

def parseEntry (value : Parser JsonNode) : Parser (String × JsonNode) := fun rest =>
  if (next? '"' rest).isNone then malformed rest "expected '\"' for object key"
  else do
    let (key, rest) ← parseString rest
    match next? ':' (skipWs rest) with
    | none => malformed (skipWs rest) "expected ':' after object key"
    | some rest => do
        let (node, rest) ← value (skipWs rest)
        return ((key, node), rest)

def parseObject (value : Parser JsonNode) : Parser JsonNode := fun rest => do
  let (entries, rest) ←
    parseBracketed (parseEntry value) '{' '}' "expected ',' or '\x7d' in object" rest
  return (.object entries, rest)

/-! ## Values -/

def parseValue : Nat → Parser JsonNode
  | 0, rest => malformed rest "JSON nested too deeply"
  | _, [] => malformed [] "unexpected end of input"
  | room + 1, b :: after =>
      let rest := b :: after
      if b = '{'.toUInt8 then parseObject (parseValue room) rest
      else if b = '['.toUInt8 then parseArray (parseValue room) rest
      else if b = '"'.toUInt8 then do
        let (s, rest) ← parseString rest
        return (.string s, rest)
      else if b = 't'.toUInt8 then parseLiteral "true" (.bool true) rest
      else if b = 'f'.toUInt8 then parseLiteral "false" (.bool false) rest
      else if b = 'n'.toUInt8 then parseLiteral "null" .null rest
      else if b = '-'.toUInt8 ∨ (digit? b).isSome then parseNumber rest
      else malformed rest ("unexpected character " ++ debugChar b)

def parseBytes (bytes : Bytes) : Except Failure JsonNode := do
  let (node, rest) ← parseValue jsonMaxDepth (skipWs bytes)
  match skipWs rest with
  | [] => .ok node
  | rest => .error ⟨rest, "malformed JSON: extra text after JSON value"⟩

def parse (input : String) : Result JsonNode :=
  (parseBytes (utf8Bytes input)).mapError fun f => .msg f.message

/-! ## Rendering -/

def intText (i : Int64) : List Char :=
  (if i.toInt < 0 then ['-'] else []) ++
    (toDigits i.toInt.natAbs).map fun d : Digit => Char.ofNat ('0'.toNat + d)

def hexChar (n : Nat) : Char :=
  if n < 10 then Char.ofNat ('0'.toNat + n) else Char.ofNat ('a'.toNat + (n - 10))

def escapeChar (c : Char) : List Char :=
  if c = '"' then ['\\', '"']
  else if c = '\\' then ['\\', '\\']
  else if c = Char.ofNat 0x08 then ['\\', 'b']
  else if c = Char.ofNat 0x0c then ['\\', 'f']
  else if c = '\n' then ['\\', 'n']
  else if c = '\r' then ['\\', 'r']
  else if c = '\t' then ['\\', 't']
  else if c.toNat < 0x20 then
    ['\\', 'u', '0', '0', hexChar (c.toNat / 16), hexChar (c.toNat % 16)]
  else [c]

def renderString (s : String) : List Char := '"' :: s.toList.flatMap escapeChar ++ ['"']

section

variable (n : Numerals)

mutual

def renderInto : JsonNode → List Char
  | .null => "null".toList
  | .bool true => "true".toList
  | .bool false => "false".toList
  | .int i => intText i
  | .real r => (n.fpToText r).toList
  | .string s => renderString s
  | .array items => '[' :: renderItems true items ++ [']']
  | .object entries => '{' :: renderEntries true entries ++ ['}']

def renderItems : Bool → List JsonNode → List Char
  | _, [] => []
  | first, item :: items =>
      (if first then [] else [',']) ++ renderInto item ++ renderItems false items

def renderEntries : Bool → List (String × JsonNode) → List Char
  | _, [] => []
  | first, entry :: entries =>
      (if first then [] else [',']) ++ renderEntry entry ++ renderEntries false entries

def renderEntry : String × JsonNode → List Char
  | (key, value) => renderString key ++ ':' :: renderInto value

end

def render (node : JsonNode) : String := String.ofList (renderInto n node)

end

/-!
## The grammar of JSON

The rules of RFC 8259, each with what the phrase means.  A value has levels: as
many as there are arrays and objects around its innermost parts, and one more.
-/

def isSpace (c : Char) : Bool := c = ' ' || c = '\t' || c = '\n' || c = '\r'

def Spaces (w : List Char) : Prop := ∀ c ∈ w, isSpace c = true

/-! ## Strings -/

def hexValue (c : Char) : Option Nat :=
  if '0' ≤ c ∧ c ≤ '9' then some (c.toNat - '0'.toNat)
  else if 'a' ≤ c ∧ c ≤ 'f' then some (c.toNat - 'a'.toNat + 10)
  else if 'A' ≤ c ∧ c ≤ 'F' then some (c.toNat - 'A'.toNat + 10)
  else none

def codeUnit (a b c d : Char) : Option Nat := do
  let a ← hexValue a
  let b ← hexValue b
  let c ← hexValue c
  let d ← hexValue d
  return ((a * 16 + b) * 16 + c) * 16 + d

inductive CharText : Grammar Char
  | unescaped {c : Char} (hlow : 0x20 ≤ c.toNat) (hquote : c ≠ '"') (hslash : c ≠ '\\') :
      CharText [c] c
  | short {e c : Char} (h : (e, c) ∈ shortEscapes) : CharText ['\\', e] c
  | unicode {a b c d ch : Char} {u : Nat} (hu : codeUnit a b c d = some u)
      (hhigh : isHighSurrogate u = false) (hlow : isLowSurrogate u = false) (hch : ch.toNat = u) :
      CharText ['\\', 'u', a, b, c, d] ch
  | pair {a b c d a' b' c' d' ch : Char} {hi lo : Nat} (hhi : codeUnit a b c d = some hi)
      (hlo : codeUnit a' b' c' d' = some lo) (hhigh : isHighSurrogate hi = true)
      (hlow : isLowSurrogate lo = true) (hch : ch.toNat = combined hi lo) :
      CharText ['\\', 'u', a, b, c, d, '\\', 'u', a', b', c', d'] ch

inductive CharsText : Grammar (List Char)
  | nil : CharsText [] []
  | cons {cs ds unit : List Char} {c : Char} (hunit : CharText unit c) (hrest : CharsText cs ds) :
      CharsText (unit ++ cs) (c :: ds)

inductive StringText : Grammar String
  | mk {cs ds : List Char} (h : CharsText cs ds) :
      StringText ('"' :: cs ++ ['"']) (String.ofList ds)

/-! ## Numbers -/

def digitChar (d : Digit) : Char := Char.ofNat ('0'.toNat + d)

def spellDigits (ds : List Digit) : List Char := ds.map digitChar

inductive FractionText : Grammar (Option (List Digit))
  | none : FractionText [] none
  | some {ds : List Digit} (hne : ds ≠ []) : FractionText ('.' :: spellDigits ds) (some ds)

inductive SignText : Grammar Bool
  | none : SignText [] false
  | plus : SignText ['+'] false
  | minus : SignText ['-'] true

inductive ExponentText : Grammar (Option (Bool × List Digit))
  | none : ExponentText [] none
  | some {mark : Char} {sign : List Char} {negative : Bool} {ds : List Digit}
      (hmark : mark = 'e' ∨ mark = 'E') (hsign : SignText sign negative) (hne : ds ≠ []) :
      ExponentText (mark :: sign ++ spellDigits ds) (some (negative, ds))

def minusText (negative : Bool) : List Char := if negative then ['-'] else []

inductive NumberSpelled : Grammar NumberText
  | mk {negative : Bool} {int : List Digit} {frac : Option (List Digit)}
      {exp : Option (Bool × List Digit)} {f e : List Char} (hint : Canonical int)
      (hfrac : FractionText f frac) (hexp : ExponentText e exp) :
      NumberSpelled (minusText negative ++ (spellDigits int ++ (f ++ e))) ⟨negative, int, frac, exp⟩

/-! ## Arrays and objects -/

section

variable {α : Type}

inductive PartsText (part : Grammar α) : Grammar (List α)
  | one {w cs w' : List Char} {a : α} (hw : Spaces w) (hpart : part cs a) (hw' : Spaces w') :
      PartsText part (w ++ (cs ++ w')) [a]
  | cons {w cs w' rest : List Char} {a : α} {as : List α} (hw : Spaces w) (hpart : part cs a)
      (hw' : Spaces w') (hrest : PartsText part rest as) :
      PartsText part (w ++ (cs ++ (w' ++ ',' :: rest))) (a :: as)

inductive BracketedText (part : Grammar α) («open» close : Char) : Grammar (List α)
  | empty {w : List Char} (hw : Spaces w) : BracketedText part «open» close
        («open» :: w ++ [close]) []
  | parts {cs : List Char} {as : List α} (h : PartsText part cs as) :
      BracketedText part «open» close («open» :: cs ++ [close]) as

inductive EntryText (value : Grammar JsonNode) : Grammar (String × JsonNode)
  | mk {k w w' cs : List Char} {key : String} {node : JsonNode} (hkey : StringText k key)
      (hw : Spaces w) (hw' : Spaces w') (hvalue : value cs node) :
      EntryText value (k ++ (w ++ ':' :: (w' ++ cs))) (key, node)

end

/-! ## Values -/

/-- The values that have `inner` values for parts. -/
inductive LevelText (inner : Grammar JsonNode) : Grammar JsonNode
  | null : LevelText inner "null".toList .null
  | true : LevelText inner "true".toList (.bool true)
  | false : LevelText inner "false".toList (.bool false)
  | number {cs : List Char} {n : NumberText} (h : NumberSpelled cs n) : LevelText inner cs n.node
  | string {cs : List Char} {s : String} (h : StringText cs s) : LevelText inner cs (.string s)
  | array {cs : List Char} {items : List JsonNode} (h : BracketedText inner '[' ']' cs items) :
      LevelText inner cs (.array items)
  | object {cs : List Char} {entries : List (String × JsonNode)}
      (h : BracketedText (EntryText inner) '{' '}' cs entries) :
      LevelText inner cs (.object entries)

def ValueText : Nat → Grammar JsonNode
  | 0 => fun _ _ => False
  | levels + 1 => LevelText (ValueText levels)

inductive JsonText (levels : Nat) : Grammar JsonNode
  | mk {w cs w' : List Char} {node : JsonNode} (hw : Spaces w) (h : ValueText levels cs node)
      (hw' : Spaces w') : JsonText levels (w ++ (cs ++ w')) node

end Rustqlite.Func.Json
