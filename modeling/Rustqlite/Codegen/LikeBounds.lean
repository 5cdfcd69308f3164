import Rustqlite.Codegen.Where

/-!
# Bounds of a LIKE or GLOB pattern

What a pattern starts with, up to its first wildcard, bounds the texts that
match it: from that text on, up to the text with its last byte raised.
-/

namespace Rustqlite.Codegen

open Foundation Rustqlite.Parser Schema

variable {S W : Type}

inductive LikeKind where
  | like
  | glob
  deriving DecidableEq

namespace LikeKind

def wcAll : LikeKind → UInt8
  | .like => 0x25
  | .glob => 0x2a

def wcOne : LikeKind → UInt8
  | .like => 0x5f
  | .glob => 0x3f

def wcSet : LikeKind → UInt8
  | .like => 0
  | .glob => 0x5b

end LikeKind

/-! ## The bytes before the first wildcard -/

def byteAt (bytes : Bytes) (i : Nat) : UInt8 := bytes.getD i 0

def expectedLen (lead : UInt8) : Nat :=
  if 0xc0 ≤ lead ∧ lead ≤ 0xdf then 2
  else if 0xe0 ≤ lead ∧ lead ≤ 0xef then 3
  else if 0xf0 ≤ lead ∧ lead ≤ 0xf7 then 4
  else 1

/-- The code point that a multi-byte sequence spells. -/
def codepoint (seq : Bytes) : Nat :=
  let lead := (byteAt seq 0).toNat
  let bits := match seq.length with
    | 2 => lead % 0x20
    | 3 => lead % 0x10
    | 4 => lead % 0x08
    | _ => 0
  seq.tail.foldl (fun cp b => cp * 64 + b.toNat % 64) bits

def literalCount (kind : LikeKind) (escape : UInt8) (bytes : Bytes) : Nat → Nat → Nat × UInt8
  | 0, cnt => (cnt, 0)
  | fuel + 1, cnt =>
      let c := byteAt bytes cnt
      if c = 0 ∨ c = kind.wcAll ∨ c = kind.wcOne ∨ c = kind.wcSet ∧ kind = .glob then (cnt, c)
      else if escape ≠ 0 ∧ c = escape ∧ cnt + 1 < bytes.length ∧ byteAt bytes (cnt + 1) < 0x80 then
        literalCount kind escape bytes fuel (cnt + 2)
      else if c < 0x80 then literalCount kind escape bytes fuel (cnt + 1)
      else if c = 0xff then (cnt, c)
      else
        let seq := c :: (bytes.drop (cnt + 1)).takeWhile isContinuation
        if seq.length ≠ expectedLen c ∨ codepoint seq = 0xfffd then (cnt, c)
        else literalCount kind escape bytes fuel (cnt + seq.length)

def removeEscapes (escape : UInt8) : Bytes → Bytes
  | [] => []
  | [b] => if escape ≠ 0 ∧ b = escape then [] else [b]
  | b :: b' :: rest =>
      if escape ≠ 0 ∧ b = escape then b' :: removeEscapes escape rest
      else b :: removeEscapes escape (b' :: rest)

/-! ## The upper bound -/

def fromUtf8? (bytes : Bytes) : Option String :=
  let s := fromUtf8Lossy bytes
  if utf8Bytes s = bytes then some s else none

def latin1 (bytes : Bytes) : String := String.ofList (bytes.map fun b => Char.ofNat b.toNat)

/-- From the last byte on: `BF` is carried over, but not from the first byte. -/
def raiseLast : Bytes → Option Bytes
  | [] => none
  | [b] => if b = 0xff then none else some [b + 1]
  | b :: rest =>
      if b = 0xbf then (raiseLast rest).map (0x80 :: ·)
      else if b = 0xff then none
      else some ((b + 1) :: rest)

def incrementLastUtf8Byte (bytes : Bytes) : Option String :=
  (raiseLast bytes.reverse).map fun raised =>
    (fromUtf8? raised.reverse).getD (latin1 raised.reverse)

def asciiUpper (b : UInt8) : UInt8 := if 0x61 ≤ b ∧ b ≤ 0x7a then b - 32 else b

structure LikeBounds where
  lower : String
  upper : Option String
  isComplete : Bool
  deriving DecidableEq

def likeBounds (kind : LikeKind) (escape : UInt8) (noCase : Bool) (pattern : String) :
    Option LikeBounds :=
  if escape ≠ 0 ∧ (escape = kind.wcAll ∨ escape = kind.wcOne ∨ escape = kind.wcSet) then none
  else
    let bytes := utf8Bytes pattern
    let (cnt, c) := literalCount kind escape bytes (bytes.length + 1) 0
    if cnt = 0 then none
    else if cnt = 1 ∧ escape ≠ 0 ∧ byteAt bytes 0 = escape then none
    else if byteAt bytes (cnt - 1) = 0xff then none
    else
      let literal := removeEscapes escape (bytes.take cnt)
      if literal = [] ∨ literal.getLast? = some 0xff then none
      else
        let folded := if noCase then literal.map asciiUpper else literal
        let raised := incrementLastUtf8Byte folded
        let upper :=
          if noCase then raised.map fun s => fromUtf8Lossy ((utf8Bytes s).map asciiLower)
          else raised
        let ends := c = kind.wcAll ∧ (bytes.length ≤ cnt + 1 ∨ byteAt bytes (cnt + 1) = 0)
        -- Where the raised byte is `@` the range is not taken for the matches.
        let atSign := noCase ∧ upper.any fun s => (utf8Bytes s).getLast? = some 0x40
        some ⟨fromUtf8Lossy folded, upper, ends ∧ ¬atSign⟩

/-! ## The terms that are optimised -/

structure LikeOpt (S W : Type) where
  column : String
  lower : String
  upper : Option String
  isComplete : Bool
  likeTerm : Expr S W

def likeOperands : Expr S W → Option (LikeKind × Expr S W × Expr S W × UInt8)
  | .binary .like left right => some (.like, left, right, 0)
  | .binary .glob left right => some (.glob, left, right, 0)
  | .function name _ (.list args) _ _ =>
      if name = "like" ∨ name = "glob" then
        let kind := if name = "like" then LikeKind.like else .glob
        match args with
        | [pattern, text] => some (kind, text, pattern, 0)
        | [pattern, text, .literal (.text s)] =>
            match utf8Bytes s with
            | [b] => some (kind, text, pattern, b)
            | _ => none
        | _ => none
      else none
  | _ => none

def analyzeLikeTerm (table : Table) (caseSensitiveLike : Bool) (e : Expr S W) :
    Option (LikeOpt S W) := do
  let (kind, text, pattern, escape) ← likeOperands e
  let col ← columnName text
  let i ← table.columnIndex col
  if table.affinityAt i ≠ .text then none
  else
    match pattern with
    | .literal (.text p) =>
        let noCase : Bool := kind = .like && !caseSensitiveLike
        if table.collationAt i ≠ (if noCase then .noCase else .binary) then none
        else do
          let bounds ← likeBounds kind escape noCase p
          return ⟨col, bounds.lower, bounds.upper, bounds.isComplete, e⟩
    | _ => none

def collectLikeOpts (table : Table) (caseSensitiveLike : Bool) :
    Option (Expr S W) → List (LikeOpt S W)
  | none => []
  | some w => (flattenAnd w).filterMap (analyzeLikeTerm table caseSensitiveLike)

end Rustqlite.Codegen
