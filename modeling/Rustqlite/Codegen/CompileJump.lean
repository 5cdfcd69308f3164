import Rustqlite.Codegen.Builder
import Rustqlite.Codegen.Where
import Rustqlite.Vdbe.Runs

/-!
# Compilation of conditions

A condition is compiled to jumps.  AND, OR and NOT are compiled by the order of
the jumps alone, with the sense of a jump and what becomes of NULL turned around
on the way down.
-/

namespace Rustqlite.Codegen

open Foundation Rustqlite.Parser Vdbe

variable {S W : Type}

abbrev CompileExpr (S W : Type) := ProgramBuilder → Expr S W → Int → Result ProgramBuilder

def affToP5 : Option Affinity → UInt8
  | none => 0
  | some .blob => 1
  | some .text => 2
  | some .numeric => 3
  | some .integer => 4
  | some .real => 5

def collationName : Collation → String
  | .binary => "BINARY"
  | .noCase => "NOCASE"
  | .rTrim => "RTRIM"

def opcodeOf : CmpOp → Opcode
  | .eq => .eq
  | .ne => .ne
  | .lt => .lt
  | .le => .le
  | .gt => .gt
  | .ge => .ge

def compileLiteral (b : ProgramBuilder) (lit : Literal) (target : Int) : ProgramBuilder :=
  match lit with
  | .null => (b.emit .null 0 target 0).2
  | .integer n =>
      if -2 ^ 31 ≤ n.toInt ∧ n.toInt < 2 ^ 31 then (b.emit .integer n.toInt target 0).2
      else
        let (i, b) := b.emit .int64 0 target 0
        b.setP4 i (.int n)
  | .real r =>
      let (i, b) := b.emit .real 0 target 0
      b.setP4 i (.real r.bits)
  | .text s =>
      let (i, b) := b.emit .string8 0 target 0
      b.setP4 i (.text s)
  | .blob bytes =>
      let (i, b) := b.emit .blob 0 target 0
      b.setP4 i (.blob bytes)
  | .bool bl => (b.emit .integer (if bl then 1 else 0) target 0).2

def compileExpr (other : CompileExpr S W) (b : ProgramBuilder) :
    Expr S W → Int → Result ProgramBuilder
  | .literal lit, target => .ok (compileLiteral b lit target)
  | .collate e _, target => compileExpr other b e target
  | e, target => other b e target
termination_by structural e => e

def compileOperand (compileExpr : CompileExpr S W) (b : ProgramBuilder) (e : Expr S W) :
    Result (Int × ProgramBuilder) := do
  let (r, b) := b.allocReg
  let b ← compileExpr b e r
  return (r, b)

def emitComparison (b : ProgramBuilder) (op : CmpOp) (p1 : Int) (label : Label) (p3 : Int)
    (p5 : UInt8) : ProgramBuilder :=
  let (idx, b) := b.emitJump (opcodeOf op) p1 label p3
  b.setP5 idx p5

def jumpIfNullP5 (aff : Option Affinity) (jumpIfNull : Bool) : UInt8 :=
  affToP5 aff ||| (if jumpIfNull then p5JumpIfNull else 0)

def compileTruth (compileExpr : CompileExpr S W) (b : ProgramBuilder) (e : Expr S W)
    (label : Label) (jumpIfTrue jumpIfNull : Bool) : Result ProgramBuilder := do
  let (r, b) ← compileOperand compileExpr b e
  let onNull := if jumpIfNull then 1 else 0
  return (b.emitJump (if jumpIfTrue then .if_ else .ifNot) r label onNull).2

namespace Ctx

variable (ctx : Ctx S W) (compileExpr : CompileExpr S W)

def compileBetween (b : ProgramBuilder) (e low high : Expr S W) (negated : Bool) (label : Label)
    (jumpIfTrue jumpIfNull : Bool) : Result ProgramBuilder := do
  let (r, b) ← compileOperand compileExpr b e
  let (lo, b) ← compileOperand compileExpr b low
  let (hi, b) ← compileOperand compileExpr b high
  let aff := (ctx.comparisonAffinity e low).or (ctx.comparisonAffinity e high)
  let p5 := jumpIfNullP5 aff jumpIfNull
  let p5Short := jumpIfNullP5 aff (!jumpIfNull)
  match negated, jumpIfTrue with
  | true, true =>
      let b := emitComparison b .lt lo label r p5
      return emitComparison b .gt hi label r p5
  | true, false =>
      let (d2, b) := b.newLabel
      let b := emitComparison b .lt lo d2 r p5Short
      let b := emitComparison b .le hi label r p5
      return b.resolve d2
  | false, true =>
      let (d2, b) := b.newLabel
      let b := emitComparison b .lt lo d2 r p5Short
      let b := emitComparison b .le hi label r p5
      return b.resolve d2
  | false, false =>
      let b := emitComparison b .lt lo label r p5
      return emitComparison b .gt hi label r p5

def compileComparison (b : ProgramBuilder) (op : CmpOp) (nulleq : Bool) (left right : Expr S W)
    (label : Label) (jumpIfTrue jumpIfNull : Bool) : Result ProgramBuilder := do
  let (rl, b) ← compileOperand compileExpr b left
  let (rr, b) ← compileOperand compileExpr b right
  let aff := ctx.comparisonAffinity left right
  let emitOp := if jumpIfTrue then op else negateCmp op
  let p5 := if nulleq then affToP5 aff ||| p5NullEq else jumpIfNullP5 aff jumpIfNull
  let idx := b.curAddr
  let b := emitComparison b emitOp rr label rl p5
  match ctx.comparisonCollation left right with
  | some coll => return b.setP4 idx (.symbol (collationName coll))
  | none => return b

def compileJump (b : ProgramBuilder) : Expr S W → Label → Bool → Bool → Result ProgramBuilder
  | .binary .and left right, label, true, jumpIfNull => do
      let (d2, b) := b.newLabel
      let b ← compileJump b left d2 false (!jumpIfNull)
      let b ← compileJump b right label true jumpIfNull
      return b.resolve d2
  | .binary .and left right, label, false, jumpIfNull => do
      let b ← compileJump b left label false jumpIfNull
      compileJump b right label false jumpIfNull
  | .binary .or left right, label, true, jumpIfNull => do
      let b ← compileJump b left label true jumpIfNull
      compileJump b right label true jumpIfNull
  | .binary .or left right, label, false, jumpIfNull => do
      let (d2, b) := b.newLabel
      let b ← compileJump b left d2 true (!jumpIfNull)
      let b ← compileJump b right label false jumpIfNull
      return b.resolve d2
  | .unary .not e, label, jumpIfTrue, jumpIfNull =>
      compileJump b e label (!jumpIfTrue) jumpIfNull
  | .between e low high negated, label, jumpIfTrue, jumpIfNull =>
      ctx.compileBetween compileExpr b e low high negated label jumpIfTrue jumpIfNull
  | .binary op left right, label, jumpIfTrue, jumpIfNull =>
      match cmpOpcode op with
      | some (opcode, nulleq) =>
          ctx.compileComparison compileExpr b opcode nulleq left right label jumpIfTrue jumpIfNull
      | none => compileTruth compileExpr b (.binary op left right) label jumpIfTrue jumpIfNull
  | e, label, jumpIfTrue, jumpIfNull =>
      compileTruth compileExpr b e label jumpIfTrue jumpIfNull
termination_by structural e => e

/-! ## Three-valued logic -/

def threeValued (value : Expr S W → Value) : Expr S W → Option Bool
  | .binary .and left right => and3 (threeValued value left) (threeValued value right)
  | .binary .or left right => or3 (threeValued value left) (threeValued value right)
  | .unary .not e => (threeValued value e).map (!·)
  | .between e low high negated =>
      let rules := ctx.betweenRules e low high
      let within := and3 (compareOperands ctx.numerals rules .ge (value e) (value low))
        (compareOperands ctx.numerals rules .le (value e) (value high))
      if negated then within.map (!·) else within
  | .binary op left right =>
      match cmpOpcode op with
      | some (cmp, nulleq) =>
          compareOperands ctx.numerals (ctx.binaryRules nulleq left right) cmp (value left)
            (value right)
      | none => truth ctx.numerals (value (.binary op left right))
  | e => truth ctx.numerals (value e)

end Ctx

def operands : Expr S W → List (Expr S W)
  | .binary .and left right | .binary .or left right => operands left ++ operands right
  | .unary .not e => operands e
  | .between e low high _ => [e, low, high]
  | .binary op left right =>
      if (Ctx.cmpOpcode op).isSome then [left, right] else [.binary op left right]
  | e => [e]

def jumpsOn (result : Option Bool) (jumpIfTrue jumpIfNull : Bool) : Bool :=
  match result with
  | some b => b = jumpIfTrue
  | none => jumpIfNull

end Rustqlite.Codegen
