import Rustqlite.Codegen.ThreeValued
import Rustqlite.Parser.Select
import Rustqlite.Vdbe.TableCursor

/-!
# Joins of two tables

A join is compiled to a loop within a loop.  A flag tells whether a row of the
outer table has found a partner, and a FULL JOIN goes through the inner table
once more.  There is no ORDER BY and no LIMIT here, and the code of an
expression other than a column is a parameter.
-/

namespace Rustqlite.Codegen.Join

open Foundation Rustqlite.Parser Schema Vdbe

abbrev SqlExpr := Expr Select Window

/-- A table of the join under the name it has there.  `position` is where a column stands in the
record, which begins with the key in a table without rowids; `keyInfo` describes that key. -/
structure JoinTable where
  table : Table
  name : String
  rootpage : Int
  keyInfo : List KeyField
  position : ℕ → ℕ
  columns_ne_nil : table.columns ≠ []
  rowidAlias_eq_none : table.withoutRowid = true → table.rowidAlias = none

structure ExprCode where
  other : CompileExpr Select Window
  jump : ProgramBuilder → SqlExpr → Label → Bool → Bool → Result ProgramBuilder

/-! ## Columns -/

section

variable (outer inner : JoinTable)

/-- The table of a column, with its cursor: the first under the qualifier, or the first that has
the name. -/
def resolveTable (qualifier : Option String) (name : String) : Option (Int × JoinTable) :=
  [((0 : Int), outer), (1, inner)].find? fun t =>
    match qualifier with
    | some q => eqIgnoreAsciiCase t.2.name q
    | none => (t.2.table.resolveColumn name).isSome

def resolveColumn (qualifier : Option String) (name : String) :
    Option (Int × JoinTable × ColumnRef) :=
  (resolveTable outer inner qualifier name).bind fun t =>
    (t.2.table.resolveColumn name).map fun column => (t.1, t.2, column)

def columnName (qualifier : Option String) (name : String) : String :=
  match qualifier with
  | some q => q ++ "." ++ name
  | none => name

def compileColumn (b : ProgramBuilder) (qualifier : Option String) (name : String) (target : Int) :
    Result ProgramBuilder :=
  match resolveColumn outer inner qualifier name with
  | some (cursor, _, .rowid) => .ok (b.emit .rowid cursor target 0).2
  | some (cursor, t, .index i) =>
      let b := (b.emit .column cursor (t.position i) target).2
      if t.table.affinityAt i = .real then .ok (b.emit .realAffinity target 0 0).2 else .ok b
  | none => .error (.msg ("no such column: " ++ columnName qualifier name))

def compileExpr (other : CompileExpr Select Window) (b : ProgramBuilder) (e : SqlExpr)
    (target : Int) : Result ProgramBuilder :=
  match e with
  | .column _ qualifier name => compileColumn outer inner b qualifier name target
  | e => other b e target

variable (code : ExprCode)

/-! ## The result columns -/

def columnExprFor (table name : String) : SqlExpr := .column none (some table) name

def expandTable (t : JoinTable) : List SqlExpr :=
  t.table.columns.map fun col => columnExprFor t.name col.name

def expandColumn (tables : List JoinTable) : ResultColumn → Result (List SqlExpr)
  | .star => .ok (tables.flatMap expandTable)
  | .tableStar qname =>
      match tables.find? fun t => eqIgnoreAsciiCase t.name qname with
      | some t => .ok (expandTable t)
      | none => .error (.msg ("no such table: " ++ qname))
  | .expr e _ => .ok [e]

def expandColumnsWithTables (select : Select) (tables : List JoinTable) :
    Result (List SqlExpr) := do
  let outputs ← select.columns.mapM (expandColumn tables)
  if outputs.flatten.isEmpty then .error (.msg "no result columns") else return outputs.flatten

def compileOutputs (b : ProgramBuilder) : List SqlExpr → Int → Result ProgramBuilder
  | [], _ => .ok b
  | e :: es, target => do
      let b ← compileExpr outer inner code.other b e target
      compileOutputs b es (target + 1)

/-! ## The loops -/

variable (onPredicate whereClause : Option SqlExpr) (outputs : List SqlExpr)

def compileUnless (b : ProgramBuilder) (condition : Option SqlExpr) (label : Label) :
    Result ProgramBuilder :=
  match condition with
  | some e => code.jump b e label false true
  | none => .ok b

def emitRow (b : ProgramBuilder) (skip : Label) : Result ProgramBuilder := do
  let b ← compileUnless code b whereClause skip
  let (resultReg, b) := b.allocRegs outputs.length
  let b ← compileOutputs outer inner code b outputs resultReg
  return (b.emit .resultRow resultReg outputs.length 0).2

def setFlag (b : ProgramBuilder) (flag : Option Int) (v : Int) : ProgramBuilder :=
  match flag with
  | some mf => (b.emit .integer v mf 0).2
  | none => b

def emitInnerLoop (b : ProgramBuilder) (flag : Option Int) : Result ProgramBuilder := do
  let (loopB, b) := b.newLabel
  let b := b.resolve loopB
  let (nextB, b) := b.newLabel
  let b ← compileUnless code b onPredicate nextB
  let b := setFlag b flag 1
  let b ← emitRow outer inner code whereClause outputs b nextB
  let b := b.resolve nextB
  return (b.emitJump .next 1 loopB 0).2

def emitNullRow (b : ProgramBuilder) (flag : Int) (cursor : Int) : Result ProgramBuilder := do
  let (skip, b) := b.newLabel
  let b := (b.emitJump .if_ flag skip 0).2
  let b := (b.emit .nullRow cursor 0 0).2
  let b ← emitRow outer inner code whereClause outputs b skip
  return b.resolve skip

def emitOuterBody (b : ProgramBuilder) (leftJoin : Bool) : Result ProgramBuilder := do
  let (flag, b) :=
    if leftJoin then
      let (mf, b) := b.allocReg
      (some mf, b)
    else (none, b)
  let b := setFlag b flag 0
  let (nextA, b) := b.newLabel
  let (noMatch, b) := b.newLabel
  let b := (b.emitJump .rewind 1 (if leftJoin then noMatch else nextA) 0).2
  let b ← emitInnerLoop outer inner code onPredicate whereClause outputs b flag
  let b ← match flag with
    | some mf => emitNullRow outer inner code whereClause outputs (b.resolve noMatch) mf 1
    | none => .ok b
  return b.resolve nextA

def emitOuterLoop (b : ProgramBuilder) (leftJoin : Bool) : Result ProgramBuilder := do
  let (loopA, b) := b.newLabel
  let b := b.resolve loopA
  let b ← emitOuterBody outer inner code onPredicate whereClause outputs b leftJoin
  return (b.emitJump .next 0 loopA 0).2

/-! ## The second pass of a FULL JOIN -/

/-- The test of one row of the outer table: from the first partner on the search is over. -/
def emitTest (b : ProgramBuilder) (flag : Int) (leftEmpty rjInner : Label) :
    Result ProgramBuilder :=
  match onPredicate with
  | some e => do
      let (onMatch, b) := b.newLabel
      let b ← code.jump b e onMatch true false
      let b := (b.emitJump .next 0 rjInner 0).2
      let b := (b.emitJump .goto 0 leftEmpty 0).2
      let b := b.resolve onMatch
      let b := (b.emit .integer 1 flag 0).2
      return (b.emitJump .goto 0 leftEmpty 0).2
  | none =>
      let b := (b.emit .integer 1 flag 0).2
      .ok (b.emitJump .goto 0 leftEmpty 0).2

def emitSearch (b : ProgramBuilder) (flag : Int) : Result ProgramBuilder := do
  let b := (b.emit .integer 0 flag 0).2
  let (leftEmpty, b) := b.newLabel
  let b := (b.emitJump .rewind 0 leftEmpty 0).2
  let (rjInner, b) := b.newLabel
  let b := b.resolve rjInner
  let b ← emitTest code onPredicate b flag leftEmpty rjInner
  return b.resolve leftEmpty

/-- The loop over the inner table that extends the rows without a partner. -/
def emitRightPass (b : ProgramBuilder) : Result ProgramBuilder := do
  let (rjMatch, b) := b.allocReg
  let (endRj, b) := b.newLabel
  let b := (b.emitJump .rewind 1 endRj 0).2
  let (rjOuter, b) := b.newLabel
  let b := b.resolve rjOuter
  let b ← emitSearch code onPredicate b rjMatch
  let b ← emitNullRow outer inner code whereClause outputs b rjMatch 0
  let b := (b.emitJump .next 1 rjOuter 0).2
  return b.resolve endRj

/-! ## The program -/

def openTable (b : ProgramBuilder) (cursor : Int) (t : JoinTable) : ProgramBuilder :=
  let (idx, b) := b.emit .openRead cursor t.rootpage 0
  b.setP4 idx (if t.table.withoutRowid then .keyInfo t.keyInfo
    else .int (Int64.ofNat t.table.columns.length))

def compileCrossJoin (leftJoin fullJoin : Bool) : Result (Option (List Instruction)) := do
  let (setup, b) := ProgramBuilder.new.newLabel
  let b := (b.emitJump .init 0 setup 0).2
  let afterInit := b.curAddr
  let b := openTable (openTable b 0 outer) 1 inner
  let (endLabel, b) := b.newLabel
  let b := (b.emitJump .rewind 0 endLabel 0).2
  let b ← emitOuterLoop outer inner code onPredicate whereClause outputs b leftJoin
  let b ←
    (if fullJoin then emitRightPass outer inner code onPredicate whereClause outputs b
      else .ok b : Result ProgramBuilder)
  let b := b.resolve endLabel
  let b := (b.emit .halt 0 0 0).2
  let b := b.resolve setup
  let b := (b.emit .transaction 0 0 0).2
  let b := (b.emit .goto 0 afterInit 0).2
  return b.finish

end

/-! ## The kinds of joins -/

def isLeftJoin : List TableOrJoin → Bool
  | .join op _ _ _ :: _ => op = .left || op = .leftOuter || op = .naturalLeft
  | _ => false

def isRightJoin : List TableOrJoin → Bool
  | .join op _ _ _ :: _ => op = .right || op = .rightOuter || op = .naturalRight
  | _ => false

def isFullJoin : List TableOrJoin → Bool
  | .join op _ _ _ :: _ => op = .full || op = .fullOuter || op = .naturalFull
  | _ => false

def swapForRightJoin (tables : JoinTable × JoinTable) («from» : List TableOrJoin) :
    JoinTable × JoinTable :=
  if isRightJoin «from» then tables.swap else tables

def joinOrder (select : Select) (tables : JoinTable × JoinTable) : JoinTable × JoinTable :=
  if isFullJoin select.from then tables else swapForRightJoin tables select.from

def compileJoin (code : ExprCode) (select : Select) (tables : JoinTable × JoinTable)
    (onPredicate : Option SqlExpr) : Result (Option (List Instruction)) := do
  let rightJoin := isRightJoin select.from
  let fullJoin := isFullJoin select.from
  let leftJoin := isLeftJoin select.from || rightJoin || fullJoin
  let order := joinOrder select tables
  let outputs ← expandColumnsWithTables select [tables.1, tables.2]
  compileCrossJoin order.1 order.2 code onPredicate select.whereClause outputs leftJoin fullJoin

end Rustqlite.Codegen.Join
