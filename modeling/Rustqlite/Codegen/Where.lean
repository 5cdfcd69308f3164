import Rustqlite.Schema.Table
import Rustqlite.Vdbe.Comparison

/-!
# Conditions as jumps

A condition is compiled to code that jumps.  Here that code is given by what it
does on a row: the value that an expression leaves in its register, and whether
the jump is taken.
-/

namespace Rustqlite.Codegen

open Foundation Rustqlite.Parser Schema Vdbe

/--
Where an expression is compiled.  `outer` resolves the names of the enclosing
queries, and `otherValue` is what the code of the expressions that are not
followed here leaves in its register.  No value is an error.
-/
structure Ctx (S W : Type) where
  table : Table
  numerals : Numerals
  outer : Option String → String → Option (Value × Collation)
  otherValue : Expr S W → Row → Option Value

variable {S W : Type}

def literalToValue : Literal → Value
  | .null => .null
  | .integer n => .int n
  | .real r => .real r.bits
  | .text s => .text s
  | .blob b => .blob b
  | .bool b => .int (if b then 1 else 0)

def constNegate : Expr S W → Option Literal
  | .literal (.integer n) => if n = Int64.minValue then none else some (.integer (-n))
  | .literal (.real r) => some (.real ⟨Double.negate r.bits, by simp [r.notNaN]⟩)
  | _ => none

namespace Ctx

variable (ctx : Ctx S W)

def readColumn (row : Row) (qualifier : Option String) (name : String) : Option Value :=
  match row.read ctx.table name with
  | some v => some v
  | none => (ctx.outer qualifier name).map Prod.fst

def exprValue (row : Row) : Expr S W → Option Value
  | .literal lit => some (literalToValue lit)
  | .column _ table name => ctx.readColumn row table name
  | .unary .negate e =>
      match constNegate e with
      | some lit => some (literalToValue lit)
      | none => (exprValue row e).map (subtractFromZero ctx.numerals)
  | .unary .positive e => exprValue row e
  | .collate e _ => exprValue row e
  -- Bind parameters are not compiled.
  | .bindParam _ => none
  | e => ctx.otherValue e row

/-! ## Affinity and collation of a comparison -/

def exprAffinity : Expr S W → Option Affinity
  | .column _ _ name =>
      match ctx.table.resolveColumn name with
      | some (.index i) => some (ctx.table.affinityAt i)
      | some .rowid => some .integer
      | none => none
  | _ => none

def isNumeric : Affinity → Bool
  | .integer | .real | .numeric => true
  | _ => false

def comparisonAffinity (left right : Expr S W) : Option Affinity :=
  match ctx.exprAffinity left, ctx.exprAffinity right with
  | some a, some b => if isNumeric a || isNumeric b then some .numeric else none
  | some a, none => some a
  | none, some b => some b
  | none, none => none

def declared (c : Collation) : Option Collation := if c = .binary then none else some c

def columnCollation : ColumnRef → Option Collation
  | .index i => declared (ctx.table.collationAt i)
  | .rowid => none

def resolveColumnCollation (qualifier : Option String) (name : String) : Option Collation :=
  if qualifier.any fun q => !eqIgnoreAsciiCase ctx.table.name q then none
  else
    match ctx.table.resolveColumn name with
    | some cr => ctx.columnCollation cr
    | none => (ctx.outer qualifier name).bind fun found => declared found.2

def collationFromName (name : String) : Option Collation :=
  if eqIgnoreAsciiCase name "binary" then some .binary
  else if eqIgnoreAsciiCase name "nocase" then some .noCase
  else if eqIgnoreAsciiCase name "rtrim" then some .rTrim
  else none

def exprCollation : Expr S W → Option Collation
  | .collate e name => (collationFromName name).or (exprCollation e)
  | .column _ table name => ctx.resolveColumnCollation table name
  | _ => none

def comparisonCollation (left right : Expr S W) : Option Collation :=
  match ctx.exprCollation left, ctx.exprCollation right with
  | some c, _ => declared c
  | none, some c => declared c
  | none, none => none

/-! ## Jumps -/

def cmpOpcode : BinaryOp → Option (CmpOp × Bool)
  | .eq => some (.eq, false)
  | .ne => some (.ne, false)
  | .lt => some (.lt, false)
  | .le => some (.le, false)
  | .gt => some (.gt, false)
  | .ge => some (.ge, false)
  | .is => some (.eq, true)
  | .isNot => some (.ne, true)
  | _ => none

def binaryRules (nulleq : Bool) (left right : Expr S W) : CompareRules where
  affinity := ctx.comparisonAffinity left right
  collation := (ctx.comparisonCollation left right).getD .binary
  nulleq := nulleq

def betweenRules (expr low high : Expr S W) : CompareRules where
  affinity := (ctx.comparisonAffinity expr low).or (ctx.comparisonAffinity expr high)
  collation := .binary
  nulleq := false

def comparisonJumps (op : CmpOp) (rules : CompareRules) (left right : Value)
    (jumpIfTrue jumpIfNull : Bool) : Bool :=
  (compareOperands ctx.numerals rules (if jumpIfTrue then op else negateCmp op) left right).getD
      jumpIfNull

def betweenJumps (rules : CompareRules) (r lo hi : Value) (negated jumpIfTrue jumpIfNull : Bool) :
    Bool :=
  let test op v onNull := (compareOperands ctx.numerals rules op r v).getD onNull
  if negated = jumpIfTrue then test .lt lo jumpIfNull || test .gt hi jumpIfNull
  else !test .lt lo (!jumpIfNull) && test .le hi jumpIfNull

/-- `If` and `IfNot` -/
def valueJumps (v : Value) (jumpIfTrue jumpIfNull : Bool) : Bool :=
  match truth ctx.numerals v with
  | some b => if jumpIfTrue then b else !b
  | none => jumpIfNull

def jumps (row : Row) : Expr S W → Bool → Bool → Option Bool
  | .binary .and left right, true, jumpIfNull => do
      if ← jumps row left false (!jumpIfNull) then return false
      jumps row right true jumpIfNull
  | .binary .and left right, false, jumpIfNull => do
      if ← jumps row left false jumpIfNull then return true
      jumps row right false jumpIfNull
  | .binary .or left right, true, jumpIfNull => do
      if ← jumps row left true jumpIfNull then return true
      jumps row right true jumpIfNull
  | .binary .or left right, false, jumpIfNull => do
      if ← jumps row left true (!jumpIfNull) then return false
      jumps row right false jumpIfNull
  | .unary .not e, jumpIfTrue, jumpIfNull => jumps row e (!jumpIfTrue) jumpIfNull
  | .between e low high negated, jumpIfTrue, jumpIfNull => do
      let r ← ctx.exprValue row e
      let lo ← ctx.exprValue row low
      let hi ← ctx.exprValue row high
      return ctx.betweenJumps (ctx.betweenRules e low high) r lo hi negated jumpIfTrue jumpIfNull
  | .binary op left right, jumpIfTrue, jumpIfNull =>
      match cmpOpcode op with
      | some (opcode, nulleq) => do
          let l ← ctx.exprValue row left
          let r ← ctx.exprValue row right
          -- Where NULL is comparable no comparison is unknown.
          return ctx.comparisonJumps opcode (ctx.binaryRules nulleq left right) l r jumpIfTrue
            (!nulleq && jumpIfNull)
      | none => do
          let v ← ctx.otherValue (.binary op left right) row
          return ctx.valueJumps v jumpIfTrue jumpIfNull
  | e, jumpIfTrue, jumpIfNull => do
      let v ← ctx.exprValue row e
      return ctx.valueJumps v jumpIfTrue jumpIfNull

/-- WHERE is compiled to a jump over the row, which an unknown condition takes too. -/
def Passes (row : Row) (w : Expr S W) : Prop := ctx.jumps row w false true = some false

end Ctx

/-!
## Range constraints

The planner reads constraints on columns off WHERE: a comparison of a column
with a constant, in either order, or a BETWEEN.
-/

variable {S W : Type}

inductive RangeOp where
  | eq
  | gt
  | ge
  | lt
  | le
  | isNull
  deriving DecidableEq

def RangeOp.isEquality : RangeOp → Bool
  | .eq | .isNull => true
  | _ => false

structure RangeKey where
  column : String
  op : RangeOp
  value : Value
  deriving DecidableEq

def columnName : Expr S W → Option String
  | .column _ _ name => some name
  | _ => none

def constValue : Expr S W → Result (Option Value)
  | .literal lit => .ok (some (literalToValue lit))
  | .bindParam _ => .ok (some .null)
  | .unary .negate e => do
      match ← constValue e with
      | some (.int i) =>
          if i = Int64.minValue then .error (.panic "attempt to negate with overflow")
          else .ok (some (.int (-i)))
      | some (.real r) => .ok (some (.real (Double.negate r)))
      | _ => .ok none
  | _ => .ok none

def rangeOp : BinaryOp → Option RangeOp
  | .eq => some .eq
  | .gt => some .gt
  | .ge => some .ge
  | .lt => some .lt
  | .le => some .le
  | _ => none

def comparisonKey (col : String) (op : RangeOp) (val : Expr S W) : Result (Option RangeKey) := do
  match ← constValue val with
  | none => return none
  | some value => return if value = .null ∧ op = .eq then none else some ⟨col, op, value⟩

def asRangeKey : Expr S W → Result (Option RangeKey)
  | .binary .is left right =>
      match columnName left, columnName right with
      | some col, _ => do return (← constValue right).map fun v => isKey col v
      | none, some col => do return (← constValue left).map fun v => isKey col v
      | none, none => .ok none
  | .binary .isNot left right => do
      match ← constValue right with
      | some .null => return (columnName left).map fun col => ⟨col, .gt, .null⟩
      | _ => return none
  | .binary op left right =>
      match rangeOp op with
      | none => .ok none
      | some op =>
          match columnName left, columnName right with
          | some col, _ => comparisonKey col op right
          -- The operator is not turned around for a constant that comes first.
          | none, some col => comparisonKey col op left
          | none, none => .ok none
  | _ => .ok none
where
  isKey (col : String) (v : Value) : RangeKey :=
    if v = .null then ⟨col, .isNull, v⟩ else ⟨col, .eq, v⟩

def flattenAnd : Expr S W → List (Expr S W)
  | .binary .and left right => flattenAnd left ++ flattenAnd right
  | e => [e]

def betweenKeys (e low high : Expr S W) : Result (List RangeKey) :=
  match columnName e with
  | none => .ok []
  | some col => do
      let lo ← constValue low
      let hi ← constValue high
      return (lo.map fun v => ⟨col, .ge, v⟩).toList ++ (hi.map fun v => ⟨col, .le, v⟩).toList

def conjunctKeys : Expr S W → Result (List RangeKey)
  | .between e low high false => betweenKeys e low high
  | e => do return (← asRangeKey e).toList

def flattenAndCollectRange : Expr S W → Result (List RangeKey)
  | .binary .and left right => do
      return (← flattenAndCollectRange left) ++ (← flattenAndCollectRange right)
  | e => conjunctKeys e

def collectWhereRangeConstraints : Option (Expr S W) → Result (List RangeKey)
  | none => .ok []
  | some w => flattenAndCollectRange w

end Rustqlite.Codegen
