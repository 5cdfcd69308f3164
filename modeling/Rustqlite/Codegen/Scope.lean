import Rustqlite.Codegen.IndexOrder
import Rustqlite.Parser.Select

/-!
# Names in nested statements

The expressions of a statement, one under another, and how a column name that
the innermost FROM clause does not know is looked up in the enclosing ones.
-/

namespace Rustqlite.Codegen

open Foundation Rustqlite.Parser Schema

/-! ## The expressions under an expression -/

section

variable {S W : Type}

def argsList : FunctionArgs S W → List (Expr S W)
  | .star => []
  | .list args => args

/-- The operands of an expression, without the FILTER and the window of a call. -/
def children : Expr S W → List (Expr S W)
  | .unary _ e | .cast e _ | .collate e _ | .inSubquery e _ _ => [e]
  | .binary _ left right | .isDistinctFrom left right _ | .coalesce2 left right => [left, right]
  | .between e low high _ => [e, low, high]
  | .in e values _ => e :: values
  | .row values => values
  | .case base whenThen elseExpr =>
      base.toList ++ whenThen.flatMap (fun p => [p.1, p.2]) ++ elseExpr.toList
  | .function _ _ args _ _ => argsList args
  | .literal _ | .column .. | .bindParam _ | .exists _ | .subquery _ | .aggRef _ => []

def filterOf : Expr S W → Option (Expr S W)
  | .function _ _ _ filter _ => filter
  | _ => none

def windowOf : Expr S W → Option W
  | .function _ _ _ _ «over» => «over»
  | _ => none

def subselectOf : Expr S W → Option S
  | .inSubquery _ s _ | .exists s | .subquery s => some s
  | _ => none

end

/-! ## The expressions of a statement -/

def walkFrameBound : FrameBound → List (Expr Select Window)
  | .preceding e | .following e => [e]
  | _ => []

def walkWindow (w : Window) : List (Expr Select Window) :=
  if w.name.isSome then []
  else
    w.partitionBy ++ w.orderBy.map OrderingTerm.expr ++
      (w.frame.map fun f =>
        walkFrameBound f.start ++ (f.end.map walkFrameBound).getD []).getD []

def resultExpr : ResultColumn → Option (Expr Select Window)
  | .expr e _ => some e
  | .star | .tableStar _ => none

def walkSelectExpr (select : Select) : List (Expr Select Window) :=
  select.columns.filterMap resultExpr ++ select.whereClause.toList ++ select.groupBy ++
    select.having.toList ++ select.orderBy.map OrderingTerm.expr ++ select.limit.toList ++
    select.offset.toList ++ select.values.flatten

/-! ## The result columns -/

section

-- `expr_to_text` makes up names for what has none
variable (exprToText : Expr Select Window → String)

def defaultColName : Expr Select Window → String
  | .column _ _ name => name
  | e => exprToText e

def columnExpr (name : String) : Expr Select Window := .column none none name

def resultOutputs (table : Table) : ResultColumn → List (Expr Select Window × String)
  | .star | .tableStar _ => table.columns.map fun c => (columnExpr c.name, c.name)
  | .expr e «alias» => [(e, «alias».getD (defaultColName exprToText e))]

end

/-! ## The enclosing scopes -/

structure OuterTable where
  table : Table
  cursor : Int
  name : String
  deriving DecidableEq

abbrev OuterScope := List (List OuterTable)

def OuterTable.lookup (qualifier : Option String) (name : String) (t : OuterTable) :
    Option (OuterTable × ColumnRef) :=
  if qualifier.all (eqIgnoreAsciiCase t.name) then
    (t.table.resolveColumn name).map fun ref => (t, ref)
  else none

/-- Of several matches in one scope the last is taken.  Only a bare name goes on outwards. -/
def lookupOuter : OuterScope → Option String → String → Option (OuterTable × ColumnRef)
  | [], _, _ => none
  | tables :: parents, qualifier, name =>
      match (tables.filterMap (OuterTable.lookup qualifier name)).getLast? with
      | some found => some found
      | none => if qualifier.isSome then none else lookupOuter parents qualifier name

def outerCursorBase : Int := 10000

/-- A statement over one table is a scope in which the table has no name. -/
def singleOuterTable (table : Table) : List OuterTable := [⟨table, outerCursorBase, ""⟩]

def emptyTable : Table := ⟨"", [], none, false⟩

def valuesColumn (qualifier : Option String) (name : String) : Nat :=
  let full := match qualifier with
    | none => name
    | some q => q ++ "." ++ name
  if full.startsWith "column" then parseUsize (full.toList.drop 6) else 0
where
  parseUsize : List Char → Nat
    | '+' :: cs => parseDigits cs
    | cs => parseDigits cs
  parseDigits (cs : List Char) : Nat :=
    if cs ≠ [] ∧ cs.all Char.isDigit then
      let n := cs.foldl (fun n c => 10 * n + (c.toNat - '0'.toNat)) 0
      if n < 2 ^ 64 then n else 0
    else 0

end Rustqlite.Codegen
