import Rustqlite.Parser.Ast

/-!
# SELECT

A SELECT as the parser builds it, with the statements that are nested in its
expressions, its FROM clause, its compound arms and its common table
expressions.
-/

namespace Rustqlite.Parser

inductive CompoundOperator where
  | union
  | unionAll
  | intersect
  | except
  deriving DecidableEq

inductive IndexedBy where
  | index (name : String)
  | notIndexed
  deriving DecidableEq

inductive JoinOp where
  | inner
  | cross
  | natural
  | naturalLeft
  | naturalRight
  | naturalFull
  | left
  | leftOuter
  | right
  | rightOuter
  | full
  | fullOuter
  deriving DecidableEq

inductive FrameMode where
  | rows
  | range
  | groups
  deriving DecidableEq

inductive FrameExclude where
  | noOthers
  | currentRow
  | group
  | ties
  deriving DecidableEq

mutual

structure Select : Type where
  distinct : Bool
  columns : List ResultColumn
  «from» : List TableOrJoin
  whereClause : Option (Expr Select Window)
  groupBy : List (Expr Select Window)
  having : Option (Expr Select Window)
  compound : List (CompoundOperator × Select)
  orderBy : List (OrderingTerm Select Window)
  limit : Option (Expr Select Window)
  offset : Option (Expr Select Window)
  withClause : Option WithClause
  windowClause : List NamedWindow
  values : List (List (Expr Select Window))

inductive ResultColumn : Type where
  | star
  | tableStar (table : String)
  | expr (expr : Expr Select Window) («alias» : Option String)

structure TableRef : Type where
  schema : Option String
  name : String
  «alias» : Option String
  indexedBy : Option IndexedBy
  args : Option (List (Expr Select Window))

inductive JoinConstraint : Type where
  | «on» (expr : Expr Select Window)
  | «using» (columns : List String)

inductive TableOrJoin : Type where
  | table (ref : TableRef)
  | subquery (query : Select) («alias» : String)
  | join (op : JoinOp) (left : TableOrJoin) (right : TableRef) (constraint : Option JoinConstraint)

structure Cte : Type where
  name : String
  columns : List String
  query : Select
  materialized : Option Bool

structure WithClause : Type where
  recursive : Bool
  ctes : List Cte

structure NamedWindow : Type where
  name : String
  spec : Window

structure Window : Type where
  name : Option String
  partitionBy : List (Expr Select Window)
  orderBy : List (OrderingTerm Select Window)
  frame : Option Frame

structure Frame : Type where
  mode : FrameMode
  start : FrameBound
  «end» : Option FrameBound
  exclude : Option FrameExclude

inductive FrameBound : Type where
  | unboundedPreceding
  | unboundedFollowing
  | currentRow
  | preceding (expr : Expr Select Window)
  | following (expr : Expr Select Window)

end

def Select.plain (columns : List ResultColumn) (tables : List TableOrJoin)
    (whereClause : Option (Expr Select Window)) : Select where
  distinct := false
  columns := columns
  «from» := tables
  whereClause := whereClause
  groupBy := []
  having := none
  compound := []
  orderBy := []
  limit := none
  offset := none
  withClause := none
  windowClause := []
  values := []

def TableRef.named (name : String) : TableRef := ⟨none, name, none, none, none⟩

end Rustqlite.Parser
