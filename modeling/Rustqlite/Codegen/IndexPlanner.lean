import Rustqlite.Codegen.LikeBounds

/-!
# Index plans

What the planner makes of one index: the constraints on its leading columns,
whether it already has the order that is asked for, whether it holds every
column that is needed, and the LIKE or GLOB term that its range stands for.
-/

namespace Rustqlite.Codegen

open Foundation Rustqlite.Parser Schema

variable {S W : Type}

structure SelectStmt (S W : Type) where
  whereClause : Option (Expr S W)
  orderBy : List (OrderingTerm S W)

structure IndexPlan (S W : Type) where
  index : IndexObject S W
  range : List RangeKey
  orderBySatisfied : Bool
  covering : Bool
  needsSorter : Bool
  likeOpt : Option (LikeOpt S W)

def RangeOp.isLower : RangeOp → Bool
  | .gt | .ge => true
  | _ => false

def RangeOp.isUpper : RangeOp → Bool
  | .lt | .le => true
  | _ => false

/-! ## The constraints of an index -/

def constraintsOn (constraints : List RangeKey) (name : String) : List RangeKey :=
  constraints.filter fun c => eqIgnoreAsciiCase c.column name

def gatherRange (tableColumns : List String) (constraints : List RangeKey) :
    Bool → List (IndexedColumn S W) → Option (List RangeKey)
  | _, [] => some []
  | sawRange, ic :: rest =>
      if !tableColumns.any fun c => eqIgnoreAsciiCase c ic.name then none
      else if sawRange then some []
      else
        let found := constraintsOn constraints ic.name
        match found.find? fun c => c.op.isEquality with
        | some eq => (gatherRange tableColumns constraints false rest).map (eq :: ·)
        | none =>
            match found.find? fun c => c.op.isLower, found.find? fun c => c.op.isUpper with
            | none, none => some []
            | lower, upper =>
                (gatherRange tableColumns constraints true rest).map
                  ((lower.toList ++ upper.toList) ++ ·)

def findIndexRangePrefix (index : IndexObject S W) (tableColumns : List String)
    (constraints : List RangeKey) : Option (List RangeKey) :=
  match gatherRange tableColumns constraints false index.columns with
  | none | some [] => none
  | some range => some range

def eqPrefixLen (range : List RangeKey) : Nat := (range.takeWhile fun k => k.op.isEquality).length

/-! ## The order of an index -/

def orderByColumnName (term : OrderingTerm S W) (table : Table) : Option String :=
  match term.expr with
  | .column _ _ name => if (table.columnIndex name).isSome then some name else none
  | _ => none

def nullsIsDefault (term : OrderingTerm S W) : Bool :=
  match term.nulls with
  | none => true
  | some .first => !term.desc
  | some .last => term.desc

def termMatches (table : Table) (term : OrderingTerm S W) (ic : IndexedColumn S W) : Bool :=
  match orderByColumnName term table with
  | none => false
  | some name => eqIgnoreAsciiCase name ic.name && term.desc = ic.desc && nullsIsDefault term

def orderByMatchesIndex (orderBy : List (OrderingTerm S W)) (index : IndexObject S W)
    (table : Table) (prefixLen : Nat) : Bool :=
  if orderBy.isEmpty then false
  else if index.columns.length < prefixLen + orderBy.length then false
  else (orderBy.zip (index.columns.drop prefixLen)).all fun (term, ic) => termMatches table term ic

/-! ## The plan -/

def indexCovers (index : IndexObject S W) (table : Table) (referenced : List Nat) : Bool :=
  let indexedCols := index.columns.filterMap fun ic =>
    if ic.isExpression then none else table.columnIndex ic.name
  referenced.all fun i => some i = table.rowidAlias || indexedCols.contains i

def partialIndexUsable [BEq S] [BEq W] (index : IndexObject S W) (select : SelectStmt S W) : Bool :=
  match index.whereClause, select.whereClause with
  | none, _ => true
  | some _, none => false
  | some pred, some w => (flattenAnd w).any fun c => c.beq pred

def findLikeOpt (index : IndexObject S W) (range : List RangeKey)
    (likeOpts : List (LikeOpt S W)) : Option (LikeOpt S W) :=
  likeOpts.find? fun opt =>
    match index.columns with
    | [] => false
    | ic :: _ => !ic.isExpression && eqIgnoreAsciiCase ic.name opt.column &&
        range.any fun k => eqIgnoreAsciiCase k.column opt.column && k.op = .ge

def planForIndex [BEq S] [BEq W] (select : SelectStmt S W) (index : IndexObject S W)
    (table : Table) (whereConstraints : List RangeKey) (referenced : List Nat)
    (likeOpts : List (LikeOpt S W)) (forced : Bool) : IndexPlan S W :=
  if !forced && !partialIndexUsable index select then ⟨index, [], false, false, false, none⟩
  else
    let range := (findIndexRangePrefix index (table.columns.map Column.name)
        whereConstraints).getD []
    let orderBySatisfied := orderByMatchesIndex select.orderBy index table (eqPrefixLen range)
    { index := index
      range := range
      orderBySatisfied := orderBySatisfied
      covering := !referenced.isEmpty && indexCovers index table referenced
      needsSorter := forced && !select.orderBy.isEmpty && !orderBySatisfied
      likeOpt := findLikeOpt index range likeOpts }

def LikeOpt.keys (opt : LikeOpt S W) : List RangeKey :=
  ⟨opt.column, .ge, .text opt.lower⟩ ::
    (opt.upper.map fun upper => ⟨opt.column, .lt, .text upper⟩).toList

/-- The constraints that `pick_index` plans with: those of WHERE and then those of its terms. -/
def whereConstraints (select : SelectStmt S W) (likeOpts : List (LikeOpt S W)) :
    Result (List RangeKey) := do
  return (← collectWhereRangeConstraints select.whereClause) ++ likeOpts.flatMap LikeOpt.keys

def pickPlan [BEq S] [BEq W] (select : SelectStmt S W) (index : IndexObject S W) (table : Table)
    (caseSensitiveLike : Bool) (referenced : List Nat) (forced : Bool) :
        Result (IndexPlan S W) := do
  let likeOpts := collectLikeOpts table caseSensitiveLike select.whereClause
  let constraints ← whereConstraints select likeOpts
  return planForIndex select index table constraints referenced likeOpts forced

end Rustqlite.Codegen
