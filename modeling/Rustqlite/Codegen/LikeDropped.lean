import Rustqlite.Codegen.IndexOrder
import Rustqlite.Codegen.LikeFit

/-!
# Leaving out a LIKE or GLOB term

Where the range of an index is taken for the matches of a pattern, the term is
not tested on the rows of the range.  The bounds that the range keeps need not
be the ones of the pattern: those that WHERE has on the column come first.
-/

namespace Rustqlite.Codegen

open Foundation Rustqlite.Parser Schema Vdbe

variable {S W : Type}

/-! ## The term that is left out -/

variable {e : Expr S W} {p : LikePattern} {name a b : String} {table : Table}
  {caseSensitiveLike noCase : Bool} {opt : LikeOpt S W} {tableColumns : List String}
  {constraints range : List RangeKey} {columns rest : List (IndexedColumn S W)} {key : RangeKey}
  {ic : IndexedColumn S W}

def IndexPlan.Keeps (plan : IndexPlan S W) (v : Value) : Prop :=
  ∀ ic ∈ plan.index.columns.head?, ∀ key ∈ plan.range,
    (key.op.cmpOp.getD .eq).holds (memCompare v key.value ic.collation) = true

/-- The bounds of the pattern hold of a value, compared as the column must be. -/
def LikeOpt.Holds (opt : LikeOpt S W) (noCase : Bool) (v : Value) : Prop :=
  memCompare v (.text opt.lower) (requiredCollation noCase) ≠ .lt ∧
    ∀ u ∈ opt.upper, memCompare v (.text u) (requiredCollation noCase) = .lt

section Plan

variable {ctx : Ctx S W} {plan : IndexPlan S W} {opt : LikeOpt S W}

end Plan

end Rustqlite.Codegen
