import Rustqlite.Codegen.IndexPlanner
import Rustqlite.Codegen.RangeImplied
import Rustqlite.Parser.Select

/-!
# The choice of an index

`pick_index` takes the index that a hint names, or the one whose plan costs the
least.  The costs are a parameter: which of the plans wins says nothing about
what a plan may read.
-/

namespace Rustqlite.Codegen

open Foundation Rustqlite.Parser Schema

/-! ## The columns that a query refers to -/

section

variable {S W : Type}

mutual

def collectColumns (table : Table) : Expr S W → List Nat
  | .column _ _ name => (table.columnIndex name).toList
  | .unary _ e => collectColumns table e
  | .binary _ left right => collectColumns table left ++ collectColumns table right
  | .between e low high _ =>
      collectColumns table e ++ collectColumns table low ++ collectColumns table high
  | .in e values _ => collectColumns table e ++ collectColumnsList table values
  | .inSubquery e _ _ => collectColumns table e
  | .cast e _ => collectColumns table e
  | .case base whenThen elseExpr =>
      collectColumnsOption table base ++ collectColumnsPairs table whenThen ++
        collectColumnsOption table elseExpr
  | .collate e _ => collectColumns table e
  | .isDistinctFrom left right _ => collectColumns table left ++ collectColumns table right
  | .row values => collectColumnsList table values
  | .coalesce2 left right => collectColumns table left ++ collectColumns table right
  | .function _ _ args _ _ => collectColumnsArgs table args
  | .literal _ | .bindParam _ | .exists _ | .subquery _ | .aggRef _ => []

def collectColumnsArgs (table : Table) : FunctionArgs S W → List Nat
  | .list args => collectColumnsList table args
  | .star => []

def collectColumnsOption (table : Table) : Option (Expr S W) → List Nat
  | some e => collectColumns table e
  | none => []

def collectColumnsList (table : Table) : List (Expr S W) → List Nat
  | e :: es => collectColumns table e ++ collectColumnsList table es
  | [] => []

def collectColumnsPairs (table : Table) : List (Expr S W × Expr S W) → List Nat
  | p :: ps => collectColumnsPair table p ++ collectColumnsPairs table ps
  | [] => []

def collectColumnsPair (table : Table) : Expr S W × Expr S W → List Nat
  | (w, t) => collectColumns table w ++ collectColumns table t

end

end

def resultColumns (table : Table) : ResultColumn → List Nat
  | .star | .tableStar _ => List.range table.columns.length
  | .expr e _ => collectColumns table e

/-- `push` leaves out what is there already. -/
def pushColumn (cols : List Nat) (i : Nat) : List Nat := if cols.contains i then cols else
    cols ++ [i]

def collectReferencedColumns (select : Select) (table : Table) : List Nat :=
  (select.columns.flatMap (resultColumns table) ++
    (select.whereClause.map (collectColumns table)).getD [] ++
    select.orderBy.flatMap fun term => collectColumns table term.expr).foldl pushColumn []

theorem mem_foldl_pushColumn {cols seen : List Nat} {i : Nat} :
    i ∈ cols.foldl pushColumn seen ↔ i ∈ seen ∨ i ∈ cols := by
  induction cols generalizing seen with
  | nil => simp
  | cons c cols ih =>
      rw [List.foldl_cons, ih, pushColumn]
      split_ifs with hc
      · have hmem : c ∈ seen := by simpa using hc
        constructor
        · rintro (h | h)
          · exact .inl h
          · exact .inr (List.mem_cons_of_mem c h)
        · rintro (h | h)
          · exact .inl h
          · obtain rfl | h := List.mem_cons.mp h
            · exact .inl hmem
            · exact .inr h
      · simp [or_assoc]

/-! ## The choice -/

def clauses (select : Select) : SelectStmt Select Window := ⟨select.whereClause, select.orderBy⟩

abbrev Plan := IndexPlan Select Window

abbrev Index := IndexObject Select Window

def isNamed (name : String) (index : Index) : Bool := eqIgnoreAsciiCase index.name name

def noSuchIndex (name : String) : Error := .msg s!"no such index: {name}"

def indexStrictlySmallerThanTable (index : Index) (table : Table) : Bool :=
  (index.columns.filter fun ic => !ic.isExpression).length < table.columns.length

abbrev Cost := Int64 × Int64

def Cost.le (a b : Cost) : Bool := a.1 < b.1 || a.1 = b.1 && a.2 ≤ b.2

structure Best where
  plan : Option Plan
  cost : Cost

def Best.none : Best := ⟨.none, Int64.maxValue, Int64.maxValue⟩

def Best.offer (best : Best) (planCost : Plan → Cost) (plan : Plan) : Best :=
  if (planCost plan).le best.cost then ⟨some plan, planCost plan⟩ else best

def hasBenefit (plan : Plan) (index : Index) (table : Table) (referenced : List Nat) : Bool :=
  !plan.range.isEmpty || plan.orderBySatisfied ||
    (plan.covering && !referenced.isEmpty && indexStrictlySmallerThanTable index table)

def considerPlan (planCost : Plan → Cost) (select : Select) (index : Index) (table : Table)
    (referenced : List Nat) (best : Best) (plan : Plan) : Best :=
  if !hasBenefit plan index table referenced then best
  else if !select.orderBy.isEmpty && !plan.orderBySatisfied then
    if !plan.range.isEmpty then best.offer planCost { plan with needsSorter := true } else best
  else best.offer planCost plan

theorem offer_plan (best : Best) (planCost : Plan → Cost) (plan : Plan) :
    (best.offer planCost plan).plan = best.plan ∨
      (best.offer planCost plan).plan = some plan := by
  unfold Best.offer
  split_ifs
  · exact .inr rfl
  · exact .inl rfl

theorem considerPlan_plan (planCost : Plan → Cost) (select : Select) (index : Index)
    (table : Table) (referenced : List Nat) (best : Best) (plan : Plan) :
    (considerPlan planCost select index table referenced best plan).plan = best.plan ∨
      ∃ sorter, (considerPlan planCost select index table referenced best plan).plan =
        some { plan with needsSorter := sorter } := by
  unfold considerPlan
  split_ifs
  · exact .inl rfl
  · exact (offer_plan best planCost _).imp_right fun h => ⟨true, h⟩
  · exact .inl rfl
  · exact (offer_plan best planCost _).imp_right fun h => ⟨plan.needsSorter, h⟩

section

variable [BEq Select] [BEq Window]

def considerIndex (planCost : Plan → Cost) (select : Select) (table : Table)
    (constraints : List RangeKey) (referenced : List Nat) (likeOpts : List (LikeOpt Select Window))
    (best : Best) (index : Index) : Best :=
  if !partialIndexUsable index (clauses select) then best
  else
    considerPlan planCost select index table referenced best
      (planForIndex (clauses select) index table constraints referenced likeOpts false)

def pickIndex (planCost : Plan → Cost) (select : Select) (table : Table) (indexes : List Index)
    (hint : Option IndexedBy) (caseSensitiveLike : Bool) : Result (Option Plan) :=
  if indexes.isEmpty then
    match hint with
    | some (.index name) => .error (noSuchIndex name)
    | _ => .ok none
  else if select.from.length ≠ 1 then
    match hint with
    | some (.index name) =>
        if indexes.any (isNamed name) then .ok none else .error (noSuchIndex name)
    | _ => .ok none
  else if hint = some .notIndexed then .ok none
  else do
    let likeOpts := collectLikeOpts table caseSensitiveLike select.whereClause
    let constraints ← whereConstraints (clauses select) likeOpts
    let referenced := collectReferencedColumns select table
    match hint with
    | some (.index name) =>
        match indexes.find? (isNamed name) with
        | none => .error (noSuchIndex name)
        | some index =>
            return some (planForIndex (clauses select) index table constraints referenced likeOpts
              true)
    | _ =>
        return (indexes.foldl
          (considerIndex planCost select table constraints referenced likeOpts) .none).plan

/-! ## The plan that is chosen -/

def Offered (select : Select) (table : Table) (indexes : List Index) (constraints : List RangeKey)
    (referenced : List Nat) (likeOpts : List (LikeOpt Select Window)) (plan : Plan) : Prop :=
  ∃ index ∈ indexes, partialIndexUsable index (clauses select) = true ∧ ∃ sorter,
    plan = { planForIndex (clauses select) index table constraints referenced likeOpts false with
      needsSorter := sorter }

theorem considerIndex_plan (planCost : Plan → Cost) (select : Select) (table : Table)
    (constraints : List RangeKey) (referenced : List Nat) (likeOpts : List (LikeOpt Select Window))
    (best : Best) (index : Index) :
    (considerIndex planCost select table constraints referenced likeOpts best index).plan =
        best.plan ∨
      partialIndexUsable index (clauses select) = true ∧ ∃ sorter,
        (considerIndex planCost select table constraints referenced likeOpts best index).plan =
          some { planForIndex (clauses select) index table constraints referenced likeOpts
              false with
            needsSorter := sorter } := by
  unfold considerIndex
  split_ifs with husable
  · exact .inl rfl
  · have husable : partialIndexUsable index (clauses select) = true := by simpa using husable
    exact (considerPlan_plan planCost select index table referenced best _).imp_right fun h =>
      ⟨husable, h⟩

theorem offered_of_foldl (planCost : Plan → Cost) (select : Select) (table : Table)
    (constraints : List RangeKey) (referenced : List Nat) (likeOpts : List (LikeOpt Select Window))
    {indexes : List Index} {best : Best} {plan : Plan}
    (h : (indexes.foldl (considerIndex planCost select table constraints referenced likeOpts)
      best).plan = some plan) :
    best.plan = some plan ∨
      Offered select table indexes constraints referenced likeOpts plan := by
  induction indexes generalizing best with
  | nil => exact .inl h
  | cons index indexes ih =>
      obtain hbest | ⟨other, hmem, hoffered⟩ := ih h
      · obtain hsame | ⟨husable, sorter, hplan⟩ :=
          considerIndex_plan planCost select table constraints referenced likeOpts best index
        · exact .inl (hsame ▸ hbest)
        · have heq := Option.some.inj (hbest.symm.trans hplan)
          exact .inr ⟨index, List.mem_cons_self, husable, sorter, heq⟩
      · exact .inr ⟨other, List.mem_cons_of_mem index hmem, hoffered⟩

inductive Chosen (select : Select) (table : Table) (indexes : List Index)
    (hint : Option IndexedBy) (constraints : List RangeKey)
    (likeOpts : List (LikeOpt Select Window)) : Plan → Prop
  | forced {name : String} {index : Index} (hhint : hint = some (.index name))
      (hfind : indexes.find? (isNamed name) = some index) :
      Chosen select table indexes hint constraints likeOpts
        (planForIndex (clauses select) index table constraints
          (collectReferencedColumns select table) likeOpts true)
  | cheapest {plan : Plan} (hhint : hint = none)
      (hoffered : Offered select table indexes constraints
        (collectReferencedColumns select table) likeOpts plan) :
      Chosen select table indexes hint constraints likeOpts plan

theorem chosen_of_pickIndex {planCost : Plan → Cost} {select : Select} {table : Table}
    {indexes : List Index} {hint : Option IndexedBy} {caseSensitiveLike : Bool} {plan : Plan}
    (h : pickIndex planCost select table indexes hint caseSensitiveLike = .ok (some plan)) :
    ∃ constraints, Chosen select table indexes hint constraints
      (collectLikeOpts table caseSensitiveLike select.whereClause) plan := by
  unfold pickIndex at h
  split_ifs at h with hempty hfrom hnot
  · split at h <;> cases h
  · split at h
    next =>
      split_ifs at h
      cases h
    next => cases h
  · cases h
  · obtain ⟨constraints, -, h⟩ := Result.bind_eq_ok.mp h
    refine ⟨constraints, ?_⟩
    split at h
    next name =>
      split at h
      next => cases h
      next index hfind =>
        cases h
        exact .forced rfl hfind
    next hname =>
      have hnone : hint = none := by
        cases hint with
        | none => rfl
        | some by' =>
            cases by' with
            | index name => exact absurd rfl (hname name)
            | notIndexed => exact absurd rfl hnot
      obtain hbest | hoffered := offered_of_foldl planCost select table constraints _ _
        (Except.ok.inj h)
      · cases hbest
      · exact .cheapest hnone hoffered

theorem index_planForIndex (select : SelectStmt Select Window) (index : Index) (table : Table)
    (constraints : List RangeKey) (referenced : List Nat) (likeOpts : List (LikeOpt Select Window))
    (forced : Bool) :
    (planForIndex select index table constraints referenced likeOpts forced).index = index := by
  unfold planForIndex
  split_ifs <;> rfl

end

end Rustqlite.Codegen
