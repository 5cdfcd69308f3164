import Rustqlite.Codegen.PickIndex

/-!
# Partial indexes

A partial index has the rows that satisfy its predicate.  Reading it in place
of the table is right for a query whose condition lets no other row through.
-/

namespace Rustqlite.Codegen

open Foundation Rustqlite.Parser Schema

def Ctx.WhereTrue (ctx : Ctx Select Window) (select : Select) (row : Row) : Prop :=
  ∀ w, select.whereClause = some w → ctx.Passes row w

def Implies (ctx : Ctx Select Window) (select : Select) (pred : Expr Select Window) : Prop :=
  ∀ row, ctx.WhereTrue select row → ctx.Passes row pred

def KeepsRows (ctx : Ctx Select Window) (select : Select) (index : Index) : Prop :=
  ∀ pred, index.whereClause = some pred → Implies ctx select pred

def conjuncts (select : Select) : List (Expr Select Window) :=
  (select.whereClause.map flattenAnd).getD []

theorem implies_of_mem_conjuncts (ctx : Ctx Select Window) {select : Select}
    {pred : Expr Select Window} (h : pred ∈ conjuncts select) : Implies ctx select pred := by
  intro row htrue
  unfold conjuncts at h
  cases hw : select.whereClause with
  | none =>
      rw [hw] at h
      cases h
  | some w =>
      rw [hw] at h
      exact passes_of_mem_flattenAnd ctx (htrue w hw) h

section

variable [BEq Select] [BEq Window]

theorem partialIndexUsable_iff {index : Index} {select : Select} :
    partialIndexUsable index (clauses select) = true ↔
      ∀ pred, index.whereClause = some pred → ∃ c ∈ conjuncts select, c.beq pred = true := by
  unfold partialIndexUsable clauses conjuncts
  constructor
  · intro h pred hpred
    rw [hpred] at h
    cases hw : select.whereClause with
    | none => simp [hw] at h
    | some w => simpa [hw] using h
  · intro h
    cases hpred : index.whereClause with
    | none => simp
    | some pred =>
        have hfound := h pred hpred
        cases hw : select.whereClause with
        | none => simp [hw] at hfound
        | some w => simpa [hw] using hfound

theorem usable_of_cheapest {planCost : Plan → Cost} {select : Select} {table : Table}
    {indexes : List Index} {caseSensitiveLike : Bool} {plan : Plan}
    (h : pickIndex planCost select table indexes none caseSensitiveLike = .ok (some plan)) :
    partialIndexUsable plan.index (clauses select) = true := by
  obtain ⟨constraints, hchosen⟩ := chosen_of_pickIndex h
  cases hchosen with
  | forced hhint _ => cases hhint
  | cheapest _ hoffered =>
      obtain ⟨index, -, husable, sorter, rfl⟩ := hoffered
      rwa [index_planForIndex]

/-- WHERE has a conjunct that equals the predicate, and none that is the same. -/
def OnlyAlike (select : Select) (pred : Expr Select Window) : Prop :=
  (∃ c ∈ conjuncts select, c.beq pred = true) ∧ pred ∉ conjuncts select

def ForcedUnmatched (select : Select) (hint : Option IndexedBy) (pred : Expr Select Window) :
    Prop :=
  hint ≠ none ∧ ∀ c ∈ conjuncts select, c.beq pred = false

/--
A plan over an index keeps the rows of the query exactly when WHERE implies the
predicate where it does not say it: a hint forced the index past the check, or
the check took another expression for the predicate.
-/
theorem pickIndex_keepsRows_iff (ctx : Ctx Select Window)
    (planCost : Plan → Cost) (select : Select) (table : Table) (indexes : List Index)
    (hint : Option IndexedBy) (caseSensitiveLike : Bool) (plan : Plan)
    (h : pickIndex planCost select table indexes hint caseSensitiveLike = .ok (some plan)) :
    KeepsRows ctx select plan.index ↔
      ∀ pred, plan.index.whereClause = some pred →
        ForcedUnmatched select hint pred ∨ OnlyAlike select pred → Implies ctx select pred := by
  constructor
  · intro hkeeps pred hpred _
    exact hkeeps pred hpred
  · intro himplies pred hpred
    by_cases hmem : pred ∈ conjuncts select
    · exact implies_of_mem_conjuncts ctx hmem
    · apply himplies pred hpred
      by_cases hfound : ∃ c ∈ conjuncts select, c.beq pred = true
      · exact .inr ⟨hfound, hmem⟩
      · refine .inl ⟨?_, fun c hc => ?_⟩
        · rintro rfl
          exact hfound ((partialIndexUsable_iff).mp (usable_of_cheapest h) pred hpred)
        · exact Bool.eq_false_iff.mpr fun hbeq => hfound ⟨c, hc, hbeq⟩

end

/-! ## A partial index that a hint forces -/

abbrev noneNested {α : Type} : BEq α := ⟨fun _ _ => false⟩

def pairCtx : Ctx Select Window where
  table := ⟨"t", [⟨"a", .integer, .binary⟩, ⟨"b", .integer, .binary⟩], none, false⟩
  numerals := ⟨fun _ => "", fun _ => (none, false)⟩
  outer _ _ := none
  otherValue _ _ := none

def compareTo (op : BinaryOp) (name : String) (n : Int64) : Expr Select Window :=
  .binary op (.column none none name) (.literal (.integer n))

def largeOnly : Index := ⟨"i", [⟨"a", none, .binary, false⟩], some (compareTo .gt "b" 5)⟩

/-- `SELECT b FROM t WHERE a = 1`; the hint comes with it. -/
def aIsOne : Select :=
  .plain [.expr (.column none none "b") none] [.table (.named "t")] (some (compareTo .eq "a" 1))

def largePlan : Plan := ⟨largeOnly, [⟨"a", .eq, .int 1⟩], false, false, false, none⟩

theorem pickIndex_largeOnly :
    @pickIndex noneNested noneNested (fun _ => (0, 0)) aIsOne pairCtx.table [largeOnly]
      (some (.index "i")) false = .ok (some largePlan) := rfl

/-- The row 1, 0 is asked for, and is not in the index. -/
theorem forced_loses_row :
    @pickIndex noneNested noneNested (fun _ => (0, 0)) aIsOne pairCtx.table [largeOnly]
      (some (.index "i")) false = .ok (some largePlan) ∧ ¬KeepsRows pairCtx aIsOne
          largePlan.index := by
  constructor
  · exact pickIndex_largeOnly
  · intro hkeeps
    have hpass : pairCtx.Passes ⟨1, [.int 1, .int 0]⟩ (compareTo .gt "b" 5) := by
      refine hkeeps (compareTo .gt "b" 5) rfl ⟨1, [.int 1, .int 0]⟩ fun w hw => ?_
      cases hw
      rfl
    exact absurd hpass (by unfold Ctx.Passes; decide)

theorem pickIndex_keepsRows_iff_largeOnly :
    KeepsRows pairCtx aIsOne largePlan.index ↔
      ∀ pred, largePlan.index.whereClause = some pred →
        @ForcedUnmatched noneNested noneNested aIsOne (some (.index "i")) pred ∨
          @OnlyAlike noneNested noneNested aIsOne pred → Implies pairCtx aIsOne pred :=
  @pickIndex_keepsRows_iff noneNested noneNested pairCtx (fun _ => (0, 0)) aIsOne pairCtx.table
    [largeOnly] (some (.index "i")) false largePlan pickIndex_largeOnly

end Rustqlite.Codegen
