import Rustqlite.Codegen.PartialIndex
import Rustqlite.Codegen.Scope

/-!
# Covering plans

The columns that the evaluation of a query reads, set against those that the
planner collects before it calls an index covering.
-/

namespace Rustqlite.Codegen

open Foundation Rustqlite.Parser Schema

/-! ## The columns that are read -/

/-- The name is that of column `i` of the table of the outermost query.  `locals` are the tables
of the subqueries around the name, innermost first. -/
def NamesColumn (table : Table) (locals : List Table) (qualifier : Option String) (name : String)
    (i : Nat) : Prop :=
  match locals with
  | [] => table.resolveColumn name = some (.index i)
  | l :: ls =>
      (if l.columns.isEmpty then valuesColumn qualifier name = 0 else l.resolveColumn name = none) ∧
        lookupOuter (ls.map singleOuterTable) qualifier name = none ∧
        ∃ t, lookupOuter (ls.map singleOuterTable ++ [singleOuterTable table]) qualifier name =
          some (t, .index i)

/-- Evaluating the expression reads column `i` of the table.  `hidden` says whether it does so in
a subquery, a FILTER or a window. -/
inductive Reads (source : Select → Option Table) (table : Table) :
    Bool → List Table → Expr Select Window → Nat → Prop
  | column {locals : List Table} {schema qualifier : Option String} {name : String} {i : Nat}
      (h : NamesColumn table locals qualifier name i) :
      Reads source table false locals (.column schema qualifier name) i
  | child {hidden : Bool} {locals : List Table} {e e' : Expr Select Window} {i : Nat}
      (hmem : e' ∈ children e) (h : Reads source table hidden locals e' i) :
      Reads source table hidden locals e i
  | filter {hidden : Bool} {locals : List Table} {e f : Expr Select Window} {i : Nat}
      (hfilter : filterOf e = some f) (h : Reads source table hidden locals f i) :
      Reads source table true locals e i
  | window {hidden : Bool} {locals : List Table} {e e' : Expr Select Window} {w : Window} {i : Nat}
      (hwindow : windowOf e = some w) (hmem : e' ∈ walkWindow w)
      (h : Reads source table hidden locals e' i) : Reads source table true locals e i
  | subselect {hidden : Bool} {locals : List Table} {e e' : Expr Select Window} {s : Select}
      {i : Nat} (hsub : subselectOf e = some s) (hmem : e' ∈ walkSelectExpr s)
      (h : Reads source table hidden ((source s).getD emptyTable :: locals) e' i) :
      Reads source table true locals e i

def projection (exprToText : Expr Select Window → String) (select : Select) (table : Table) :
    List (Expr Select Window × String) :=
  select.columns.flatMap (resultOutputs exprToText table)

inductive SelectReads (source : Select → Option Table)
    (exprToText : Expr Select Window → String) (table : Table) (select : Select) :
    Bool → Nat → Prop
  | output {hidden : Bool} {o : Expr Select Window × String} {i : Nat}
      (hmem : o ∈ projection exprToText select table) (h : Reads source table hidden [] o.1 i) :
      SelectReads source exprToText table select hidden i
  | whereClause {hidden : Bool} {e : Expr Select Window} {i : Nat}
      (hwhere : select.whereClause = some e) (h : Reads source table hidden [] e i) :
      SelectReads source exprToText table select hidden i
  | orderBy {hidden : Bool} {term : OrderingTerm Select Window} {e : Expr Select Window} {i : Nat}
      (hmem : term ∈ select.orderBy)
      (hresolve : resolveOrderTerm term (projection exprToText select table) = .ok e)
      (h : Reads source table hidden [] e i) : SelectReads source exprToText table select hidden i
  | groupBy {hidden : Bool} {e : Expr Select Window} {i : Nat} (hmem : e ∈ select.groupBy)
      (h : Reads source table hidden [] e i) : SelectReads source exprToText table select true i
  | having {hidden : Bool} {e : Expr Select Window} {i : Nat} (hhaving : select.having = some e)
      (h : Reads source table hidden [] e i) : SelectReads source exprToText table select true i

/-! ## The columns that are collected -/

section

variable {S W : Type} {table : Table} {i : Nat}

theorem mem_collectColumnsList {es : List (Expr S W)} :
    i ∈ collectColumnsList table es ↔ ∃ e ∈ es, i ∈ collectColumns table e := by
  induction es with
  | nil => simp [collectColumnsList]
  | cons e es ih => simp [collectColumnsList, ih]

theorem mem_collectColumnsPairs {ps : List (Expr S W × Expr S W)} :
    i ∈ collectColumnsPairs table ps ↔
      ∃ p ∈ ps, i ∈ collectColumns table p.1 ∨ i ∈ collectColumns table p.2 := by
  induction ps with
  | nil => simp [collectColumnsPairs]
  | cons p ps ih =>
      obtain ⟨w, t⟩ := p
      simp [collectColumnsPairs, collectColumnsPair, ih, or_assoc]

theorem mem_collectColumnsOption {o : Option (Expr S W)} :
    i ∈ collectColumnsOption table o ↔ ∃ e, o = some e ∧ i ∈ collectColumns table e := by
  cases o <;> simp [collectColumnsOption]

theorem mem_collectColumns_of_child {e e' : Expr S W} (hmem : e' ∈ children e)
    (h : i ∈ collectColumns table e') : i ∈ collectColumns table e := by
  cases e with
  | case base whenThen elseExpr =>
      simp only [children, List.mem_append, Option.mem_toList, List.mem_flatMap] at hmem
      simp only [collectColumns, List.mem_append, mem_collectColumnsOption,
        mem_collectColumnsPairs]
      rcases hmem with (hbase | ⟨p, hp, hwhen⟩) | helse
      · exact .inl (.inl ⟨e', hbase, h⟩)
      · simp only [List.mem_cons, List.not_mem_nil, or_false] at hwhen
        rcases hwhen with rfl | rfl
        · exact .inl (.inr ⟨p, hp, .inl h⟩)
        · exact .inl (.inr ⟨p, hp, .inr h⟩)
      · exact .inr ⟨e', helse, h⟩
  | function name distinct args filter «over» =>
      cases args with
      | star => cases hmem
      | list args => exact (mem_collectColumnsList).mpr ⟨e', hmem, h⟩
  | «in» e values negated =>
      simp only [children, List.mem_cons] at hmem
      simp only [collectColumns, List.mem_append, mem_collectColumnsList]
      rcases hmem with rfl | hmem
      · exact .inl h
      · exact .inr ⟨e', hmem, h⟩
  | row values => exact (mem_collectColumnsList).mpr ⟨e', hmem, h⟩
  | between e low high negated =>
      simp only [children, List.mem_cons, List.not_mem_nil, or_false] at hmem
      simp only [collectColumns, List.mem_append]
      rcases hmem with rfl | rfl | rfl <;> simp [h]
  | binary _ left right | isDistinctFrom left right _ | coalesce2 left right =>
      simp only [children, List.mem_cons, List.not_mem_nil, or_false] at hmem
      simp only [collectColumns, List.mem_append]
      rcases hmem with rfl | rfl <;> simp [h]
  | unary | cast | collate | inSubquery =>
      cases List.mem_singleton.mp hmem
      exact h
  | literal | column | bindParam | «exists» | subquery | aggRef => cases hmem

variable {name : String}

theorem columnIndex_of_resolveColumn (h : table.resolveColumn name = some (.index i)) :
    table.columnIndex name = some i := by
  unfold Table.resolveColumn at h
  split at h
  next j hj =>
    split_ifs at h
    · cases h
    · cases h
      exact hj
  next =>
    split_ifs at h
    cases h

theorem lt_length_of_columnIndex (h : table.columnIndex name = some i) : i < table.columns.length :=
  (List.findIdx?_eq_some_iff_getElem.mp h).1

end

section

variable {source : Select → Option Table} {exprToText : Expr Select Window → String}
  {table : Table} {select : Select} {i : Nat}

theorem Reads.mem_collectColumns {hidden : Bool} {locals : List Table}
    {e : Expr Select Window} (h : Reads source table hidden locals e i) (hplain : hidden = false)
    (hlocals : locals = []) : i ∈ collectColumns table e := by
  induction h with
  | column hname =>
      subst hlocals
      simp [collectColumns, columnIndex_of_resolveColumn hname]
  | child hmem _ ih => exact mem_collectColumns_of_child hmem (ih hplain hlocals)
  | filter | window | subselect => cases hplain

theorem mem_collectReferencedColumns :
    i ∈ collectReferencedColumns select table ↔
      (∃ rc ∈ select.columns, i ∈ resultColumns table rc) ∨
        (∃ e, select.whereClause = some e ∧ i ∈ collectColumns table e) ∨
          ∃ term ∈ select.orderBy, i ∈ collectColumns table term.expr := by
  rw [collectReferencedColumns, mem_foldl_pushColumn]
  cases hwhere : select.whereClause <;> simp

theorem mem_resultColumns_of_output {o : Expr Select Window × String}
    (hmem : o ∈ projection exprToText select table)
    (hcollect : i ∈ collectColumns table o.1) :
    ∃ rc ∈ select.columns, i ∈ resultColumns table rc := by
  obtain ⟨rc, hrc, ho⟩ := List.mem_flatMap.mp hmem
  refine ⟨rc, hrc, ?_⟩
  cases rc with
  | expr e name =>
      cases List.mem_singleton.mp ho
      exact hcollect
  | star | tableStar =>
      obtain ⟨c, -, rfl⟩ := List.mem_map.mp ho
      simp only [columnExpr, collectColumns, Option.mem_toList] at hcollect
      exact List.mem_range.mpr (lt_length_of_columnIndex hcollect)

theorem resolveOrderTerm_ok {S W : Type} {term : OrderingTerm S W}
    {outputs : List (Expr S W × String)} {e : Expr S W}
    (h : resolveOrderTerm term outputs = .ok e) :
    (∃ o ∈ outputs, o.1 = e) ∨ e = term.expr := by
  unfold resolveOrderTerm at h
  split at h
  next n hterm =>
    split at h
    next e' name hget =>
      cases h
      split_ifs at hget
      exact .inl ⟨_, List.mem_of_getElem? hget, rfl⟩
    next => cases h
  next s name hterm =>
    split at h
    next e' name' hfind =>
      cases h
      exact .inl ⟨_, List.mem_of_find?_eq_some hfind, rfl⟩
    next =>
      cases h
      exact .inr hterm.symm
  next =>
    cases h
    exact .inr rfl

theorem SelectReads.mem_collectReferencedColumns
    (h : SelectReads source exprToText table select false i) :
    i ∈ collectReferencedColumns select table := by
  rw [Codegen.mem_collectReferencedColumns]
  cases h with
  | output hmem hreads =>
      exact .inl (mem_resultColumns_of_output hmem (hreads.mem_collectColumns rfl rfl))
  | whereClause hwhere hreads =>
      exact .inr (.inl ⟨_, hwhere, hreads.mem_collectColumns rfl rfl⟩)
  | orderBy hmem hresolve hreads =>
      have hcollect := hreads.mem_collectColumns rfl rfl
      rcases resolveOrderTerm_ok hresolve with ⟨o, ho, rfl⟩ | rfl
      · exact .inl (mem_resultColumns_of_output ho hcollect)
      · exact .inr (.inr ⟨_, hmem, hcollect⟩)

/-! ## The columns of the index -/

def InIndex (index : Index) (table : Table) (i : Nat) : Prop :=
  some i = table.rowidAlias ∨
    ∃ ic ∈ index.columns, ic.isExpression = false ∧ table.columnIndex ic.name = some i

variable {index : Index} {referenced : List Nat}

theorem inIndex_of_indexCovers (h : indexCovers index table referenced = true)
    (hmem : i ∈ referenced) : InIndex index table i := by
  have hi := List.all_eq_true.mp h i hmem
  rw [Bool.or_eq_true, decide_eq_true_eq, List.contains_iff_mem, List.mem_filterMap] at hi
  rcases hi with halias | ⟨ic, hic, hcolumn⟩
  · exact .inl halias
  · split_ifs at hcolumn with hexpr
    exact .inr ⟨ic, hic, by simpa using hexpr, hcolumn⟩

variable [BEq Select] [BEq Window]

theorem indexCovers_of_covering {s : SelectStmt Select Window} {constraints : List RangeKey}
    {likeOpts : List (LikeOpt Select Window)} {forced : Bool}
    (h : (planForIndex s index table constraints referenced likeOpts forced).covering = true) :
    indexCovers index table referenced = true := by
  unfold planForIndex at h
  split_ifs at h
  exact (Bool.and_eq_true_iff.mp h).2

theorem inIndex_of_covering {planCost : Plan → Cost} {indexes : List Index}
    {hint : Option IndexedBy} {caseSensitiveLike : Bool} {plan : Plan}
    (h : pickIndex planCost select table indexes hint caseSensitiveLike = .ok (some plan))
    (hcovering : plan.covering = true) (hmem : i ∈ collectReferencedColumns select table) :
    InIndex plan.index table i := by
  obtain ⟨constraints, hchosen⟩ := chosen_of_pickIndex h
  cases hchosen with
  | forced hhint hfind =>
      rw [index_planForIndex]
      exact inIndex_of_indexCovers (indexCovers_of_covering hcovering) hmem
  | cheapest hhint hoffered =>
      obtain ⟨index, -, -, sorter, rfl⟩ := hoffered
      change InIndex (planForIndex _ index _ _ _ _ _).index table i
      rw [index_planForIndex]
      exact inIndex_of_indexCovers (indexCovers_of_covering hcovering) hmem

/-- A covering plan reads only columns of its index exactly if what is read in subqueries, FILTER
clauses, windows, GROUP BY and HAVING is there. -/
theorem covering_reads_iff {planCost : Plan → Cost} {indexes : List Index}
    {hint : Option IndexedBy} {caseSensitiveLike : Bool} {plan : Plan}
    (h : pickIndex planCost select table indexes hint caseSensitiveLike = .ok (some plan))
    (hcovering : plan.covering = true) :
    (∀ hidden i, SelectReads source exprToText table select hidden i →
        InIndex plan.index table i) ↔
      ∀ i, SelectReads source exprToText table select true i → InIndex plan.index table i := by
  constructor
  · intro hall i hreads
    exact hall true i hreads
  · intro hhidden hidden i hreads
    cases hidden with
    | true => exact hhidden i hreads
    | false => exact inIndex_of_covering h hcovering hreads.mem_collectReferencedColumns

end

/-! ## A column that only a subquery reads -/

def onSecond : Index := ⟨"i", [⟨"b", none, .binary, false⟩], none⟩

def sourceU (_ : Select) : Option Table := some ⟨"u", [⟨"x", .integer, .binary⟩], none, false⟩

def equalNames (left right : String) : Expr Select Window :=
  .binary .eq (columnExpr left) (columnExpr right)

def matching : Select :=
  .plain [.expr (columnExpr "x") none] [.table (.named "u")] (some (equalNames "x" "a"))

def haveMatch : Select :=
  .plain [.expr (columnExpr "b") none] [.table (.named "t")] (some (.exists matching))

def onSecondPlan : Plan := ⟨onSecond, [], false, true, false, none⟩

theorem pickIndex_haveMatch :
    @pickIndex noneNested noneNested (fun _ => (0, 0)) haveMatch pairCtx.table [onSecond] none
      false = .ok (some onSecondPlan) := rfl

theorem haveMatch_reads_first :
    SelectReads sourceU (fun _ => "") pairCtx.table haveMatch true 0 := by
  have hname : NamesColumn pairCtx.table [⟨"u", [⟨"x", .integer, .binary⟩], none, false⟩] none "a"
      0 := by
    refine ⟨by decide, rfl, ?_⟩
    exact ⟨⟨pairCtx.table, outerCursorBase, ""⟩, by decide⟩
  have hchild : columnExpr "a" ∈ children (equalNames "x" "a") := by simp [equalNames, children]
  have hclause : equalNames "x" "a" ∈ walkSelectExpr matching := by
    simp [walkSelectExpr, matching, Select.plain]
  exact .whereClause rfl (.subselect rfl hclause (.child hchild (.column hname)))

/-- The plan is covering, and the subquery reads the column that the index lacks. -/
theorem covering_misses_subquery :
    @pickIndex noneNested noneNested (fun _ => (0, 0)) haveMatch pairCtx.table [onSecond] none
        false = .ok (some onSecondPlan) ∧
      onSecondPlan.covering = true ∧
      ¬∀ hidden i, SelectReads sourceU (fun _ => "") pairCtx.table haveMatch hidden i →
        InIndex onSecondPlan.index pairCtx.table i := by
  refine ⟨pickIndex_haveMatch, rfl, ?_⟩
  intro hall
  rcases hall true 0 haveMatch_reads_first with halias | ⟨ic, hic, -, hcolumn⟩
  · cases halias
  · cases List.mem_singleton.mp hic
    exact absurd hcolumn (by decide)

theorem covering_reads_iff_haveMatch :
    (∀ hidden i, SelectReads sourceU (fun _ => "") pairCtx.table haveMatch hidden i →
        InIndex onSecondPlan.index pairCtx.table i) ↔
      ∀ i, SelectReads sourceU (fun _ => "") pairCtx.table haveMatch true i →
        InIndex onSecondPlan.index pairCtx.table i :=
  @covering_reads_iff sourceU (fun _ => "") pairCtx.table haveMatch noneNested noneNested
    (fun _ => (0, 0)) [onSecond] none false onSecondPlan pickIndex_haveMatch rfl

end Rustqlite.Codegen
