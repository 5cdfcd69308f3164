import Rustqlite.Codegen.JoinPasses

/-!
# What a join returns

The relational join, and when the program of a join returns its rows.  The
columns that a star stands for are those at their positions, while the program
reads each of them by its name.
-/

namespace Rustqlite.Codegen.Join

open Foundation Rustqlite.Parser Schema Vdbe

/-! ## The relational join -/

def sidesKept : JoinOp → Bool × Bool
  | .left | .leftOuter | .naturalLeft => (true, false)
  | .right | .rightOuter | .naturalRight => (false, true)
  | .full | .fullOuter | .naturalFull => (true, true)
  | .inner | .cross | .natural => (false, false)

def keeps : List TableOrJoin → Bool × Bool
  | .join op _ _ _ :: _ => sidesKept op
  | _ => (false, false)

def loopOrder {α : Type} («from» : List TableOrJoin) (p : α × α) : α × α :=
  if isRightJoin «from» then p.swap else p

/-- A result column: a column of the left or the right table, or an expression. -/
inductive Output where
  | left (i : ℕ)
  | right (i : ℕ)
  | expr (e : SqlExpr)

def JoinTable.columnRef (t : JoinTable) (i : ℕ) : ColumnRef :=
  if some i = t.table.rowidAlias then .rowid else .index i

def allColumns (t : JoinTable) (output : ℕ → Output) : List Output :=
  (List.range t.table.columns.length).map output

def meantColumn (tables : JoinTable × JoinTable) : ResultColumn → List Output
  | .star => allColumns tables.1 .left ++ allColumns tables.2 .right
  | .tableStar qname =>
      if eqIgnoreAsciiCase tables.1.name qname then allColumns tables.1 .left
      else if eqIgnoreAsciiCase tables.2.name qname then allColumns tables.2 .right
      else []
  | .expr e _ => [.expr e]

def meantOutputs (select : Select) (tables : JoinTable × JoinTable) : List Output :=
  select.columns.flatMap (meantColumn tables)

def Output.value (m : Meaning) (tables : JoinTable × JoinTable) (read : Reading)
    (row : Option Row × Option Row) : Output → Value
  | .left i => tables.1.column row.1 .null (tables.1.columnRef i)
  | .right i => tables.2.column row.2 .null (tables.2.columnRef i)
  | .expr e => m.valueOf e read

/-- The result for a row of the join.  A name in an expression that both tables have is that of
the outer loop. -/
def meantRow (m : Meaning) (select : Select) (tables : JoinTable × JoinTable)
    (row : Option Row × Option Row) : List (List Value) :=
  let order := joinOrder select tables
  let read := reading order.1 order.2 .null (loopOrder select.from row)
  if m.holds select.whereClause read then
    [(meantOutputs select tables).map (Output.value m tables read row)]
  else []

def pairs (m : Meaning) (select : Select) (tables : JoinTable × JoinTable)
    (onPredicate : Option SqlExpr) (contents : List Row × List Row) :
    List (Option Row × Option Row) :=
  let order := joinOrder select tables
  let on (l r : Row) : Bool :=
    let row := loopOrder select.from (l, r)
    onRows order.1 order.2 m onPredicate row.1 row.2
  let kept := keeps select.from
  outerJoin on kept.1 kept.2 contents.1 contents.2

def joinRows (m : Meaning) (select : Select) (tables : JoinTable × JoinTable)
    (onPredicate : Option SqlExpr) (contents : List Row × List Row) : List (List Value) :=
  (pairs m select tables onPredicate contents).flatMap (meantRow m select tables)

/-- The rows of the join, with every result column read by its name. -/
def namedRows (m : Meaning) (select : Select) (tables : JoinTable × JoinTable)
    (onPredicate : Option SqlExpr) (outputs : List SqlExpr) (contents : List Row × List Row) :
    List (List Value) :=
  let order := joinOrder select tables
  (pairs m select tables onPredicate contents).flatMap fun row =>
    project order.1 order.2 m select.whereClause outputs .null (loopOrder select.from row)

/-! ## What a star is expanded to -/

def JoinTable.FirstNamed (t : JoinTable) (i : ℕ) : Prop :=
  ∀ c, t.table.columns[i]? = some c →
    ∀ c' ∈ t.table.columns.take i, eqIgnoreAsciiCase c'.name c.name = false

/-- The name that a star puts for a column leads back to it: no column of its table before it has
the name, and a table of the inner loop is not called as that of the outer one. -/
def Output.Fits (select : Select) (tables : JoinTable × JoinTable) : Output → Prop
  | .left i => tables.1.FirstNamed i ∧
      (isRightJoin select.from = true → eqIgnoreAsciiCase tables.2.name tables.1.name = false)
  | .right i => tables.2.FirstNamed i ∧
      (isRightJoin select.from = false → eqIgnoreAsciiCase tables.1.name tables.2.name = false)
  | .expr _ => True

def StarsFit (select : Select) (tables : JoinTable × JoinTable) : Prop :=
  ∀ o ∈ meantOutputs select tables, o.Fits select tables

def Output.named (tables : JoinTable × JoinTable) : Output → SqlExpr
  | .left i => columnExprFor tables.1.name ((tables.1.table.columns[i]?.map Column.name).getD "")
  | .right i => columnExprFor tables.2.name ((tables.2.table.columns[i]?.map Column.name).getD "")
  | .expr e => e

def Output.InTable (tables : JoinTable × JoinTable) : Output → Prop
  | .left i => i < tables.1.table.columns.length
  | .right i => i < tables.2.table.columns.length
  | .expr _ => True

theorem expandTable_eq (t : JoinTable) : expandTable t =
    (List.range t.table.columns.length).map fun i =>
      columnExprFor t.name ((t.table.columns[i]?.map Column.name).getD "") := by
  apply List.ext_getElem
  · simp [expandTable]
  · intro i hi hi'
    simp only [expandTable, List.length_map] at hi
    simp [expandTable, List.getElem?_eq_getElem hi]

variable {tables : JoinTable × JoinTable} {select : Select} {outputs : List SqlExpr} {o : Output}
  {«from» : List TableOrJoin}

theorem expandColumn_eq {column : ResultColumn} {es : List SqlExpr}
    (h : expandColumn [tables.1, tables.2] column = .ok es) :
    es = (meantColumn tables column).map (Output.named tables) := by
  have hleft : expandTable tables.1 = (allColumns tables.1 .left).map (Output.named tables) := by
    rw [expandTable_eq, allColumns, List.map_map]
    rfl
  have hright : expandTable tables.2 = (allColumns tables.2 .right).map (Output.named tables) := by
    rw [expandTable_eq, allColumns, List.map_map]
    rfl
  cases column with
  | star =>
      cases h
      rw [meantColumn, List.map_append, ← hleft, ← hright]
      simp
  | tableStar qname =>
      rw [expandColumn, List.find?_cons] at h
      rw [meantColumn]
      by_cases hq : eqIgnoreAsciiCase tables.1.name qname = true
      · simp only [hq] at h
        cases h
        rw [if_pos hq, hleft]
      · rw [Bool.not_eq_true] at hq
        simp only [hq, List.find?_cons, List.find?_nil] at h
        rw [if_neg (by simp [hq])]
        by_cases hq' : eqIgnoreAsciiCase tables.2.name qname = true
        · simp only [hq'] at h
          cases h
          rw [if_pos hq', hright]
        · rw [Bool.not_eq_true] at hq'
          simp only [hq'] at h
          cases h
  | expr e as_ =>
      cases h
      rfl

theorem expandColumns_eq {columns : List ResultColumn} {es : List (List SqlExpr)}
    (h : columns.mapM (expandColumn [tables.1, tables.2]) = .ok es) :
    es.flatten = (columns.flatMap (meantColumn tables)).map (Output.named tables) := by
  induction columns generalizing es with
  | nil =>
      cases h
      rfl
  | cons column columns ih =>
      rw [List.mapM_cons] at h
      obtain ⟨first, hfirst, h⟩ := Result.bind_eq_ok.mp h
      obtain ⟨rest, hrest, h⟩ := Result.bind_eq_ok.mp h
      cases h
      rw [List.flatten_cons, List.flatMap_cons, List.map_append, ih hrest, expandColumn_eq hfirst]

theorem outputs_eq (h : expandColumnsWithTables select [tables.1, tables.2] = .ok outputs) :
    outputs = (meantOutputs select tables).map (Output.named tables) := by
  obtain ⟨es, hes, h⟩ := Result.bind_eq_ok.mp h
  rw [meantOutputs, ← expandColumns_eq hes]
  split_ifs at h
  cases h
  rfl

theorem inTable_of_mem (h : o ∈ meantOutputs select tables) : o.InTable tables := by
  have hleft : ∀ o ∈ allColumns tables.1 .left, o.InTable tables := by
    intro o ho
    obtain ⟨i, hi, rfl⟩ := List.mem_map.mp ho
    exact List.mem_range.mp hi
  have hright : ∀ o ∈ allColumns tables.2 .right, o.InTable tables := by
    intro o ho
    obtain ⟨i, hi, rfl⟩ := List.mem_map.mp ho
    exact List.mem_range.mp hi
  obtain ⟨column, -, ho⟩ := List.mem_flatMap.mp h
  cases column with
  | star => exact (List.mem_append.mp ho).elim (hleft o) (hright o)
  | tableStar qname =>
      rw [meantColumn] at ho
      split_ifs at ho
      · exact hleft o ho
      · exact hright o ho
      · cases ho
  | expr e as_ =>
      rw [List.mem_singleton.mp ho]
      trivial

theorem resolveColumn_firstNamed {t : JoinTable} {i : ℕ} {c : Column}
    (hc : t.table.columns[i]? = some c) (h : t.FirstNamed i) :
    t.table.resolveColumn c.name = some (t.columnRef i) := by
  have hindex : t.table.columnIndex c.name = some i := by
    rw [Table.columnIndex, List.findIdx?_eq_some_iff_getElem]
    obtain ⟨hi, rfl⟩ := List.getElem?_eq_some_iff.mp hc
    refine ⟨hi, by simp [eqIgnoreAsciiCase], fun j hj => ?_⟩
    have hmem : t.table.columns[j] ∈ t.table.columns.take i :=
      List.mem_take_iff_getElem.mpr ⟨j, by omega, rfl⟩
    simpa using h _ hc _ hmem
  rw [Table.resolveColumn, hindex, JoinTable.columnRef]
  dsimp only
  split_ifs
  · rfl
  · rfl

/-! ## The kinds of joins -/

theorem keeps_eq («from» : List TableOrJoin) :
    keeps «from» =
      (isLeftJoin «from» || isFullJoin «from», isRightJoin «from» || isFullJoin «from») := by
  cases «from» with
  | nil => rfl
  | cons first rest =>
      cases first with
      | join op left right constraint => cases op <;> rfl
      | _ => rfl

theorem isRightJoin_eq_false (h : isFullJoin «from» = true) : isRightJoin «from» = false := by
  cases «from» with
  | nil => rfl
  | cons first rest =>
      cases first with
      | join op left right constraint => cases op <;> first | rfl | cases h
      | _ => rfl

theorem isLeftJoin_eq_false (h : isRightJoin «from» = true) : isLeftJoin «from» = false := by
  cases «from» with
  | nil => rfl
  | cons first rest =>
      cases first with
      | join op left right constraint => cases op <;> first | rfl | cases h
      | _ => rfl

theorem joinOrder_eq (select : Select) (tables : JoinTable × JoinTable) :
    joinOrder select tables = loopOrder select.from tables := by
  unfold joinOrder loopOrder swapForRightJoin
  split_ifs with hfull hright
  · rw [isRightJoin_eq_false hfull] at hright
    cases hright
  · rfl
  · rfl
  · rfl

/-- A column that a star stands for is found again under the name that is put for it. -/
theorem valueOf_named (hin : o.InTable tables) (hfits : o.Fits select tables) (m : Meaning)
    (row : Option Row × Option Row) :
    let order := joinOrder select tables
    let read := reading order.1 order.2 .null (loopOrder select.from row)
    m.valueOf (o.named tables) read = o.value m tables read row := by
  intro order read
  have hself (name : String) : eqIgnoreAsciiCase name name = true := by simp [eqIgnoreAsciiCase]
  cases o with
  | expr e => rfl
  | left i | right i =>
      obtain ⟨hfirst, hother⟩ := hfits
      have hc := List.getElem?_eq_getElem hin
      have hcolumn := resolveColumn_firstNamed hc hfirst
      rw [Output.named, hc]
      change read (some _) _ = _
      simp only [read, order, joinOrder_eq, loopOrder, Option.map_some, Option.getD_some]
      cases hright : isRightJoin select.from <;>
        simp [reading, resolveColumn, resolveTable, hself, hother, hright, hcolumn, Output.value]

/-- With names that lead back to their columns it is the same to read by name. -/
theorem joinRows_eq (h : expandColumnsWithTables select [tables.1, tables.2] = .ok outputs)
    (hfits : StarsFit select tables) (m : Meaning) (onPredicate : Option SqlExpr)
    (contents : List Row × List Row) :
    joinRows m select tables onPredicate contents =
      namedRows m select tables onPredicate outputs contents := by
  have hrow (row : Option Row × Option Row) : meantRow m select tables row =
      project (joinOrder select tables).1 (joinOrder select tables).2 m select.whereClause outputs
        .null (loopOrder select.from row) := by
    rw [meantRow, project, outputs_eq h, List.map_map]
    congr 2
    refine List.map_congr_left fun o ho => ?_
    exact (valueOf_named (inTable_of_mem ho) (hfits o ho) m row).symm
  rw [joinRows, namedRows]
  rw [funext hrow]

section

variable (outer inner : JoinTable) (m : Meaning) (onPredicate whereClause : Option SqlExpr)
  (outputs : List SqlExpr)

/-- The rows without a partner that the join keeps. -/
def alone (leftJoin fullJoin : Bool) (as bs : List Row) : List (Option Row × Option Row) :=
  (if leftJoin then
      (unmatched (onRows outer inner m onPredicate) bs as).map fun a => (some a, none)
    else []) ++
    if fullJoin then
      (unmatched (flip (onRows outer inner m onPredicate)) as bs).map fun b => (none, some b)
    else []

def extended (nullRowid : Value) (leftJoin fullJoin : Bool) (as bs : List Row) :
    List (List Value) :=
  (alone outer inner m onPredicate leftJoin fullJoin as bs).flatMap
    (project outer inner m whereClause outputs nullRowid)

/-- WHERE and the result columns have the values that they have for a row of NULLs without a
rowid, also where they read 0 as its rowid. -/
structure RowidUnread (row : Option Row × Option Row) : Prop where
  filtered : m.holds whereClause (reading outer inner (.int 0) row) =
    m.holds whereClause (reading outer inner .null row)
  shown : m.holds whereClause (reading outer inner .null row) = true →
    ∀ e ∈ outputs, m.valueOf e (reading outer inner (.int 0) row) =
      m.valueOf e (reading outer inner .null row)

theorem project_eq_iff (row : Option Row × Option Row) :
    project outer inner m whereClause outputs (.int 0) row =
        project outer inner m whereClause outputs .null row ↔
      RowidUnread outer inner m whereClause outputs row := by
  unfold project
  constructor
  · intro h
    cases hzero : m.holds whereClause (reading outer inner (.int 0) row) with
    | false =>
        cases hnull : m.holds whereClause (reading outer inner .null row) with
        | false => exact ⟨by rw [hzero, hnull], fun hholds => by rw [hnull] at hholds; cases hholds⟩
        | true => simp [hzero, hnull] at h
    | true =>
        cases hnull : m.holds whereClause (reading outer inner .null row) with
        | false => simp [hzero, hnull] at h
        | true =>
            refine ⟨by rw [hzero, hnull], fun _ => ?_⟩
            simpa [hzero, hnull] using h
  · intro h
    dsimp only
    rw [h.filtered]
    cases hnull : m.holds whereClause (reading outer inner .null row) with
    | false => rfl
    | true => simpa using h.shown hnull

def paired (as bs : List Row) : List (List Value) :=
  as.flatMap fun a => partnerRows outer inner m onPredicate whereClause outputs a bs

theorem flatMap_outerJoin (leftJoin fullJoin : Bool) (as bs : List Row) :
    (outerJoin (onRows outer inner m onPredicate) leftJoin fullJoin as bs).flatMap
        (project outer inner m whereClause outputs .null) =
      paired outer inner m onPredicate whereClause outputs as bs ++
        extended outer inner m onPredicate whereClause outputs .null leftJoin fullJoin as bs := by
  rw [outerJoin, List.flatMap_append, matched, List.flatMap_assoc]
  simp only [List.flatMap_map]
  rfl

theorem perm_programRows (leftJoin fullJoin : Bool) (as bs : List Row) :
    (programRows outer inner m onPredicate whereClause outputs leftJoin fullJoin as bs).Perm
      (paired outer inner m onPredicate whereClause outputs as bs ++
        extended outer inner m onPredicate whereClause outputs (.int 0) leftJoin
          (fullJoin && !as.isEmpty) as bs) := by
  have hleft : as.flatMap (fun a =>
      if leftJoin && !bs.any (onRows outer inner m onPredicate a) then
        project outer inner m whereClause outputs (.int 0) (some a, none)
      else []) =
      (if leftJoin then
        (unmatched (onRows outer inner m onPredicate) bs as).map fun a => (some a, none)
      else []).flatMap (project outer inner m whereClause outputs (.int 0)) := by
    cases leftJoin with
    | false => simp
    | true => simp [unmatched, List.flatMap_map, flatMap_filter]
  have hright : (if fullJoin && !as.isEmpty then
        bs.flatMap (rightRows outer inner m onPredicate whereClause outputs as)
      else []) =
      (if fullJoin && !as.isEmpty then
        (unmatched (flip (onRows outer inner m onPredicate)) as bs).map fun b => (none, some b)
      else []).flatMap (project outer inner m whereClause outputs (.int 0)) := by
    split_ifs with h
    · rw [unmatched, List.flatMap_map, flatMap_filter]
      congr 1
      funext r
      unfold rightRows flip
      cases as.any fun a => onRows outer inner m onPredicate a r with
      | true => rfl
      | false => rfl
    · rfl
  have hpairs := List.flatMap_append_perm as
    (fun a => partnerRows outer inner m onPredicate whereClause outputs a bs)
    (fun a => if leftJoin && !bs.any (onRows outer inner m onPredicate a) then
      project outer inner m whereClause outputs (.int 0) (some a, none) else [])
  rw [programRows, hright, extended, alone, List.flatMap_append, ← List.append_assoc, ← hleft]
  exact hpairs.symm.append_right _

structure Met (leftJoin fullJoin : Bool) (as bs : List Row) : Prop where
  innerNull : leftJoin = true → inner.table.withoutRowid = true →
    unmatched (onRows outer inner m onPredicate) bs as = []
  outerNull : fullJoin = true → as ≠ [] → outer.table.withoutRowid = true →
    unmatched (flip (onRows outer inner m onPredicate)) as bs = []
  secondPass : fullJoin = true → as = [] →
    ∀ b ∈ bs, project outer inner m whereClause outputs .null (none, some b) = []
  rowids : as ≠ [] → ∀ row ∈ alone outer inner m onPredicate leftJoin fullJoin as bs,
    RowidUnread outer inner m whereClause outputs row

theorem programFails_iff (leftJoin fullJoin : Bool) (as bs : List Row) :
    programFails outer inner m onPredicate leftJoin fullJoin as bs ↔
      leftJoin = true ∧ inner.table.withoutRowid = true ∧
          unmatched (onRows outer inner m onPredicate) bs as ≠ [] ∨
        fullJoin = true ∧ as ≠ [] ∧ outer.table.withoutRowid = true ∧
          unmatched (flip (onRows outer inner m onPredicate)) as bs ≠ [] := by
  unfold programFails outerFails rightFails
  simp only [unmatched_ne_nil, Bool.and_eq_true, Bool.not_eq_true',
    List.isEmpty_eq_false_iff]
  constructor
  · rintro (⟨a, ha, hleft, hnone, hwithout⟩ | ⟨⟨hfull, hne⟩, b, hb, hnone, hwithout⟩)
    · exact .inl ⟨hleft, hwithout, a, ha, hnone⟩
    · exact .inr ⟨hfull, hne, hwithout, b, hb, hnone⟩
  · rintro (⟨hleft, hwithout, a, ha, hnone⟩ | ⟨hfull, hne, hwithout, b, hb, hnone⟩)
    · exact .inl ⟨a, ha, hleft, hnone, hwithout⟩
    · exact .inr ⟨⟨hfull, hne⟩, b, hb, hnone, hwithout⟩

theorem perm_extended (leftJoin fullJoin : Bool) (as bs : List Row)
    (h : ∀ row ∈ alone outer inner m onPredicate leftJoin fullJoin as bs,
      RowidUnread outer inner m whereClause outputs row) :
    (extended outer inner m onPredicate whereClause outputs (.int 0) leftJoin fullJoin as bs).Perm
      (extended outer inner m onPredicate whereClause outputs .null leftJoin fullJoin as bs) :=
  .of_eq (List.flatMap_congr fun row hrow => (project_eq_iff ..).mpr (h row hrow))

theorem unread_of_perm (leftJoin fullJoin : Bool) (as bs : List Row)
    (hlen : (alone outer inner m onPredicate leftJoin fullJoin as bs).length ≤ 1)
    (hperm : (extended outer inner m onPredicate whereClause outputs (.int 0) leftJoin fullJoin
        as bs).Perm
      (extended outer inner m onPredicate whereClause outputs .null leftJoin fullJoin as bs)) :
    ∀ row ∈ alone outer inner m onPredicate leftJoin fullJoin as bs,
      RowidUnread outer inner m whereClause outputs row := by
  unfold extended at hperm
  rcases halone : alone outer inner m onPredicate leftJoin fullJoin as bs with _ | ⟨row, rest⟩
  · exact fun row hrow => absurd hrow List.not_mem_nil
  · rw [halone, List.length_cons] at hlen
    have hrest : rest = [] := List.length_eq_zero_iff.mp (by omega)
    subst hrest
    rw [halone, List.flatMap_singleton, List.flatMap_singleton] at hperm
    intro row' hrow'
    rw [List.mem_singleton.mp hrow', ← project_eq_iff]
    unfold project at hperm ⊢
    dsimp only at hperm ⊢
    split_ifs at hperm ⊢
    · exact List.perm_singleton.mp hperm
    · exact absurd hperm.length_eq (by simp)
    · exact absurd hperm.length_eq (by simp)
    · rfl

variable {outer inner m onPredicate whereClause outputs} in
theorem Met.right {leftJoin fullJoin : Bool} {as bs : List Row}
    (h : Met outer inner m onPredicate whereClause outputs leftJoin fullJoin as bs) :
    ¬programFails outer inner m onPredicate leftJoin fullJoin as bs ∧
      (extended outer inner m onPredicate whereClause outputs (.int 0) leftJoin
        (fullJoin && !as.isEmpty) as bs).Perm
      (extended outer inner m onPredicate whereClause outputs .null leftJoin fullJoin as bs) := by
  rw [programFails_iff]
  constructor
  · rintro (⟨hleft, hwithout, hne⟩ | ⟨hfull, hcons, hwithout, hne⟩)
    · exact hne (h.innerNull hleft hwithout)
    · exact hne (h.outerNull hfull hcons hwithout)
  · cases as with
    | nil =>
        have hnone : extended outer inner m onPredicate whereClause outputs .null leftJoin fullJoin
            [] bs = [] := by
          cases hfull : fullJoin with
          | false => simp [extended, alone, unmatched]
          | true => simpa [extended, alone, unmatched] using h.secondPass hfull rfl
        rw [hnone]
        simp [extended, alone, unmatched]
    | cons a as =>
        rw [List.isEmpty_cons, Bool.not_false, Bool.and_true]
        exact perm_extended _ _ _ _ _ _ _ _ _ _ (h.rowids (List.cons_ne_nil _ _))

theorem met_of_right (leftJoin fullJoin : Bool) (as bs : List Row)
    (hlen : (alone outer inner m onPredicate leftJoin fullJoin as bs).length ≤ 1)
    (hgood : ¬programFails outer inner m onPredicate leftJoin fullJoin as bs)
    (hperm : (extended outer inner m onPredicate whereClause outputs (.int 0) leftJoin
        (fullJoin && !as.isEmpty) as bs).Perm
      (extended outer inner m onPredicate whereClause outputs .null leftJoin fullJoin as bs)) :
    Met outer inner m onPredicate whereClause outputs leftJoin fullJoin as bs := by
  rw [programFails_iff, not_or] at hgood
  constructor
  · intro hleft hwithout
    by_contra hne
    exact hgood.1 ⟨hleft, hwithout, hne⟩
  · intro hfull hcons hwithout
    by_contra hne
    exact hgood.2 ⟨hfull, hcons, hwithout, hne⟩
  · rintro rfl rfl
    have hempty : extended outer inner m onPredicate whereClause outputs (.int 0) leftJoin false
        [] bs = [] := by
      simp [extended, alone, unmatched]
    rw [List.isEmpty_nil, Bool.not_true, Bool.and_false, hempty, List.nil_perm] at hperm
    simpa [extended, alone, unmatched] using hperm
  · intro hcons
    have hnonempty : as.isEmpty = false := List.isEmpty_eq_false_iff.mpr hcons
    rw [hnonempty, Bool.not_false, Bool.and_true] at hperm
    exact unread_of_perm _ _ _ _ _ _ _ _ _ _ hlen hperm

end

/-! ## Conditions compiled by `compile_jump` -/

section

variable {A W : Type} {contents : W → Int → List Row} {effects : Effects A TableCursor W}
  {outer inner : JoinTable} {ctx : Ctx Select Window} {other : CompileExpr Select Window}
  {value : SqlExpr → Reading → Value}

def exprCode (ctx : Ctx Select Window) (outer inner : JoinTable)
    (other : CompileExpr Select Window) : ExprCode :=
  ⟨other, ctx.compileJump (compileExpr outer inner other)⟩

def valuesOnly (value : SqlExpr → Reading → Value) : Meaning := ⟨value, fun _ _ => none⟩

def meaningOf (ctx : Ctx Select Window) (value : SqlExpr → Reading → Value) : Meaning :=
  ⟨value, fun e read => ctx.threeValued ((valuesOnly value).valueOf · read) e⟩

theorem implements_exprCode
    (hother : ∀ c d row, OnRow outer c row.1 → OnRow inner d row.2 →
      ∀ e, (∀ schema qualifier name, e ≠ .column schema qualifier name) →
        Computes ctx.numerals (scanEffects contents effects) (At c d) other e
          (value e (reading outer inner (.int 0) row))) :
    Implements ctx.numerals (scanEffects contents effects) outer inner
      (exprCode ctx outer inner other) (meaningOf ctx value) := by
  have hvalues : Implements ctx.numerals (scanEffects contents effects) outer inner
      ⟨other, fun _ _ _ _ _ => .error (.msg "no condition")⟩ (valuesOnly value) :=
    ⟨hother, nofun⟩
  refine ⟨hother, fun c d row hc hd b e label jumpIfTrue jumpIfNull b' h => ?_⟩
  exact jumpCode_compileJump (fun s pc hs => hs.goto pc) ctx e
    (fun o _ => computes_expr hvalues hc hd o) h

end

/-! ## The program -/

section

variable {A W : Type} {n : Numerals} {contents : W → Int → List Row}
  {other : Effects A TableCursor W} {code : ExprCode} {m : Meaning} {select : Select}
  {tables : JoinTable × JoinTable} {onPredicate : Option SqlExpr} {outputs : List SqlExpr}
  {prog : List Instruction}

def rowsOf (contents : W → Int → List Row) (tables : JoinTable × JoinTable) (w : W) :
    List Row × List Row :=
  (contents w tables.1.rootpage, contents w tables.2.rootpage)

def ReturnsJoin (n : Numerals) (contents : W → Int → List Row) (other : Effects A TableCursor W)
    (m : Meaning) (select : Select) (tables : JoinTable × JoinTable) (onPredicate : Option SqlExpr)
    (prog : List Instruction) (w : W) : Prop :=
  ∃ rows, (started w).Returns n (scanEffects contents other) prog rows ∧
    rows.Perm (joinRows m select tables onPredicate (rowsOf contents tables w))

/-- The stars lead back to their columns, and the rows of NULLs do no harm. -/
def Holds (m : Meaning) (select : Select) (tables : JoinTable × JoinTable)
    (onPredicate : Option SqlExpr) (outputs : List SqlExpr) (rows : List Row × List Row) : Prop :=
  let order := joinOrder select tables
  let rows := loopOrder select.from rows
  StarsFit select tables ∧
    Met order.1 order.2 m onPredicate select.whereClause outputs
      (isLeftJoin select.from || isRightJoin select.from || isFullJoin select.from)
      (isFullJoin select.from) rows.1 rows.2

def aloneIn (m : Meaning) (select : Select) (tables : JoinTable × JoinTable)
    (onPredicate : Option SqlExpr) (rows : List Row × List Row) :
    List (Option Row × Option Row) :=
  let order := joinOrder select tables
  let rows := loopOrder select.from rows
  alone order.1 order.2 m onPredicate
    (isLeftJoin select.from || isRightJoin select.from || isFullJoin select.from)
    (isFullJoin select.from) rows.1 rows.2

theorem compileJoin_ok (h : compileJoin code select tables onPredicate = .ok (some prog))
    (houtputs : expandColumnsWithTables select [tables.1, tables.2] = .ok outputs) :
    compileCrossJoin (joinOrder select tables).1 (joinOrder select tables).2 code onPredicate
      select.whereClause outputs
      (isLeftJoin select.from || isRightJoin select.from || isFullJoin select.from)
      (isFullJoin select.from) = .ok (some prog) := by
  obtain ⟨outputs', houtputs', hcross⟩ := Result.bind_eq_ok.mp h
  rw [houtputs] at houtputs'
  cases houtputs'
  exact hcross

theorem rowsOf_loopOrder (w : W) :
    rowsOf contents (joinOrder select tables) w =
      loopOrder select.from (rowsOf contents tables w) := by
  rw [joinOrder_eq]
  unfold loopOrder
  split_ifs
  · rfl
  · rfl

theorem perm_namedRows (rows : List Row × List Row) :
    (namedRows m select tables onPredicate outputs rows).Perm
      ((outerJoin (onRows (joinOrder select tables).1 (joinOrder select tables).2 m onPredicate)
        (isLeftJoin select.from || isRightJoin select.from || isFullJoin select.from)
        (isFullJoin select.from) (loopOrder select.from rows).1
        (loopOrder select.from rows).2).flatMap
          (project (joinOrder select tables).1 (joinOrder select tables).2 m select.whereClause
            outputs .null)) := by
  unfold namedRows pairs loopOrder
  rw [keeps_eq]
  cases hright : isRightJoin select.from with
  | false =>
      rw [Bool.or_false]
      exact .refl _
  | true =>
      have hfull : isFullJoin select.from = false := by
        by_contra hfull
        rw [isRightJoin_eq_false (Bool.not_eq_false _ ▸ hfull)] at hright
        cases hright
      have hleft : isLeftJoin select.from = false := isLeftJoin_eq_false hright
      simp only [hfull, hleft, if_true, Bool.or_false, Bool.or_true, Prod.swap]
      have hswap := perm_outerJoin_swap
        (flip (onRows (joinOrder select tables).1 (joinOrder select tables).2 m onPredicate))
        false true rows.1 rows.2
      have hrows := hswap.flatMap_right (project (joinOrder select tables).1
        (joinOrder select tables).2 m select.whereClause outputs .null)
      rw [List.flatMap_map] at hrows
      exact hrows

theorem returnsJoin_iff_perm
    (himpl : Implements n (scanEffects contents other) (joinOrder select tables).1
      (joinOrder select tables).2 code m)
    (houtputs : expandColumnsWithTables select [tables.1, tables.2] = .ok outputs)
    (hcompile : compileJoin code select tables onPredicate = .ok (some prog)) (w : W) :
    let order := joinOrder select tables
    let leftJoin := isLeftJoin select.from || isRightJoin select.from || isFullJoin select.from
    let fullJoin := isFullJoin select.from
    let rows := rowsOf contents order w
    ReturnsJoin n contents other m select tables onPredicate prog w ↔
      ¬programFails order.1 order.2 m onPredicate leftJoin fullJoin rows.1 rows.2 ∧
        (programRows order.1 order.2 m onPredicate select.whereClause outputs leftJoin fullJoin
          rows.1 rows.2).Perm
        (joinRows m select tables onPredicate (rowsOf contents tables w)) := by
  intro order leftJoin fullJoin rows
  have hleads := leads_program himpl (compileJoin_ok hcompile houtputs) w
  unfold ReturnsJoin
  constructor
  · rintro ⟨rows, hreturns, hperm⟩
    obtain ⟨hgood, rfl⟩ := hleads.returns_iff.mp hreturns
    exact ⟨hgood, hperm⟩
  · rintro ⟨hgood, hperm⟩
    exact ⟨_, hleads.returns_iff.mpr ⟨hgood, rfl⟩, hperm⟩

theorem returnsJoin_iff_extended
    (himpl : Implements n (scanEffects contents other) (joinOrder select tables).1
      (joinOrder select tables).2 code m)
    (houtputs : expandColumnsWithTables select [tables.1, tables.2] = .ok outputs)
    (hcompile : compileJoin code select tables onPredicate = .ok (some prog)) (w : W)
    (hstars : StarsFit select tables) :
    let order := joinOrder select tables
    let leftJoin := isLeftJoin select.from || isRightJoin select.from || isFullJoin select.from
    let fullJoin := isFullJoin select.from
    let rows := loopOrder select.from (rowsOf contents tables w)
    ReturnsJoin n contents other m select tables onPredicate prog w ↔
      ¬programFails order.1 order.2 m onPredicate leftJoin fullJoin rows.1 rows.2 ∧
        (extended order.1 order.2 m onPredicate select.whereClause outputs (.int 0) leftJoin
          (fullJoin && !rows.1.isEmpty) rows.1 rows.2).Perm
        (extended order.1 order.2 m onPredicate select.whereClause outputs .null leftJoin fullJoin
          rows.1 rows.2) := by
  intro order leftJoin fullJoin rows
  have hrows : rowsOf contents (joinOrder select tables) w = rows := rowsOf_loopOrder w
  have hjoin : (namedRows m select tables onPredicate outputs (rowsOf contents tables w)).Perm _ :=
    perm_namedRows _
  rw [← joinRows_eq houtputs hstars, flatMap_outerJoin] at hjoin
  have hprogram := perm_programRows order.1 order.2 m onPredicate select.whereClause outputs
    leftJoin fullJoin rows.1 rows.2
  refine (returnsJoin_iff_perm himpl houtputs hcompile w).trans (and_congr (by rw [hrows]) ?_)
  rw [hrows]
  constructor
  · exact fun hperm => (List.perm_append_left_iff _).mp (hprogram.symm.trans (hperm.trans hjoin))
  · exact fun hperm => hprogram.trans ((hperm.append_left _).trans hjoin.symm)

/-- The program returns the rows of the join where every star is read as it is meant, the second
pass is not left out where it is needed, no table without rowids has to have a row of NULLs, and it
makes no difference that the rowid of such a row reads 0.  Where one of the last three fails it does
not, unless several rows without a partner make up for one another. -/
theorem returnsJoin_of_holds
    (himpl : Implements n (scanEffects contents other) (joinOrder select tables).1
      (joinOrder select tables).2 code m)
    (houtputs : expandColumnsWithTables select [tables.1, tables.2] = .ok outputs)
    (hcompile : compileJoin code select tables onPredicate = .ok (some prog)) (w : W) :
    (Holds m select tables onPredicate outputs (rowsOf contents tables w) →
        ReturnsJoin n contents other m select tables onPredicate prog w) ∧
      (StarsFit select tables →
        (aloneIn m select tables onPredicate (rowsOf contents tables w)).length ≤ 1 →
        ReturnsJoin n contents other m select tables onPredicate prog w →
        Holds m select tables onPredicate outputs (rowsOf contents tables w)) := by
  constructor
  · rintro ⟨hstars, hmet⟩
    exact (returnsJoin_iff_extended himpl houtputs hcompile w hstars).mpr hmet.right
  · intro hstars hlen hreturns
    obtain ⟨hgood, hperm⟩ :=
      (returnsJoin_iff_extended himpl houtputs hcompile w hstars).mp hreturns
    exact ⟨hstars, met_of_right _ _ _ _ _ _ _ _ _ _ hlen hgood hperm⟩

/-! `SELECT * FROM l FULL JOIN r ON x = y`. -/

def oneColumn (name column : String) (rootpage : Int) : JoinTable where
  table := ⟨name, [⟨column, .integer, .binary⟩], none, false⟩
  name := name
  rootpage := rootpage
  keyInfo := []
  position := id
  columns_ne_nil := by simp
  rowidAlias_eq_none := by simp

def fullJoinTables : JoinTable × JoinTable := (oneColumn "l" "x" 2, oneColumn "r" "y" 3)

def tableRef (name : String) : TableRef := ⟨none, name, none, none, none⟩

def fullJoin : Select where
  distinct := false
  columns := [.star]
  «from» := [.join .full (.table (tableRef "l")) (tableRef "r") none]
  whereClause := none
  groupBy := []
  having := none
  compound := []
  orderBy := []
  limit := none
  offset := none
  withClause := none
  windowClause := []
  values := []

def sameColumn : SqlExpr := .binary .eq (.column none none "x") (.column none none "y")

def fullJoinOutputs : List SqlExpr :=
  [.column none (some "l") "x", .column none (some "r") "y"]

def fullJoinCtx : Ctx Select Window where
  table := fullJoinTables.1.table
  numerals := literalCtx.numerals
  outer _ _ := none
  otherValue _ _ := none

def literals : CompileExpr Select Window
  | b, .literal lit, target => .ok (compileLiteral b lit target)
  | _, _, _ => .error (.msg "not a literal")

def literalsValue : SqlExpr → Reading → Value
  | .literal lit, _ => literalToValue lit
  | _, _ => .null

def fullJoinCode : ExprCode :=
  exprCode fullJoinCtx fullJoinTables.1 fullJoinTables.2 literals

def fullJoinMeaning : Meaning := meaningOf fullJoinCtx literalsValue

def contentsAt (w : List Row × List Row) (root : Int) : List Row :=
  if root = 2 then w.1 else w.2

def fullJoinEffects : Effects Unit TableCursor (List Row × List Row)
  | .null, i => some (nullOutcome i)
  | _, _ => none

theorem implements_fullJoinCode :
    Implements fullJoinCtx.numerals (scanEffects contentsAt fullJoinEffects) fullJoinTables.1
      fullJoinTables.2 fullJoinCode fullJoinMeaning := by
  apply implements_exprCode
  intro c d row _ _ e hcolumn
  cases e with
  | column schema qualifier name => exact absurd rfl (hcolumn schema qualifier name)
  | literal lit =>
      intro b r b' hpos hlt h
      have hliteral : Computes fullJoinCtx.numerals (scanEffects contentsAt fullJoinEffects)
          (At c d)
          (Codegen.compileExpr literals) (.literal lit) (literalToValue lit) :=
        computes_literal (fun i => rfl)
          (fun s t hcursors _ hs => ⟨hcursors ▸ hs.outer, hcursors ▸ hs.inner⟩) lit
      exact hliteral b r b' hpos hlt h
  | _ => exact nofun

def fullJoinProgram : List Instruction :=
  match compileJoin fullJoinCode fullJoin fullJoinTables (some sameColumn) with
  | .ok (some prog) => prog
  | _ => []

theorem compileJoin_fullJoin :
    compileJoin fullJoinCode fullJoin fullJoinTables (some sameColumn) =
      .ok (some fullJoinProgram) := rfl

theorem expandColumns_fullJoin :
    expandColumnsWithTables fullJoin [fullJoinTables.1, fullJoinTables.2] = .ok fullJoinOutputs :=
  rfl

theorem starsFit_fullJoin : StarsFit fullJoin fullJoinTables := by
  intro o ho
  have ho : o ∈ [Output.left 0, Output.right 0] := ho
  simp only [List.mem_cons, List.not_mem_nil, or_false] at ho
  rcases ho with rfl | rfl
  · exact ⟨fun c _ c' hc' => absurd hc' List.not_mem_nil, fun h => by cases h⟩
  · exact ⟨fun c _ c' hc' => absurd hc' List.not_mem_nil, fun _ => by decide⟩

theorem unread_fullJoin :
    ∀ row ∈ [(some (Row.mk 1 [.int 1]), none), (none, some (Row.mk 2 [.int 3]))],
    RowidUnread fullJoinTables.1 fullJoinTables.2 fullJoinMeaning none fullJoinOutputs row := by
  intro row hrow
  rw [← project_eq_iff]
  simp only [List.mem_cons, List.not_mem_nil, or_false] at hrow
  rcases hrow with rfl | rfl
  · decide
  · decide

theorem returnsJoin_fullJoin :
    ReturnsJoin fullJoinCtx.numerals contentsAt fullJoinEffects fullJoinMeaning fullJoin
      fullJoinTables (some sameColumn) fullJoinProgram
      ([⟨1, [.int 1]⟩, ⟨2, [.int 2]⟩], [⟨1, [.int 2]⟩, ⟨2, [.int 3]⟩]) := by
  refine (returnsJoin_of_holds implements_fullJoinCode expandColumns_fullJoin
    compileJoin_fullJoin _).1 ⟨starsFit_fullJoin, ?_, ?_, ?_, ?_⟩
  · exact fun _ hwithout => absurd hwithout (by decide)
  · exact fun _ _ hwithout => absurd hwithout (by decide)
  · exact fun _ hnil => absurd hnil (by decide)
  · exact fun _ => unread_fullJoin

/-- With no row in the outer table the second pass is never reached. -/
theorem not_returnsJoin_emptyOuter :
    compileJoin fullJoinCode fullJoin fullJoinTables (some sameColumn) =
        .ok (some fullJoinProgram) ∧
      ¬ReturnsJoin fullJoinCtx.numerals contentsAt fullJoinEffects fullJoinMeaning fullJoin
        fullJoinTables (some sameColumn) fullJoinProgram ([], [⟨1, [.int 2]⟩]) := by
  refine ⟨compileJoin_fullJoin, ?_⟩
  intro hreturns
  obtain ⟨-, hperm⟩ := (returnsJoin_iff_perm implements_fullJoinCode expandColumns_fullJoin
    compileJoin_fullJoin _).mp hreturns
  exact absurd hperm.length_eq (by decide)

end

end Rustqlite.Codegen.Join
