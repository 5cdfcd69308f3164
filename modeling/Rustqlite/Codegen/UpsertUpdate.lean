import Rustqlite.Codegen.Upsert
import Rustqlite.Foundation.Keyed

/-!
# What an UPSERT leaves

The row and the index entries that `DO UPDATE` is to leave, and when the program
leaves them.  The registers of the proposed row become those of the result, so a
column that is not assigned is overwritten, and an assignment that reads
`excluded` sees what the ones before it have put there.
-/

namespace Rustqlite.Codegen.Upsert

open Foundation Rustqlite.Parser Schema Vdbe

variable {S W : Type}

/-! ## The values of SET -/

section

variable (table : Table) (ev : Evaluation S W)

/-- The value of a SET expression.  A bare or an `excluded` column is read one way where it
stands under arithmetic alone, and any column another way within other expressions. -/
def valueWith (read inner : Reading) : Expr S W → Value
  | .column schema qualifier name =>
      if qualifier.all isExcluded then read qualifier name
      else ev.eval (.column schema qualifier name) inner
  | .unary op e => applyUnary ev op (valueWith read inner e)
  | .binary op left right =>
      if isArithmetic op then ev.arith op (valueWith read inner left) (valueWith read inner right)
      else ev.eval (.binary op left right) inner
  | e => ev.eval e inner

/-- Bare names are the columns of the stored row, `excluded` ones those of the proposed row. -/
def rowReading (old proposed : Row) : Reading := fun qualifier name =>
  if qualifier.any isExcluded then (proposed.read table name).getD .null
  else (old.read table name).getD .null

/-- The value that is to be assigned: the columns have the values from before the statement. -/
def assignedValue (old proposed : Row) (e : Expr S W) : Value :=
  valueWith ev (rowReading table old proposed) (rowReading table old proposed) e

/-- A value as it reads once it has been put into a column. -/
def storedValue (ci : Nat) (v : Value) : Value :=
  let w := ev.numerals.applyAffinity v (table.affinityAt ci)
  if table.affinityAt ci = .real then realAffinity w else w

/-! ## The row and the entries that are to be left -/

def assignmentTo (assignments : List (Assignment S W)) (ci : Nat) : Option (Assignment S W) :=
  assignments.reverse.find? fun a => table.columnIndex a.column = some ci

def expectedColumn (stmt : InsertStmt S W) (old proposed : Row) (ci : Nat) : Value :=
  match assignmentTo table stmt.assignments ci with
  | some a => storedValue table ev ci (assignedValue table ev old proposed a.value)
  | none => old.column table ci

def keyColumn (row : Row) (ci : Nat) : Value :=
  if table.rowidAlias = some ci then .int row.rowid else row.values.getD ci .null

def readRow (row : Row) : Reading := fun _ name => (row.read table name).getD .null

def entryKey (idx : TableIndex S W) (row : Row) : List Value :=
  idx.columns.map fun ic =>
    if ic.isExpression then (ic.expr.map fun e => ev.eval e (readRow table row)).getD .null
    else ((table.columnIndex ic.name).map (keyColumn table row)).getD .null

def inIndex (idx : TableIndex S W) (row : Row) : Bool :=
  idx.whereClause.all fun e => truth ev.numerals (ev.eval e (readRow table row)) = some true

def indexEntry (idx : TableIndex S W) (row : Row) : Option Entry :=
  if inIndex table ev idx row then some ⟨entryKey table ev idx row, row.rowid⟩ else none

def entriesOf (idx : TableIndex S W) (rows : List Row) : List Entry :=
  rows.filterMap (indexEntry table ev idx)

structure Sound (db : Database S W) : Prop where
  rowids : (db.rows.map Row.rowid).Nodup
  entries : ∀ idx ∈ db.indexes, idx.entries.Perm (entriesOf table ev idx db.rows)

def Conflicts (matched : MatchedIndex S W) (proposed row : Row) : Prop :=
  match matched with
  | .rowid => row.rowid = proposed.rowid
  | .index idx =>
      inIndex table ev idx row = true ∧ inIndex table ev idx proposed = true ∧
        (entryKey table ev idx proposed).contains .null = false ∧
        prefixesEqual idx (entryKey table ev idx row) (entryKey table ev idx proposed) = true

structure OnConflict [BEq S] [BEq W] (stmt : InsertStmt S W) (db : Database S W)
    (matched : MatchedIndex S W) (proposed old : Row) : Prop where
  resolved : resolveTarget table db.indexes stmt.target = .ok matched
  stored : old ∈ db.rows
  conflicts : Conflicts table ev matched proposed old
  only : ∀ row ∈ db.rows, Conflicts table ev matched proposed row → row = old

/-- The stored row has the values it is to have, every other row is as it was, and every index
holds the entries of the rows. -/
structure Updates (stmt : InsertStmt S W) (before : Database S W) (old proposed : Row)
    (after : Database S W) : Prop where
  row : ∃ values, after.rows = before.rows.map (setRow old.rowid values) ∧
    ∀ ci < table.columns.length, table.rowidAlias ≠ some ci →
      Row.column ⟨old.rowid, values⟩ table ci = expectedColumn table ev stmt old proposed ci
  indexes : List.Forall₂ (fun idx idx' => ∃ entries, idx' = { idx with entries } ∧
    entries.Perm (entriesOf table ev idx after.rows)) before.indexes after.indexes

def UpdatesRow [BEq S] [BEq W] (stmt : InsertStmt S W) (db : Database S W) (old proposed : Row) :
    Prop :=
  ∃ after, upsert table ev stmt db proposed = .ok (.updated after) ∧
    Updates table ev stmt db old proposed after

/-! ## When they are -/

def columnAfter (assignments : List (Assignment S W)) (old proposed : Row) (ci : Nat) : Value :=
  match assignmentTo table assignments ci with
  | some a =>
      ev.numerals.applyAffinity (assignedValue table ev old proposed a.value) (table.affinityAt ci)
  | none => proposed.values.getD ci .null

def resultRow (stmt : InsertStmt S W) (old proposed : Row) : Row :=
  ⟨old.rowid, (List.range table.columns.length).map fun ci =>
    if table.rowidAlias = some ci then .null
    else columnAfter table ev stmt.assignments old proposed ci⟩

def startRegisters (old proposed : Row) : Registers :=
  ⟨existingRegisters table old, recordRegisters table proposed, old.rowid⟩

def storedReading (old : Row) : Reading := (startRegisters table old old).column table

/-- A column under arithmetic alone: of `excluded` it is not the rowid alias, and the assignments
before leave it the value it has in the proposed row; and a REAL is not stored as an integer. -/
def ReadsColumn (front : List (Assignment S W)) (old proposed : Row) (qualifier : Option String)
    (name : String) : Prop :=
  ∀ ci, table.columnIndex name = some ci →
    if qualifier.isSome then
      table.rowidAlias ≠ some ci ∧
        columnAfter table ev front old proposed ci = proposed.column table ci
    else table.rowidAlias = some ci ∨ old.values.getD ci .null = old.column table ci

def ReadsStored (old proposed : Row) (e : Expr S W) : Prop :=
  ev.eval e (storedReading table old) = ev.eval e (rowReading table old proposed)

/-- What is said of each column under arithmetic alone and of each other expression within. -/
def EachRead (column : Option String → String → Prop) (other : Expr S W → Prop) :
    Expr S W → Prop
  | .column schema qualifier name =>
      if qualifier.all isExcluded then column qualifier name
      else other (.column schema qualifier name)
  | .unary _ e => EachRead column other e
  | .binary op left right =>
      if isArithmetic op then EachRead column other left ∧ EachRead column other right
      else other (.binary op left right)
  | e => other e

/-- The expressions of SET read nothing that is not what it was before the statement. -/
def ReadsRows (assignments : List (Assignment S W)) (old proposed : Row) : Prop :=
  ∀ front a rest, assignments = front ++ a :: rest →
    EachRead (ReadsColumn table ev front old proposed) (ReadsStored table ev old proposed) a.value

/-- The clause is compiled, and a column that is not assigned has the value of the stored row in
the proposed row too. -/
structure Keeps (stmt : InsertStmt S W) (db : Database S W) (old proposed : Row) : Prop where
  program : table.withoutRowid = false ∧ stmt.source = .values
  names : validateIndexes table db.indexes = .ok ()
  compiles : ∃ steps, stmt.assignments.mapM (compileAssignment table ev) = .ok steps
  kept : ∀ ci < table.columns.length, table.rowidAlias ≠ some ci →
    assignmentTo table stmt.assignments ci = none → proposed.column table ci = old.column table ci

def upTo (rowid : Int64) (entries : List Entry) : List Entry :=
  entries.takeWhile (·.rowid ≠ rowid) ++ (entries.find? (·.rowid = rowid)).toList

def OfColumns (idx : TableIndex S W) : Prop :=
  ∀ ic ∈ idx.columns, ic.isExpression = false ∧ (table.columnIndex ic.name).isSome = true

def WithoutRowid (idx : TableIndex S W) : Prop :=
  ∀ ic ∈ idx.columns, ∀ ci, table.columnIndex ic.name = some ci → table.rowidAlias ≠ some ci

/-- A leaf whose cells up to the old entry are read whole, over columns that are not the rowid,
which the new row belongs to and no other row has the key of. -/
structure IndexMet (rows : List Row) (old new : Row) (idx : TableIndex S W) : Prop where
  leaf : idx.rootIsLeaf = true
  cells : ∀ e ∈ upTo old.rowid idx.entries, ev.spills e = false
  ofColumns : OfColumns table idx
  withoutRowid : WithoutRowid table idx
  included : inIndex table ev idx new = true
  unique : idx.unique = true → (entryKey table ev idx new).contains .null = false →
    ∀ row ∈ others Row.rowid old.rowid rows, inIndex table ev idx row = true →
      prefixesEqual idx (entryKey table ev idx row) (entryKey table ev idx new) = false

/-- When the program does what it is to do. -/
structure Met (stmt : InsertStmt S W) (db : Database S W) (old proposed : Row) : Prop extends
    Keeps table ev stmt db old proposed where
  reads : ReadsRows table ev stmt.assignments old proposed
  indexes : ∀ idx ∈ db.indexes,
    IndexMet table ev db.rows old (resultRow table ev stmt old proposed) idx

end

/-! ## The registers -/

section

variable (table : Table) (ev : Evaluation S W)

def Registers.read (regs : Registers) : Reading := fun qualifier name =>
  match table.columnIndex name with
  | some ci => if qualifier.isSome then regs.record.getD ci .null else regs.existing.getD ci .null
  | none => .null

def Registers.value (regs : Registers) (e : Expr S W) : Value :=
  valueWith ev (regs.read table) (regs.column table) e

def Registers.assignAll (regs : Registers) (assignments : List (Assignment S W)) : Registers :=
  assignments.foldl (fun regs a =>
    match table.columnIndex a.column with
    | some ci => { regs with
        record := regs.record.set ci
          (ev.numerals.applyAffinity (regs.value table ev a.value) (table.affinityAt ci)) }
    | none => regs) regs

end

section

variable {table : Table} {ev : Evaluation S W}

variable {e : Expr S W} {f : Registers → Value} {a : Assignment S W}
  {assignments : List (Assignment S W)} {steps : List Step} {ci : Nat} {name : String}
  {old proposed row : Row} {regs : Registers} {stmt : InsertStmt S W} {idx : TableIndex S W}
  {rows : List Row} {entries : List Entry} {values : List Value} {db : Database S W}
  {matched : MatchedIndex S W}

theorem value_compileUpsertExpr (h : compileUpsertExpr table ev e = .ok f) (regs : Registers) :
    f regs = regs.value table ev e := by
  unfold Registers.value
  fun_induction compileUpsertExpr table ev e generalizing f with
  | case1 schema name q hq ci hci =>
      cases h
      simp [valueWith, hq, Registers.read, hci]
  | case2 | case5 => cases h
  | case3 schema name q hq =>
      unfold compileOther at h
      split at h
      · cases h
      · cases h
        simp [valueWith, hq]
  | case4 schema name ci hci =>
      cases h
      simp [valueWith, Registers.read, hci]
  | case6 op e ih =>
      obtain ⟨g, hg, h⟩ := Result.bind_eq_ok.mp h
      cases h
      rw [valueWith, ← ih hg]
  | case7 op left right ihl ihr =>
      obtain ⟨g, hg, h⟩ := Result.bind_eq_ok.mp h
      obtain ⟨g', hg', h⟩ := Result.bind_eq_ok.mp h
      split_ifs at h with hop
      cases h
      rw [valueWith, if_pos hop, ← ihl hg, ← ihr hg']
  | case8 e hcolumn hunary hbinary =>
      unfold compileOther at h
      split at h
      · cases h
      · cases h
        rw [valueWith]
        · exact hcolumn
        · exact hunary
        · exact hbinary

theorem compileAssignment_ok {s : Step} (h : compileAssignment table ev a = .ok s) :
    table.columnIndex a.column = some s.column ∧ table.rowidAlias ≠ some s.column ∧
      ∀ regs : Registers, s.value regs = regs.value table ev a.value := by
  unfold compileAssignment at h
  split at h
  · cases h
  · rename_i ci hci
    split_ifs at h with halias
    obtain ⟨f, hf, h⟩ := Result.bind_eq_ok.mp h
    cases h
    exact ⟨hci, halias, value_compileUpsertExpr hf⟩

theorem exists_step (h : assignments.mapM (compileAssignment table ev) = .ok steps)
    (ha : a ∈ assignments) : ∃ s, compileAssignment table ev a = .ok s := by
  have hall := Result.mapM_eq_ok.mp h
  induction hall with
  | nil => cases ha
  | cons hstep hrest ih =>
      rcases List.mem_cons.mp ha with rfl | ha
      · exact ⟨_, hstep⟩
      · exact ih (Result.mapM_eq_ok.mpr hrest) ha

/-- Carrying out the code is carrying out the assignments. -/
theorem foldl_assign (h : assignments.mapM (compileAssignment table ev) = .ok steps)
    (regs : Registers) :
    steps.foldl (Registers.assign table ev) regs = regs.assignAll table ev assignments := by
  have hall := Result.mapM_eq_ok.mp h
  induction hall generalizing regs with
  | nil => rfl
  | @cons a s _ _ hstep hrest ih =>
      obtain ⟨hci, -, hvalue⟩ := compileAssignment_ok hstep
      rw [List.foldl_cons, ih (Result.mapM_eq_ok.mpr hrest), Registers.assignAll,
        Registers.assignAll, List.foldl_cons, hci, Registers.assign, hvalue]

theorem assignAll_append (regs : Registers) (front rest : List (Assignment S W)) :
    regs.assignAll table ev (front ++ rest) =
      (regs.assignAll table ev front).assignAll table ev rest :=
  List.foldl_append

theorem assignAll_cons (regs : Registers) (hci : table.columnIndex a.column = some ci)
    (rest : List (Assignment S W)) :
    regs.assignAll table ev (a :: rest) =
      Registers.assignAll table ev { regs with
        record := regs.record.set ci
          (ev.numerals.applyAffinity (regs.value table ev a.value)
            (table.affinityAt ci)) } rest := by
  rw [Registers.assignAll, List.foldl_cons, hci]
  rfl

@[simp] theorem length_assignAll (regs : Registers) (assignments : List (Assignment S W)) :
    (regs.assignAll table ev assignments).record.length = regs.record.length := by
  induction assignments generalizing regs with
  | nil => rfl
  | cons a rest ih =>
      cases hci : table.columnIndex a.column with
      | none =>
          rw [Registers.assignAll, List.foldl_cons, hci]
          exact ih regs
      | some ci =>
          rw [assignAll_cons regs hci, ih]
          exact List.length_set

variable (ev) in
theorem record_assignAll_of_ne (regs : Registers)
    (h : ∀ a ∈ assignments, table.columnIndex a.column ≠ some ci) :
    (regs.assignAll table ev assignments).record.getD ci .null = regs.record.getD ci .null := by
  induction assignments generalizing regs with
  | nil => rfl
  | cons a rest ih =>
      have hrest := fun b hb => h b (List.mem_cons_of_mem a hb)
      cases hca : table.columnIndex a.column with
      | none =>
          rw [Registers.assignAll, List.foldl_cons, hca]
          exact ih regs hrest
      | some cj =>
          have hne : cj ≠ ci := by
            rintro rfl
            exact h a List.mem_cons_self hca
          rw [assignAll_cons regs hca, ih _ hrest]
          simp [hne]

/-! ## The row -/

theorem lt_length_of_columnIndex (h : table.columnIndex name = some ci) :
    ci < table.columns.length :=
  (List.findIdx?_eq_some_iff_getElem.mp h).1

theorem length_recordRegisters (row : Row) :
    (recordRegisters table row).length = table.columns.length := by
  simp [recordRegisters]

theorem recordRegisters_getD (row : Row) (h : ci < table.columns.length) :
    (recordRegisters table row).getD ci .null =
      if table.rowidAlias = some ci then .null else row.values.getD ci .null := by
  simp [recordRegisters, h]

theorem columnIndex_of_assignmentTo (h : assignmentTo table assignments ci = none) :
    ∀ a ∈ assignments, table.columnIndex a.column ≠ some ci := by
  simpa [assignmentTo] using h

theorem assignmentTo_append (front : List (Assignment S W)) (a : Assignment S W) (ci : Nat) :
    assignmentTo table (front ++ [a]) ci =
      if table.columnIndex a.column = some ci then some a else assignmentTo table front ci := by
  rw [assignmentTo, List.reverse_append, List.reverse_singleton, List.singleton_append,
    List.find?_cons]
  by_cases h : table.columnIndex a.column = some ci
  · simp [h]
  · simp [h, assignmentTo]

variable (ev) in
theorem column_assignAll_of_none (hlt : ci < table.columns.length)
    (halias : table.rowidAlias ≠ some ci) (hnone : assignmentTo table assignments ci = none) :
    Row.column ⟨old.rowid,
        ((startRegisters table old proposed).assignAll table ev assignments).record⟩ table ci =
      proposed.column table ci := by
  have hget := record_assignAll_of_ne ev (startRegisters table old proposed)
    (columnIndex_of_assignmentTo hnone)
  rw [startRegisters, recordRegisters_getD proposed hlt, if_neg halias] at hget
  rw [Row.column, startRegisters, hget, Row.column]

/-! ## What the expressions read -/

theorem EachRead.imp {column column' : Option String → String → Prop}
    {other other' : Expr S W → Prop} (h : EachRead column other e)
    (hcolumn : ∀ qualifier name, qualifier.all isExcluded = true → column qualifier name →
      column' qualifier name) (hother : ∀ e, other e → other' e) : EachRead column' other' e := by
  fun_induction EachRead column' other' e with
  | case1 schema qualifier name hq =>
      rw [EachRead, if_pos hq] at h
      exact hcolumn qualifier name hq h
  | case2 schema qualifier name hq =>
      rw [EachRead, if_neg hq] at h
      exact hother _ h
  | case3 op e ih =>
      rw [EachRead] at h
      exact ih h
  | case4 op left right hop ihl ihr =>
      rw [EachRead, if_pos hop] at h
      exact ⟨ihl h.1, ihr h.2⟩
  | case5 op left right hop =>
      rw [EachRead, if_neg hop] at h
      exact hother _ h
  | case6 e hcolumns hunary hbinary =>
      rw [EachRead] at h
      · exact hother _ h
      · exact hcolumns
      · exact hunary
      · exact hbinary

/-- An expression that compiles has its value on the registers when everything it reads there is
what it is to read. -/
theorem value_of_eachRead (h : compileUpsertExpr table ev e = .ok f) {read inner : Reading}
    (hread : EachRead
      (fun qualifier name => ∀ ci, table.columnIndex name = some ci →
        regs.read table qualifier name = read qualifier name)
      (fun e => ev.eval e (regs.column table) = ev.eval e inner) e) :
    regs.value table ev e = valueWith ev read inner e := by
  unfold Registers.value
  fun_induction compileUpsertExpr table ev e generalizing f with
  | case1 schema name q hq ci hci =>
      have hall : (some q).all isExcluded = true := hq
      rw [EachRead, if_pos hall] at hread
      rw [valueWith, valueWith, if_pos hall, if_pos hall]
      exact hread ci hci
  | case2 | case5 => cases h
  | case3 schema name q hq =>
      have hall : ¬(some q).all isExcluded = true := hq
      rw [EachRead, if_neg hall] at hread
      rw [valueWith, valueWith, if_neg hall, if_neg hall]
      exact hread
  | case4 schema name ci hci =>
      have hall : (none : Option String).all isExcluded = true := rfl
      rw [EachRead, if_pos hall] at hread
      rw [valueWith, valueWith, if_pos hall, if_pos hall]
      exact hread ci hci
  | case6 op e ih =>
      obtain ⟨g, hg, -⟩ := Result.bind_eq_ok.mp h
      rw [EachRead] at hread
      rw [valueWith, valueWith, ih hg hread]
  | case7 op left right ihl ihr =>
      obtain ⟨g, hg, h⟩ := Result.bind_eq_ok.mp h
      obtain ⟨g', hg', h⟩ := Result.bind_eq_ok.mp h
      split_ifs at h with hop
      rw [EachRead, if_pos hop] at hread
      rw [valueWith, valueWith, if_pos hop, if_pos hop, ihl hg hread.1, ihr hg' hread.2]
  | case8 e hcolumn hunary hbinary =>
      rw [EachRead] at hread
      · rw [valueWith, valueWith]
        · exact hread
        all_goals assumption
      · exact hcolumn
      · exact hunary
      · exact hbinary

variable (table ev) in
/-- SET writes the record only. -/
theorem assignAll_eq (regs : Registers) (assignments : List (Assignment S W)) :
    ∃ record, regs.assignAll table ev assignments = { regs with record := record } := by
  induction assignments generalizing regs with
  | nil => exact ⟨regs.record, rfl⟩
  | cons a rest ih =>
      rw [Registers.assignAll, List.foldl_cons]
      cases table.columnIndex a.column with
      | none => exact ih regs
      | some ci => exact ih _

@[simp] theorem existing_assignAll (regs : Registers) (assignments : List (Assignment S W)) :
    (regs.assignAll table ev assignments).existing = regs.existing := by
  obtain ⟨record, heq⟩ := assignAll_eq table ev regs assignments
  rw [heq]

@[simp] theorem conflictRowid_assignAll (regs : Registers)
    (assignments : List (Assignment S W)) :
    (regs.assignAll table ev assignments).conflictRowid = regs.conflictRowid := by
  obtain ⟨record, heq⟩ := assignAll_eq table ev regs assignments
  rw [heq]

variable (ev) in
theorem column_assignAll (old proposed : Row) (assignments : List (Assignment S W)) :
    ((startRegisters table old proposed).assignAll table ev assignments).column table =
      storedReading table old := by
  funext qualifier name
  simp only [storedReading, Registers.column, existing_assignAll, conflictRowid_assignAll,
    startRegisters]

theorem existingRegisters_getD (row : Row) (h : ci < table.columns.length) :
    (existingRegisters table row).getD ci .null =
      if table.rowidAlias = some ci then .int row.rowid else row.values.getD ci .null := by
  simp [existingRegisters, h]

theorem read_of_columnIndex (hci : table.columnIndex name = some ci) :
    row.read table name =
      if table.rowidAlias = some ci then some (.int row.rowid) else some (row.column table ci) := by
  rw [Row.read, Table.resolveColumn, hci]
  dsimp only
  by_cases halias : table.rowidAlias = some ci
  · rw [if_pos halias, if_pos halias.symm]
  · rw [if_neg halias, if_neg (Ne.symm halias)]

theorem read_bare (hci : table.columnIndex name = some ci) :
    regs.read table none name = regs.existing.getD ci .null := by
  rw [Registers.read, hci]
  rfl

theorem read_excluded (q : String) (hci : table.columnIndex name = some ci) :
    regs.read table (some q) name = regs.record.getD ci .null := by
  rw [Registers.read, hci]
  rfl

theorem read_of_readsColumn {front : List (Assignment S W)}
    (hrecord : ∀ ci < table.columns.length, table.rowidAlias ≠ some ci →
      ((startRegisters table old proposed).assignAll table ev front).record.getD ci .null =
        columnAfter table ev front old proposed ci) {qualifier : Option String}
    (hall : qualifier.all isExcluded = true)
    (h : ReadsColumn table ev front old proposed qualifier name)
    (hci : table.columnIndex name = some ci) :
    ((startRegisters table old proposed).assignAll table ev front).read table qualifier name =
      rowReading table old proposed qualifier name := by
  have hlt := lt_length_of_columnIndex hci
  have hcolumn := h ci hci
  cases qualifier with
  | none =>
      have hbare : table.rowidAlias = some ci ∨ old.values.getD ci .null = old.column table ci :=
        hcolumn
      have hread : rowReading table old proposed none name = (old.read table name).getD .null :=
        rfl
      rw [hread, read_of_columnIndex hci, read_bare hci, existing_assignAll, startRegisters,
        existingRegisters_getD old hlt]
      by_cases halias : table.rowidAlias = some ci
      · rw [if_pos halias, if_pos halias]
        rfl
      · rw [if_neg halias, if_neg halias]
        exact hbare.resolve_left halias
  | some q =>
      have hexcluded : table.rowidAlias ≠ some ci ∧
          columnAfter table ev front old proposed ci = proposed.column table ci := hcolumn
      have hread : rowReading table old proposed (some q) name =
          (proposed.read table name).getD .null := if_pos hall
      rw [hread, read_of_columnIndex hci, if_neg hexcluded.1, read_excluded q hci,
        hrecord ci hlt hexcluded.1]
      exact hexcluded.2

/-- When nothing is read that has changed, a column of the registers is that of the proposed row
or what is last assigned to it. -/
theorem record_of_readsRows
    (hcompiles : ∀ a ∈ assignments, ∃ s, compileAssignment table ev a = .ok s)
    (hreads : ReadsRows table ev assignments old proposed) :
    ∀ ci < table.columns.length, table.rowidAlias ≠ some ci →
      ((startRegisters table old proposed).assignAll table ev assignments).record.getD ci .null =
        columnAfter table ev assignments old proposed ci := by
  induction assignments using List.reverseRecOn with
  | nil =>
      intro ci hlt halias
      exact (recordRegisters_getD proposed hlt).trans (if_neg halias)
  | append_singleton front a ih =>
      have hfront := ih (fun b hb => hcompiles b (by simp [hb])) fun front' b rest heq =>
        hreads front' b (rest ++ [a]) (by rw [heq, List.append_assoc, List.cons_append])
      obtain ⟨s, hs⟩ := hcompiles a (by simp)
      obtain ⟨hindex, f, hf⟩ : table.columnIndex a.column = some s.column ∧
          ∃ f, compileUpsertExpr table ev a.value = .ok f := by
        unfold compileAssignment at hs
        split at hs
        · cases hs
        · rename_i cj hcj
          split_ifs at hs
          obtain ⟨f, hf, hs⟩ := Result.bind_eq_ok.mp hs
          cases hs
          exact ⟨hcj, f, hf⟩
      have hvalue : ((startRegisters table old proposed).assignAll table ev front).value table ev
          a.value = assignedValue table ev old proposed a.value := by
        refine value_of_eachRead hf ((hreads front a [] rfl).imp ?_ ?_)
        · intro qualifier name hall hcolumn ci hci
          exact read_of_readsColumn hfront hall hcolumn hci
        · intro e he
          rw [column_assignAll]
          exact he
      intro ci hlt halias
      rw [assignAll_append, assignAll_cons _ hindex, columnAfter, assignmentTo_append, hindex,
        hvalue, Registers.assignAll, List.foldl_nil]
      by_cases heq : s.column = ci
      · subst heq
        have hlen : s.column <
            ((startRegisters table old proposed).assignAll table ev front).record.length := by
          rw [length_assignAll, startRegisters, length_recordRegisters]
          exact hlt
        rw [if_pos rfl, List.getD_eq_getElem?_getD, List.getElem?_set_self hlen]
        rfl
      · rw [if_neg (by simpa using heq)]
        rw [List.getD_eq_getElem?_getD, List.getElem?_set_ne heq, ← List.getD_eq_getElem?_getD,
          hfront ci hlt halias, columnAfter]

theorem record_eq_resultRow
    (hsteps : stmt.assignments.mapM (compileAssignment table ev) = .ok steps)
    (hreads : ReadsRows table ev stmt.assignments old proposed) :
    ((startRegisters table old proposed).assignAll table ev stmt.assignments).record =
      (resultRow table ev stmt old proposed).values := by
  have hlength : ((startRegisters table old proposed).assignAll table ev
      stmt.assignments).record.length = table.columns.length := by
    rw [length_assignAll, startRegisters, length_recordRegisters]
  apply List.ext_getElem
  · simp [hlength, resultRow]
  · intro ci hlt _
    rw [hlength] at hlt
    rw [← List.getD_eq_getElem _ .null]
    simp only [resultRow, List.getElem_map, List.getElem_range]
    by_cases halias : table.rowidAlias = some ci
    · rw [if_pos halias, record_assignAll_of_ne, startRegisters, recordRegisters_getD proposed hlt,
        if_pos halias]
      intro a ha hca
      obtain ⟨s, hs⟩ := exists_step hsteps ha
      obtain ⟨hcs, hne, -⟩ := compileAssignment_ok hs
      exact hne (halias.trans (hca.symm.trans hcs))
    · rw [if_neg halias]
      exact record_of_readsRows (fun a ha => exists_step hsteps ha) hreads ci hlt halias

theorem values_resultRow (hlt : ci < table.columns.length) :
    (resultRow table ev stmt old proposed).values.getD ci .null =
      if table.rowidAlias = some ci then .null
      else columnAfter table ev stmt.assignments old proposed ci := by
  simp [resultRow, hlt]

theorem column_resultRow (hlt : ci < table.columns.length) (halias : table.rowidAlias ≠ some ci)
    (hkept : assignmentTo table stmt.assignments ci = none →
      proposed.column table ci = old.column table ci) :
    (resultRow table ev stmt old proposed).column table ci =
      expectedColumn table ev stmt old proposed ci := by
  rw [Row.column, values_resultRow hlt, if_neg halias, columnAfter, expectedColumn]
  cases h : assignmentTo table stmt.assignments ci with
  | none => exact hkept h
  | some a => rfl

/-! ## The entries -/

/-- When the entries of an index come out right for the block that the program builds.  The key of
the new entry is packed: expressions are left out of it, and so is the rowid. -/
structure Maintained (table : Table) (ev : Evaluation S W) (rows : List Row) (old new : Row)
    (idx : TableIndex S W) : Prop where
  leaf : idx.rootIsLeaf = true
  cells : ∀ e ∈ upTo old.rowid idx.entries, ev.spills e = false
  removed : inIndex table ev idx old = true →
    prefixesEqual idx (entryKey table ev idx old)
      (keyRegisters table idx (existingRegisters table old)) = true
  included : inIndex table ev idx new = true
  packed : keyRegisters table idx new.values = entryKey table ev idx new
  unique : idx.unique = true → (entryKey table ev idx new).contains .null = false →
    ∀ row ∈ others Row.rowid old.rowid rows, inIndex table ev idx row = true →
      prefixesEqual idx (entryKey table ev idx row) (entryKey table ev idx new) = false

theorem entriesOf_cons (idx : TableIndex S W) (row : Row) (rows : List Row) :
    entriesOf table ev idx (row :: rows) =
      (indexEntry table ev idx row).toList ++ entriesOf table ev idx rows := by
  rw [entriesOf, List.filterMap_cons]
  cases indexEntry table ev idx row with
  | none => rfl
  | some e => rfl

theorem indexEntry_eq_some {e : Entry} :
    indexEntry table ev idx row = some e ↔
      inIndex table ev idx row = true ∧ e = ⟨entryKey table ev idx row, row.rowid⟩ := by
  rw [indexEntry]
  split_ifs with h
  · simp [h, eq_comm]
  · simp [h]

theorem mem_entriesOf {e : Entry} :
    e ∈ entriesOf table ev idx rows ↔ ∃ row ∈ rows, inIndex table ev idx row = true ∧
      e = ⟨entryKey table ev idx row, row.rowid⟩ := by
  simp only [entriesOf, List.mem_filterMap, indexEntry_eq_some]

theorem perm_entriesOf (idx : TableIndex S W) (h : (rows.map Row.rowid).Nodup) (hrow : row ∈ rows) :
    (entriesOf table ev idx rows).Perm ((indexEntry table ev idx row).toList ++
      entriesOf table ev idx (others Row.rowid row.rowid rows)) := by
  rw [← entriesOf_cons]
  exact (perm_cons_others h hrow).filterMap _

variable (table ev) in
theorem perm_entriesOf_setRow (idx : TableIndex S W) (h : (rows.map Row.rowid).Nodup)
    (hrow : row ∈ rows) (values : List Value) :
    (entriesOf table ev idx (rows.map (setRow row.rowid values))).Perm
      ((indexEntry table ev idx ⟨row.rowid, values⟩).toList ++
        entriesOf table ev idx (others Row.rowid row.rowid rows)) := by
  rw [← entriesOf_cons]
  exact (perm_map_ite h hrow ⟨row.rowid, values⟩).filterMap _

theorem nodup_entriesOf (idx : TableIndex S W) (h : (rows.map Row.rowid).Nodup) :
    ((entriesOf table ev idx rows).map Entry.rowid).Nodup := by
  induction rows with
  | nil => exact List.nodup_nil
  | cons row rows ih =>
      rw [List.map_cons, List.nodup_cons] at h
      rw [entriesOf_cons, List.map_append]
      cases hentry : indexEntry table ev idx row with
      | none => exact ih h.2
      | some e =>
          obtain ⟨-, rfl⟩ := (indexEntry_eq_some).mp hentry
          refine List.nodup_cons.mpr ⟨?_, ih h.2⟩
          intro hmem
          obtain ⟨e, he, heq⟩ := List.mem_map.mp hmem
          obtain ⟨other, hother, -, rfl⟩ := (mem_entriesOf).mp he
          have hrowid : other.rowid = row.rowid := heq
          exact h.1 (hrowid ▸ List.mem_map_of_mem hother)

/-- The deletion takes out the entry of a row when it has the key and everything up to it can be
read. -/
theorem indexLeafDelete_iff {key : List Value} {rowid : Int64} {rest : List Entry}
    (h : (entries.map Entry.rowid).Nodup) :
    indexLeafDelete ev idx key rowid entries = .ok rest ∧ rowid ∉ rest.map Entry.rowid ↔
      rest = others Entry.rowid rowid entries ∧ (∀ e ∈ upTo rowid entries, ev.spills e = false) ∧
        ∀ e ∈ entries, e.rowid = rowid → prefixesEqual idx e.key key = true := by
  induction entries generalizing rest with
  | nil =>
      simp only [indexLeafDelete, others, upTo]
      constructor
      · rintro ⟨h, -⟩
        cases h
        simp
      · rintro ⟨rfl, -⟩
        simp
  | cons e es ih =>
      rw [List.map_cons, List.nodup_cons] at h
      rw [indexLeafDelete]
      by_cases hrowid : e.rowid = rowid
      · subst hrowid
        have hothers : others Entry.rowid e.rowid (e :: es) = es := by
          rw [others, List.filter_cons_of_neg (by simp)]
          exact others_eq_self h.1
        have hupTo : upTo e.rowid (e :: es) = [e] := by simp [upTo]
        have hrest : (∀ e' ∈ e :: es, e'.rowid = e.rowid → prefixesEqual idx e'.key key = true) ↔
            prefixesEqual idx e.key key = true := by
          constructor
          · intro hall
            exact hall e List.mem_cons_self rfl
          · intro hkey e' he' heq
            rcases List.mem_cons.mp he' with rfl | he'
            · exact hkey
            · exact absurd (heq ▸ List.mem_map_of_mem he') h.1
        rw [hothers, hupTo, hrest]
        cases hspills : ev.spills e with
        | true => simp [hspills]
        | false =>
            by_cases hkey : prefixesEqual idx e.key key = true
            · simp only [hkey, beq_self_eq_true, Bool.and_self, if_true, Bool.false_eq_true,
                if_false, List.mem_singleton, forall_eq, hspills, and_true]
              constructor
              · rintro ⟨h, -⟩
                cases h
                rfl
              · rintro rfl
                exact ⟨rfl, h.1⟩
            · simp only [hkey, Bool.false_and, Bool.false_eq_true, if_false, and_false, iff_false]
              rintro ⟨hmap, hnot⟩
              obtain ⟨rest', -, hok⟩ := Result.map_eq_ok.mp hmap
              subst hok
              exact hnot (by simp)
      · have hothers : others Entry.rowid rowid (e :: es) =
            e :: others Entry.rowid rowid es := by
          rw [others, List.filter_cons_of_pos (by simpa using hrowid)]
          rfl
        have hupTo : upTo rowid (e :: es) = e :: upTo rowid es := by simp [upTo, hrowid]
        rw [hothers, hupTo]
        cases hspills : ev.spills e with
        | true => simp [hspills]
        | false =>
            simp only [hrowid, beq_iff_eq, Bool.and_eq_true, and_false, Bool.false_eq_true,
              if_false, List.forall_mem_cons, hspills, true_and, false_implies]
            constructor
            · rintro ⟨hmap, hnot⟩
              obtain ⟨rest', hok, rfl⟩ := Result.map_eq_ok.mp hmap
              rw [List.map_cons, List.mem_cons, not_or] at hnot
              obtain ⟨rfl, hread, hkeys⟩ := (ih h.2).mp ⟨hok, hnot.2⟩
              exact ⟨rfl, hread, hkeys⟩
            · rintro ⟨rfl, hread, hkeys⟩
              obtain ⟨hok, hnot⟩ := (ih h.2).mpr ⟨rfl, hread, hkeys⟩
              refine ⟨by rw [hok]; rfl, ?_⟩
              rw [List.map_cons, List.mem_cons, not_or]
              exact ⟨Ne.symm hrowid, hnot⟩

variable (table ev) in
theorem rowid_notMem_entriesOf_others (idx : TableIndex S W) (rowid : Int64) (rows : List Row) :
    rowid ∉ (entriesOf table ev idx (others Row.rowid rowid rows)).map Entry.rowid := by
  intro hmem
  obtain ⟨e, he, heq⟩ := List.mem_map.mp hmem
  obtain ⟨row, hrow, -, rfl⟩ := (mem_entriesOf).mp he
  exact (mem_others.mp hrow).2 heq

theorem perm_others_entriesOf (h : (rows.map Row.rowid).Nodup) (hrow : row ∈ rows)
    (hentries : entries.Perm (entriesOf table ev idx rows)) :
    (others Entry.rowid row.rowid entries).Perm
      (entriesOf table ev idx (others Row.rowid row.rowid rows)) := by
  have hperm := (hentries.trans (perm_entriesOf idx h hrow)).filter fun e => e.rowid ≠ row.rowid
  have hself : (indexEntry table ev idx row).toList.filter (fun e => e.rowid ≠ row.rowid) = [] := by
    apply List.filter_eq_nil_iff.mpr
    intro e he
    obtain ⟨-, rfl⟩ := (indexEntry_eq_some).mp (Option.mem_toList.mp he)
    simp
  have hothers := others_eq_self (rowid_notMem_entriesOf_others table ev idx
    row.rowid rows)
  rw [others] at hothers
  rwa [List.filter_append, hself, List.nil_append, hothers] at hperm

theorem updateEntries_iff (hrows : (rows.map Row.rowid).Nodup) (hold : old ∈ rows)
    (hentries : idx.entries.Perm (entriesOf table ev idx rows)) :
    (∃ entries, updateEntries table ev idx (existingRegisters table old) values old.rowid =
        .ok entries ∧
      entries.Perm (entriesOf table ev idx (rows.map (setRow old.rowid values)))) ↔
      Maintained table ev rows old ⟨old.rowid, values⟩ idx := by
  have hnodup : (idx.entries.map Entry.rowid).Nodup :=
    (hentries.map Entry.rowid).nodup_iff.mpr (nodup_entriesOf idx hrows)
  have hafter := perm_entriesOf_setRow table ev idx hrows hold values
  have hrest := perm_others_entriesOf hrows hold hentries
  constructor
  · rintro ⟨entries, hok, hperm⟩
    unfold updateEntries at hok
    split_ifs at hok with hleaf
    obtain ⟨rest, hdelete, hinsert⟩ := Result.bind_eq_ok.mp hok
    unfold idxInsert at hinsert
    split_ifs at hinsert with hunique
    cases hinsert
    have hperm' := hperm.trans hafter
    have hnew : indexEntry table ev idx ⟨old.rowid, values⟩ =
        some ⟨keyRegisters table idx values, old.rowid⟩ := by
      rcases List.mem_append.mp (hperm'.mem_iff.mp List.mem_cons_self) with hmem | hmem
      · exact Option.mem_toList.mp hmem
      · exact absurd (List.mem_map_of_mem hmem)
          (rowid_notMem_entriesOf_others table ev idx old.rowid rows)
    rw [hnew] at hperm'
    have hothers := hperm'.cons_inv
    have hnot : old.rowid ∉ rest.map Entry.rowid := by
      rw [(hothers.map Entry.rowid).mem_iff]
      exact rowid_notMem_entriesOf_others table ev idx old.rowid rows
    obtain ⟨-, hread, hkeys⟩ := (indexLeafDelete_iff hnodup).mp ⟨hdelete, hnot⟩
    obtain ⟨hin, heq⟩ := (indexEntry_eq_some).mp hnew
    have hkey : keyRegisters table idx values = entryKey table ev idx ⟨old.rowid, values⟩ :=
      congrArg Entry.key heq
    constructor
    · exact hleaf
    · exact hread
    · intro hinold
      exact hkeys ⟨entryKey table ev idx old, old.rowid⟩
        (hentries.mem_iff.mpr ((mem_entriesOf).mpr ⟨old, hold, hinold, rfl⟩)) rfl
    · exact hin
    · exact hkey
    · intro hu hnull row hrow hinrow
      have hmem : (⟨entryKey table ev idx row, row.rowid⟩ : Entry) ∈ rest :=
        hothers.mem_iff.mpr ((mem_entriesOf).mpr ⟨row, hrow, hinrow, rfl⟩)
      simp only [hu, repeatsKey, hkey, hnull, Bool.not_false, Bool.true_and,
        List.any_eq_true, not_exists, not_and, Bool.not_eq_true] at hunique
      exact hunique _ hmem
  · rintro ⟨hleaf, hread, hremoved, hin, hkey, hunique⟩
    have hkeys : ∀ e ∈ idx.entries, e.rowid = old.rowid →
        prefixesEqual idx e.key (keyRegisters table idx (existingRegisters table old)) = true := by
      intro e he heq
      obtain ⟨row, hrow, hinrow, rfl⟩ := (mem_entriesOf).mp (hentries.mem_iff.mp he)
      obtain rfl : row = old := List.inj_on_of_nodup_map hrows hrow hold heq
      exact hremoved hinrow
    have hdelete := ((indexLeafDelete_iff hnodup).mpr ⟨rfl, hread, hkeys⟩).1
    have hrepeats : (idx.unique && repeatsKey idx (keyRegisters table idx values)
        (others Entry.rowid old.rowid idx.entries)) = false := by
      rw [Bool.and_eq_false_imp]
      intro hu
      rw [repeatsKey, Bool.and_eq_false_imp]
      intro hnull
      rw [List.any_eq_false]
      intro e he
      obtain ⟨row, hrow, hinrow, rfl⟩ := (mem_entriesOf).mp (hrest.mem_iff.mp he)
      rw [hkey] at hnull ⊢
      simpa using hunique hu (by simpa using hnull) row hrow hinrow
    refine ⟨⟨keyRegisters table idx values, old.rowid⟩ ::
      others Entry.rowid old.rowid idx.entries, ?_, ?_⟩
    · rw [updateEntries, if_pos hleaf, hdelete, Result.ok_bind, idxInsert, hrepeats]
      rfl
    · refine List.Perm.trans ?_ hafter.symm
      rw [indexEntry, if_pos hin, hkey]
      exact hrest.cons _

/-! ## The probe -/

theorem ofColumns_of_resolveTarget [BEq S] [BEq W] {indexes : List (TableIndex S W)}
    {target : UpsertTarget S W} (h : resolveTarget table indexes target = .ok (.index idx))
    (hnames : validateIndexes table indexes = .ok ()) : idx ∈ indexes ∧ OfColumns table idx := by
  unfold resolveTarget at h
  split_ifs at h with hrowid
  · cases h
  split at h
  · rename_i found hfound
    cases h
    have hmem := List.mem_of_find?_eq_some hfound
    have hmatches := List.find?_some hfound
    refine ⟨hmem, fun ic hic => ?_⟩
    have hcolumn : ic.isExpression = false := by
      simp only [matchesTarget, Bool.and_eq_true, Bool.not_eq_true', List.any_eq_false] at hmatches
      simpa using hmatches.1.1.1.2 ic hic
    refine ⟨hcolumn, ?_⟩
    unfold validateIndexes at hnames
    split at hnames
    · cases hnames
    · rename_i hnone
      have hknown := List.findSome?_eq_none_iff.mp 
        (List.findSome?_eq_none_iff.mp hnone _ hmem) ic hic
      exact Option.isSome_iff_ne_none.mpr (by simpa [hcolumn] using hknown)
  · cases h

theorem keyRegisters_of_columns (h : OfColumns table idx) (block : List Value) :
    keyRegisters table idx block = idx.columns.map fun ic =>
      ((table.columnIndex ic.name).map fun ci => block.getD ci .null).getD .null := by
  have hindices : (tableColumnIndices table idx).map (fun ci => block.getD ci .null) =
      idx.columns.map fun ic =>
        ((table.columnIndex ic.name).map fun ci => block.getD ci .null).getD .null := by
    unfold tableColumnIndices
    unfold OfColumns at h
    generalize idx.columns = columns at h
    induction columns with
    | nil => rfl
    | cons ic columns ih =>
        obtain ⟨hcolumn, hsome⟩ := h ic List.mem_cons_self
        obtain ⟨ci, hci⟩ := Option.isSome_iff_exists.mp hsome
        have hrest := ih fun ic hic => h ic (List.mem_cons_of_mem _ hic)
        simp only [List.filterMap_cons, hcolumn, Bool.false_eq_true, if_false, hci, List.map_cons,
          Option.map_some, Option.getD_some, hrest]
  have hlength := congrArg List.length hindices
  rw [List.length_map, List.length_map] at hlength
  rw [keyRegisters, hindices, List.length_map, Nat.sub_self, List.replicate_zero, List.append_nil]

theorem entryKey_of_columns (h : OfColumns table idx) (row : Row) :
    entryKey table ev idx row = idx.columns.map fun ic =>
      ((table.columnIndex ic.name).map (keyColumn table row)).getD .null := by
  apply List.map_congr_left
  intro ic hic
  simp [(h ic hic).1]

variable (ev) in
theorem keyRegisters_recordRegisters (h : OfColumns table idx) (halias : WithoutRowid table idx)
    (row : Row) :
    keyRegisters table idx (recordRegisters table row) = entryKey table ev idx row := by
  rw [keyRegisters_of_columns h, entryKey_of_columns h]
  apply List.map_congr_left
  intro ic hic
  obtain ⟨ci, hci⟩ := Option.isSome_iff_exists.mp (h ic hic).2
  rw [hci, Option.map_some, Option.map_some, recordRegisters_getD row
    (lt_length_of_columnIndex hci), keyColumn, if_neg (halias ic hic ci hci),
    if_neg (halias ic hic ci hci)]

theorem withoutRowid_of_contains (h : OfColumns table idx)
    (hnull : (keyRegisters table idx (recordRegisters table row)).contains .null = false) :
    WithoutRowid table idx := by
  intro ic hic ci hci halias
  rw [keyRegisters_of_columns h, List.contains_eq_mem, decide_eq_false_iff_not] at hnull
  apply hnull
  refine List.mem_map.mpr ⟨ic, hic, ?_⟩
  rw [hci, Option.map_some, recordRegisters_getD row (lt_length_of_columnIndex hci), if_pos halias]
  rfl

theorem withoutRowid_of_packed (h : OfColumns table idx)
    (hnull : ∀ ci < table.columns.length, table.rowidAlias = some ci →
      row.values.getD ci .null = .null)
    (hpacked : keyRegisters table idx row.values = entryKey table ev idx row) :
    WithoutRowid table idx := by
  intro ic hic ci hci hrowid
  rw [keyRegisters_of_columns h, entryKey_of_columns h] at hpacked
  have hcolumn := List.map_inj_left.mp hpacked ic hic
  rw [hci, Option.map_some, Option.map_some, Option.getD_some, Option.getD_some,
    hnull ci (lt_length_of_columnIndex hci) hrowid, keyColumn, if_pos hrowid] at hcolumn
  cases hcolumn

theorem prefixesEqual_self (idx : TableIndex S W) (key : List Value) :
    prefixesEqual idx key key = true := by
  simp only [prefixesEqual, BEq.rfl, Bool.true_and, List.all_eq_true, beq_iff_eq]
  intro p hp
  obtain ⟨v, hv⟩ : ∃ v, p.1 = (v, v) := by
    have hmem := List.fst_mem_of_mem_zipIdx hp
    rw [List.zip_eq_zipWith, List.zipWith_self] at hmem
    obtain ⟨v, -, hv⟩ := List.mem_map.mp hmem
    exact ⟨v, hv.symm⟩
  rw [hv]
  exact memCompare_self v _

variable (ev) in
theorem keyRegisters_existingRegisters (h : OfColumns table idx) (row : Row) :
    keyRegisters table idx (existingRegisters table row) = entryKey table ev idx row := by
  rw [keyRegisters_of_columns h, entryKey_of_columns h]
  apply List.map_congr_left
  intro ic hic
  obtain ⟨ci, hci⟩ := Option.isSome_iff_exists.mp (h ic hic).2
  rw [hci, Option.map_some, Option.map_some,
    existingRegisters_getD row (lt_length_of_columnIndex hci), keyColumn]

/-- Over columns alone, the entries come out right just when the conditions on the index hold. -/
theorem maintained_iff {new : Row} (h : OfColumns table idx)
    (hnull : ∀ ci < table.columns.length, table.rowidAlias = some ci →
      new.values.getD ci .null = .null) :
    Maintained table ev rows old new idx ↔ IndexMet table ev rows old new idx := by
  constructor
  · rintro ⟨hleaf, hcells, -, hincluded, hpacked, hunique⟩
    exact ⟨hleaf, hcells, h, withoutRowid_of_packed h hnull hpacked, hincluded, hunique⟩
  · rintro ⟨hleaf, hcells, -, hrowid, hincluded, hunique⟩
    refine ⟨hleaf, hcells, ?_, hincluded, ?_, hunique⟩
    · intro _
      rw [keyRegisters_existingRegisters ev h]
      exact prefixesEqual_self idx _
    · rw [keyRegisters_of_columns h, entryKey_of_columns h]
      apply List.map_congr_left
      intro ic hic
      obtain ⟨ci, hci⟩ := Option.isSome_iff_exists.mp (h ic hic).2
      rw [hci, Option.map_some, Option.map_some, keyColumn, if_neg (hrowid ic hic ci hci)]

theorem doUpdateForTarget_of_onConflict [BEq S] [BEq W] (hdb : Sound table ev db)
    (hconflict : OnConflict table ev stmt db matched proposed old)
    (hnames : validateIndexes table db.indexes = .ok ())
    (halias : ∀ idx, matched = .index idx → WithoutRowid table idx) (steps : List Step) :
    doUpdateForTarget table ev db matched proposed steps =
      doUpdateBody table ev db (recordRegisters table proposed) steps old := by
  obtain ⟨hresolved, hstored, hconflicts, honly⟩ := hconflict
  have hfind := find?_key hdb.rowids hstored
  cases matched with
  | rowid =>
      have hrowid : old.rowid = proposed.rowid := hconflicts
      rw [doUpdateForTarget, ← hrowid, hfind]
  | index idx =>
      obtain ⟨hmem, hcolumns⟩ := ofColumns_of_resolveTarget hresolved hnames
      obtain ⟨hin, hinProposed, hnull, hequal⟩ := hconflicts
      have hentries := hdb.entries idx hmem
      have hkey := keyRegisters_recordRegisters ev hcolumns (halias idx rfl) proposed
      have hold : (⟨entryKey table ev idx old, old.rowid⟩ : Entry) ∈ idx.entries :=
        hentries.mem_iff.mpr ((mem_entriesOf).mpr ⟨old, hstored, hin, rfl⟩)
      have hprobe : (idx.entries.find? fun e =>
          prefixesEqual idx e.key (entryKey table ev idx proposed)).isSome = true :=
        List.find?_isSome.mpr ⟨_, hold, hequal⟩
      obtain ⟨e, he⟩ := Option.isSome_iff_exists.mp hprobe
      have hfound : e.rowid = old.rowid := by
        obtain ⟨row, hrow, hinrow, rfl⟩ :=
          (mem_entriesOf).mp (hentries.mem_iff.mp (List.mem_of_find?_eq_some he))
        have hprobed := List.find?_some he
        rw [honly row hrow ⟨hinrow, hinProposed, hnull, hprobed⟩]
      simp only [doUpdateForTarget, hkey, hnull, Bool.false_eq_true, if_false, he, hfound, hfind]

/-! ## The statement -/

theorem exists_mapM_iff {α β : Type} {f : α → Result β} {R : α → β → Prop} {l : List α} :
    (∃ l', l.mapM f = .ok l' ∧ List.Forall₂ R l l') ↔ ∀ a ∈ l, ∃ b, f a = .ok b ∧ R a b := by
  simp only [Result.mapM_eq_ok]
  induction l with
  | nil => simp
  | cons a l ih =>
      rw [List.forall_mem_cons, ← ih]
      constructor
      · rintro ⟨l', hok, hrel⟩
        cases hok with
        | cons hhead htail =>
            cases hrel with
            | cons hhead' htail' => exact ⟨⟨_, hhead, hhead'⟩, _, htail, htail'⟩
      · rintro ⟨⟨b, hhead, hhead'⟩, l', htail, htail'⟩
        exact ⟨b :: l', .cons hhead htail, .cons hhead' htail'⟩

theorem updateIndexes_iff (hdb : Sound table ev db) (hold : old ∈ db.rows) :
    (∃ indexes, updateIndexes table ev (existingRegisters table old) values old.rowid db.indexes =
        .ok indexes ∧
      List.Forall₂ (fun idx idx' => ∃ entries, idx' = { idx with entries } ∧
        entries.Perm (entriesOf table ev idx (db.rows.map (setRow old.rowid values))))
        db.indexes indexes) ↔
      ∀ idx ∈ db.indexes, Maintained table ev db.rows old ⟨old.rowid, values⟩ idx := by
  have heach : ∀ idx ∈ db.indexes, (Maintained table ev db.rows old ⟨old.rowid, values⟩ idx ↔
      ∃ idx', (do
          let entries ← updateEntries table ev idx (existingRegisters table old) values old.rowid
          return { idx with entries } : Result (TableIndex S W)) = .ok idx' ∧
        ∃ entries, idx' = { idx with entries } ∧
          entries.Perm (entriesOf table ev idx (db.rows.map (setRow old.rowid values)))) := by
    intro idx hidx
    rw [← updateEntries_iff hdb.rowids hold (hdb.entries idx hidx)]
    constructor
    · rintro ⟨entries, hok, hperm⟩
      exact ⟨{ idx with entries }, by rw [hok]; rfl, entries, rfl, hperm⟩
    · rintro ⟨idx', hok, entries, rfl, hperm⟩
      obtain ⟨entries', hok', hpure⟩ := Result.bind_eq_ok.mp hok
      have heq : entries' = entries := congrArg TableIndex.entries (Except.ok.inj hpure)
      exact ⟨entries, heq ▸ hok', hperm⟩
  rw [forall₂_congr heach, updateIndexes]
  exact exists_mapM_iff

theorem updatesRow_of_steps [BEq S] [BEq W] (hdb : Sound table ev db)
    (hconflict : OnConflict table ev stmt db matched proposed old)
    (h : UpdatesRow table ev stmt db old proposed) :
    (table.withoutRowid = false ∧ stmt.source = .values) ∧
      validateIndexes table db.indexes = .ok () ∧
      ∃ steps, stmt.assignments.mapM (compileAssignment table ev) = .ok steps ∧
        (∀ ci < table.columns.length, table.rowidAlias ≠ some ci →
          Row.column ⟨old.rowid, ((startRegisters table old proposed).assignAll table ev
            stmt.assignments).record⟩ table ci = expectedColumn table ev stmt old proposed ci) ∧
        ∀ idx ∈ db.indexes, Maintained table ev db.rows old ⟨old.rowid, ((startRegisters table old
          proposed).assignAll table ev stmt.assignments).record⟩ idx := by
  have hold := hconflict.stored
  obtain ⟨after, hok, ⟨values, hafter, hcolumns⟩, hindexes⟩ := h
  unfold upsert at hok
  split_ifs at hok with hprogram
  · cases hok
  rw [not_or, Bool.not_eq_true, not_not] at hprogram
  obtain ⟨⟨⟩, hnames, hok⟩ := Result.bind_eq_ok.mp hok
  rw [hconflict.resolved, Result.ok_bind] at hok
  obtain ⟨steps, hsteps, hok⟩ := Result.bind_eq_ok.mp hok
  have halias : ∀ idx, matched = .index idx → WithoutRowid table idx := by
    rintro idx rfl
    have hofColumns := (ofColumns_of_resolveTarget hconflict.resolved hnames).2
    apply withoutRowid_of_contains hofColumns
    rw [doUpdateForTarget] at hok
    split_ifs at hok with hnull
    · cases hok
    · simpa using hnull
  rw [doUpdateForTarget_of_onConflict hdb hconflict hnames halias, doUpdateBody,
    foldl_assign hsteps] at hok
  obtain ⟨indexes, hmaintained, hok⟩ := Result.bind_eq_ok.mp hok
  cases hok
  have hvalues : ((startRegisters table old proposed).assignAll table ev
      stmt.assignments).record = values := by
    have heq := List.map_inj_left.mp hafter old hold
    rw [setRow, setRow, if_pos rfl, if_pos rfl] at heq
    exact congrArg Row.values heq
  subst hvalues
  exact ⟨hprogram, hnames, steps, hsteps, hcolumns,
    (updateIndexes_iff hdb hold).mp ⟨indexes, hmaintained, hindexes⟩⟩

/-- For a row that conflicts with a stored one, the statement updates what SET names and nothing
else when what is not assigned is the same in both rows, the expressions read nothing that is not
what it was, and the indexes are maintained; and it does so only then, where the expressions read
nothing else and no index is over an expression.  That what is not assigned is the same in both
rows is needed always. -/
theorem updatesRow_of_met [BEq S] [BEq W] {stmt : InsertStmt S W} {db : Database S W}
    {matched : MatchedIndex S W} {old proposed : Row} (hdb : Sound table ev db)
    (hconflict : OnConflict table ev stmt db matched proposed old) :
    (Met table ev stmt db old proposed → UpdatesRow table ev stmt db old proposed) ∧
      (UpdatesRow table ev stmt db old proposed → Keeps table ev stmt db old proposed ∧
        (ReadsRows table ev stmt.assignments old proposed →
          (∀ idx ∈ db.indexes, OfColumns table idx) → Met table ev stmt db old proposed)) := by
  have hold := hconflict.stored
  have hnull : ∀ ci < table.columns.length, table.rowidAlias = some ci →
      (resultRow table ev stmt old proposed).values.getD ci .null = .null := by
    intro ci hlt halias
    rw [values_resultRow hlt, if_pos halias]
  constructor
  · rintro ⟨⟨hprogram, hnames, ⟨steps, hsteps⟩, hkept⟩, hreads, hmet⟩
    have hmaintained : ∀ idx ∈ db.indexes, Maintained table ev db.rows old
        (resultRow table ev stmt old proposed) idx := fun idx hidx =>
      (maintained_iff (hmet idx hidx).ofColumns hnull).mpr (hmet idx hidx)
    obtain ⟨indexes, hmaintenance, hindexes⟩ := (updateIndexes_iff hdb hold).mpr hmaintained
    have halias : ∀ idx, matched = .index idx → WithoutRowid table idx := by
      rintro idx rfl
      exact (hmet idx (ofColumns_of_resolveTarget hconflict.resolved hnames).1).withoutRowid
    refine ⟨⟨_, indexes⟩, ?_, ⟨_, rfl, fun ci hlt halias =>
      column_resultRow hlt halias (hkept ci hlt halias)⟩, hindexes⟩
    rw [upsert, if_neg (by simp [hprogram]), hnames, Result.ok_bind, hconflict.resolved,
      Result.ok_bind, hsteps, Result.ok_bind,
      doUpdateForTarget_of_onConflict hdb hconflict hnames halias, doUpdateBody,
      foldl_assign hsteps]
    have hrecord := record_eq_resultRow hsteps hreads
    rw [startRegisters] at hrecord
    rw [hrecord]
    exact Result.bind_eq_ok.mpr ⟨indexes, hmaintenance, rfl⟩
  · intro h
    obtain ⟨hprogram, hnames, steps, hsteps, hcolumns, hmaintained⟩ :=
      updatesRow_of_steps hdb hconflict h
    have hkeeps : Keeps table ev stmt db old proposed := by
      refine ⟨hprogram, hnames, ⟨steps, hsteps⟩, ?_⟩
      intro ci hlt halias hnone
      have hcolumn := hcolumns ci hlt halias
      rw [column_assignAll_of_none ev hlt halias hnone, expectedColumn, hnone] at hcolumn
      exact hcolumn
    refine ⟨hkeeps, fun hreads hofColumns => ⟨hkeeps, hreads, fun idx hidx => ?_⟩⟩
    rw [record_eq_resultRow hsteps hreads] at hmaintained
    exact (maintained_iff (hofColumns idx hidx) hnull).mp (hmaintained idx hidx)

end

def tableAbc : Table := ⟨"t", ["a", "b", "c"].map fun name => ⟨name, .blob, .binary⟩, none, false⟩

def literals : Evaluation Empty Empty where
  numerals := ⟨fun _ => "", fun _ => (none, false)⟩
  arith _ _ _ := .null
  not _ := .null
  bitNot _ := .null
  refuses _ := none
  eval
    | .literal (.integer i), _ => .int i
    | _, _ => .null
  spills _ := false

def onConflictA (assignments : List (Assignment Empty Empty)) : InsertStmt Empty Empty :=
  ⟨.values, ⟨[.column "a"], none⟩, assignments⟩

/-- `CREATE UNIQUE INDEX i ON t(a)`, with the entries of the rows `(1, 2, 3)` and `(7, 8, 9)`. -/
def uniqueA : TableIndex Empty Empty :=
  ⟨⟨"i", [⟨"a", none, .binary, false⟩], none⟩, true, [⟨[.int 1], 1⟩, ⟨[.int 7], 4⟩], true⟩

def indexCb (entries : List Entry) : TableIndex Empty Empty :=
  ⟨⟨"j", [⟨"c", none, .binary, false⟩, ⟨"b", none, .binary, false⟩], none⟩, false, entries, true⟩

def twoRows : Database Empty Empty where
  rows := [⟨1, [.int 1, .int 2, .int 3]⟩, ⟨4, [.int 7, .int 8, .int 9]⟩]
  indexes := [uniqueA, indexCb [⟨[.int 3, .int 2], 1⟩, ⟨[.int 9, .int 8], 4⟩]]

theorem sound_twoRows : Sound tableAbc literals twoRows where
  rowids := by decide
  entries idx hidx := by
    rcases List.mem_cons.mp hidx with rfl | hidx
    · exact List.Perm.refl _
    · obtain rfl := List.mem_singleton.mp hidx
      exact List.Perm.refl _

theorem onConflict_twoRows (assignments : List (Assignment Empty Empty)) :
    OnConflict tableAbc literals (onConflictA assignments) twoRows (.index uniqueA)
      ⟨2, [.int 1, .int 20, .int 30]⟩ ⟨1, [.int 1, .int 2, .int 3]⟩ where
  resolved := rfl
  stored := List.mem_cons_self
  conflicts := ⟨rfl, rfl, rfl, rfl⟩
  only row hrow hconflicts := by
    rcases List.mem_cons.mp hrow with rfl | hrow
    · rfl
    · obtain rfl := List.mem_singleton.mp hrow
      exact absurd hconflicts.2.2.2 (by decide)

def setBc : List (Assignment Empty Empty) :=
  [⟨"b", .column none (some "excluded") "b"⟩, ⟨"c", .column none none "b"⟩]

theorem readsRows_setBc : ReadsRows tableAbc literals setBc ⟨1, [.int 1, .int 2, .int 3]⟩
    ⟨2, [.int 1, .int 20, .int 30]⟩ := by
  intro front a rest hsplit
  rcases List.cons_eq_append_iff.mp hsplit with ⟨rfl, heq⟩ | ⟨front, rfl, hrest⟩
  · cases heq
    intro ci hci
    obtain rfl : 1 = ci := Option.some.inj hci
    exact ⟨by decide, rfl⟩
  · rcases List.cons_eq_append_iff.mp hrest with ⟨rfl, heq⟩ | ⟨front, rfl, hnil⟩
    · cases heq
      intro ci hci
      obtain rfl : 1 = ci := Option.some.inj hci
      exact .inr rfl
    · exact absurd hnil.symm (by simp)

theorem indexMet_setBc (idx : TableIndex Empty Empty) (hidx : idx ∈ twoRows.indexes) :
    IndexMet tableAbc literals twoRows.rows ⟨1, [.int 1, .int 2, .int 3]⟩
      (resultRow tableAbc literals (onConflictA setBc) ⟨1, [.int 1, .int 2, .int 3]⟩
        ⟨2, [.int 1, .int 20, .int 30]⟩) idx := by
  rcases List.mem_cons.mp hidx with rfl | hidx
  · refine ⟨rfl, by decide, by unfold OfColumns; decide, ?_, rfl, by decide⟩
    intro ic _ ci _ halias
    cases halias
  · obtain rfl := List.mem_singleton.mp hidx
    refine ⟨rfl, by decide, by unfold OfColumns; decide, ?_, rfl, by decide⟩
    intro ic _ ci _ halias
    cases halias

theorem updatesRow_setBc : UpdatesRow tableAbc literals (onConflictA setBc) twoRows
    ⟨1, [.int 1, .int 2, .int 3]⟩ ⟨2, [.int 1, .int 20, .int 30]⟩ :=
  (updatesRow_of_met sound_twoRows (onConflict_twoRows setBc)).1
    ⟨⟨⟨rfl, rfl⟩, rfl, ⟨_, rfl⟩, by decide⟩, readsRows_setBc, indexMet_setBc⟩

/-- `SET b = 5`: `c` is not assigned, and becomes 30. -/
theorem not_updatesRow_setB :
    Sound tableAbc literals twoRows ∧
      OnConflict tableAbc literals (onConflictA [⟨"b", .literal (.integer 5)⟩]) twoRows
        (.index uniqueA) ⟨2, [.int 1, .int 20, .int 30]⟩ ⟨1, [.int 1, .int 2, .int 3]⟩ ∧
      ¬UpdatesRow tableAbc literals (onConflictA [⟨"b", .literal (.integer 5)⟩]) twoRows
        ⟨1, [.int 1, .int 2, .int 3]⟩ ⟨2, [.int 1, .int 20, .int 30]⟩ := by
  refine ⟨sound_twoRows, onConflict_twoRows _, ?_⟩
  rintro ⟨after, hok, ⟨values, hafter, hcolumns⟩, -⟩
  have hrun : upsert tableAbc literals (onConflictA [⟨"b", .literal (.integer 5)⟩]) twoRows
      ⟨2, [.int 1, .int 20, .int 30]⟩ =
      .ok (.updated ⟨[⟨1, [.int 1, .int 5, .int 30]⟩, ⟨4, [.int 7, .int 8, .int 9]⟩],
        [uniqueA, indexCb [⟨[.int 30, .int 5], 1⟩, ⟨[.int 9, .int 8], 4⟩]]⟩) := rfl
  rw [hrun] at hok
  cases hok
  cases hafter
  exact absurd (hcolumns 2 (by decide) (by decide)) (by decide)

end Rustqlite.Codegen.Upsert
