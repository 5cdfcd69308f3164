import Rustqlite.Schema.Table
import Rustqlite.Vdbe.Runs

/-!
# Cursors on tables

The opcodes that go through the rows of a table and read the current one.  A
table without rowids is read through an index cursor, which has no row of NULLs.
-/

namespace Rustqlite.Vdbe

open Schema

structure TableCursor where
  index : Bool
  rows : List Row
  rest : List Row
  nullRow : Bool

namespace TableCursor

def opened (index : Bool) (rows : List Row) : TableCursor := ⟨index, rows, [], false⟩

def rewind (c : TableCursor) : TableCursor := { c with rest := c.rows, nullRow := false }

def next (c : TableCursor) : TableCursor :=
  if c.rest = [] then c else { c with rest := c.rest.tail, nullRow := false }

def setNullRow (c : TableCursor) : Option TableCursor :=
  if c.index then none else some { c with nullRow := true }

def rowid (c : TableCursor) : Option Value :=
  if c.index then none
  else if c.nullRow then some (.int 0)
  else c.rest.head?.map fun row => .int row.rowid

def column (c : TableCursor) (col : ℕ) : Option Value :=
  if c.nullRow then some .null else c.rest.head?.map fun row => row.values.getD col .null

end TableCursor

def P4.isKeyInfo : P4 → Bool
  | .keyInfo _ => true
  | _ => false

variable {A W : Type}

def scanEffects (tables : W → Int → List Row) (other : Effects A TableCursor W) :
    Effects A TableCursor W
  | .transaction, i => some ⟨[], [], [], i.world, false⟩
  | .openRead, i =>
      match i.plain with
      | [root] =>
          some ⟨[], [], [some (.opened i.p4.isKeyInfo (tables i.world root))], i.world, false⟩
      | _ => none
  | .rewind, i =>
      match i.cursors with
      | [some c] => some ⟨[], [], [some c.rewind], i.world, c.rows.isEmpty⟩
      | _ => none
  | .next, i =>
      match i.cursors with
      | [some c] => some ⟨[], [], [some c.next], i.world, !c.next.rest.isEmpty⟩
      | _ => none
  | .nullRow, i =>
      match i.cursors with
      | [some c] => c.setNullRow.map fun c => ⟨[], [], [some c], i.world, false⟩
      | _ => none
  | .rowid, i =>
      match i.cursors with
      | [some c] => c.rowid.map fun v => ⟨[v], [], [some c], i.world, false⟩
      | _ => none
  | .column, i =>
      match i.plain, i.cursors with
      | [col], [some c] => (c.column col.toNat).map fun v => ⟨[v], [], [some c], i.world, false⟩
      | _, _ => none
  | .realAffinity, i =>
      match i.values with
      | [v] => some ⟨[realAffinity v], [], [], i.world, false⟩
      | _ => none
  | op, i => other op i

/-! ## Steps -/

section

attribute [local simp] Machine.exec Machine.outcome Instruction.new Instruction.uses
  registerEffect scanEffects Machine.inputs Machine.after

variable {n : Numerals} {tables : W → Int → List Row} {other : Effects A TableCursor W}
  {prog : List Instruction} {s : Machine A TableCursor W} {c : TableCursor}

namespace Machine

def setCursor (s : Machine A TableCursor W) (k : Int) (c : TableCursor) (pc : ℕ) :
    Machine A TableCursor W :=
  { s with pc := pc, cursors := Function.update s.cursors k (some c) }

@[simp] theorem setCursor_pc (k : Int) (pc : ℕ) : (s.setCursor k c pc).pc = pc := rfl

@[simp] theorem setCursor_regs (k : Int) (pc : ℕ) : (s.setCursor k c pc).regs = s.regs := rfl

@[simp] theorem setCursor_self (k : Int) (pc : ℕ) : (s.setCursor k c pc).cursors k = some c :=
  Function.update_self ..

variable {k p2 p3 target : Int} {p4 : P4} {p5 : UInt8} {v : Value}

theorem setCursor_of_ne {k' : Int} (h : k' ≠ k) (pc : ℕ) :
    (s.setCursor k c pc).cursors k' = s.cursors k' :=
  Function.update_of_ne h ..

theorem runs_transaction {p1 : Int} (h : prog[s.pc]? = some (.new .transaction p1 p2 p3)) :
    Runs n (scanEffects tables other) prog s [] (s.goto (s.pc + 1)) := by
  apply Runs.one h
  simp [goto, setAll]

theorem runs_openRead {root : Int} (h : prog[s.pc]? = some ⟨.openRead, k, root, p3, p4, p5⟩) :
    Runs n (scanEffects tables other) prog s []
      (s.setCursor k (.opened p4.isKeyInfo (tables s.world root)) (s.pc + 1)) := by
  apply Runs.one h
  simp [setCursor, setAll]

variable (n tables other) in
theorem runs_rewind {target : ℕ} (h : prog[s.pc]? = some ⟨.rewind, k, target, p3, p4, p5⟩)
    (hc : s.cursors k = some c) :
    Runs n (scanEffects tables other) prog s []
      (s.setCursor k c.rewind (if c.rows = [] then target else s.pc + 1)) := by
  apply Runs.one h
  simp [setCursor, setAll, hc]

theorem runs_next {target : ℕ} (h : prog[s.pc]? = some ⟨.next, k, target, p3, p4, p5⟩)
    (hc : s.cursors k = some c) :
    Runs n (scanEffects tables other) prog s []
      (s.setCursor k c.next (if c.next.rest = [] then s.pc + 1 else target)) := by
  apply Runs.one h
  simp [setCursor, setAll, hc]

variable (n tables other) in
theorem runs_nullRow {c' : TableCursor} (h : prog[s.pc]? = some (.new .nullRow k p2 p3))
    (hc : s.cursors k = some c) (hnull : c.setNullRow = some c') :
    Runs n (scanEffects tables other) prog s [] (s.setCursor k c' (s.pc + 1)) := by
  apply Runs.one h
  simp [setCursor, setAll, hc, hnull]

theorem step_nullRow_index (h : prog[s.pc]? = some (.new .nullRow k p2 p3))
    (hc : s.cursors k = some c) (hindex : c.index = true) :
    s.step n (scanEffects tables other) prog = .error := by
  rw [step_eq h]
  simp [hc, TableCursor.setNullRow, hindex]

theorem runs_rowid (h : prog[s.pc]? = some (.new .rowid k target p3)) (hc : s.cursors k = some c)
    (hv : c.rowid = some v) :
    Runs n (scanEffects tables other) prog s [] ((s.set target v).goto (s.pc + 1)) := by
  apply Runs.one h
  have hself : Function.update s.cursors k (some c) = s.cursors :=
    Function.update_eq_self_iff.mpr hc.symm
  simp [set, goto, setAll, hc, hv, hself]

variable (n tables other) in
theorem runs_column {col : ℕ} (h : prog[s.pc]? = some (.new .column k col target))
    (hc : s.cursors k = some c) (hv : c.column col = some v) :
    Runs n (scanEffects tables other) prog s [] ((s.set target v).goto (s.pc + 1)) := by
  apply Runs.one h
  have hself : Function.update s.cursors k (some c) = s.cursors :=
    Function.update_eq_self_iff.mpr hc.symm
  simp [set, goto, setAll, hc, hv, hself]

theorem runs_realAffinity (h : prog[s.pc]? = some (.new .realAffinity target p2 p3)) :
    Runs n (scanEffects tables other) prog s []
      ((s.set target (realAffinity (s.regs target))).goto (s.pc + 1)) := by
  apply Runs.one h
  simp [set, goto, setAll]

end Machine

end

end Rustqlite.Vdbe
