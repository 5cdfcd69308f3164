import Rustqlite.Codegen.Join
import Rustqlite.Foundation.OuterJoin

/-!
# The rows of a join

The rows that a join of two tables is to return, and when its program returns
them.  A row without a partner is extended with NULLs, but the program reads 0
for the rowid of such a row, has no such row where the table has no rowids, and
leaves out the second pass of a FULL JOIN when the outer table is empty.
-/

namespace Rustqlite.Codegen.Join

open Foundation Rustqlite.Parser Schema Vdbe

/-! ## What expressions mean -/

abbrev Reading := Option String → String → Value

structure Meaning where
  value : SqlExpr → Reading → Value
  truth : SqlExpr → Reading → Option Bool

def Meaning.valueOf (m : Meaning) (e : SqlExpr) (read : Reading) : Value :=
  match e with
  | .column _ qualifier name => read qualifier name
  | e => m.value e read

def Meaning.holds (m : Meaning) (condition : Option SqlExpr) (read : Reading) : Bool :=
  condition.all fun e => m.truth e read = some true

def JoinTable.column (t : JoinTable) (row : Option Row) (nullRowid : Value) : ColumnRef → Value
  | .rowid => row.elim nullRowid fun row => .int row.rowid
  | .index i =>
      let v := row.elim .null fun row => row.values.getD (t.position i) .null
      if t.table.affinityAt i = .real then realAffinity v else v

section

variable (outer inner : JoinTable)

def reading (nullRowid : Value) (row : Option Row × Option Row) : Reading := fun qualifier name =>
  match resolveColumn outer inner qualifier name with
  | some (cursor, t, column) =>
      t.column (if cursor = 0 then row.1 else row.2) nullRowid column
  | none => .null

variable (m : Meaning) (onPredicate whereClause : Option SqlExpr) (outputs : List SqlExpr)

def onRows (a b : Row) : Bool :=
  m.holds onPredicate (reading outer inner .null (some a, some b))

def project (nullRowid : Value) (row : Option Row × Option Row) : List (List Value) :=
  let read := reading outer inner nullRowid row
  if m.holds whereClause read then [outputs.map (m.valueOf · read)] else []

end

theorem reading_some (outer inner : JoinTable) (v w : Value) (a b : Row) :
    reading outer inner v (some a, some b) = reading outer inner w (some a, some b) := by
  funext qualifier name
  unfold reading
  cases resolveColumn outer inner qualifier name with
  | none => rfl
  | some found =>
      obtain ⟨cursor, t, column⟩ := found
      dsimp only
      cases column with
      | rowid => split_ifs <;> rfl
      | index i => rfl

/-! ## The cursors -/

structure OnRow (t : JoinTable) (c : TableCursor) (row : Option Row) : Prop where
  index : c.index = t.table.withoutRowid
  nullRow : c.nullRow = row.isNone
  row : ∀ r, row = some r → c.rest.head? = some r

section

variable {A W : Type}

structure At (c d : TableCursor) (s : Machine A TableCursor W) : Prop where
  outer : s.cursors 0 = some c
  inner : s.cursors 1 = some d

/-- The code of expressions and conditions does what they mean, on rows as the program reads
them. -/
structure Implements (n : Numerals) (fx : Effects A TableCursor W) (outer inner : JoinTable)
    (code : ExprCode) (m : Meaning) : Prop where
  expr : ∀ c d row, OnRow outer c row.1 → OnRow inner d row.2 →
    ∀ e, (∀ schema qualifier name, e ≠ .column schema qualifier name) →
      Computes n fx (At c d) code.other e (m.value e (reading outer inner (.int 0) row))
  jump : ∀ c d row, OnRow outer c row.1 → OnRow inner d row.2 →
    ∀ b e label jumpIfTrue jumpIfNull b', code.jump b e label jumpIfTrue jumpIfNull = .ok b' →
      JumpCode n fx (At c d) b b' label
        (jumpsOn (m.truth e (reading outer inner (.int 0) row)) jumpIfTrue jumpIfNull)

/-! ## Columns -/

variable {n : Numerals} {tables : W → Int → List Row} {other : Effects A TableCursor W}
  {outer inner : JoinTable} {code : ExprCode} {m : Meaning} {c d : TableCursor}
  {row : Option Row × Option Row}

variable {name : String} {cursor p3 mf k : Int} {t : JoinTable} {c : TableCursor}
  {s : Machine A TableCursor W} {b b' : ProgramBuilder} {prog : List Instruction} {addr : Label → ℕ}
  {condition whereClause : Option SqlExpr} {label skip : Label} {outputs : List SqlExpr} {r : Row}
  {flag : Option Int} {target : ℕ} {p4 : P4} {p5 : UInt8} {rows rest : List Row} {leftJoin : Bool}

theorem resolveColumn_eq_some {qualifier : Option String} {column : ColumnRef}
    (h : resolveColumn outer inner qualifier name = some (cursor, t, column)) :
    (cursor = 0 ∧ t = outer ∨ cursor = 1 ∧ t = inner) ∧
      t.table.resolveColumn name = some column := by
  obtain ⟨found, hfound, hcolumn⟩ := Option.bind_eq_some_iff.mp h
  obtain ⟨column', hcolumn', heq⟩ := Option.map_eq_some_iff.mp hcolumn
  cases heq
  have hmem := List.mem_of_find?_eq_some hfound
  simp only [List.mem_cons, List.not_mem_nil, or_false] at hmem
  refine ⟨?_, hcolumn'⟩
  rcases hmem with heq | heq
  · exact .inl (by simp [heq])
  · exact .inr (by simp [heq])

theorem withoutRowid_eq_false (h : t.table.resolveColumn name = some .rowid) :
    t.table.withoutRowid = false := by
  by_contra hwithout
  rw [Bool.not_eq_false] at hwithout
  have halias := t.rowidAlias_eq_none hwithout
  unfold Table.resolveColumn at h
  split at h
  · rw [halias] at h
    simp at h
  · simp [hwithout] at h

theorem OnRow.rowid {row : Option Row} (h : OnRow t c row) (hrowid : t.table.withoutRowid = false) :
    c.rowid = some (t.column row (.int 0) .rowid) := by
  unfold TableCursor.rowid
  rw [h.index, hrowid, h.nullRow]
  cases row with
  | none => rfl
  | some r =>
      rw [h.row r rfl]
      rfl

theorem OnRow.column {row : Option Row} (h : OnRow t c row) (i : ℕ) :
    c.column i = some (row.elim .null fun row => row.values.getD i .null) := by
  unfold TableCursor.column
  rw [h.nullRow]
  cases row with
  | none => rfl
  | some r =>
      rw [h.row r rfl]
      rfl

theorem At.goto (h : At c d s) (pc : ℕ) : At c d (s.goto pc) :=
  ⟨h.outer, h.inner⟩

theorem At.set (h : At c d s) (r : Int) (v : Value) : At c d (s.set r v) :=
  ⟨h.outer, h.inner⟩

theorem computes_of_emits {i : Instruction} {target : Int} {v : Value}
    {fx : Effects A TableCursor W} (h : b.Emits b' i)
    (hruns : ∀ prog (s : Machine A TableCursor W), At c d s → prog[s.pc]? = some i →
      Machine.Runs n fx prog s [] ((s.set target v).goto (s.pc + 1)))
    (hplaced : b'.Placed prog addr) (hat : At c d s) (hpc : s.pc = b.curAddr) :
    ∃ t, Machine.Runs n fx prog s [] t ∧ At c d t ∧ t.pc = b'.curAddr ∧ t.regs target = v ∧
      ∀ q, q ≠ target → t.regs q = s.regs q := by
  have hinst := h.placed hplaced
  rw [← hpc] at hinst
  refine ⟨_, hruns prog s hat hinst, (hat.set target v).goto _, ?_, Function.update_self .., ?_⟩
  · rw [h.curAddr, ← hpc]
    rfl
  · intro q hq
    exact Function.update_of_ne hq ..

theorem exists_cursor (hc : OnRow outer c row.1) (hd : OnRow inner d row.2)
    (h : cursor = 0 ∧ t = outer ∨ cursor = 1 ∧ t = inner) :
    ∃ cur, OnRow t cur (if cursor = 0 then row.1 else row.2) ∧
      ∀ s : Machine A TableCursor W, At c d s → s.cursors cursor = some cur := by
  rcases h with ⟨hcursor, ht⟩ | ⟨hcursor, ht⟩
  · subst hcursor ht
    exact ⟨c, hc, fun s hat => hat.outer⟩
  · subst hcursor ht
    exact ⟨d, hd, fun s hat => hat.inner⟩

theorem computes_column (hc : OnRow outer c row.1) (hd : OnRow inner d row.2)
    (schema qualifier : Option String) (name : String) :
    Computes n (scanEffects tables other) (At c d) (compileExpr outer inner code.other)
      (.column schema qualifier name) (reading outer inner (.int 0) row qualifier name) := by
  intro b target b' _ _ h
  have h : compileColumn outer inner b qualifier name target = .ok b' := h
  unfold compileColumn at h
  unfold reading
  split at h
  · rename_i cursor t hresolve
    cases h
    obtain ⟨hcursor, hname⟩ := resolveColumn_eq_some hresolve
    obtain ⟨cur, hcur, hat⟩ := exists_cursor (A := A) (W := W) hc hd hcursor
    have hemits := b.emits .rowid cursor target 0
    have hv := hcur.rowid (withoutRowid_eq_false hname)
    refine ⟨hemits.grows, fun prog addr hplaced s hs hpc => ?_⟩
    obtain ⟨u, hruns, hu, hupc, hreg, hkeep⟩ := computes_of_emits (n := n) (c := c) (d := d) hemits
      (fun prog s hs hinst => Machine.runs_rowid hinst (hat s hs) hv) hplaced hs hpc
    rw [hresolve]
    exact ⟨u, hruns, hu, hupc, hreg, fun q _ hq => hkeep q hq⟩
  · rename_i cursor t i hresolve
    obtain ⟨hcursor, -⟩ := resolveColumn_eq_some hresolve
    obtain ⟨cur, hcur, hat⟩ := exists_cursor (A := A) (W := W) hc hd hcursor
    have hemits := b.emits .column cursor (t.position i) target
    have hv := hcur.column (t.position i)
    have hfirst {prog : List Instruction} {addr : Label → ℕ}
        (hplaced : (b.emit .column cursor (t.position i) target).2.Placed prog addr)
        {s : Machine A TableCursor W} (hs : At c d s) (hpc : s.pc = b.curAddr) :=
      computes_of_emits (n := n) (c := c) (d := d) hemits
        (fun prog s hs hinst => Machine.runs_column n tables other hinst
          (hat s hs) hv) hplaced hs hpc
    rw [hresolve]
    simp only [JoinTable.column]
    by_cases hreal : t.table.affinityAt i = .real
    · simp only [hreal, if_true] at h ⊢
      cases h
      have hemits' := (b.emit .column cursor (t.position i) target).2.emits .realAffinity target 0 0
      refine ⟨hemits.grows.trans hemits'.grows, fun prog addr hplaced s hs hpc => ?_⟩
      obtain ⟨u, hruns, hu, hupc, hreg, hkeep⟩ :=
        hfirst (hplaced.of_extends hemits'.grows.extends) hs hpc
      have hinst := hemits'.placed hplaced
      rw [← hupc] at hinst
      refine ⟨_, hruns.trans (Machine.runs_realAffinity hinst), (hu.set _ _).goto _, ?_, ?_, ?_⟩
      · rw [hemits'.curAddr, ← hupc]
        rfl
      · rw [hreg]
        exact Function.update_self ..
      · intro q _ hq
        exact (Function.update_of_ne hq ..).trans (hkeep q hq)
    · simp only [hreal, if_false] at h ⊢
      cases h
      refine ⟨hemits.grows, fun prog addr hplaced s hs hpc => ?_⟩
      obtain ⟨u, hruns, hu, hupc, hreg, hkeep⟩ := hfirst hplaced hs hpc
      exact ⟨u, hruns, hu, hupc, hreg, fun q _ hq => hkeep q hq⟩
  · cases h

theorem computes_expr (himpl : Implements n (scanEffects tables other) outer inner code m)
    (hc : OnRow outer c row.1) (hd : OnRow inner d row.2) (e : SqlExpr) :
    Computes n (scanEffects tables other) (At c d) (compileExpr outer inner code.other) e
      (m.valueOf e (reading outer inner (.int 0) row)) := by
  cases e with
  | column schema qualifier name => exact computes_column hc hd schema qualifier name
  | _ => exact himpl.expr c d row hc hd _ nofun

/-! ## The code of a row -/

structure Reached (below : Int) (s : Machine A TableCursor W) (c d : TableCursor) (pc : ℕ)
    (t : Machine A TableCursor W) : Prop where
  cursors : At c d t
  pc : t.pc = pc
  regs : ∀ q < below, t.regs q = s.regs q

variable (row) in
theorem jumpCode_compileUnless (himpl : Implements n (scanEffects tables other) outer inner code m)
    (hc : OnRow outer c row.1) (hd : OnRow inner d row.2)
    (h : compileUnless code b condition label = .ok b') :
    JumpCode n (scanEffects tables other) (At c d) b b' label
      (!m.holds condition (reading outer inner (.int 0) row)) := by
  cases condition with
  | none =>
      cases h
      exact ⟨.refl b, fun prog addr _ s hs hpc => ⟨s, ⟨.refl s, hs, fun _ _ => rfl⟩, hpc⟩⟩
  | some e =>
      have hjump := himpl.jump c d row hc hd b e label false true b' h
      have heq : jumpsOn (m.truth e (reading outer inner (.int 0) row)) false true =
          !m.holds (some e) (reading outer inner (.int 0) row) := by
        rw [Meaning.holds, Option.all_some]
        rcases m.truth e (reading outer inner (.int 0) row) with _ | _ | _ <;> rfl
      rwa [heq] at hjump

theorem block_succ (first : Int) (k : ℕ) : block first (k + 1) = first :: block (first + 1) k := by
  simp [block, List.range_succ_eq_map, Function.comp_def, Int.add_assoc, Int.add_comm 1]

theorem runs_compileOutputs (himpl : Implements n (scanEffects tables other) outer inner code m)
    (hc : OnRow outer c row.1) (hd : OnRow inner d row.2) {first : Int} (hpos : 0 < first)
    (hle : first + outputs.length ≤ b.nextReg)
    (h : compileOutputs outer inner code b outputs first = .ok b') :
    b.Grows b' ∧ ∀ prog addr, b'.Placed prog addr → ∀ s : Machine A TableCursor W, At c d s →
      s.pc = b.curAddr → ∃ t, Machine.Runs n (scanEffects tables other) prog s [] t ∧
        Reached first s c d b'.curAddr t ∧
        (block first outputs.length).map t.regs =
          outputs.map (m.valueOf · (reading outer inner (.int 0) row)) := by
  induction outputs generalizing b first with
  | nil =>
      cases h
      exact ⟨.refl _, fun prog addr _ s hs hpc =>
        ⟨s, .refl s, ⟨hs, hpc, fun _ _ => rfl⟩, rfl⟩⟩
  | cons e outputs ih =>
      obtain ⟨b₁, hcode, hrest⟩ := Result.bind_eq_ok.mp h
      rw [List.length_cons, Nat.cast_succ] at hle
      obtain ⟨hgrows, hruns⟩ := computes_expr himpl hc hd e b first b₁ hpos (by omega) hcode
      have hregs := hgrows.regs
      obtain ⟨hgrows', hruns'⟩ := ih (b := b₁) (by omega : 0 < first + 1) (by omega) hrest
      refine ⟨hgrows.trans hgrows', fun prog addr hplaced s hs hpc => ?_⟩
      obtain ⟨t, hst, ht, htpc, hv, hkeep⟩ :=
        hruns prog addr (hplaced.of_extends hgrows'.extends) s hs hpc
      obtain ⟨u, htu, hu, hvalues⟩ := hruns' prog addr hplaced t ht htpc
      refine ⟨u, hst.trans htu, ⟨hu.cursors, hu.pc, fun q hq => ?_⟩, ?_⟩
      · rw [hu.regs q (by omega), hkeep q (by omega) (by omega)]
      · rw [List.length_cons, block_succ, List.map_cons, List.map_cons, hvalues,
          hu.regs first (by omega), hv]

variable (row) in
theorem runs_emitRow (himpl : Implements n (scanEffects tables other) outer inner code m)
    (hc : OnRow outer c row.1) (hd : OnRow inner d row.2)
    (h : emitRow outer inner code whereClause outputs b skip = .ok b') :
    b.Grows b' ∧ ∀ prog addr, b'.Placed prog addr → ∀ s : Machine A TableCursor W, At c d s →
      s.pc = b.curAddr → ∃ t, Machine.Runs n (scanEffects tables other) prog s
          (project outer inner m whereClause outputs (.int 0) row) t ∧
        Reached b.nextReg s c d (if m.holds whereClause (reading outer inner (.int 0) row) then
          b'.curAddr else addr skip) t := by
  obtain ⟨b₁, hwhere, h⟩ := Result.bind_eq_ok.mp h
  obtain ⟨b₂, houtputs, hret⟩ := Result.bind_eq_ok.mp h
  cases hret
  have hjump := jumpCode_compileUnless row himpl hc hd hwhere
  have hregs := hjump.grows.regs
  have hpos := b₁.reserved
  obtain ⟨hgrows, hruns⟩ := runs_compileOutputs himpl hc hd (b := (b₁.allocRegs outputs.length).2)
    hpos le_rfl houtputs
  have halloc := b₁.grows_allocRegs outputs.length
  have hemits := b₂.emits .resultRow b₁.nextReg outputs.length 0
  refine ⟨hjump.grows.trans (halloc.trans (hgrows.trans hemits.grows)), ?_⟩
  intro prog addr hplaced s hs hpc
  have hplaced₂ := hplaced.of_extends hemits.grows.extends
  have hplaced₁ := hplaced₂.of_extends (halloc.trans hgrows).extends
  obtain ⟨t, hst, htpc⟩ := hjump.reaches prog addr hplaced₁ s hs hpc
  rw [project]
  cases hholds : m.holds whereClause (reading outer inner (.int 0) row) with
  | false =>
      rw [hholds] at htpc
      exact ⟨t, hst.runs, hst.live, htpc, hst.regs⟩
  | true =>
      rw [hholds] at htpc
      obtain ⟨u, htu, hu, hvalues⟩ := hruns prog addr hplaced₂ t hst.live htpc
      have hinst := hemits.placed hplaced
      rw [← hu.pc] at hinst
      have hexec : u.exec n (scanEffects tables other) prog
          (.new .resultRow b₁.nextReg outputs.length 0) =
          .row (outputs.map (m.valueOf · (reading outer inner (.int 0) row)))
            (u.goto (u.pc + 1)) := by
        rw [← hvalues]
        rfl
      refine ⟨_, hst.runs.trans (htu.trans (.emit hinst hexec)), hu.cursors.goto _, ?_, ?_⟩
      · rw [if_pos rfl, hemits.curAddr, ← hu.pc]
        rfl
      · intro q hq
        exact (hu.regs q (hq.trans_le hregs)).trans (hst.regs q hq)

def cursorOn (t : JoinTable) (rows rest : List Row) : TableCursor :=
  ⟨t.table.withoutRowid, rows, rest, false⟩

theorem onRow_cursorOn (t : JoinTable) (rows : List Row) (r : Row) (rest : List Row) :
    OnRow t (cursorOn t rows (r :: rest)) (some r) := by
  refine ⟨rfl, rfl, ?_⟩
  rintro r' ⟨⟩
  rfl

/-! How the code of a row has grown the builder does not depend on the row. -/

theorem grows_compileUnless (himpl : Implements n (scanEffects tables other) outer inner code m)
    (h : compileUnless code b condition label = .ok b') : b.Grows b' :=
  (jumpCode_compileUnless (some ⟨0, []⟩, some ⟨0, []⟩) himpl
    (onRow_cursorOn outer [] _ []) (onRow_cursorOn inner [] _ []) h).grows

theorem grows_emitRow (himpl : Implements n (scanEffects tables other) outer inner code m)
    (h : emitRow outer inner code whereClause outputs b skip = .ok b') : b.Grows b' :=
  (runs_emitRow (some ⟨0, []⟩, some ⟨0, []⟩) himpl
    (onRow_cursorOn outer [] _ []) (onRow_cursorOn inner [] _ []) h).1

variable (n tables other) in
theorem runs_setFlag (b : ProgramBuilder) (flag : Option Int) (v : Int) :
    ∀ prog addr, (setFlag b flag v).Placed prog addr →
      ∀ s : Machine A TableCursor W, At c d s → s.pc = b.curAddr →
        ∃ t, Machine.Runs n (scanEffects tables other) prog s [] t ∧ At c d t ∧
          t.pc = (setFlag b flag v).curAddr ∧
          (∀ q, (∀ mf ∈ flag, q ≠ mf) → t.regs q = s.regs q) ∧
          ∀ mf ∈ flag, t.regs mf = .int (Int64.ofInt v) := by
  intro prog addr hplaced s hs hpc
  cases flag with
  | none => exact ⟨s, .refl s, hs, hpc, fun _ _ => rfl, nofun⟩
  | some mf =>
      have hemits := b.emits .integer v mf 0
      have hinst := hemits.placed hplaced
      rw [← hpc] at hinst
      have hexec : s.exec n (scanEffects tables other) prog (.new .integer v mf 0) =
          .next ((s.set mf (.int (Int64.ofInt v))).goto (s.pc + 1)) := by
        simp [Machine.exec, Machine.outcome, Instruction.new, Instruction.uses, registerEffect,
          Machine.after, Machine.set, Machine.goto, setAll]
      refine ⟨_, .one hinst hexec, (hs.set _ _).goto _, ?_, ?_, ?_⟩
      · rw [setFlag, hemits.curAddr, ← hpc]
        rfl
      · intro q hq
        exact Function.update_of_ne (hq mf rfl) ..
      · rintro mf' ⟨⟩
        exact Function.update_self ..

theorem grows_setFlag (b : ProgramBuilder) (flag : Option Int) (v : Int) :
    b.Grows (setFlag b flag v) := by
  cases flag with
  | none => exact .refl b
  | some mf => exact (b.emits .integer v mf 0).grows

/-! ## The inner loop -/

variable {onPredicate whereClause : Option SqlExpr} {outputs : List SqlExpr}

theorem runs_innerBody (himpl : Implements n (scanEffects tables other) outer inner code m)
    {a : Row} (hc : OnRow outer c (some a)) (hd : OnRow inner d (some r)) {b₁ b₂ : ProgramBuilder}
    {below : Int} (hbelow : below ≤ b.nextReg) (hflag : ∀ mf ∈ flag, below ≤ mf ∧ mf < b.nextReg)
    (hon : compileUnless code b.newLabel.2 onPredicate b.newLabel.1 = .ok b₁)
    (hrow : emitRow outer inner code whereClause outputs (setFlag b₁ flag 1) b.newLabel.1 = .ok b₂)
    (hplaced : (b₂.resolve b.newLabel.1).Placed prog addr) (hs : At c d s)
    (hpc : s.pc = b.curAddr) :
    ∃ t, Machine.Runs n (scanEffects tables other) prog s
        (if onRows outer inner m onPredicate a r then
          project outer inner m whereClause outputs .null (some a, some r) else []) t ∧
      Reached below s c d b₂.curAddr t ∧
      ∀ mf ∈ flag, t.regs mf =
        if onRows outer inner m onPredicate a r then .int 1 else s.regs mf := by
  have hjump := jumpCode_compileUnless (some a, some r) himpl hc hd hon
  have hgrowsFlag := grows_setFlag b₁ flag 1
  obtain ⟨hgrowsRow, hrunsRow⟩ := runs_emitRow (some a, some r) himpl hc hd hrow
  have hgrows := hjump.grows.trans (hgrowsFlag.trans hgrowsRow)
  obtain ⟨hplaced₂, hend⟩ := placed_closes hgrows hplaced
  have hplacedFlag := hplaced₂.of_extends hgrowsRow.extends
  have hregs : b.nextReg ≤ b₁.nextReg := hjump.grows.regs
  obtain ⟨t, hst, htpc⟩ := hjump.reaches prog addr
    (hplacedFlag.of_extends hgrowsFlag.extends) s hs hpc
  have hkept : ∀ q < b.nextReg, t.regs q = s.regs q := hst.regs
  rw [reading_some outer inner (.int 0) .null] at htpc
  rw [onRows]
  cases hholds : m.holds onPredicate (reading outer inner .null (some a, some r)) with
  | false =>
      rw [hholds] at htpc
      refine ⟨t, hst.runs, ⟨hst.live, htpc.trans hend, fun q hq => hkept q (by omega)⟩, ?_⟩
      intro mf hmf
      exact hkept mf (hflag mf hmf).2
  | true =>
      rw [hholds] at htpc
      obtain ⟨u, htu, hu, hupc, hukeep, huflag⟩ := runs_setFlag n tables other b₁ flag 1 prog addr
        hplacedFlag t hst.live htpc
      obtain ⟨w, huw, hw⟩ := hrunsRow prog addr hplaced₂ u hu hupc
      have hwregs := hgrowsFlag.regs
      refine ⟨w, ?_, ⟨hw.cursors, ?_, ?_⟩, ?_⟩
      · have hproject : project outer inner m whereClause outputs (.int 0) (some a, some r) =
            project outer inner m whereClause outputs .null (some a, some r) := by
          rw [project, project, reading_some outer inner (.int 0) .null]
        rw [if_pos rfl, ← hproject]
        exact hst.runs.trans (htu.trans huw)
      · rw [hw.pc, hend, ite_self]
      · intro q hq
        have hne : ∀ mf ∈ flag, q ≠ mf := fun mf hmf heq => by
          have hle := (hflag mf hmf).1
          omega
        rw [hw.regs q (by omega), hukeep q hne, hkept q (by omega)]
      · intro mf hmf
        have hlt := (hflag mf hmf).2
        rw [hw.regs mf (by omega), huflag mf hmf]
        rfl

def partnerRows (outer inner : JoinTable) (m : Meaning) (onPredicate whereClause : Option SqlExpr)
    (outputs : List SqlExpr) (a : Row) (bs : List Row) : List (List Value) :=
  (bs.filter (onRows outer inner m onPredicate a)).flatMap fun r =>
    project outer inner m whereClause outputs .null (some a, some r)

variable (n tables other) in
theorem runs_nextInner (h : prog[s.pc]? = some ⟨.next, 1, target, p3, p4, p5⟩)
    (hs : At c (cursorOn inner rows (r :: rest)) s) :
    ∃ t, Machine.Runs n (scanEffects tables other) prog s [] t ∧
      At c (cursorOn inner rows rest) t ∧ t.pc = (if rest = [] then s.pc + 1 else target) ∧
      t.regs = s.regs := by
  refine ⟨_, Machine.runs_next h hs.inner, ⟨?_, Machine.setCursor_self 1 _⟩, rfl, rfl⟩
  rw [Machine.setCursor_of_ne (by decide)]
  exact hs.outer

variable (n tables other) in
theorem runs_nextOuter (h : prog[s.pc]? = some ⟨.next, 0, target, p3, p4, p5⟩)
    (hs : At (cursorOn outer rows (r :: rest)) d s) :
    ∃ t, Machine.Runs n (scanEffects tables other) prog s [] t ∧
      At (cursorOn outer rows rest) d t ∧ t.pc = (if rest = [] then s.pc + 1 else target) ∧
      t.regs = s.regs := by
  refine ⟨_, Machine.runs_next h hs.outer, ⟨Machine.setCursor_self 0 _, ?_⟩, rfl, rfl⟩
  rw [Machine.setCursor_of_ne (by decide)]
  exact hs.inner

theorem emitInnerLoop_ok
    (h : emitInnerLoop outer inner code onPredicate whereClause outputs b flag = .ok b') :
    ∃ start b₁ b₂, start = b.newLabel.2.resolve b.newLabel.1 ∧
      compileUnless code start.newLabel.2 onPredicate start.newLabel.1 = .ok b₁ ∧
      emitRow outer inner code whereClause outputs (setFlag b₁ flag 1) start.newLabel.1 = .ok b₂ ∧
      b' = ((b₂.resolve start.newLabel.1).emitJump .next 1 b.newLabel.1 0).2 := by
  obtain ⟨b₁, hon, h⟩ := Result.bind_eq_ok.mp h
  obtain ⟨b₂, hrow, hret⟩ := Result.bind_eq_ok.mp h
  exact ⟨_, b₁, b₂, rfl, hon, hrow, (Except.ok.inj hret).symm⟩

theorem runs_emitInnerLoop (below : Int)
    (himpl : Implements n (scanEffects tables other) outer inner code m)
    (hbelow : below ≤ b.nextReg) (hflag : ∀ mf ∈ flag, below ≤ mf ∧ mf < b.nextReg)
    (h : emitInnerLoop outer inner code onPredicate whereClause outputs b flag = .ok b') :
    b.Grows b' ∧ ∀ prog addr, b'.Placed prog addr → ∀ a c, OnRow outer c (some a) →
      ∀ bs r rest, ∀ s : Machine A TableCursor W, At c (cursorOn inner bs (r :: rest)) s →
        s.pc = b.curAddr → ∃ t, Machine.Runs n (scanEffects tables other) prog s
            (partnerRows outer inner m onPredicate whereClause outputs a (r :: rest)) t ∧
          Reached below s c (cursorOn inner bs []) b'.curAddr t ∧
          ∀ mf ∈ flag, t.regs mf =
            if (r :: rest).any (onRows outer inner m onPredicate a) then .int 1
            else s.regs mf := by
  obtain ⟨start, b₁, b₂, hdef, hon, hrow, rfl⟩ := emitInnerLoop_ok h
  have hstart : b.Grows start := hdef ▸ grows_closes (.refl _)
  have hstartPc : start.curAddr = b.curAddr := hdef ▸ rfl
  have hbelow' : below ≤ start.nextReg := hdef ▸ hbelow
  have hflag' : ∀ mf ∈ flag, below ≤ mf ∧ mf < start.nextReg := hdef ▸ hflag
  have hgrowsOn := grows_compileUnless himpl hon
  have hgrowsFlag := grows_setFlag b₁ flag 1
  have hgrowsRow := grows_emitRow himpl hrow
  have hbody : start.Grows (b₂.resolve start.newLabel.1) :=
    grows_closes (hgrowsOn.trans (hgrowsFlag.trans hgrowsRow))
  have hnext := (b₂.resolve start.newLabel.1).emitsJump .next 1 b.newLabel.1 0
  refine ⟨hstart.trans (hbody.trans hnext.grows), ?_⟩
  intro prog addr hplaced a c hc bs r rest s hs hpc
  have hplacedBody := hplaced.of_extends hnext.grows.extends
  have hloop : addr b.newLabel.1 = b.curAddr :=
    (placed_closes (.refl _) (hdef ▸ hplacedBody.of_extends hbody.extends)).2
  have hinst := hnext.placed hplaced
  rw [← hstartPc] at hpc hloop
  induction rest generalizing r s with
  | nil =>
      obtain ⟨t, hst, ht, htflag⟩ := runs_innerBody himpl hc (onRow_cursorOn inner bs r [])
        hbelow' hflag' hon hrow hplacedBody hs hpc
      have htpc : (b₂.resolve start.newLabel.1).curAddr = t.pc := ht.pc.symm
      rw [htpc] at hinst
      obtain ⟨u, htu, hu, hupc, huregs⟩ := runs_nextInner n tables other hinst ht.cursors
      refine ⟨u, ?_, ⟨hu, ?_, ?_⟩, ?_⟩
      · have hrows := hst.trans htu
        rw [List.append_nil] at hrows
        rw [partnerRows, List.filter_cons]
        split_ifs at hrows ⊢ with hpair
        · simpa using hrows
        · exact hrows
      · rw [hupc, if_pos rfl, ← htpc]
        exact hnext.curAddr.symm
      · intro q hq
        rw [huregs, ht.regs q hq]
      · intro mf hmf
        rw [huregs, htflag mf hmf]
        simp
  | cons r' rest ih =>
      obtain ⟨t, hst, ht, htflag⟩ := runs_innerBody himpl hc
        (onRow_cursorOn inner bs r (r' :: rest))
        hbelow' hflag' hon hrow hplacedBody hs hpc
      have htpc : (b₂.resolve start.newLabel.1).curAddr = t.pc := ht.pc.symm
      have hinst' := hinst
      rw [htpc] at hinst'
      obtain ⟨u, htu, hu, hupc, huregs⟩ := runs_nextInner n tables other hinst' ht.cursors
      rw [if_neg (by simp), hloop] at hupc
      obtain ⟨w, huw, hw, hwflag⟩ := ih r' u hu hupc
      refine ⟨w, ?_, ⟨hw.cursors, hw.pc, ?_⟩, ?_⟩
      · have hrows := (hst.trans htu).trans huw
        rw [List.append_nil] at hrows
        rw [partnerRows, List.filter_cons]
        split_ifs at hrows ⊢ with hpair
        · exact hrows
        · exact hrows
      · intro q hq
        rw [hw.regs q hq, huregs, ht.regs q hq]
      · intro mf hmf
        rw [hwflag mf hmf, huregs, htflag mf hmf, List.any_cons (a := r)]
        cases onRows outer inner m onPredicate a r with
        | true => simp
        | false => simp

/-! ## The row of NULLs -/

theorem emitNullRow_ok (h : emitNullRow outer inner code whereClause outputs b mf k = .ok b') :
    ∃ b₁, emitRow outer inner code whereClause outputs
        ((b.newLabel.2.emitJump .if_ mf b.newLabel.1 0).2.emit .nullRow k 0 0).2 b.newLabel.1 =
          .ok b₁ ∧ b' = b₁.resolve b.newLabel.1 := by
  obtain ⟨b₁, hrow, hret⟩ := Result.bind_eq_ok.mp h
  exact ⟨b₁, hrow, (Except.ok.inj hret).symm⟩

theorem grows_emitNullRow (himpl : Implements n (scanEffects tables other) outer inner code m)
    (h : emitNullRow outer inner code whereClause outputs b mf k = .ok b') : b.Grows b' := by
  obtain ⟨b₁, hrow, rfl⟩ := emitNullRow_ok h
  have hif := b.newLabel.2.emitsJump .if_ mf b.newLabel.1 0
  have hnull := (b.newLabel.2.emitJump .if_ mf b.newLabel.1 0).2.emits .nullRow k 0 0
  exact grows_closes (hif.grows.trans (hnull.grows.trans (grows_emitRow himpl hrow)))

variable (row) in
theorem leads_emitNullRow (himpl : Implements n (scanEffects tables other) outer inner code m)
    (h : emitNullRow outer inner code whereClause outputs b mf k = .ok b') :
    ∀ prog addr, b'.Placed prog addr → ∀ s : Machine A TableCursor W, At c d s →
      s.pc = b.curAddr → ∀ found : Bool, s.regs mf = .int (if found then 1 else 0) →
      ∀ e, s.cursors k = some e → ∀ c' d',
        (∀ pc, At c' d' (s.setCursor k { e with nullRow := true } pc)) →
        OnRow outer c' row.1 → OnRow inner d' row.2 →
        Machine.Leads n (scanEffects tables other) prog (found = false ∧ e.index = true) s
          (if found then [] else project outer inner m whereClause outputs (.int 0) row)
          fun t =>
            Reached b.nextReg s c d b'.curAddr t ∨ Reached b.nextReg s c' d' b'.curAddr t := by
  obtain ⟨b₁, hrow, rfl⟩ := emitNullRow_ok h
  have hif := b.newLabel.2.emitsJump .if_ mf b.newLabel.1 0
  have hnull := (b.newLabel.2.emitJump .if_ mf b.newLabel.1 0).2.emits .nullRow k 0 0
  have hgrowsRow := grows_emitRow himpl hrow
  have hgrows := hif.grows.trans (hnull.grows.trans hgrowsRow)
  intro prog addr hplaced s hs hpc found hflag e he c' d' hset hc' hd'
  obtain ⟨hplaced₁, hend⟩ := placed_closes hgrows hplaced
  have hplacedNull := hplaced₁.of_extends hgrowsRow.extends
  have hinst := hif.placed (hplacedNull.of_extends hnull.grows.extends)
  have hpc' : b.newLabel.2.curAddr = s.pc := hpc.symm
  rw [hpc'] at hinst
  have hstep : Machine.Runs n (scanEffects tables other) prog s [] (s.goto (if jumpsOn
      (truth n (.int (if found then 1 else 0))) true false then _ else s.pc + 1)) :=
    runs_if _ hinst hflag
  cases found with
  | true =>
      have hjumps : jumpsOn (truth n (.int (if true then 1 else 0))) true false = true := rfl
      rw [hjumps, if_pos rfl] at hstep
      refine ⟨fun hbad => absurd hbad.1 (by decide), fun _ => ⟨_, hstep, .inl ?_⟩⟩
      exact ⟨hs.goto _, hend, fun q _ => rfl⟩
  | false =>
      have hjumps : jumpsOn (truth n (.int (if false then 1 else 0))) true false = false := rfl
      rw [hjumps, if_neg (by decide)] at hstep
      have hinst' := hnull.placed hplacedNull
      rw [hif.curAddr, hpc'] at hinst'
      constructor
      · rintro ⟨-, hindex⟩
        exact ⟨_, _, hstep, Machine.step_nullRow_index hinst' he hindex⟩
      · intro hgood
        have hindex : e.index = false := by simpa using hgood
        have hnullRow : e.setNullRow = some { e with nullRow := true } := by
          simp [TableCursor.setNullRow, hindex]
        have hset' := Machine.runs_nullRow n tables other
          (s := s.goto (s.pc + 1)) hinst' he hnullRow
        obtain ⟨-, hruns⟩ := runs_emitRow row himpl hc' hd' hrow
        have hnullPc : s.pc + 1 + 1 = ((b.newLabel.2.emitJump .if_ mf b.newLabel.1 0).2.emit
            .nullRow k 0 0).2.curAddr := by
          rw [hnull.curAddr, hif.curAddr, hpc']
        obtain ⟨u, hu, hreached⟩ := hruns prog addr hplaced₁ _ (hset (s.pc + 1 + 1)) hnullPc
        refine ⟨u, hstep.trans (hset'.trans hu), .inr ⟨hreached.cursors, ?_, hreached.regs⟩⟩
        rw [hreached.pc, hend, ite_self]
        rfl

/-! ## The outer loop -/

structure Scans (t : JoinTable) (rows : List Row) (c : TableCursor) : Prop where
  index : c.index = t.table.withoutRowid
  rows : c.rows = rows

theorem scans_cursorOn (t : JoinTable) (rows rest : List Row) :
    Scans t rows (cursorOn t rows rest) :=
  ⟨rfl, rfl⟩

theorem Scans.rewind (h : Scans t rows c) : c.rewind = cursorOn t rows rows := by
  unfold TableCursor.rewind cursorOn
  rw [← h.index, h.rows]

variable (n tables other) in
theorem runs_rewindInner (h : prog[s.pc]? = some ⟨.rewind, 1, target, p3, p4, p5⟩) (hs : At c d s)
    (hd : Scans inner rows d) :
    ∃ t, Machine.Runs n (scanEffects tables other) prog s [] t ∧
      At c (cursorOn inner rows rows) t ∧ t.pc = (if rows = [] then target else s.pc + 1) ∧
      t.regs = s.regs := by
  have hrun := Machine.runs_rewind n tables other h hs.inner
  rw [hd.rewind, hd.rows] at hrun
  refine ⟨_, hrun, ⟨?_, Machine.setCursor_self 1 _⟩, rfl, rfl⟩
  rw [Machine.setCursor_of_ne (by decide)]
  exact hs.outer

variable (n tables other) in
theorem runs_rewindOuter (h : prog[s.pc]? = some ⟨.rewind, 0, target, p3, p4, p5⟩) (hs : At c d s)
    (hc : Scans outer rows c) :
    ∃ t, Machine.Runs n (scanEffects tables other) prog s [] t ∧
      At (cursorOn outer rows rows) d t ∧ t.pc = (if rows = [] then target else s.pc + 1) ∧
      t.regs = s.regs := by
  have hrun := Machine.runs_rewind n tables other h hs.outer
  rw [hc.rewind, hc.rows] at hrun
  refine ⟨_, hrun, ⟨Machine.setCursor_self 0 _, ?_⟩, rfl, rfl⟩
  rw [Machine.setCursor_of_ne (by decide)]
  exact hs.inner

theorem runs_partners (below : Int)
    (himpl : Implements n (scanEffects tables other) outer inner code m)
    (hbelow : below ≤ b.nextReg) (hflag : ∀ mf ∈ flag, below ≤ mf ∧ mf < b.nextReg)
    (h : emitInnerLoop outer inner code onPredicate whereClause outputs
      (b.emitJump .rewind 1 label 0).2 flag = .ok b') :
    b.Grows b' ∧ ∀ prog addr, b'.Placed prog addr → addr label = b'.curAddr →
      ∀ a c d bs, OnRow outer c (some a) → Scans inner bs d →
        ∀ s : Machine A TableCursor W, At c d s → s.pc = b.curAddr →
          ∃ t d', Machine.Runs n (scanEffects tables other) prog s
              (partnerRows outer inner m onPredicate whereClause outputs a bs) t ∧
            Scans inner bs d' ∧ Reached below s c d' b'.curAddr t ∧
            ∀ mf ∈ flag, t.regs mf =
              if bs.any (onRows outer inner m onPredicate a) then .int 1 else s.regs mf := by
  have hrewind := b.emitsJump .rewind 1 label 0
  obtain ⟨hgrows, hruns⟩ := runs_emitInnerLoop below himpl
    (b := (b.emitJump .rewind 1 label 0).2) hbelow hflag h
  refine ⟨hrewind.grows.trans hgrows, ?_⟩
  intro prog addr hplaced hend a c d bs hc hd s hs hpc
  have hinst := hrewind.placed (hplaced.of_extends hgrows.extends)
  rw [← hpc] at hinst
  obtain ⟨t, hst, ht, htpc, htregs⟩ := runs_rewindInner n tables other hinst hs hd
  cases bs with
  | nil =>
      refine ⟨t, _, hst, scans_cursorOn inner [] [], ⟨ht, ?_, fun q _ => by rw [htregs]⟩, ?_⟩
      · rw [htpc, if_pos rfl, hend]
      · intro mf _
        rw [htregs]
        rfl
  | cons r rest =>
      have htpc' : t.pc = (b.emitJump .rewind 1 label 0).2.curAddr := by
        rw [htpc, if_neg (by simp), hrewind.curAddr, hpc]
      obtain ⟨u, htu, hu, huflag⟩ := hruns prog addr hplaced a c hc (r :: rest) r rest t ht htpc'
      refine ⟨u, _, hst.trans htu, scans_cursorOn inner _ _, ⟨hu.cursors, hu.pc, ?_⟩, ?_⟩
      · intro q hq
        rw [hu.regs q hq, htregs]
      · intro mf hmf
        rw [huflag mf hmf, htregs]

def outerRows (outer inner : JoinTable) (m : Meaning) (onPredicate whereClause : Option SqlExpr)
    (outputs : List SqlExpr) (leftJoin : Bool) (bs : List Row) (a : Row) : List (List Value) :=
  partnerRows outer inner m onPredicate whereClause outputs a bs ++
    if leftJoin && !bs.any (onRows outer inner m onPredicate a) then
      project outer inner m whereClause outputs (.int 0) (some a, none)
    else []

def outerFails (outer inner : JoinTable) (m : Meaning) (onPredicate : Option SqlExpr)
    (leftJoin : Bool) (bs : List Row) (a : Row) : Prop :=
  leftJoin = true ∧ bs.any (onRows outer inner m onPredicate a) = false ∧
    inner.table.withoutRowid = true

theorem emitOuterBody_left
    (h : emitOuterBody outer inner code onPredicate whereClause outputs b true = .ok b') :
    ∃ b₁ b₂ b₃ b₄, b₁ = setFlag b.allocReg.2 (some b.nextReg) 0 ∧ b₂ = b₁.newLabel.2 ∧
      emitInnerLoop outer inner code onPredicate whereClause outputs
        (b₂.newLabel.2.emitJump .rewind 1 b₂.newLabel.1 0).2 (some b.nextReg) = .ok b₃ ∧
      emitNullRow outer inner code whereClause outputs (b₃.resolve b₂.newLabel.1) b.nextReg 1 =
        .ok b₄ ∧
      b' = b₄.resolve b₁.newLabel.1 := by
  obtain ⟨b₃, hloop, h⟩ := Result.bind_eq_ok.mp h
  obtain ⟨b₄, hnull, hret⟩ := Result.bind_eq_ok.mp h
  exact ⟨_, _, b₃, b₄, rfl, rfl, hloop, hnull, (Except.ok.inj hret).symm⟩

theorem emitOuterBody_inner
    (h : emitOuterBody outer inner code onPredicate whereClause outputs b false = .ok b') :
    ∃ b₃, emitInnerLoop outer inner code onPredicate whereClause outputs
        (b.newLabel.2.newLabel.2.emitJump .rewind 1 b.newLabel.1 0).2 none = .ok b₃ ∧
      b' = b₃.resolve b.newLabel.1 := by
  obtain ⟨b₃, hloop, hret⟩ := Result.bind_eq_ok.mp h
  exact ⟨b₃, hloop, (Except.ok.inj hret).symm⟩

theorem leads_emitOuterBody (himpl : Implements n (scanEffects tables other) outer inner code m)
    (h : emitOuterBody outer inner code onPredicate whereClause outputs b leftJoin = .ok b') :
    b.Grows b' ∧ ∀ prog addr, b'.Placed prog addr → ∀ a c d bs, OnRow outer c (some a) →
      Scans inner bs d → ∀ s : Machine A TableCursor W, At c d s → s.pc = b.curAddr →
        Machine.Leads n (scanEffects tables other) prog
          (outerFails outer inner m onPredicate leftJoin bs a) s
          (outerRows outer inner m onPredicate whereClause outputs leftJoin bs a)
          fun t => ∃ d', Scans inner bs d' ∧ Reached b.nextReg s c d' b'.curAddr t := by
  cases leftJoin with
  | false =>
      obtain ⟨b₃, hloop, rfl⟩ := emitOuterBody_inner h
      have hlabel := (b.newLabel.2).grows_newLabel
      obtain ⟨hgrows, hruns⟩ := runs_partners b.nextReg himpl (b := b.newLabel.2.newLabel.2)
        le_rfl (by simp) hloop
      refine ⟨grows_closes (hlabel.trans hgrows), ?_⟩
      intro prog addr hplaced a c d bs hc hd s hs hpc
      obtain ⟨hplaced', hend⟩ := placed_closes (hlabel.trans hgrows) hplaced
      obtain ⟨t, d', hst, hd', ht, -⟩ := hruns prog addr hplaced' hend a c d bs hc hd s hs hpc
      refine (hst.leads (fun t => ∃ d', Scans inner bs d' ∧
        Reached b.nextReg s c d' (b₃.resolve b.newLabel.1).curAddr t) ⟨d', hd', ht⟩).imp ?_ ?_
        fun t ht => ht
      · simp [outerFails]
      · simp [outerRows]
  | true =>
      obtain ⟨b₁, b₂, b₃, b₄, hb₁, hb₂, hloop, hnull, rfl⟩ := emitOuterBody_left h
      have hgrowsFlag : b.allocReg.2.Grows b₁ := hb₁ ▸ grows_setFlag _ _ _
      have hregs : b.nextReg < b₂.newLabel.2.nextReg := by
        have hle : b.nextReg + 1 ≤ b₁.nextReg := hgrowsFlag.regs
        have heq : b₂.newLabel.2.nextReg = b₁.nextReg := by
          rw [hb₂]
          rfl
        omega
      obtain ⟨hgrowsLoop, hrunsLoop⟩ := runs_partners b.nextReg himpl hregs.le
        (by
          rintro mf ⟨⟩
          exact ⟨le_rfl, hregs⟩) hloop
      have hinner := grows_closes hgrowsLoop
      have hgrowsNull := grows_emitNullRow himpl hnull
      have hbody : b₁.newLabel.2.Grows b₄ := hb₂ ▸ hinner.trans hgrowsNull
      refine ⟨(b.grows_allocReg).trans (hgrowsFlag.trans (grows_closes hbody)), ?_⟩
      intro prog addr hplaced a c d bs hc hd s hs hpc
      obtain ⟨hplaced₄, -⟩ := placed_closes hbody hplaced
      have hplacedLoop := hplaced₄.of_extends hgrowsNull.extends
      obtain ⟨hplaced₃, hend⟩ := placed_closes hgrowsLoop hplacedLoop
      have hplaced₁ : b₁.Placed prog addr :=
        hplaced₄.of_extends ((b₁.grows_newLabel).trans hbody).extends
      obtain ⟨t, hst, ht, htpc, htkeep, htflag⟩ := runs_setFlag n tables other b.allocReg.2
        (some b.nextReg) 0 prog addr (hb₁ ▸ hplaced₁) s hs hpc
      have htpc' : t.pc = b₂.newLabel.2.curAddr := by
        rw [htpc, hb₂, hb₁]
        rfl
      obtain ⟨u, d', htu, hd', hu, huflag⟩ :=
        hrunsLoop prog addr hplaced₃ hend a c d bs hc hd t ht htpc'
      have hflag : u.regs b.nextReg =
          .int (if bs.any (onRows outer inner m onPredicate a) then 1 else 0) := by
        rw [huflag _ rfl, htflag _ rfl]
        split_ifs <;> rfl
      have hnullRow : OnRow inner { d' with nullRow := true } none := ⟨hd'.index, rfl, nofun⟩
      have hset (pc : ℕ) : At c { d' with nullRow := true }
          (u.setCursor 1 { d' with nullRow := true } pc) := by
        refine ⟨?_, Machine.setCursor_self 1 _⟩
        rw [Machine.setCursor_of_ne (by decide)]
        exact hu.cursors.outer
      have hlast := leads_emitNullRow (some a, none) himpl hnull prog addr hplaced₄ u
        hu.cursors hu.pc _ hflag d' hu.cursors.inner c _ hset hc hnullRow
      refine (Machine.Leads.after (hst.trans htu) hlast).imp ?_ ?_ ?_
      · simp [outerFails, hd'.index]
      · rw [outerRows, List.nil_append]
        cases bs.any (onRows outer inner m onPredicate a) with
        | true => rfl
        | false => rfl
      · have hle : b.nextReg ≤ (b₃.resolve b₂.newLabel.1).nextReg :=
          hregs.le.trans hgrowsLoop.regs
        have hkept : ∀ q < b.nextReg, u.regs q = s.regs q := fun q hq => by
          rw [hu.regs q hq, htkeep q]
          rintro mf ⟨⟩
          exact hq.ne
        rintro w (hw | hw)
        · exact ⟨d', hd', hw.cursors, hw.pc, fun q hq =>
            (hw.regs q (hq.trans_le hle)).trans (hkept q hq)⟩
        · exact ⟨{ d' with nullRow := true }, ⟨hd'.index, hd'.rows⟩, hw.cursors, hw.pc, fun q hq =>
            (hw.regs q (hq.trans_le hle)).trans (hkept q hq)⟩

theorem emitOuterLoop_ok
    (h : emitOuterLoop outer inner code onPredicate whereClause outputs b leftJoin = .ok b') :
    ∃ start b₁, start = b.newLabel.2.resolve b.newLabel.1 ∧
      emitOuterBody outer inner code onPredicate whereClause outputs start leftJoin = .ok b₁ ∧
      b' = (b₁.emitJump .next 0 b.newLabel.1 0).2 := by
  obtain ⟨b₁, hbody, hret⟩ := Result.bind_eq_ok.mp h
  exact ⟨_, b₁, rfl, hbody, (Except.ok.inj hret).symm⟩

theorem leads_emitOuterLoop (himpl : Implements n (scanEffects tables other) outer inner code m)
    (h : emitOuterLoop outer inner code onPredicate whereClause outputs b leftJoin = .ok b') :
    b.Grows b' ∧ ∀ prog addr, b'.Placed prog addr → ∀ as bs a rest d, Scans inner bs d →
      ∀ s : Machine A TableCursor W, At (cursorOn outer as (a :: rest)) d s → s.pc = b.curAddr →
        Machine.Leads n (scanEffects tables other) prog
          (∃ x ∈ a :: rest, outerFails outer inner m onPredicate leftJoin bs x) s
          ((a :: rest).flatMap
            (outerRows outer inner m onPredicate whereClause outputs leftJoin bs))
          fun t => ∃ d', Scans inner bs d' ∧
            Reached b.nextReg s (cursorOn outer as []) d' b'.curAddr t := by
  obtain ⟨start, b₁, hdef, hbody, rfl⟩ := emitOuterLoop_ok h
  have hstart : b.Grows start := hdef ▸ grows_closes (.refl _)
  have hstartPc : start.curAddr = b.curAddr := hdef ▸ rfl
  have hstartReg : start.nextReg = b.nextReg := hdef ▸ rfl
  obtain ⟨hgrows, hleads⟩ := leads_emitOuterBody himpl hbody
  have hnext := b₁.emitsJump .next 0 b.newLabel.1 0
  refine ⟨hstart.trans (hgrows.trans hnext.grows), ?_⟩
  intro prog addr hplaced as bs a rest d hd s hs hpc
  have hplacedBody := hplaced.of_extends hnext.grows.extends
  have hloop : addr b.newLabel.1 = b.curAddr :=
    (placed_closes (.refl _) (hdef ▸ hplacedBody.of_extends hgrows.extends)).2
  have hinst := hnext.placed hplaced
  rw [← hstartPc] at hpc hloop
  rw [← hstartReg]
  induction rest generalizing a d s with
  | nil =>
      have hfirst := hleads prog addr hplacedBody a _ d bs (onRow_cursorOn outer as a []) hd s hs
        hpc
      refine (hfirst.bind False [] (fun t => ∃ d', Scans inner bs d' ∧
        Reached start.nextReg s (cursorOn outer as []) d'
          (b₁.emitJump .next 0 b.newLabel.1 0).2.curAddr t) ?_).imp ?_ ?_ fun t ht => ht
      · rintro t ⟨d', hd', ht⟩
        rw [← ht.pc] at hinst
        obtain ⟨u, htu, hu, hupc, huregs⟩ := runs_nextOuter n tables other hinst ht.cursors
        refine htu.leads _ ⟨d', hd', hu, ?_, ?_⟩
        · rw [hupc, if_pos rfl, ht.pc]
          exact hnext.curAddr.symm
        · intro q hq
          rw [huregs, ht.regs q hq]
      · simp
      · simp
  | cons a' rest ih =>
      have hfirst := hleads prog addr hplacedBody a _ d bs
        (onRow_cursorOn outer as a (a' :: rest)) hd s hs hpc
      refine (hfirst.bind
        (∃ x ∈ a' :: rest, outerFails outer inner m onPredicate leftJoin bs x)
        ((a' :: rest).flatMap
          (outerRows outer inner m onPredicate whereClause outputs leftJoin bs))
        (fun t => ∃ d', Scans inner bs d' ∧
          Reached start.nextReg s (cursorOn outer as []) d'
            (b₁.emitJump .next 0 b.newLabel.1 0).2.curAddr t) ?_).imp ?_ ?_ fun t ht => ht
      · rintro t ⟨d', hd', ht⟩
        rw [← ht.pc] at hinst
        obtain ⟨u, htu, hu, hupc, huregs⟩ := runs_nextOuter n tables other hinst ht.cursors
        rw [if_neg (by simp), hloop] at hupc
        refine (Machine.Leads.after htu (ih a' d' hd' u hu hupc)).imp Iff.rfl rfl ?_
        rintro v ⟨d'', hd'', hv⟩
        refine ⟨d'', hd'', hv.cursors, hv.pc, fun q hq => ?_⟩
        rw [hv.regs q hq, huregs, ht.regs q hq]
      · simp
      · simp

end

end Rustqlite.Codegen.Join
