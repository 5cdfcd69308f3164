import Rustqlite.Codegen.Where
import Rustqlite.Types.Error

/-!
# UPSERT

`INSERT ... VALUES ... ON CONFLICT (target) DO UPDATE SET ...` for one proposed
row.  The program probes the target, reads the stored row into registers of its
own, evaluates the assignments into the registers of the proposed row and writes
these back.  What the opcodes compute, and the expressions that the standard
compiler is left, are parameters.
-/

namespace Rustqlite.Codegen.Upsert

open Foundation Rustqlite.Parser Schema Vdbe

variable {S W : Type}

/-! ## The statement -/

structure Assignment (S W : Type) where
  column : String
  value : Expr S W

inductive UpsertTargetColumn (S W : Type) where
  | column (name : String)
  | expr (e : Expr S W)

structure UpsertTarget (S W : Type) where
  columns : List (UpsertTargetColumn S W)
  whereClause : Option (Expr S W)

inductive InsertSource where
  | values
  | select
  | defaultValues
  deriving DecidableEq

structure InsertStmt (S W : Type) where
  source : InsertSource
  target : UpsertTarget S W
  assignments : List (Assignment S W)

/-! ## The database -/

structure Entry where
  key : List Value
  rowid : Int64
  deriving DecidableEq

structure TableIndex (S W : Type) extends IndexObject S W where
  unique : Bool
  entries : List Entry
  rootIsLeaf : Bool

structure Database (S W : Type) where
  rows : List Row
  indexes : List (TableIndex S W)

abbrev Reading := Option String → String → Value

/-- The arithmetic opcodes; the expressions of the standard compiler, where one that is refused
has an error; and whether the record of an entry goes on outside its cell. -/
structure Evaluation (S W : Type) where
  numerals : Numerals
  arith : BinaryOp → Value → Value → Value
  not : Value → Value
  bitNot : Value → Value
  refuses : Expr S W → Option Error
  eval : Expr S W → Reading → Value
  spills : Entry → Bool

/-! ## The conflict target -/

inductive MatchedIndex (S W : Type) where
  | rowid
  | index (idx : TableIndex S W)

/-- `INTEGER PRIMARY KEY` as the target. -/
def isRowidTarget (table : Table) : List (UpsertTargetColumn S W) → Bool
  | [.column name] =>
      table.rowidAlias.any fun i =>
        (table.columns[i]?.any fun c => eqIgnoreAsciiCase c.name name) || isRowidName name
  | _ => false

def UpsertTargetColumn.name : UpsertTargetColumn S W → String
  | .column name => name
  | .expr _ => ""

def matchesTarget [BEq S] [BEq W] (target : UpsertTarget S W) (idx : TableIndex S W) : Bool :=
  idx.unique && !idx.columns.any IndexedColumn.isExpression &&
    idx.columns.length == target.columns.length &&
    (idx.columns.zip target.columns).all (fun p => eqIgnoreAsciiCase p.1.name p.2.name) &&
    match idx.whereClause, target.whereClause with
    | none, none => true
    | some a, some b => Expr.beq a b
    | _, _ => false

def resolveTarget [BEq S] [BEq W] (table : Table) (indexes : List (TableIndex S W))
    (target : UpsertTarget S W) : Result (MatchedIndex S W) :=
  if isRowidTarget table target.columns then .ok .rowid
  else if target.columns.any (·.name.isEmpty) then
    .error (.msg "ON CONFLICT expression target is not supported yet")
  else
    match indexes.find? (matchesTarget target) with
    | some idx => .ok (.index idx)
    | none =>
        .error (.msg "ON CONFLICT clause does not match any PRIMARY KEY or UNIQUE constraint")

/-! ## The registers -/

/-- The registers of the stored row, those of the proposed row, and the rowid of the former. -/
structure Registers where
  existing : List Value
  record : List Value
  conflictRowid : Int64

def recordRegisters (table : Table) (row : Row) : List Value :=
  (List.range table.columns.length).map fun i =>
    if table.rowidAlias = some i then .null else row.values.getD i .null

def existingRegisters (table : Table) (row : Row) : List Value :=
  (List.range table.columns.length).map fun i =>
    if table.rowidAlias = some i then .int row.rowid else row.values.getD i .null

/-- `compile_column` on the registers of the stored row: the qualifier is not looked at. -/
def Registers.column (table : Table) (regs : Registers) : Reading := fun _ name =>
  match table.resolveColumn name with
  | some .rowid =>
      match table.rowidAlias with
      | some i => regs.existing.getD i .null
      | none => .int regs.conflictRowid
  | some (.index i) => regs.existing.getD i .null
  | none => .null

/-! ## The expressions of SET -/

section

variable (table : Table) (ev : Evaluation S W)

def isArithmetic : BinaryOp → Bool
  | .add | .sub | .mul | .div | .mod | .concat | .bitAnd | .bitOr | .shiftLeft | .shiftRight => true
  | _ => false

def binaryOpName : BinaryOp → String
  | .or => "Or"
  | .and => "And"
  | .eq => "Eq"
  | .ne => "Ne"
  | .lt => "Lt"
  | .le => "Le"
  | .gt => "Gt"
  | .ge => "Ge"
  | .add => "Add"
  | .sub => "Sub"
  | .mul => "Mul"
  | .div => "Div"
  | .mod => "Mod"
  | .concat => "Concat"
  | .is => "Is"
  | .isNot => "IsNot"
  | .like => "Like"
  | .glob => "Glob"
  | .regexp => "Regexp"
  | .match => "Match"
  | .bitAnd => "BitAnd"
  | .bitOr => "BitOr"
  | .shiftLeft => "ShiftLeft"
  | .shiftRight => "ShiftRight"
  | .jsonExtract => "JsonExtract"
  | .jsonExtractText => "JsonExtractText"

def isExcluded (qualifier : String) : Bool := eqIgnoreAsciiCase qualifier "excluded"

def applyUnary (op : UnaryOp) (v : Value) : Value :=
  match op with
  | .negate => ev.arith .sub (.int 0) v
  | .positive => v
  | .not => ev.not v
  | .bitNot => ev.bitNot v

/-- `compile_expr` in the context of the stored row. -/
def compileOther (e : Expr S W) : Result (Registers → Value) :=
  match ev.refuses e with
  | some err => .error err
  | none => .ok fun regs => ev.eval e (regs.column table)

/-- What the emitted code leaves in its target register. -/
def compileUpsertExpr : Expr S W → Result (Registers → Value)
  | .column schema qualifier name =>
      match qualifier with
      | some q =>
          if isExcluded q then
            match table.columnIndex name with
            | some ci => .ok fun regs => regs.record.getD ci .null
            | none => .error (.msg ("no such column: excluded." ++ name))
          else compileOther table ev (.column schema (some q) name)
      | none =>
          match table.columnIndex name with
          | some ci => .ok fun regs => regs.existing.getD ci .null
          | none => .error (.msg ("no such column: " ++ name))
  | .unary op e => do
      let f ← compileUpsertExpr e
      return fun regs => applyUnary ev op (f regs)
  | .binary op left right => do
      let f ← compileUpsertExpr left
      let g ← compileUpsertExpr right
      if isArithmetic op then return fun regs => ev.arith op (f regs) (g regs)
      else
        .error (.msg ("UPSERT SET does not support the " ++ binaryOpName op ++ " operator yet"))
  | e => compileOther table ev e

/-! ## The assignments -/

/-- The code of one assignment, and the column whose register it fills. -/
structure Step where
  column : Nat
  value : Registers → Value

def compileAssignment (a : Assignment S W) : Result Step :=
  match table.columnIndex a.column with
  | none => .error (.msg ("table " ++ table.name ++ " has no column named " ++ a.column))
  | some ci =>
      if table.rowidAlias = some ci then
        .error (.msg ("UPSERT of the INTEGER PRIMARY KEY column is not supported yet (column " ++
          a.column ++ ")"))
      else do
        let f ← compileUpsertExpr table ev a.value
        return ⟨ci, f⟩

def Registers.assign (regs : Registers) (s : Step) : Registers :=
  { regs with
    record := regs.record.set s.column
      (ev.numerals.applyAffinity (s.value regs) (table.affinityAt s.column)) }

/-! ## The indexes -/

def validateIndexes (indexes : List (TableIndex S W)) : Result Unit :=
  match indexes.findSome? fun idx => idx.columns.findSome? fun ic =>
      if ic.isExpression || (table.columnIndex ic.name).isSome then none
      else some ("index " ++ idx.name ++ " references unknown column " ++ ic.name ++ " on table " ++
        table.name) with
  | some message => .error (.msg message)
  | none => .ok ()

def tableColumnIndices (idx : TableIndex S W) : List Nat :=
  idx.columns.filterMap fun ic => if ic.isExpression then none else table.columnIndex ic.name

/-- The key registers: the columns from the first register on; those left over are never set. -/
def keyRegisters (idx : TableIndex S W) (block : List Value) : List Value :=
  let columns := (tableColumnIndices table idx).map fun ci => block.getD ci .null
  columns ++ List.replicate (idx.columns.length - columns.length) .null

def prefixesEqual (idx : TableIndex S W) (a b : List Value) : Bool :=
  a.length == b.length &&
    ((a.zip b).zipIdx.all fun p =>
      memCompare p.1.1 p.1.2 ((idx.columns[p.2]?.map IndexedColumn.collation).getD .binary) == .eq)

/-- `index_leaf_delete`: the entries are looked through one after another. -/
def indexLeafDelete (idx : TableIndex S W) (key : List Value) (rowid : Int64) :
    List Entry → Result (List Entry)
  | [] => .ok []
  | e :: es =>
      if ev.spills e then .error (.corrupt "record body shorter than serial types imply")
      else if prefixesEqual idx e.key key && e.rowid == rowid then .ok es
      else (e :: ·) <$> indexLeafDelete idx key rowid es

def uniqueConstraintMessage (idx : TableIndex S W) : String :=
  if idx.columns.any IndexedColumn.isExpression then
    "UNIQUE constraint failed: index '" ++ idx.name ++ "'"
  else
    "UNIQUE constraint failed: " ++
      ", ".intercalate (idx.columns.map fun ic => table.name ++ "." ++ ic.name)

/-- `check_unique_constraint`: a NULL in the key suppresses the check. -/
def repeatsKey (idx : TableIndex S W) (key : List Value) (entries : List Entry) : Bool :=
  !key.contains .null && entries.any fun e => prefixesEqual idx e.key key

/-- `IdxInsert`.  Where in the order the entry goes is not followed. -/
def idxInsert (idx : TableIndex S W) (e : Entry) (entries : List Entry) : Result (List Entry) :=
  if idx.unique && repeatsKey idx e.key entries then
    .error ⟨.constraint, uniqueConstraintMessage table idx⟩
  else .ok (e :: entries)

def updateEntries (idx : TableIndex S W) (existing record : List Value) (rowid : Int64) :
    Result (List Entry) :=
  if idx.rootIsLeaf then do
    let rest ← indexLeafDelete ev idx (keyRegisters table idx existing) rowid idx.entries
    idxInsert table idx ⟨keyRegisters table idx record, rowid⟩ rest
  else .error (.corrupt "index_leaf_delete: not a leaf-index page")

/-- `emit_upsert_index_maintenance` -/
def updateIndexes (existing record : List Value) (rowid : Int64) (indexes : List (TableIndex S W)) :
    Result (List (TableIndex S W)) :=
  indexes.mapM fun idx => do
    let entries ← updateEntries table ev idx existing record rowid
    return { idx with entries }

/-! ## The program -/

inductive Outcome (S W : Type) where
  /-- There is no `DO UPDATE` in the program. -/
  | ignored
  /-- The probe finds no conflict, and the row goes on to be inserted. -/
  | inserting
  /-- The entry that the probe finds is that of no row. -/
  | skipped
  | updated (db : Database S W)

def setRow (rowid : Int64) (values : List Value) (row : Row) : Row :=
  if row.rowid = rowid then ⟨rowid, values⟩ else row

def doUpdateBody (db : Database S W) (record : List Value) (steps : List Step) (row : Row) :
    Result (Outcome S W) :=
  let existing := existingRegisters table row
  let regs := steps.foldl (Registers.assign table ev) ⟨existing, record, row.rowid⟩
  do
    let indexes ← updateIndexes table ev existing regs.record row.rowid db.indexes
    return .updated ⟨db.rows.map (setRow row.rowid regs.record), indexes⟩

def doUpdateForTarget (db : Database S W) (matched : MatchedIndex S W) (proposed : Row)
    (steps : List Step) : Result (Outcome S W) :=
  let record := recordRegisters table proposed
  match matched with
  | .rowid =>
      match db.rows.find? (·.rowid == proposed.rowid) with
      | none => .ok .inserting
      | some row => doUpdateBody table ev db record steps row
  | .index idx =>
      let key := keyRegisters table idx record
      if key.contains .null then .ok .inserting
      else
        match idx.entries.find? fun e => prefixesEqual idx e.key key with
        | none => .ok .inserting
        | some e =>
            match db.rows.find? (·.rowid == e.rowid) with
            | none => .ok .skipped
            | some row => doUpdateBody table ev db record steps row

/-- The statement for one proposed row: for a `VALUES` list into a table with rowids only is
the clause compiled. -/
def upsert [BEq S] [BEq W] (stmt : InsertStmt S W) (db : Database S W) (proposed : Row) :
    Result (Outcome S W) :=
  if table.withoutRowid ∨ stmt.source ≠ .values then .ok .ignored
  else do
    validateIndexes table db.indexes
    let matched ← resolveTarget table db.indexes stmt.target
    let steps ← stmt.assignments.mapM (compileAssignment table ev)
    doUpdateForTarget table ev db matched proposed steps

end

end Rustqlite.Codegen.Upsert
