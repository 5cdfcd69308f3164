import Rustqlite.Btree.Scan
import Rustqlite.Types.Affinity
import Rustqlite.Parser.Ast

/-!
# Tables, indexes and the catalog

What the code generator knows of a table, and how a column name is resolved.
`sqlite_schema` is an ordinary table at page 1 with a row for every table, index,
view and trigger.  A row with a column of another type than expected counts as
if the column was empty.
-/

namespace Rustqlite.Schema

open Foundation Rustqlite.Parser

structure Column where
  name : String
  affinity : Affinity
  collation : Collation
  deriving DecidableEq

structure Table where
  name : String
  columns : List Column
  rowidAlias : Option Nat
  withoutRowid : Bool
  deriving DecidableEq

inductive ColumnRef where
  | rowid
  | index (i : Nat)
  deriving DecidableEq

def isRowidName (name : String) : Bool :=
  eqIgnoreAsciiCase name "rowid" || eqIgnoreAsciiCase name "_rowid_" ||
    eqIgnoreAsciiCase name "oid"

namespace Table

def columnIndex (t : Table) (name : String) : Option Nat :=
  t.columns.findIdx? fun c => eqIgnoreAsciiCase c.name name

def resolveColumn (t : Table) (name : String) : Option ColumnRef :=
  match t.columnIndex name with
  | some i => if some i = t.rowidAlias then some .rowid else some (.index i)
  | none => if !t.withoutRowid && isRowidName name then some .rowid else none

def affinityAt (t : Table) (i : Nat) : Affinity := (t.columns[i]?.map Column.affinity).getD .blob

def collationAt (t : Table) (i : Nat) : Collation :=
  (t.columns[i]?.map Column.collation).getD .binary

end Table

/-! ## Rows -/

structure Row where
  rowid : Int64
  values : List Value
  deriving DecidableEq

def realAffinity : Value → Value
  | .int i => .real (Double.ofInt64 i)
  | v => v

def Row.column (row : Row) (t : Table) (i : Nat) : Value :=
  if t.affinityAt i = .real then realAffinity (row.values.getD i .null) else row.values.getD i .null

def Row.read (row : Row) (t : Table) (name : String) : Option Value :=
  match t.resolveColumn name with
  | some .rowid => some (.int row.rowid)
  | some (.index i) => some (row.column t i)
  | none => none

/-! ## Indexes -/

structure IndexedColumn (S W : Type) where
  name : String
  expr : Option (Expr S W)
  collation : Collation
  desc : Bool

def IndexedColumn.isExpression {S W : Type} (ic : IndexedColumn S W) : Bool :=
  ic.expr.isSome && ic.name.isEmpty

structure IndexObject (S W : Type) where
  name : String
  columns : List (IndexedColumn S W)
  whereClause : Option (Expr S W)

/-! ## The catalog -/

section

open Format Pager Btree Reading

structure SchemaObject where
  rowid : Int64
  objType : String
  name : String
  tblName : String
  rootpage : Int64
  sql : Option String
  deriving DecidableEq

def textAt (values : List Value) (i : Nat) : Option String :=
  match values[i]? with
  | some (.text s) => some s
  | _ => none

def intAt (values : List Value) (i : Nat) : Int64 :=
  match values[i]? with
  | some (.int n) => n
  | _ => 0

namespace SchemaObject

def fromRow (rowid : Int64) (values : List Value) : SchemaObject where
  rowid := rowid
  objType := (textAt values 0).getD ""
  name := (textAt values 1).getD ""
  tblName := (textAt values 2).getD ""
  rootpage := intAt values 3
  sql := textAt values 4

def isTable (o : SchemaObject) : Bool := o.objType == "table"

def isIndex (o : SchemaObject) : Bool := o.objType == "index"

/-- The conversion of a root page number drops what does not fit in 32 bits. -/
def root (o : SchemaObject) : UInt32 := o.rootpage.toUInt64.toUInt32

end SchemaObject

structure Catalog where
  objects : List SchemaObject

namespace Catalog

def tables (c : Catalog) : List SchemaObject := c.objects.filter SchemaObject.isTable

def indexes (c : Catalog) : List SchemaObject := c.objects.filter SchemaObject.isIndex

end Catalog

def schemaRow (encoding : TextEncoding) (row : Int64 × Bytes) : Result SchemaObject := do
  let values ← decodeRecord row.2 encoding
  return SchemaObject.fromRow row.1 values

/-- `depth` bounds the height of the tree. -/
def readCatalog (usable : Nat) (encoding : TextEncoding) (depth : Nat) : Reading Catalog := do
  let rows ← visitTable usable depth 1
  let objects ← (rows.mapM (schemaRow encoding) : Result _)
  return ⟨objects⟩

end

end Rustqlite.Schema
