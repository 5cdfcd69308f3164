import Rustqlite.Btree.SeekFound
import Rustqlite.Vdbe.Machine

/-!
# The parent of a foreign key

`fk_parent_exists` looks for the row that a child's values refer to by its
rowid, through an index or by a scan.  None of the three applies the affinity
of the parent's columns to the values first.
-/

namespace Rustqlite.Vdbe

open Foundation Format Pager Btree Reading

/-- The strategy for one constraint; the columns stand beside the values of the child. -/
inductive FkLookup where
  | rowidSeek (root : UInt32)
  | indexSeek (root : UInt32) (keyInfo : List KeyField)
  | tableScan (root : UInt32) (parentColIndices : List Nat) (parentRowidAlias : Option Nat)
  | parentMissing

/-- A column of a row; the alias of the rowid is not read from the record. -/
def parentValue (rowidAlias : Option Nat) (rowid : Int64) (values : List Value) (idx : Nat) :
    Value :=
  if some idx = rowidAlias then .int rowid else values[idx]?.getD .null

section Lookup

variable (n : Numerals) (usable : Nat) (encoding : TextEncoding) (fuel : Nat)

end Lookup

structure ParentColumn where
  idx : Nat
  affinity : Affinity
  collation : Collation

structure ParentTable where
  rows : List (Int64 × List Value)
  rowidAlias : Option Nat
  columns : List ParentColumn

def TableHolds (p : PagerState × World DbFile) (root : UInt32) (rows : List (Int64 × List Value)) :
    Prop :=
  ∃ stored, SearchTable p root stored ∧
    List.Forall₂ (fun s row => s.1 = row.1 ∧
      decodeRecord s.2 p.1.header.textEncoding = .ok row.2) stored rows

def ParentTable.EqualsAs (t : ParentTable) (colls : Nat → Collation) (childKey : List Value)
    (row : Int64 × List Value) : Prop :=
  ∀ (i : Nat) (col : ParentColumn) (v : Value), t.columns[i]? = some col → childKey[i]? = some v →
    memCompare (parentValue t.rowidAlias row.1 row.2 col.idx) v (colls i) = .eq

/-- Every value of the parent equals the child's as it is, under the collation of the lookup, just
where it does so under the affinity and the collation of the column. -/
def ParentTable.ComparesAlike (n : Numerals) (t : ParentTable) (colls : Nat → Collation)
    (childKey : List Value) : Prop :=
  ∀ row ∈ t.rows, ∀ (i : Nat) (col : ParentColumn) (v : Value), t.columns[i]? = some col →
    childKey[i]? = some v →
    (memCompare (parentValue t.rowidAlias row.1 row.2 col.idx) v (colls i) = .eq ↔
      memCompare (parentValue t.rowidAlias row.1 row.2 col.idx) (n.applyAffinity v col.affinity)
        col.collation = .eq)

/-- No page of the index stands above others, or at least none has entries of its own. -/
def OneLeaf (p : PagerState × World DbFile) (root : UInt32) : Prop :=
  ∀ depth, NoDividers (pageSeen p.1 p.2.disk) depth root

/--
By rowid, a row whose rowid the value reads as equals it.  In an index and by a
scan, neither affinity nor collation tells a value of the parent from the
child's; and the index is one leaf, or no row has the values and the descent
can read its way to a leaf.
-/
def FkLookup.Decides (n : Numerals) (p : PagerState × World DbFile) (t : ParentTable)
    (childKey : List Value) : FkLookup → Prop
  | .rowidSeek _ => ∀ v ∈ childKey, asI64 n v ∈ t.rows.map Prod.fst →
      memCompare (.int (asI64 n v)) (n.applyAffinity v .integer) .binary = .eq
  | .indexSeek root keyInfo => t.ComparesAlike n (collationAt keyInfo) childKey ∧
      (OneLeaf p root ∨ (∀ row ∈ t.rows, ¬t.EqualsAs (collationAt keyInfo) childKey row) ∧
        ∃ leaf leafHdr, Descends p.1.geometry.usableSize keyInfo .ge childKey
          (pageSeen p.1 p.2.disk) root leaf leafHdr)
  | .tableScan _ _ _ => t.ComparesAlike n (fun _ => .binary) childKey
  | .parentMissing => True

variable {v : Value} {keyInfo : List KeyField} {encoding : TextEncoding}
  {stored : List (Int64 × Bytes)} {rows : List (Int64 × List Value)}

section Alike

variable {n : Numerals} {t : ParentTable} {colls : Nat → Collation} {childKey : List Value}

end Alike

/-! ## The entries of an index -/

section Found

variable {n : Numerals} {t : ParentTable} {childKey : List Value}

variable {usable : Nat} {encoding : TextEncoding} {view : UInt32 → Result Bytes} {root : UInt32}
  {depth : Nat}

variable {col : ParentColumn}

end Found

/-! ## The answer -/

section Answer

variable {n : Numerals} {p : PagerState × World DbFile} {t : ParentTable} {childKey : List Value}
  {lookup : FkLookup}

variable {root : UInt32}

end Answer

end Rustqlite.Vdbe
