import Rustqlite.Btree.Balance
import Rustqlite.Btree.CellBuild

/-!
# Inserting a row

An insertion goes down to the leaf of its rowid.  When the cell does not fit
there, room is made further up and the insertion starts again from a page below
it, without the way that led there.
-/

namespace Rustqlite.Btree

open Foundation Format Pager FileM

/-! ## The way down -/

def pickChildLoop (page : Bytes) (hdr : PageHeader) (rowid : Int64) : Nat → Nat → Result UInt32
  | 0, _ =>
      match hdr.rightMostPointer with
      | some child => .ok child
      | none => .error (.corrupt "interior table page has no right pointer")
  | left + 1, i => do
      let off ← hdr.cellPointer page i
      let cell ← parseTableInteriorCell page off
      if rowid ≤ cell.rowid then return cell.leftChild
      else pickChildLoop page hdr rowid left (i + 1)

def pickChild (page : Bytes) (hdr : PageHeader) (rowid : Int64) : Result UInt32 :=
  pickChildLoop page hdr rowid hdr.numCells 0

def leafInsertIndexFrom (page : Bytes) (hdr : PageHeader) (rowid : Int64) :
    Nat → Nat → Result Nat
  | 0, i => .ok i
  | left + 1, i => do
      let off ← hdr.cellPointer page i
      let stored ← tableLeafCellRowid page off
      if rowid ≤ stored then return i else leafInsertIndexFrom page hdr rowid left (i + 1)

def leafInsertIndex (page : Bytes) (hdr : PageHeader) (rowid : Int64) : Result Nat :=
  leafInsertIndexFrom page hdr rowid hdr.numCells 0

/-! ## Making room -/

def targetAfterSplit (parentPgno newPgno : UInt32) (pendingRowid : Int64) : PagerM UInt32 := do
  let buf ← getPage parentPgno
  let hdr ← liftResult (PageHeader.parse buf (btreeHeaderOffset parentPgno))
  if hdr.pageType ≠ .interiorTable then return newPgno
  match ← liftResult (findChildLoop (siblingAt buf hdr) newPgno hdr.numCells 0) with
  -- the left child of the cell is the new page, on either side of its rowid
  | some _ => return newPgno
  | none =>
      if hdr.rightMostPointer = some newPgno ∧ hdr.numCells ≠ 0 then
        let lastOff ← liftResult (hdr.cellPointer buf (hdr.numCells - 1))
        let last ← liftResult (parseTableInteriorCell buf lastOff)
        return if last.rowid < pendingRowid then newPgno else last.leftChild
      else return newPgno

def targetAfterPromotion (newRoot : UInt32) (pendingRowid : Int64) : PagerM UInt32 := do
  let buf ← getPage newRoot
  let hdr ← liftResult (PageHeader.parse buf (btreeHeaderOffset newRoot))
  if hdr.numCells = 0 then
    throw (.corrupt "insert_after_root_promotion: promoted root has no cells")
  let cellOff ← liftResult (hdr.cellPointer buf 0)
  let interior ← liftResult (parseTableInteriorCell buf cellOff)
  if pendingRowid ≤ interior.rowid then return interior.leftChild
  else
    match hdr.rightMostPointer with
    | some child => return child
    | none => throw (.corrupt "promoted root missing right-most child")

def splitTableParent : UInt32 → List UInt32 → PagerM Unit
  | parentPgno, [] => do
      match ← tryResult (splitTableInteriorPage parentPgno none) with
      | .ok _ => return ()
      | .error e =>
          if isPageFull e then throw (.panic "called `Option::unwrap()` on a `None` value")
          else throw e
  | parentPgno, grand :: ancestors => do
      match ← tryResult (splitTableInteriorPage parentPgno (some grand)) with
      | .ok _ => return ()
      | .error e => if isPageFull e then splitTableParent grand ancestors else throw e

/-- Make room for a cell that its leaf has no room for; the insertion goes on from the result. -/
def balanceLeaf (leafPgno : UInt32) (path : List UInt32) (pendingRowid : Int64) :
    PagerM UInt32 := do
  match path with
  | [] =>
      promoteRootAndSplit leafPgno
      targetAfterPromotion leafPgno pendingRowid
  | parentPgno :: ancestors =>
      match ← tryResult (splitLeaf leafPgno (some parentPgno)) with
      | .ok newPgno => targetAfterSplit parentPgno newPgno pendingRowid
      | .error e =>
          if isPageFull e then
            match ancestors with
            | _ :: _ =>
                splitTableParent parentPgno ancestors
                return leafPgno
            | [] =>
                promoteRootAndSplit parentPgno
                targetAfterPromotion parentPgno pendingRowid
          else throw e

/-! ## Insertion -/

def insertAtLeaf (insert : UInt32 → PagerM Unit) (pgno : UInt32) (buf : Bytes) (hdr : PageHeader)
    (rowid : Int64) (cell : Bytes) (path : List UInt32) : PagerM Unit := do
  let idx ← liftResult (leafInsertIndex buf hdr rowid)
  let leaf ← readPageForWrite pgno
  match insertLeafCell leaf (btreeHeaderOffset pgno) idx cell with
  | .ok leaf => writePage pgno leaf
  | .error e =>
      if isPageFull e then do
        let target ← balanceLeaf pgno path rowid
        insert target
      else throw e

/-- `path` has the pages above `pgno`, the nearest one first. -/
def insertWithSplitting : Nat → UInt32 → Int64 → Bytes → List UInt32 → PagerM Unit
  | 0, _, _, _, _ => throw endless
  | fuel + 1, pgno, rowid, cell, path => do
      let buf ← getPage pgno
      let hdr ← liftResult (PageHeader.parse buf (btreeHeaderOffset pgno))
      match hdr.pageType with
      | .leafTable =>
          insertAtLeaf (fun target => insertWithSplitting fuel target rowid cell [])
            pgno buf hdr rowid cell path
      | .interiorTable =>
          let child ← liftResult (pickChild buf hdr rowid)
          insertWithSplitting fuel child rowid cell (pgno :: path)
      | _ => throw (.corrupt "table_insert: not a table b-tree page")

def insertWithSplittingAutovac :
    Nat → UInt32 → Int64 → Bytes → List UInt32 → PagerM Unit
  | 0, _, _, _, _ => throw endless
  | fuel + 1, pgno, rowid, payload, path => do
      let buf ← getPage pgno
      let hdr ← liftResult (PageHeader.parse buf (btreeHeaderOffset pgno))
      match hdr.pageType with
      | .leafTable =>
          let usable := (← getState).geometry.usableSize
          let cell ← buildTableLeafCellWithHost rowid payload usable (some pgno)
          insertAtLeaf (fun target => insertWithSplitting fuel target rowid cell [])
            pgno buf hdr rowid cell path
      | .interiorTable =>
          let child ← liftResult (pickChild buf hdr rowid)
          insertWithSplittingAutovac fuel child rowid payload (pgno :: path)
      | _ => throw (.corrupt "table_insert: not a table b-tree page")

def tableInsert (fuel : Nat) (root : UInt32) (rowid : Int64) (payload : Bytes) : PagerM Unit := do
  let s ← getState
  if s.autoVacuum then insertWithSplittingAutovac fuel root rowid payload []
  else
    let cell ← buildTableLeafCell rowid payload s.geometry.usableSize
    insertWithSplitting fuel root rowid cell []

end Rustqlite.Btree
