import Rustqlite.Btree.Delete

/-!
# Splitting pages

A table leaf without room for a cell is split in two, and its parent gets a
divider.  A root becomes an interior page above two new leaves, and an interior
page that is full hands one half of its cells to a new sibling.
-/

namespace Rustqlite.Btree

open Foundation Format Pager FileM

/-! ## Where to split -/

def splitLoop (target : Nat) : Nat → Nat → List Bytes → Nat
  | i, _, [] => i
  | i, leftSize, cell :: cells =>
      let projected := leftSize + cell.length + 2
      if target < projected ∧ 0 < i then i else splitLoop target (i + 1) projected cells

/-- How many cells stay on the left; without a place to split that is all of them. -/
def splitPoint (usable : Nat) (cells : List Bytes) : Nat := splitLoop (usable / 2) 0 0 cells

def lastLeft (cells : List Bytes) (splitAt : Nat) : Result Bytes :=
  match (cells.take splitAt).getLast? with
  | some cell => .ok cell
  | none => .error (.panic "attempt to subtract with overflow")

def writeNewPage (pgno : UInt32) (pageType : PageType) (rightMost : Option UInt32)
    (cells : List Bytes) : PagerM Unit := do
  let zero := zeroPage (← getState).geometry
  let page ← liftResult (writePageCells zero (btreeHeaderOffset pgno) pageType rightMost cells)
  writePage pgno page

/-! ## Leaves -/

def tableLeafCells (page : Bytes) (hdr : PageHeader) (usable : Nat) : Result (List Bytes) :=
  (List.range hdr.numCells).mapM fun i => do
    let off ← hdr.cellPointer page i
    let (_, n1) ← readPayloadSize page off
    let size ← cellTotalSize page off n1 usable
    cellBytes page off size

def findChildLoop (childAt : Nat → Result UInt32) (target : UInt32) :
    Nat → Nat → Result (Option Nat)
  | 0, _ => .ok none
  | left + 1, i => do
      let child ← childAt i
      if child = target then return some i else findChildLoop childAt target left (i + 1)

def findChildCellIndex (page : Bytes) (hdr : PageHeader) (target : UInt32) : Result Nat := do
  let found ← match hdr.pageType with
    | .interiorTable => findChildLoop (siblingAt page hdr) target hdr.numCells 0
    | .interiorIndex => findChildLoop (fun i => do
        let off ← hdr.cellPointer page i
        pointerAt page off) target hdr.numCells 0
    | _ => .error (.corrupt "find_child_cell_index: page is not an interior page")
  match found with
  | some i => return i
  | none =>
      .error (.corrupt s!"child page {target} not found among {hdr.numCells} interior cells")

def dividedParent (pbuf : Bytes) (phdr : PageHeader) (pbase : Nat) (leafPgno newPgno : UInt32)
    (dividerRowid : Int64) : Result Bytes :=
  if phdr.rightMostPointer = some leafPgno then do
    let page ← insertInteriorCell pbuf pbase phdr.numCells
      (buildTableInteriorCell leafPgno dividerRowid)
    return splice page (pbase + 8) (be32 newPgno)
  else do
    let i ← findChildCellIndex pbuf phdr leafPgno
    insertInteriorCell pbuf pbase (i + 1) (buildTableInteriorCell newPgno dividerRowid)

def installLeafDivider (parentPgno leafPgno newPgno : UInt32) (dividerRowid : Int64) :
    PagerM Unit := do
  let pbase := btreeHeaderOffset parentPgno
  let pbuf ← readPageForWrite parentPgno
  let phdr ← liftResult (PageHeader.parse pbuf pbase)
  if phdr.pageType ≠ .interiorTable then
    throw (.corrupt "split_leaf: declared parent is not an interior table page")
  let pbuf ← liftResult (dividedParent pbuf phdr pbase leafPgno newPgno dividerRowid)
  writePage parentPgno pbuf
  if (← getState).autoVacuum then ptrmapPut newPgno .btree parentPgno

def splitLeaf (leafPgno : UInt32) (parentRoot : Option UInt32) : PagerM UInt32 := do
  let usable := (← getState).geometry.usableSize
  let leafBuf ← readPageForWrite leafPgno
  let hdr ← liftResult (PageHeader.parse leafBuf (btreeHeaderOffset leafPgno))
  if hdr.pageType ≠ .leafTable then throw (.corrupt "split_leaf called on a non-leaf page")
  let cells ← liftResult (tableLeafCells leafBuf hdr usable)
  let splitAt := splitPoint usable cells
  let newPgno ← allocatePage
  writeNewPage newPgno .leafTable none (cells.drop splitAt)
  writeNewPage leafPgno .leafTable none (cells.take splitAt)
  let dividerRowid ← liftResult (do maxRowidOfCell (← lastLeft cells splitAt))
  match parentRoot with
  | none => pure ()
  | some parentPgno => installLeafDivider parentPgno leafPgno newPgno dividerRowid
  return newPgno

/-! ## The root -/

def promoteRootAndSplit (rootPgno : UInt32) : PagerM Unit := do
  let usable := (← getState).geometry.usableSize
  let leafBuf ← readPageForWrite rootPgno
  let hdr ← liftResult (PageHeader.parse leafBuf (btreeHeaderOffset rootPgno))
  if hdr.pageType ≠ .leafTable then
    throw (.corrupt "promote_root_and_split: root is not a leaf")
  if hdr.numCells = 0 then
    throw (.corrupt "promote_root_and_split called on an empty leaf")
  let cells ← liftResult (tableLeafCells leafBuf hdr usable)
  let splitAt := splitPoint usable cells
  let leftPgno ← allocatePage
  writeNewPage leftPgno .leafTable none (cells.take splitAt)
  let rightPgno ← allocatePage
  writeNewPage rightPgno .leafTable none (cells.drop splitAt)
  let dividerRowid ← liftResult (do maxRowidOfCell (← lastLeft cells splitAt))
  writeNewPage rootPgno .interiorTable (some rightPgno)
    [buildTableInteriorCell leftPgno dividerRowid]
  if (← getState).autoVacuum then
    ptrmapPut leftPgno .btree rootPgno
    ptrmapPut rightPgno .btree rootPgno

/-! ## Interior pages -/

def tableInteriorCellOnPageSize (page : Bytes) (offset : Nat) : Result Nat := do
  if page.length < offset + 4 then .error (.panic "range start index out of range")
  else
    let (_, rowidSize) ← readRowidAt page (offset + 4) "table interior rowid varint"
    return 4 + rowidSize

def tableInteriorCells (page : Bytes) (hdr : PageHeader) : Result (List Bytes) :=
  (List.range hdr.numCells).mapM fun i => do
    let off ← hdr.cellPointer page i
    let size ← tableInteriorCellOnPageSize page off
    cellBytes page off size

def rebuiltCell (pbuf : Bytes) (phdr : PageHeader) (i : Nat) : Result Bytes :=
  match phdr.cellPointer pbuf i with
  | .error _ => .error (.corrupt "install_table_divider: bad parent cell")
  | .ok off => do
      let left ← pointerAt pbuf off
      let (rowid, _) ← readRowidAt pbuf (off + 4) "install_table_divider: bad parent cell"
      return buildTableInteriorCell left rowid

def dividedCells (oldChild newChild : UInt32) (dividerRowid : Int64) (childIdx : Nat)
    (cells : List Bytes) : Result (List Bytes) := do
  match cells[childIdx]? with
  | none => return cells
  | some cell =>
      -- the rowid is read as if the cell were one of a leaf
      let oldRowid ← maxRowidOfCell cell
      return cells.take childIdx ++ [buildTableInteriorCell oldChild dividerRowid,
        buildTableInteriorCell newChild oldRowid] ++ cells.drop (childIdx + 1)

def dividedInteriorParent (pbuf : Bytes) (phdr : PageHeader) (pbase : Nat)
    (oldChild newChild : UInt32) (dividerRowid : Int64) : Result Bytes :=
  if phdr.rightMostPointer = some oldChild then do
    let page ← insertInteriorCell pbuf pbase phdr.numCells
      (buildTableInteriorCell oldChild dividerRowid)
    return splice page (pbase + 8) (be32 newChild)
  else do
    let childIdx ← findChildCellIndex pbuf phdr oldChild
    let cells ← (List.range phdr.numCells).mapM (rebuiltCell pbuf phdr)
    let newCells ← dividedCells oldChild newChild dividerRowid childIdx cells
    writePageCells pbuf pbase .interiorTable phdr.rightMostPointer newCells

def installTableDivider (parentPgno oldChild newChild : UInt32) (dividerRowid : Int64) :
    PagerM Unit := do
  let pbase := btreeHeaderOffset parentPgno
  let pbuf ← readPageForWrite parentPgno
  let phdr ← liftResult (PageHeader.parse pbuf pbase)
  if phdr.pageType ≠ .interiorTable then
    throw (.corrupt "install_table_divider: declared parent is not an interior-table page")
  let pbuf ← liftResult (dividedInteriorParent pbuf phdr pbase oldChild newChild dividerRowid)
  writePage parentPgno pbuf

def updateChildrenPtrmapToNewParent (newParent : UInt32) (rightMost : Option UInt32) :
    List Bytes → PagerM Unit
  | [] =>
      match rightMost with
      | some child => ptrmapPut child .btree newParent
      | none => pure ()
  | cell :: cells => do
      let child ← liftResult (pointerAt cell 0)
      ptrmapPut child .btree newParent
      updateChildrenPtrmapToNewParent newParent rightMost cells

def splitInteriorAt (interiorPgno : UInt32) (parentRoot rightMost : Option UInt32)
    (cells : List Bytes) (splitAt : Nat) (dividerRowid : Int64) (leftRightMost : UInt32) :
    PagerM UInt32 := do
  let newPgno ← allocatePage
  match parentRoot with
  | some parentPgno => installTableDivider parentPgno interiorPgno newPgno dividerRowid
  | none => pure ()
  writeNewPage newPgno .interiorTable rightMost (cells.drop splitAt)
  writeNewPage interiorPgno .interiorTable (some leftRightMost) (cells.take splitAt)
  if (← getState).autoVacuum then
    match parentRoot with
    | some parentPgno => ptrmapPut newPgno .btree parentPgno
    | none => pure ()
    updateChildrenPtrmapToNewParent newPgno rightMost (cells.drop splitAt)
  return newPgno

def splitTableInteriorPage (interiorPgno : UInt32) (parentRoot : Option UInt32) :
    PagerM UInt32 := do
  let usable := (← getState).geometry.usableSize
  let buf ← readPageForWrite interiorPgno
  let hdr ← liftResult (PageHeader.parse buf (btreeHeaderOffset interiorPgno))
  if hdr.pageType ≠ .interiorTable then
    throw (.corrupt "split_table_interior_page called on a non-table-interior page")
  let cells ← liftResult (tableInteriorCells buf hdr)
  let splitAt := splitPoint usable cells
  if cells.length ≤ splitAt then
    throw (.corrupt "split_table_interior_page: cannot find a split point")
  let last ← liftResult (lastLeft cells splitAt)
  -- the rowid is read as if the cell were one of a leaf
  let dividerRowid ← liftResult (maxRowidOfCell last)
  let leftRightMost ← liftResult (pointerAt last 0)
  splitInteriorAt interiorPgno parentRoot hdr.rightMostPointer cells splitAt dividerRowid
    leftRightMost

end Rustqlite.Btree
