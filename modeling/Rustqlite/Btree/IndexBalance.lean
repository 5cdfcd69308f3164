import Rustqlite.Btree.Balance
import Rustqlite.Btree.CellBuild

/-!
# Splitting the pages of an index

The divider between two halves of a page of an index is one of its cells: it
moves to the parent, and the child in front of it becomes the right-most one of
the left half.
-/

namespace Rustqlite.Btree

open Foundation Format Pager FileM

/-! ## Cells -/

def indexInteriorCellOnPageSize (page : Bytes) (offset usable : Nat) : Result Nat :=
  if page.length < offset + 4 then .error (.panic "range start index out of range")
  else
    match readVarint (page.drop (offset + 4)) with
    | none => .error (.corrupt "index interior payload-size varint")
    | some (payloadSize, n1) =>
        .ok (4 + n1 + spilledLen payloadSize.toNat usable (indexMaxLocal usable))

/-- The part of a key record that stands in its cell, behind the varint that ends at `n1`. -/
def localKey (cell : Bytes) (n1 payloadSize usable : Nat) : Result Bytes :=
  let (localLen, hasOverflow) := localPayloadLen payloadSize usable (indexMaxLocal usable)
  let keyLen := if hasOverflow then localLen else payloadSize
  cellBytes cell n1 keyLen

def indexKeyFromInteriorCell (cell : Bytes) (usable : Nat) : Result Bytes :=
  if cell.length < 4 then .error (.panic "range start index out of range")
  else
    match readVarint (cell.drop 4) with
    | none => .error (.corrupt "index interior payload-size varint in divider key")
    | some (payloadSize, n1) => localKey cell (n1 + 4) payloadSize.toNat usable

def indexKeyFromLeafCell (cell : Bytes) (usable : Nat) : Result Bytes :=
  match readVarint cell with
  | none => .error (.corrupt "index leaf payload-size varint in divider key")
  | some (payloadSize, n1) => localKey cell n1 payloadSize.toNat usable

def indexCells (isInterior : Bool) (page : Bytes) (hdr : PageHeader) (usable : Nat) :
    Result (List Bytes) :=
  (List.range hdr.numCells).mapM fun i => do
    let off ← hdr.cellPointer page i
    let size ← if isInterior then indexInteriorCellOnPageSize page off usable
      else indexLeafCellOnPageSize page off usable
    cellBytes page off size

def cellsBehind (cells : List Bytes) (splitAt : Nat) : Result (List Bytes) :=
  if cells.length < splitAt + 1 then .error (.panic "range start index out of range")
  else .ok (cells.drop (splitAt + 1))

/-! ## The parent -/

def copiedCell (pbuf : Bytes) (phdr : PageHeader) (usable i : Nat) : Result Bytes := do
  let off ← phdr.cellPointer pbuf i
  if pbuf.length < off + 4 then .error (.panic "range start index out of range")
  else
    match readVarint (pbuf.drop (off + 4)) with
    | none => .error (.corrupt "payload varint in parent cell")
    | some (payloadSize, n1) =>
        cellBytes pbuf off (4 + n1 + spilledLen payloadSize.toNat usable (indexMaxLocal usable))

def dividedIndexCells (pbuf : Bytes) (phdr : PageHeader) (usable childIdx : Nat)
    (cellOld cellNew : Bytes) : Result (List Bytes) := do
  let cells ← (List.range phdr.numCells).mapM fun i => do
    if i = childIdx then return [cellOld, cellNew]
    else return [← copiedCell pbuf phdr usable i]
  return cells.flatten

def installIndexDivider (parentPgno oldChild newChild : UInt32) (dividerKey : Bytes) :
    PagerM Unit := do
  let usable := (← getState).geometry.usableSize
  let pbase := btreeHeaderOffset parentPgno
  let pbuf ← readPageForWrite parentPgno
  let phdr ← liftResult (PageHeader.parse pbuf pbase)
  if phdr.pageType ≠ .interiorIndex then
    throw (.corrupt "install_index_divider: declared parent is not an interior-index page")
  if phdr.rightMostPointer = some oldChild then
    let cell ← buildIndexInteriorCell oldChild dividerKey usable
    let page ← liftResult (insertInteriorCell pbuf pbase phdr.numCells cell)
    writePage parentPgno (splice page (pbase + 8) (be32 newChild))
  else
    let childIdx ← liftResult (findChildCellIndex pbuf phdr oldChild)
    let cellOff ← liftResult (phdr.cellPointer pbuf childIdx)
    let oldCell ← liftResult (parseIndexInteriorCell pbuf cellOff usable)
    let oldKey ← (assembleIndexInteriorPayload usable oldCell).run
    let cellOld ← buildIndexInteriorCell oldChild dividerKey usable
    let cellNew ← buildIndexInteriorCell newChild oldKey usable
    let cells ← liftResult (dividedIndexCells pbuf phdr usable childIdx cellOld cellNew)
    let page ← liftResult
      (writePageCells pbuf pbase .interiorIndex phdr.rightMostPointer cells)
    writePage parentPgno page

/-! ## Interior pages -/

def writeIndexHalves (interiorPgno newPgno : UInt32) (parentRoot rightMost : Option UInt32)
    (cells : List Bytes) (splitAt : Nat) (leftRightMost : UInt32) : PagerM Unit := do
  writeNewPage newPgno .interiorIndex rightMost (cells.drop (splitAt + 1))
  writeNewPage interiorPgno .interiorIndex (some leftRightMost) (cells.take splitAt)
  if (← getState).autoVacuum then
    match parentRoot with
    | some parentPgno => ptrmapPut newPgno .btree parentPgno
    | none => pure ()
    updateChildrenPtrmapToNewParent newPgno rightMost (cells.drop (splitAt + 1))

def splitIndexInteriorAt (interiorPgno : UInt32) (parentRoot rightMost : Option UInt32)
    (cells : List Bytes) (splitAt : Nat) (dividerKey : Bytes) (leftRightMost : UInt32) :
    PagerM (UInt32 × Bytes) := do
  let newPgno ← allocatePage
  match parentRoot with
  | some parentPgno => installIndexDivider parentPgno interiorPgno newPgno dividerKey
  | none => pure ()
  writeIndexHalves interiorPgno newPgno parentRoot rightMost cells splitAt leftRightMost
  return (newPgno, dividerKey)

def splitIndexInteriorPage (interiorPgno : UInt32) (parentRoot : Option UInt32) :
    PagerM (UInt32 × Bytes) := do
  let usable := (← getState).geometry.usableSize
  let buf ← readPageForWrite interiorPgno
  let hdr ← liftResult (PageHeader.parse buf (btreeHeaderOffset interiorPgno))
  if hdr.pageType ≠ .interiorIndex then
    throw (.corrupt "split_index_interior_page called on a non-index-interior page")
  let cells ← liftResult (indexCells true buf hdr usable)
  let splitAt := splitPoint usable cells
  match cells[splitAt]? with
  | none => throw (.corrupt "split_index_interior_page: cannot find a split point")
  | some divider =>
      let dividerKey ← liftResult (indexKeyFromInteriorCell divider usable)
      let leftRightMost ← liftResult (pointerAt divider 0)
      splitIndexInteriorAt interiorPgno parentRoot hdr.rightMostPointer cells splitAt dividerKey
        leftRightMost

/-! ## The root -/

def rootDivider (isInterior : Bool) (cells : List Bytes) (splitAt usable : Nat)
    (rightMost : Option UInt32) : Result (Bytes × Option UInt32) :=
  match isInterior, cells[splitAt]? with
  | true, some cell => do
      let key ← indexKeyFromInteriorCell cell usable
      let leftPtr ← pointerAt cell 0
      return (key, some leftPtr)
  | true, none => .ok ([], rightMost)
  | false, some cell => do return (← indexKeyFromLeafCell cell usable, rightMost)
  | false, none => .error (.panic "index out of bounds")

def promoteIndexRootAt (rootPgno : UInt32) (childType : PageType)
    (leftRightMost rightMost : Option UInt32) (leftCells rightCells : List Bytes)
    (dividerKey : Bytes) : PagerM Unit := do
  let usable := (← getState).geometry.usableSize
  let leftPgno ← allocatePage
  writeNewPage leftPgno childType leftRightMost leftCells
  let rightPgno ← allocatePage
  writeNewPage rightPgno childType rightMost rightCells
  let cell ← buildIndexInteriorCell leftPgno dividerKey usable
  writeNewPage rootPgno .interiorIndex (some rightPgno) [cell]

def promoteIndexRoot (rootPgno : UInt32) (childType : PageType) : PagerM Unit := do
  let usable := (← getState).geometry.usableSize
  let rootBuf ← readPageForWrite rootPgno
  let hdr ← liftResult (PageHeader.parse rootBuf (btreeHeaderOffset rootPgno))
  if hdr.pageType ≠ childType then
    throw (.corrupt s!"promote_index_root: root is not a {childType.debug} page")
  let isInterior := childType == .interiorIndex
  if hdr.numCells = 0 then
    throw (.corrupt "promote_index_root called on an empty page")
  let cells ← liftResult (indexCells isInterior rootBuf hdr usable)
  let splitAt := splitPoint usable cells
  let rightMost := if isInterior then hdr.rightMostPointer else none
  let (dividerKey, leftRightMost) ←
    liftResult (rootDivider isInterior cells splitAt usable rightMost)
  let rightCells ← liftResult (cellsBehind cells splitAt)
  promoteIndexRootAt rootPgno childType leftRightMost rightMost (cells.take splitAt) rightCells
    dividerKey

end Rustqlite.Btree
