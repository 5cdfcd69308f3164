import Rustqlite.Btree.Autovac
import Rustqlite.Btree.TreeCursor

/-!
# Deleting a row

A deletion frees the overflow pages of a cell and lays out the leaf again
without it.  What happens to a leaf that has become too empty is another
matter: it may be merged with a neighbour, or take over some of its cells.
-/

namespace Rustqlite.Btree

open Foundation Format Pager FileM

/-! ## The leaf -/

def freeOverflowChain : Nat → UInt32 → PagerM Unit
  | 0, _ => throw endless
  | fuel + 1, pgno =>
      if pgno = 0 then pure ()
      else do
        let page ← getPage pgno
        let next ← liftResult (pointerAt page 0)
        freePage pgno
        freeOverflowChain fuel next

def cellBytes (page : Bytes) (off size : Nat) : Result Bytes :=
  if page.length < off + size then .error (.panic "range end index out of range")
  else .ok (slice page off size)

def survivingCells (leaf : Bytes) (hdr : PageHeader) (usable cellIdx : Nat) :
    Result (List Bytes) :=
  ((List.range hdr.numCells).filter (· ≠ cellIdx)).mapM fun i => do
    let off ← hdr.cellPointer leaf i
    let size ← cellOnPageSize leaf off usable
    cellBytes leaf off size

def freeOverflowOf (fuel : Nat) (cell : TableLeafCell) : PagerM Unit :=
  match cell.overflowPage with
  | some firstOverflow => freeOverflowChain fuel firstOverflow
  | none => pure ()

def leafDeleteCurrent (fuel : Nat) (leafPgno : UInt32) (cellIdx : Nat) : PagerM Unit := do
  let base := btreeHeaderOffset leafPgno
  let leaf ← readPageForWrite leafPgno
  let hdr ← liftResult (PageHeader.parse leaf base)
  if hdr.pageType ≠ .leafTable then
    throw (.corrupt "leaf_delete_current called on a non-leaf page")
  if hdr.numCells ≤ cellIdx then
    throw (.corrupt "leaf_delete_current: cell_idx out of range")
  let cellOff ← liftResult (hdr.cellPointer leaf cellIdx)
  let usable := (← getState).geometry.usableSize
  let cell ← liftResult (parseTableLeafCell leaf cellOff usable)
  freeOverflowOf fuel cell
  let cells ← liftResult (survivingCells leaf hdr usable cellIdx)
  let rebuilt ← liftResult (writePageCells leaf base .leafTable none cells)
  writePage leafPgno rebuilt

/-! ## Underfull leaves -/

def leafFreeSpace (page : Bytes) (base : Nat) : Nat :=
  let numCells := (readBe16 (page.drop (base + 3))).toNat
  readContentStart (readBe16 (page.drop (base + 5))) - (base + 8 + numCells * 2)

def readTableLeafCells (page : Bytes) (base usable : Nat) : Result (List Bytes) := do
  let hdr ← PageHeader.parse page base
  if hdr.pageType ≠ .leafTable then
    .error (.corrupt "read_table_leaf_cells: not a table leaf")
  else
    (List.range hdr.numCells).mapM fun i => do
      let off ← hdr.cellPointer page i
      let (_, n1) ← readPayloadSize page off
      let size ← cellTotalSize page off n1 usable
      cellBytes page off size

def tableCellsLayoutSize (cells : List Bytes) : Nat :=
  8 + cells.length * 2 + cells.flatten.length

def maxRowidOfCell (cell : Bytes) : Result Int64 :=
  match tableLeafCellRowid cell 0 with
  | .ok rowid => .ok rowid
  | .error _ => do
      match readVarint cell with
      | none => .error (.corrupt "payload varint")
      | some (_, n1) =>
          let (rowid, _) ← readRowidAt cell n1 "rowid varint"
          return rowid

def maxRowidOfCells (cells : List Bytes) : Result Int64 :=
  match cells.getLast? with
  | some cell => maxRowidOfCell cell
  | none => .ok 0

def writeTableLeaf (pgno : UInt32) (base : Nat) (cells : List Bytes) : PagerM Unit := do
  let buf ← readPageForWrite pgno
  let rebuilt ← liftResult (writePageCells buf base .leafTable none cells)
  writePage pgno rebuilt

def fillLeft (usable : Nat) : Nat → List Bytes → Nat
  | layout, cell :: next :: rest =>
      if usable < layout + cell.length + 2 then 0
      else fillLeft usable (layout + cell.length + 2) (next :: rest) + 1
  | _, _ => 0

def redistributeTableCells (usable : Nat) (leftCells rightCells : List Bytes) :
    Result (List Bytes × List Bytes) :=
  let combined := leftCells ++ rightCells
  if combined.length < 2 then
    .error (.corrupt "redistribute_table_cells: need at least two cells")
  else .ok (combined.splitAt (max 1 (fillLeft usable 8 combined)))

def parentCell (pbuf : Bytes) (phdr : PageHeader) (i : Nat) : Result (UInt32 × Int64) := do
  let off ← phdr.cellPointer pbuf i
  let leftChild ← pointerAt pbuf off
  let (rowid, _) ← readRowidAt pbuf (off + 4) "parent rowid varint"
  return (leftChild, rowid)

def collapseRootIntoChild (rootPgno childPgno : UInt32) : PagerM Unit := do
  let usable := (← getState).geometry.usableSize
  let childBuf ← getPage childPgno
  let cells ← liftResult (readTableLeafCells childBuf (btreeHeaderOffset childPgno) usable)
  writeTableLeaf rootPgno (btreeHeaderOffset rootPgno) cells
  freePage childPgno

def parentFor (parentPgno : UInt32) (dividerIdx : Nat) (notInterior badIdx : String) :
    PagerM (Bytes × PageHeader) := do
  let pbuf ← getPage parentPgno
  let phdr ← liftResult (PageHeader.parse pbuf (btreeHeaderOffset parentPgno))
  if phdr.pageType ≠ .interiorTable then throw (.corrupt notInterior)
  if phdr.numCells ≤ dividerIdx then throw (.corrupt badIdx)
  return (pbuf, phdr)

def writeParent (parentPgno : UInt32) (rightMost : Option UInt32) (cells : List Bytes) :
    PagerM Unit := do
  let newParent ← readPageForWrite parentPgno
  let rebuilt ← liftResult (writePageCells newParent (btreeHeaderOffset parentPgno)
    .interiorTable rightMost cells)
  writePage parentPgno rebuilt

def rebuildParentWithoutDivider (parentPgno : UInt32) (dividerIdx : Nat) (isRootParent : Bool) :
    PagerM Unit := do
  let (pbuf, phdr) ← parentFor parentPgno dividerIdx
    "rebuild_parent_without_divider: not interior" "rebuild_parent_without_divider: bad idx"
  let n := phdr.numCells
  let cells ← liftResult (((List.range n).filter (· ≠ dividerIdx)).mapM fun i => do
    let (leftChild, rowid) ← parentCell pbuf phdr i
    return buildTableInteriorCell leftChild rowid)
  let rightMost ←
    if dividerIdx = n - 1 then do
      let off ← liftResult (phdr.cellPointer pbuf (n - 1))
      pure (some (← liftResult (pointerAt pbuf off)))
    else pure phdr.rightMostPointer
  writeParent parentPgno rightMost cells
  if isRootParent && cells.isEmpty then
    match rightMost with
    | some child => collapseRootIntoChild parentPgno child
    | none => pure ()

def rebuildParentWithDivider (parentPgno : UInt32) (dividerIdx : Nat) (newRowid : Int64) :
    PagerM Unit := do
  let (pbuf, phdr) ← parentFor parentPgno dividerIdx
    "rebuild_parent_with_divider: not interior" "rebuild_parent_with_divider: bad idx"
  let cells ← liftResult ((List.range phdr.numCells).mapM fun i => do
    if i = dividerIdx then
      let off ← phdr.cellPointer pbuf i
      let leftChild ← pointerAt pbuf off
      return buildTableInteriorCell leftChild newRowid
    else
      let (leftChild, rowid) ← parentCell pbuf phdr i
      return buildTableInteriorCell leftChild rowid)
  writeParent parentPgno phdr.rightMostPointer cells

structure RebalanceOutcome where
  leafPgno : UInt32
  cellIdxOffset : Nat

def siblingAt (pbuf : Bytes) (phdr : PageHeader) (i : Nat) : Result UInt32 := do
  let off ← phdr.cellPointer pbuf i
  let cell ← parseTableInteriorCell pbuf off
  return cell.leftChild

def rebalanceWithRight (leafPgno parentPgno rightPgno : UInt32) (childIdx usable : Nat)
    (isRootParent : Bool) (leafCells : List Bytes) : PagerM (Option RebalanceOutcome) := do
  let base := btreeHeaderOffset leafPgno
  let rightBase := btreeHeaderOffset rightPgno
  let rightBuf ← getPage rightPgno
  let rightCells ← liftResult (readTableLeafCells rightBuf rightBase usable)
  if tableCellsLayoutSize leafCells + rightCells.flatten.length + rightCells.length * 2 + 8 ≤
      usable then
    writeTableLeaf leafPgno base (leafCells ++ rightCells)
    freePage rightPgno
    rebuildParentWithoutDivider parentPgno childIdx isRootParent
    return none
  else
    let (leftCells, rightCells) ←
      liftResult (redistributeTableCells usable leafCells rightCells)
    let dividerRowid ← liftResult (maxRowidOfCells leftCells)
    writeTableLeaf leafPgno base leftCells
    writeTableLeaf rightPgno rightBase rightCells
    rebuildParentWithDivider parentPgno childIdx dividerRowid
    return none

def rebalanceWithLeft (leafPgno parentPgno leftPgno : UInt32) (childIdx usable : Nat)
    (isRootParent : Bool) (leafCells : List Bytes) : PagerM (Option RebalanceOutcome) := do
  let base := btreeHeaderOffset leafPgno
  let leftBase := btreeHeaderOffset leftPgno
  let leftBuf ← getPage leftPgno
  let leftCells ← liftResult (readTableLeafCells leftBuf leftBase usable)
  if tableCellsLayoutSize leftCells + leafCells.flatten.length + leafCells.length * 2 + 8 ≤
      usable then
    writeTableLeaf leftPgno leftBase (leftCells ++ leafCells)
    freePage leafPgno
    rebuildParentWithoutDivider parentPgno (childIdx - 1) isRootParent
    return some ⟨leftPgno, leftCells.length⟩
  else
    let (leftCells, rightCells) ←
      liftResult (redistributeTableCells usable leftCells leafCells)
    let dividerRowid ← liftResult (maxRowidOfCells leftCells)
    writeTableLeaf leftPgno leftBase leftCells
    writeTableLeaf leafPgno base rightCells
    rebuildParentWithDivider parentPgno (childIdx - 1) dividerRowid
    return none

def rebalanceUnder (leafPgno parentPgno : UInt32) (childIdx usable : Nat) (isRootParent : Bool)
    (leafBuf pbuf : Bytes) (phdr : PageHeader) : PagerM (Option RebalanceOutcome) := do
  let rightSibling ←
    if childIdx < phdr.numCells then do pure (some (← liftResult (siblingAt pbuf phdr childIdx)))
    else pure none
  let leftSibling ←
    if 0 < childIdx then do pure (some (← liftResult (siblingAt pbuf phdr (childIdx - 1))))
    else pure none
  let leafCells ←
    liftResult (readTableLeafCells leafBuf (btreeHeaderOffset leafPgno) usable)
  match rightSibling, leftSibling with
  | some rightPgno, _ =>
      rebalanceWithRight leafPgno parentPgno rightPgno childIdx usable isRootParent leafCells
  | none, some leftPgno =>
      rebalanceWithLeft leafPgno parentPgno leftPgno childIdx usable isRootParent leafCells
  | none, none => return none

def rebalanceTableLeafAfterDelete (leafPgno parentPgno : UInt32) (childIdx : Nat)
    (isRootParent : Bool) : PagerM (Option RebalanceOutcome) := do
  let usable := (← getState).geometry.usableSize
  let base := btreeHeaderOffset leafPgno
  let leafBuf ← getPage leafPgno
  let hdr ← liftResult (PageHeader.parse leafBuf base)
  if hdr.pageType ≠ .leafTable then
    throw (.corrupt "rebalance_table_leaf_after_delete: not a leaf-table page")
  if leafFreeSpace leafBuf base * 3 ≤ usable * 2 ∨ hdr.numCells = 0 then return none
  let pbuf ← getPage parentPgno
  let phdr ← liftResult (PageHeader.parse pbuf (btreeHeaderOffset parentPgno))
  if phdr.pageType = .leafTable then return none
  if phdr.pageType ≠ .interiorTable then
    throw (.corrupt "rebalance_table_leaf_after_delete: parent is not an interior table")
  rebalanceUnder leafPgno parentPgno childIdx usable isRootParent leafBuf pbuf phdr

end Rustqlite.Btree
