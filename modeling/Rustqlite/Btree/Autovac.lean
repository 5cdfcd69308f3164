import Rustqlite.Btree.Cell
import Rustqlite.Pager.Space

/-!
# Auto-vacuum

A commit in a database with `auto_vacuum = FULL` moves pages from the end of the
file into free pages, fixes the pointers to them and cuts the file.
-/

namespace Rustqlite.Btree

open Foundation Format Pager FileM

def skipReserved (usable : Nat) : Nat → Nat
  | 0 => 0
  | n + 1 => if isReservedPage usable (n + 1) then skipReserved usable n else n + 1

def finalDbSize (usable nOrig nFree : Nat) : Result Nat :=
  let nEntry := usable / 5
  let nPtrmap := (nFree - nOrig + ptrmapPageno usable nOrig + nEntry) / nEntry
  if 2 ^ 32 ≤ nFree - nOrig + ptrmapPageno usable nOrig + nEntry then
    .error (.panic "attempt to add with overflow")
  else if nOrig < nFree + nPtrmap then .error (.panic "attempt to subtract with overflow")
  else
    let nFin := nOrig - nFree - nPtrmap
    if pendingBytePage < nOrig ∧ nFin < pendingBytePage then
      if nFin = 0 then .error (.panic "attempt to subtract with overflow")
      else .ok (skipReserved usable (nFin - 1))
    else .ok (skipReserved usable nFin)

def autovacuumDone : Error := .msg "autovacuum done"

def pointerAt (page : Bytes) (off : Nat) : Result UInt32 :=
  if page.length < off + 4 then .error (.panic "index out of bounds")
  else .ok (readBe32 (page.drop off))

theorem pointerAt_zero {page : Bytes} (h : 4 ≤ page.length) :
    pointerAt page 0 = .ok (readBe32 page) := by
  rw [pointerAt, if_neg (by omega), List.drop_zero]

/-! ## Taking a page off the freelist -/

def relinkTrunk (prevTrunk : Option UInt32) (pgno : UInt32) : PagerM Unit := do
  match prevTrunk with
  | some pt =>
      let pbuf ← readPageForWrite pt
      writePage pt (splice pbuf 0 (be32 pgno))
  | none => withHeaderMut fun h => { h with firstFreelistTrunk := pgno }

def promoteLeaf (trunk : Bytes) (nextTrunk k : UInt32) : PagerM UInt32 := do
  let usable := (← getState).geometry.usableSize
  let newTrunkPgno := readBe32 (trunk.drop 8)
  let newTrunk ← readPageForWrite newTrunkPgno
  let tailStart := 8 + (k.toNat - 1) * 4
  if trunk.length < tailStart + 4 ∨ usable < tailStart then
    throw (.panic "range end index out of range")
  let leaves := slice trunk 12 ((k.toNat - 1) * 4)
  let rebuilt := splice newTrunk 0 (be32 nextTrunk ++ be32 (k - 1) ++ leaves ++
    List.replicate (usable - tailStart) 0)
  writePage newTrunkPgno rebuilt
  return newTrunkPgno

def takeTrunkPage (prevTrunk : Option UInt32) (trunk : Bytes) : PagerM Unit := do
  let nextTrunk := readBe32 trunk
  let k := readBe32 (trunk.drop 4)
  if k = 0 then relinkTrunk prevTrunk nextTrunk
  else
    let newTrunkPgno ← promoteLeaf trunk nextTrunk k
    relinkTrunk prevTrunk newTrunkPgno
  withHeaderMut fun h => { h with freelistCount := h.freelistCount - 1 }

/-- The first of the `left` leaves from index `i` on that is not behind `nFin`. -/
def findLeaf (trunk : Bytes) (nFin : Nat) : Nat → Nat → Result (Option (Nat × UInt32))
  | 0, _ => .ok none
  | left + 1, i => do
      let leaf ← pointerAt trunk (8 + i * 4)
      if leaf.toNat ≤ nFin then return some (i, leaf) else findLeaf trunk nFin left (i + 1)

def removeLeaf (trunkPgno : UInt32) (k : UInt32) (i : Nat) : PagerM Unit := do
  let buf ← readPageForWrite trunkPgno
  let lastOff := 8 + (k.toNat - 1) * 4
  if buf.length < lastOff + 4 then throw (.panic "range end index out of range")
  let buf := if i < k.toNat - 1 then splice buf (8 + i * 4) (slice buf lastOff 4) else buf
  let buf := splice buf 4 (be32 (k - 1))
  writePage trunkPgno (splice buf lastOff [0, 0, 0, 0])
  withHeaderMut fun h => { h with freelistCount := h.freelistCount - 1 }

/--
Walk the trunks.  There are fewer than `2 ^ 32` of them, so a walk that is still
going after that many steps is in a cycle and does not end.
-/
def walkTrunks (nFin : Nat) : Nat → UInt32 → Option UInt32 → PagerM (Option UInt32)
  | 0, _, _ => throw (.panic "the freelist has no end")
  | fuel + 1, trunkPgno, prevTrunk => do
      if trunkPgno = 0 then return none
      let trunk ← getPage trunkPgno
      if trunkPgno.toNat ≤ nFin then
        takeTrunkPage prevTrunk trunk
        return some trunkPgno
      let k := readBe32 (trunk.drop 4)
      match ← liftResult (findLeaf trunk nFin k.toNat 0) with
      | some (i, leaf) =>
          removeLeaf trunkPgno k i
          return some leaf
      | none => walkTrunks nFin fuel (readBe32 trunk) (some trunkPgno)

def findFreePageAtOrBelow (nFin : Nat) : PagerM (Option UInt32) := do
  let firstTrunk := (← getState).header.firstFreelistTrunk
  if firstTrunk = 0 then return none
  walkTrunks nFin (2 ^ 32) firstTrunk none

/-! ## Moving a page -/

def overflowPointerOffset (page : Bytes) (off : Nat) (pageType : PageType) (usable : Nat) :
    Result (Option Nat) := do
  let (payloadSize, n1) ← readVarintAt page off "cell offset" "cell payload-size varint"
  let (headerLen, (localLen, hasOverflow)) ← match pageType with
    | .leafTable => do
        let (_, rowidSize) ← readRowidAt page (off + n1) "table leaf rowid varint"
        pure (n1 + rowidSize, localPayloadLen payloadSize usable (tableLeafMaxLocal usable))
    | .leafIndex => pure (n1, localPayloadLen payloadSize usable (indexMaxLocal usable))
    | _ => return none
  return if hasOverflow then some (off + headerLen + localLen) else none

def cellOverflowPage (page : Bytes) (off : Nat) (pageType : PageType) (usable : Nat) :
    Result (Option UInt32) := do
  match ← overflowPointerOffset page off pageType usable with
  | none => return none
  | some ptrOff => return some (← pointerAt page ptrOff)

def cellReference (page : Bytes) (hdr : PageHeader) (usable i : Nat) : Result (Option UInt32) := do
  let off ← hdr.cellPointer page i
  match hdr.pageType with
  | .leafTable | .leafIndex => cellOverflowPage page off hdr.pageType usable
  | .interiorTable => return some (← parseTableInteriorCell page off).leftChild
  | .interiorIndex => return some (← pointerAt page off)

def setCellPtrmaps (pgno : UInt32) (page : Bytes) (hdr : PageHeader) (ty : PtrMapType) :
    Nat → Nat → PagerM Unit
  | 0, _ => pure ()
  | left + 1, i => do
      let usable := (← getState).geometry.usableSize
      match ← liftResult (cellReference page hdr usable i) with
      | some child => ptrmapPut child ty pgno
      | none => pure ()
      setCellPtrmaps pgno page hdr ty left (i + 1)

def setChildPtrmaps (pgno : UInt32) : PagerM Unit := do
  let page ← getPage pgno
  let hdr ← liftResult (PageHeader.parse page (btreeHeaderOffset pgno))
  let ty := if hdr.pageType.isLeaf then PtrMapType.overflow1 else PtrMapType.btree
  setCellPtrmaps pgno page hdr ty hdr.numCells 0
  match hdr.rightMostPointer with
  | some rm => ptrmapPut rm .btree pgno
  | none => pure ()

/-- Where a cell holds a pointer of the kind that is looked for. -/
def referenceOffset (page : Bytes) (hdr : PageHeader) (ty : PtrMapType) (usable off : Nat) :
    Result (Option Nat) :=
  if ty = .btree then .ok (some off) else overflowPointerOffset page off hdr.pageType usable

/-- Rewrite the first pointer to `iFrom` among the cells from index `i` on. -/
def replaceReference (page : Bytes) (hdr : PageHeader) (ty : PtrMapType) (usable : Nat)
    (iFrom iTo : UInt32) : Nat → Nat → Result (Option Bytes)
  | 0, _ => .ok none
  | left + 1, i => do
      let off ← hdr.cellPointer page i
      match ← referenceOffset page hdr ty usable off with
      | none => replaceReference page hdr ty usable iFrom iTo left (i + 1)
      | some ptrOff =>
          let cur ← pointerAt page ptrOff
          if cur = iFrom then return some (splice page ptrOff (be32 iTo))
          else replaceReference page hdr ty usable iFrom iTo left (i + 1)

/-- The parent with the pointer to `iFrom` turned to `iTo`. -/
def modifyPagePointer (pbuf : Bytes) (parent iFrom iTo : UInt32) (ty : PtrMapType)
    (usable : Nat) : Result Bytes := do
  match ty with
  | .overflow2 =>
      let cur := readBe32 pbuf
      if cur ≠ iFrom then
        throw (.corrupt
          s!"modify_page_pointer: OVERFLOW2 page's next ptr is {cur}, expected {iFrom}")
      return splice pbuf 0 (be32 iTo)
  | .btree | .overflow1 =>
      let base := btreeHeaderOffset parent
      let hdr ← PageHeader.parse pbuf base
      match ← replaceReference pbuf hdr ty usable iFrom iTo hdr.numCells 0 with
      | some pbuf => return pbuf
      | none =>
          if ty = .btree ∧ hdr.rightMostPointer = some iFrom then
            return splice pbuf (base + 8) (be32 iTo)
          throw (.corrupt
            s!"modify_page_pointer: pointer to {iFrom} not found on page {parent}")
  | .rootPage | .freePage => return pbuf

def fixReferences (ty : PtrMapType) (iFreePage : UInt32) : PagerM Unit := do
  match ty with
  | .btree | .rootPage => setChildPtrmaps iFreePage
  | .overflow1 | .overflow2 =>
      let page ← getPage iFreePage
      let next := readBe32 page
      if next ≠ 0 then ptrmapPut next .overflow2 iFreePage
  | .freePage => pure ()

def relocatePage (iDbPage : UInt32) (ty : PtrMapType) (iPtrPage iFreePage : UInt32) :
    PagerM Unit := do
  if iDbPage < 3 then throw (.corrupt "relocate_page: refusing to move page < 3")
  let content ← getPage iDbPage
  let _ ← readPageForWrite iFreePage
  writePage iFreePage content
  fixReferences ty iFreePage
  if ty ≠ .rootPage then
    let pbuf ← readPageForWrite iPtrPage
    let usable := (← getState).geometry.usableSize
    let pbuf ← liftResult (modifyPagePointer pbuf iPtrPage iDbPage iFreePage ty usable)
    writePage iPtrPage pbuf
    ptrmapPut iFreePage ty iPtrPage
  else ptrmapPut iFreePage .rootPage 0

def incrVacuumStep (nFin : Nat) (iLastPg : UInt32) (bCommit : Bool) : PagerM Unit := do
  if (← getState).header.freelistCount = 0 then throw autovacuumDone
  let (ty, iPtrPage) ← ptrmapGet iLastPg
  if ty = .rootPage then
    throw (.corrupt
      s!"incr_vacuum_step: page {iLastPg} is a root page at the end of the file")
  if ty = .freePage then
    if bCommit = false then throw autovacuumDone
    throw (.corrupt
      "incr_vacuum_step: free page at end of file (not removed from freelist)")
  match ← findFreePageAtOrBelow nFin with
  | none => throw autovacuumDone
  | some iFreePg => relocatePage iLastPg ty iPtrPage iFreePg

/-! ## The commit step -/

/-- Move the `left` pages behind `nFin`, the last one first. -/
def vacuumLoop (usable nFin : Nat) : Nat → PagerM Unit
  | 0 => pure ()
  | left + 1 => do
      let iLast := nFin + left + 1
      if isReservedPage usable iLast then vacuumLoop usable nFin left
      else
        match ← tryResult (incrVacuumStep nFin (UInt32.ofNat iLast) true) with
        | .ok _ => vacuumLoop usable nFin left
        | .error e => if e.message = autovacuumDone.message then pure () else throw e

def autoVacuumCommit : PagerM Unit := do
  let s ← getState
  let usable := s.geometry.usableSize
  let nOrig := s.effectiveCount.toNat
  if isReservedPage usable nOrig then
    throw (.corrupt s!"auto_vacuum_commit: last page {nOrig} is reserved")
  let nFree := s.header.freelistCount.toNat
  if nFree = 0 ∨ nOrig ≤ nFree then return ()
  let nFin ← liftResult (finalDbSize usable nOrig nFree)
  if nOrig < nFin then throw (.corrupt "auto_vacuum_commit: nFin > nOrig")
  if nFin = nOrig then return ()
  vacuumLoop usable nFin (nOrig - nFin)
  withHeaderMut fun h => { h with
    firstFreelistTrunk := 0
    freelistCount := 0
    dbSizePages := UInt32.ofNat nFin }
  truncateImage (UInt32.ofNat nFin)

end Rustqlite.Btree
