import Rustqlite.Btree.Ptrmap

/-!
# Allocating and freeing pages

Freed pages form a list of trunk pages.  An allocation takes the last page that
the first trunk names, or the trunk itself, and extends the file only when the
list is empty.
-/

namespace Rustqlite.Pager

open Foundation Format Btree FileM

def takeTrunk (firstTrunk nextTrunk : UInt32) : PagerM UInt32 := do
  withHeaderMut fun h => { h with
    firstFreelistTrunk := nextTrunk
    freelistCount := h.freelistCount - 1 }
  return firstTrunk

def takeLeaf (firstTrunk : UInt32) (trunk : Bytes) (k : UInt32) : PagerM UInt32 := do
  let leafOffset := 4 + k.toNat * 4
  if trunk.length < leafOffset + 4 then throw (.panic "index out of bounds")
  let leafPgno := readBe32 (trunk.drop leafOffset)
  match ← tryResult (writePage firstTrunk (splice trunk 4 (be32 (k - 1)))) with
  | .error _ => throw (.panic "write freelist trunk")
  | .ok _ =>
      -- a trunk that names itself is taken for one without leaves
      if leafPgno = firstTrunk then takeTrunk firstTrunk firstTrunk
      else
        withHeaderMut fun h => { h with freelistCount := h.freelistCount - 1 }
        return leafPgno

def takeFree (firstTrunk : UInt32) (trunk : Bytes) : PagerM UInt32 :=
  let k := readBe32 (trunk.drop 4)
  if k = 0 then takeTrunk firstTrunk (readBe32 trunk) else takeLeaf firstTrunk trunk k

def allocateFromFreelist (firstTrunk : UInt32) : PagerM UInt32 := do
  let g := (← getState).geometry
  let trunk := (← tryResult (getPage firstTrunk)).toOption.getD (zeroPage g)
  let pgno ← takeFree firstTrunk trunk
  modifyState fun s => { s with dirty := s.dirty.insert pgno (zeroPage g) }
  return pgno

/--
Add pages to the file until one is not reserved.  `left` counts the page numbers
that are left in 32 bits.
-/
def extendFile (g : Geometry) : Nat → PagerM UInt32
  | 0 => throw (.panic "attempt to add with overflow")
  | left + 1 => do
      modifyState fun s => { s with
        pageCount := s.pageCount + 1
        dirty := s.dirty.insert (s.pageCount + 1) (zeroPage g) }
      let s ← getState
      let pgno := s.pageCount
      if isPendingBytePage pgno.toNat then extendFile g left
      else if s.autoVacuum && isPtrmapPage g.usableSize pgno.toNat then extendFile g left
      else return pgno

def allocatePage : PagerM UInt32 := do
  let s ← getState
  if 0 < s.header.freelistCount ∧ s.header.firstFreelistTrunk ≠ 0 then
    allocateFromFreelist s.header.firstFreelistTrunk
  else extendFile s.geometry (2 ^ 32 - 1 - s.pageCount.toNat)

def freePage (pgno : UInt32) : PagerM Unit := do
  let preimage ← getPage pgno
  journalPage pgno preimage
  let prevFirst := (← getState).header.firstFreelistTrunk
  writePage pgno (be32 prevFirst ++ List.replicate (preimage.length - 4) 0)
  withHeaderMut fun h => { h with
    firstFreelistTrunk := pgno
    freelistCount := h.freelistCount + 1 }
  if (← getState).autoVacuum then ptrmapPut pgno .freePage 0

end Rustqlite.Pager
