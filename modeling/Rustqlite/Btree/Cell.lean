import Rustqlite.Btree.Page
import Rustqlite.Format.Varint

/-!
# Cells

A payload that is too large for its page keeps a prefix there and spills the
rest to a chain of overflow pages.
-/

namespace Rustqlite.Btree

open Foundation Format

structure TableLeafCell where
  payloadSize : Nat
  rowid : Int64
  localPayload : Bytes
  overflowPage : Option UInt32
  deriving DecidableEq

structure TableInteriorCell where
  leftChild : UInt32
  rowid : Int64
  deriving DecidableEq

structure IndexLeafCell where
  payloadSize : Nat
  localPayload : Bytes
  overflowPage : Option UInt32
  deriving DecidableEq

structure IndexInteriorCell where
  leftChild : UInt32
  payloadSize : Nat
  localPayload : Bytes
  overflowPage : Option UInt32
  deriving DecidableEq

/-- How many bytes of a payload stay on the page, and whether the rest spills. -/
def localPayloadLen (payload usable maxLocal : Nat) : Nat × Bool :=
  if payload ≤ maxLocal then (payload, false)
  else
    let minLocal := (usable - 12) * 32 / 255 - 23
    let surplus := minLocal + (payload - minLocal) % (usable - 4)
    (if surplus ≤ maxLocal then surplus else minLocal, true)

def tableLeafMaxLocal (usable : Nat) : Nat := usable - 35

def indexMaxLocal (usable : Nat) : Nat := (usable - 12) * 64 / 255 - 23

def slicePage (page : Bytes) (start len : Nat) : Result Bytes :=
  if start + len ≤ page.length then .ok (slice page start len)
  else .error (.corrupt "cell extends past end of page")

def readVarintAt (page : Bytes) (off : Nat) (outside missing : String) : Result (Nat × Nat) :=
  if page.length < off then .error (.corrupt outside)
  else
    match readVarint (page.drop off) with
    | none => .error (.corrupt missing)
    | some (v, n) => .ok (v.toNat, n)

def readRowidAt (page : Bytes) (off : Nat) (missing : String) : Result (Int64 × Nat) :=
  match readVarintI64 (page.drop off) with
  | none => .error (.corrupt missing)
  | some r => .ok r

def overflowPointer (page : Bytes) (off : Nat) : Bool → Result (Option UInt32)
  | false => .ok none
  | true => do return some (readBe32 (← slicePage page off 4))

def parseTableLeafCell (page : Bytes) (offset usable : Nat) : Result TableLeafCell := do
  let (payloadSize, n1) ←
    readVarintAt page offset "cell offset" "table leaf payload-size varint"
  let (rowid, n2) ← readRowidAt page (offset + n1) "table leaf rowid varint"
  let content := offset + n1 + n2
  let (localLen, hasOverflow) := localPayloadLen payloadSize usable (tableLeafMaxLocal usable)
  let localPayload ← slicePage page content localLen
  let overflowPage ← overflowPointer page (content + localLen) hasOverflow
  return ⟨payloadSize, rowid, localPayload, overflowPage⟩

def tableLeafCellRowid (page : Bytes) (offset : Nat) : Result Int64 := do
  let (_, n1) ← readVarintAt page offset "cell offset" "table leaf payload-size varint"
  let (rowid, _) ← readRowidAt page (offset + n1) "table leaf rowid varint"
  return rowid

def buildTableInteriorCell (leftChild : UInt32) (rowid : Int64) : Bytes :=
  be32 leftChild ++ writeVarint rowid.toUInt64

def parseTableInteriorCell (page : Bytes) (offset : Nat) : Result TableInteriorCell := do
  let leftChild := readBe32 (← slicePage page offset 4)
  let (rowid, _) ← readRowidAt page (offset + 4) "table interior rowid varint"
  return ⟨leftChild, rowid⟩

def parseIndexLeafCell (page : Bytes) (offset usable : Nat) : Result IndexLeafCell := do
  let (payloadSize, n1) ←
    readVarintAt page offset "cell offset" "index leaf payload-size varint"
  let content := offset + n1
  let (localLen, hasOverflow) := localPayloadLen payloadSize usable (indexMaxLocal usable)
  let localPayload ← slicePage page content localLen
  let overflowPage ← overflowPointer page (content + localLen) hasOverflow
  return ⟨payloadSize, localPayload, overflowPage⟩

def parseIndexInteriorCell (page : Bytes) (offset usable : Nat) : Result IndexInteriorCell := do
  let leftChild := readBe32 (← slicePage page offset 4)
  let (payloadSize, n1) ←
    readVarintAt page (offset + 4) "cell offset" "index interior payload-size varint"
  let content := offset + 4 + n1
  let (localLen, hasOverflow) := localPayloadLen payloadSize usable (indexMaxLocal usable)
  let localPayload ← slicePage page content localLen
  let overflowPage ← overflowPointer page (content + localLen) hasOverflow
  return ⟨leftChild, payloadSize, localPayload, overflowPage⟩

/-! ## The room that a cell takes on its page -/

/-- The bytes of a payload on the page and of the pointer behind it. -/
def spilledLen (payloadSize usable maxLocal : Nat) : Nat :=
  let (localLen, hasOverflow) := localPayloadLen payloadSize usable maxLocal
  localLen + if hasOverflow then 4 else 0

def rowidVarint (page : Bytes) (off : Nat) : Result (Int64 × Nat) :=
  if page.length < off then .error (.corrupt "rowid bytes")
  else readRowidAt page off "table leaf rowid varint"

def cellOnPageSize (page : Bytes) (offset usable : Nat) : Result Nat := do
  let (payloadSize, n1) ←
    readVarintAt page offset "cell offset" "table leaf payload-size varint"
  let (_, rowidSize) ← rowidVarint page (offset + n1)
  return n1 + rowidSize + spilledLen payloadSize usable (tableLeafMaxLocal usable)

def readPayloadSize (page : Bytes) (offset : Nat) : Result (Nat × Nat) :=
  readVarintAt page offset "cell offset" "table leaf payload-size varint"

/-- Tells a payload that spills by what is left of it, not by the flag. -/
def cellTotalSize (page : Bytes) (offset payloadSizeBytes usable : Nat) : Result Nat := do
  let (payloadSize, _) ← readPayloadSize page offset
  let (_, rowidSize) ← rowidVarint page (offset + payloadSizeBytes)
  let localPayloadSize := (localPayloadLen payloadSize usable (usable - 35)).1
  let overflow := if localPayloadSize < payloadSize then 4 else 0
  return payloadSizeBytes + rowidSize + localPayloadSize + overflow

def indexLeafCellOnPageSize (page : Bytes) (offset usable : Nat) : Result Nat := do
  let (payloadSize, n1) ←
    readVarintAt page offset "cell offset" "index leaf payload-size varint"
  return n1 + spilledLen payloadSize usable (indexMaxLocal usable)

/-- The size for a deletion: a varint that cannot be read counts as an empty one. -/
def indexCellOnPageSize (page : Bytes) (offset usable : Nat) : Nat :=
  let (payloadSize, n1) := (readVarint (page.drop offset)).elim (0, 0) fun r => (r.1.toNat, r.2)
  n1 + spilledLen payloadSize usable (indexMaxLocal usable)

end Rustqlite.Btree
