import Rustqlite.Btree.Cell
import Rustqlite.Format.Record
import Rustqlite.Pager.Reading

/-!
# Scans

A scan walks a whole tree in order.  The entries of a table are in its leaves;
an index also has one between every two children of an interior page.
-/

namespace Rustqlite.Btree

open Foundation Format Pager Reading

/-! ## Payloads -/

/--
Follow the chain of overflow pages until the payload is complete.  Every page
adds at least one byte, so `left`, the number of missing bytes, bounds the loop.
-/
def assembleLoop (usable total : Nat) : Nat → Option UInt32 → Bytes → Reading Bytes
  | 0, _, payload => pure payload
  | left + 1, next, payload =>
      if payload.length < total then
        match next.filter (· ≠ 0) with
        | none => pure payload
        | some pgno => do
            let page ← getPage pgno
            let nextPgno := readBe32 page
            let want := min (total - payload.length) (usable - 4)
            if page.length < 4 + want then
              fail (.corrupt "overflow page shorter than expected")
            else
              assembleLoop usable total left (if nextPgno = 0 then none else some nextPgno)
                (payload ++ slice page 4 want)
      else pure payload

def assemble (usable total : Nat) (localPayload : Bytes) (overflowPage : Option UInt32) :
    Reading Bytes := do
  let payload ←
    assembleLoop usable total (total - localPayload.length) overflowPage localPayload
  if payload.length < total then fail (.corrupt "payload shorter than declared size")
  else pure (payload.take total)

def assemblePayload (usable : Nat) (cell : TableLeafCell) : Reading Bytes :=
  assemble usable cell.payloadSize cell.localPayload cell.overflowPage

def assembleIndexPayload (usable : Nat) (cell : IndexLeafCell) : Reading Bytes :=
  assemble usable cell.payloadSize cell.localPayload cell.overflowPage

def assembleIndexInteriorPayload (usable : Nat) (cell : IndexInteriorCell) : Reading Bytes :=
  assemble usable cell.payloadSize cell.localPayload cell.overflowPage

/-! ## Tables -/

section Table

variable (usable : Nat)

def tableLeafRow (page : Bytes) (hdr : PageHeader) (i : Nat) : Reading (Int64 × Bytes) := do
  let cellOff ← hdr.cellPointer page i
  let cell ← parseTableLeafCell page cellOff usable
  let payload ← assemblePayload usable cell
  return (cell.rowid, payload)

def visitTable : Nat → UInt32 → Reading (List (Int64 × Bytes))
  | 0, _ => fail (.panic "stack overflow")
  | depth + 1, pgno => do
      let page ← getPage pgno
      let hdr ← PageHeader.parse page (btreeHeaderOffset pgno)
      match hdr.pageType with
      | .leafTable => (List.range hdr.numCells).mapM (tableLeafRow usable page hdr)
      | .interiorTable => do
          let parts ← (List.range hdr.numCells).mapM fun i => do
            let cellOff ← hdr.cellPointer page i
            let cell ← parseTableInteriorCell page cellOff
            visitTable depth cell.leftChild
          let last ← match hdr.rightMostPointer with
            | some right => visitTable depth right
            | none => pure []
          return parts.flatten ++ last
      | _ => fail (.corrupt "expected a table b-tree page during scan")

end Table

/-! ## Indexes -/

section Index

variable (usable : Nat) (encoding : TextEncoding) (asI64 : Value → Int64)

def keyRecordRowid (keyRecord : Bytes) : Result Int64 := do
  let values ← decodeRecord keyRecord encoding
  match values.getLast? with
  | some v => return asI64 v
  | none => .error (.corrupt "index key record has no rowid field")

def indexLeafEntry (page : Bytes) (hdr : PageHeader) (i : Nat) : Reading (Bytes × Int64) := do
  let cellOff ← hdr.cellPointer page i
  let cell ← parseIndexLeafCell page cellOff usable
  let key ← assembleIndexPayload usable cell
  let rowid ← keyRecordRowid encoding asI64 key
  return (key, rowid)

def visitIndex : Nat → UInt32 → Reading (List (Bytes × Int64))
  | 0, _ => fail (.panic "stack overflow")
  | depth + 1, pgno => do
      let page ← getPage pgno
      let hdr ← PageHeader.parse page (btreeHeaderOffset pgno)
      match hdr.pageType with
      | .leafIndex => (List.range hdr.numCells).mapM (indexLeafEntry usable encoding asI64 page hdr)
      | .interiorIndex => do
          let parts ← (List.range hdr.numCells).mapM fun i => do
            let cellOff ← hdr.cellPointer page i
            let cell ← parseIndexInteriorCell page cellOff usable
            let left ← visitIndex depth cell.leftChild
            let key ← assembleIndexInteriorPayload usable cell
            let rowid ← keyRecordRowid encoding asI64 key
            return left ++ [(key, rowid)]
          let last ← match hdr.rightMostPointer with
            | some right => visitIndex depth right
            | none => pure []
          return parts.flatten ++ last
      | _ => fail (.corrupt "expected an index b-tree page during scan")

end Index

end Rustqlite.Btree
