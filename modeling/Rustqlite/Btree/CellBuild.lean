import Rustqlite.Btree.Scan
import Rustqlite.Pager.Space

/-!
# Building cells

The part of a payload that its page has no room for goes to freshly allocated
overflow pages, each of which starts with the number of the next one.
-/

namespace Rustqlite.Btree

open Foundation Format Pager FileM

/-- The page behind one that holds all but `rest` of the payload. -/
def nextOverflowPage (rest : Bytes) : PagerM UInt32 :=
  if rest.isEmpty then pure 0 else allocatePage

def overflowPageBytes (pageSize : Nat) (nextPgno : UInt32) (chunk : Bytes) : Bytes :=
  splice (splice (List.replicate pageSize 0) 0 (be32 nextPgno)) 4 chunk

/--
Write `tail` to a chain of pages that starts at `currPgno`.  Every page takes at
least one byte, so `left` bounds the loop.
-/
def writeOverflowChain (usable : Nat) : Nat → UInt32 → Bytes → PagerM Unit
  | 0, _, _ => throw (.panic "the chain has no end")
  | left + 1, currPgno, tail => do
      let chunk := tail.take (usable - 4)
      let rest := tail.drop (usable - 4)
      let nextPgno ← nextOverflowPage rest
      let pageSize := (← getState).pageSize
      if pageSize < 4 + chunk.length then throw (.panic "range end index out of range")
      match ← tryResult (writePage currPgno (overflowPageBytes pageSize nextPgno chunk)) with
      | .error _ => throw (.panic "write overflow page")
      | .ok _ =>
          -- the pointer map is left to the caller: `ptrmap_put_sync` does nothing
          if rest.isEmpty then return () else writeOverflowChain usable left nextPgno rest

/-- The part of a payload that stays on the page, and the pointer to the rest. -/
def spillPayload (payload : Bytes) (usable maxLocal : Nat) : PagerM Bytes :=
  let (localLen, hasOverflow) := localPayloadLen payload.length usable maxLocal
  if hasOverflow then do
    let tail := payload.drop localLen
    let firstPgno ← allocatePage
    writeOverflowChain usable (tail.length + 1) firstPgno tail
    return payload.take localLen ++ be32 firstPgno
  else return payload.take localLen

/-- The host page would be for the pointer map. -/
def buildTableLeafCellWithHost (rowid : Int64) (payload : Bytes) (usable : Nat)
    (_hostPgno : Option UInt32) : PagerM Bytes := do
  let content ← spillPayload payload usable (usable - 35)
  return writeVarint (UInt64.ofNat payload.length) ++ writeVarint rowid.toUInt64 ++ content

def buildTableLeafCell (rowid : Int64) (payload : Bytes) (usable : Nat) : PagerM Bytes :=
  buildTableLeafCellWithHost rowid payload usable none

def buildIndexLeafCellWithHost (keyRecord : Bytes) (usable : Nat) (_hostPgno : Option UInt32) :
    PagerM Bytes := do
  let content ← spillPayload keyRecord usable (indexMaxLocal usable)
  return writeVarint (UInt64.ofNat keyRecord.length) ++ content

def buildIndexLeafCell (keyRecord : Bytes) (usable : Nat) : PagerM Bytes :=
  buildIndexLeafCellWithHost keyRecord usable none

def buildIndexInteriorCell (leftChild : UInt32) (keyRecord : Bytes) (usable : Nat) :
    PagerM Bytes := do
  let content ← spillPayload keyRecord usable (indexMaxLocal usable)
  return be32 leftChild ++ writeVarint (UInt64.ofNat keyRecord.length) ++ content

end Rustqlite.Btree
