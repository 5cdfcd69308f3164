import Rustqlite.Btree.Delete
import Rustqlite.Btree.Scan

/-!
# Table cursors

A cursor over a table reads its rows one by one and may delete the row that it
is on.  The cell behind the deleted one moves into its place, so the next step
of the cursor stays where it is.
-/

namespace Rustqlite.Btree

open Foundation Format Pager FileM

def tableKind : TreeKind where
  leaf := .leafTable
  interior := .interiorTable
  leftChild page off := do return (← parseTableInteriorCell page off).leftChild
  noChildren := "interior table page with no children"
  wrongPage := "expected a table b-tree page during scan"
  leaf_ne_interior := by decide

structure TableCursor extends TreePosition where
  root : UInt32
  rebalanceInProgress : Bool
  /-- All columns read as NULL, as after a join without a match. -/
  nullRow : Bool

namespace TableCursor

def new (root : UInt32) : TableCursor := ⟨TreePosition.new, root, false, false⟩

def rewind (fuel : Nat) (c : TableCursor) : Reading TableCursor := do
  let pos ← TreePosition.rewind tableKind fuel c.root
  return { c with toTreePosition := pos, nullRow := false }

def next (fuel : Nat) (c : TableCursor) : Reading TableCursor :=
  if c.atEnd then return c
  else do
    let pos ← c.toTreePosition.next tableKind fuel
    return { c with toTreePosition := pos, nullRow := false }

def notOnRow : Error := .msg "table cursor is not positioned on a row"

def currentCell (usable : Nat) (c : TableCursor) : Result TableLeafCell :=
  match c.leaf with
  | none => .error notOnRow
  | some (page, hdr) =>
      if c.isValid = false then .error notOnRow
      else do
        let off ← hdr.cellPointer page c.cellIdx
        parseTableLeafCell page off usable

def rowid (usable : Nat) (c : TableCursor) : Result Int64 :=
  if c.nullRow then .ok 0 else do return (← c.currentCell usable).rowid

def payload (usable : Nat) (c : TableCursor) : Reading Bytes :=
  if c.nullRow then pure []
  else do
    let cell ← (c.currentCell usable : Result _)
    assemblePayload usable cell

/-! ## The parent of the leaf -/

def visitedChild (f : Frame) : Result (Option UInt32) :=
  if f.next - 1 < f.hdr.numCells then
    match f.hdr.cellPointer f.page (f.next - 1) with
    | .error _ => .ok none
    | .ok off => do return some (← pointerAt f.page off)
  else .ok f.hdr.rightMostPointer

def resolveLoop (leafPgno : UInt32) : UInt32 → List Frame → Result (Option UInt32)
  | pgno, [] => .ok (some pgno)
  | pgno, f :: frames =>
      if f.hdr.pageType.isLeaf then .ok (some pgno)
      else do
        match ← visitedChild f with
        | none => return none
        | some child =>
            if child = leafPgno then return some child else resolveLoop leafPgno child frames

def resolveParentPgno (c : TableCursor) (leafPgno : UInt32) : Result (Option UInt32) :=
  if c.stack = [] then .ok none else resolveLoop leafPgno c.root c.stack.reverse

def findLeftChild (f : Frame) (leafPgno : UInt32) : Nat → Nat → Result (Option (Option Nat))
  | 0, _ => .ok (some none)
  | left + 1, i =>
      match f.hdr.cellPointer f.page i with
      | .error _ => .ok none
      | .ok off => do
          let leftChild ← pointerAt f.page off
          if leftChild = leafPgno then return some (some i)
          else findLeftChild f leafPgno left (i + 1)

def parentInfo (c : TableCursor) (leafPgno : UInt32) : Result (Option (UInt32 × Nat × Bool)) :=
  match c.stack with
  | [] => .ok none
  | f :: rest => do
      match ← c.resolveParentPgno leafPgno with
      | none => return none
      | some parentPgno =>
          match ← findLeftChild f leafPgno f.hdr.numCells 0 with
          | none => return none
          | some (some i) => return some (parentPgno, i, rest.isEmpty)
          | some none =>
              if f.hdr.rightMostPointer = some leafPgno then
                return some (parentPgno, f.hdr.numCells, rest.isEmpty)
              else return none

/-! ## Deleting -/

def refreshLeaf (c : TableCursor) (pgno : UInt32) : PagerM TableCursor := do
  let page ← getPage pgno
  let hdr ← liftResult (PageHeader.parse page (btreeHeaderOffset pgno))
  return { c with leaf := some (page, hdr), pendingAdvance := true }

def rebalance (c : TableCursor) (pgno : UInt32) : PagerM TableCursor := do
  match ← liftResult (c.parentInfo pgno) with
  | none => return c
  | some (parentPgno, childIdx, isRootParent) =>
      match ← rebalanceTableLeafAfterDelete pgno parentPgno childIdx isRootParent with
      | none => return c
      | some outcome =>
          let c' ← c.refreshLeaf outcome.leafPgno
          return { c' with
            leafPgno := outcome.leafPgno
            cellIdx := c.cellIdx + outcome.cellIdxOffset }

def deleteCurrent (fuel : Nat) (c : TableCursor) : PagerM TableCursor := do
  if c.isValid = false then throw notOnRow
  leafDeleteCurrent fuel c.leafPgno c.cellIdx
  let c ← c.refreshLeaf c.leafPgno
  if c.rebalanceInProgress then return c
  let c ← rebalance { c with rebalanceInProgress := true } c.leafPgno
  return { c with rebalanceInProgress := false }

def deleteIf (fuel : Nat) (c : TableCursor) (del : Bool) : PagerM TableCursor :=
  if del then c.deleteCurrent fuel else pure c

/--
Read row by row; the row with number `i` is deleted before the next step if
`delete i` says so.  `n` bounds the number of rows.
-/
def visitsDeleting (fuel : Nat) (delete : Nat → Bool) :
    Nat → Nat → TableCursor → PagerM (List (Int64 × Bytes))
  | 0, _, _ => throw endless
  | n + 1, i, c =>
      if c.isValid = false then pure []
      else do
        let usable := (← getState).geometry.usableSize
        let rowid ← liftResult (c.rowid usable)
        let payload ← (c.payload usable).run
        let c ← c.deleteIf fuel (delete i)
        let c ← (c.next fuel).run
        let rest ← visitsDeleting fuel delete n (i + 1) c
        return (rowid, payload) :: rest

end TableCursor

def scanTable (depth : Nat) (root : UInt32) : PagerM (List (Int64 × Bytes)) := do
  let s ← getState
  (visitTable s.geometry.usableSize depth root).run

/-- `rewind`, and then `next`, or `delete_current` and `next`, until the cursor is not on a row. -/
def scanDeleting (fuel : Nat) (delete : Nat → Bool) (root : UInt32) :
    PagerM (List (Int64 × Bytes)) := do
  let c ← ((TableCursor.new root).rewind fuel).run
  c.visitsDeleting fuel delete fuel 0

end Rustqlite.Btree
