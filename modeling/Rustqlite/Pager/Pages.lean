import Mathlib.Data.List.AList
import Rustqlite.Btree.Page
import Rustqlite.Pager.Journal

/-!
# Pages

A pager serves pages from an overlay of modified pages, a cache of clean ones,
the write-ahead log and the database file, in this order.  A page that is about
to be modified for the first time goes to the rollback journal.
-/

namespace Rustqlite.Pager

open Foundation Format Btree FileM

/-- What never changes while a database is open. -/
structure Geometry where
  pageSize : PageSize
  usableSize : Nat
  le_usable : 480 ≤ usableSize
  usable_le : usableSize ≤ pageSize.size
  deriving DecidableEq

def DbHeader.geometry (h : DbHeader) : Geometry where
  pageSize := h.pageSize
  usableSize := h.usableSize
  le_usable := by
    have := h.usable
    rw [DbHeader.usableSize]
    omega
  usable_le := Nat.sub_le _ _

abbrev Overlay := AList fun _ : UInt32 => Bytes

namespace Overlay

def pairs (o : Overlay) : List (UInt32 × Bytes) := o.entries.map fun e => (e.1, e.2)

/-- Keep the pages up to `n`. -/
def retain (o : Overlay) (n : UInt32) : Overlay where
  entries := o.entries.filter fun e => e.1 ≤ n
  nodupKeys := o.nodupKeys.sublist List.filter_sublist

end Overlay

structure DrainOrder where
  drain : Overlay → List (UInt32 × Bytes)
  perm : ∀ o, (drain o).Perm o.pairs

structure WriteTxn where
  cksumInit : UInt32
  dbOrigSize : UInt32
  nrec : UInt32
  journalOff : Nat
  journaled : List UInt32
  deriving DecidableEq

structure PagerSavepoint where
  name : String
  nOrig : UInt32
  dirtySnapshot : Overlay

structure PagerState where
  geometry : Geometry
  header : DbHeader
  pageCount : UInt32
  cache : UInt32 → Option Bytes
  dirty : Overlay
  txn : Option WriteTxn
  /-- The outermost savepoint comes first. -/
  savepoints : List PagerSavepoint
  wal : Option Wal

abbrev PagerM := FileM Error DbFile PagerState

namespace PagerState

def pageSize (s : PagerState) : Nat := s.geometry.pageSize.size

/-- `page_count()`: a log with frames may hold pages that the file does not have yet. -/
def effectiveCount (s : PagerState) : UInt32 :=
  match s.wal with
  | some w => if w.mxFrame ≠ 0 then max w.nPage s.pageCount else s.pageCount
  | none => s.pageCount

def autoVacuum (s : PagerState) : Bool := s.header.largestRootPage != 0

def incrVacuum (s : PagerState) : Bool := s.header.incrementalVacuum != 0

def inWriteTxn (s : PagerState) : Bool := s.txn.isSome

def resident (s : PagerState) (pgno : UInt32) : Option Bytes :=
  (s.dirty.lookup pgno).or (s.cache pgno)

def insertCache (s : PagerState) (pgno : UInt32) (page : Bytes) : PagerState :=
  { s with cache := Function.update s.cache pgno (some page) }

/-- Keep the clean pages up to `n`. -/
def retainCache (s : PagerState) (n : UInt32) : PagerState :=
  { s with cache := fun p => if p ≤ n then s.cache p else none }

/-- The frame of the log that holds the newest committed version of a page, if there is one. -/
def walFrame (s : PagerState) (pgno : UInt32) : Option (Wal × Nat) :=
  match s.wal with
  | none => none
  | some w => if w.findFrame pgno = 0 then none else some (w, w.findFrame pgno)

end PagerState

def zeroPage (g : Geometry) : Bytes := List.replicate g.pageSize.size 0

def tryResult {α : Type} (m : PagerM α) : PagerM (Except Error α) := fun p =>
  match m p with
  | .ok a q => .ok (.ok a) q
  | .error e q => if e.code = .panic then .error e q else .ok (.error e) q

def readWalPage (w : Wal) (iFrame : Nat) : PagerM Bytes := do
  let s ← getState
  if w.file = false then throw (.panic "wal frame exists, file must be open")
  let file ← contents ioFailed .wal
  return readPadded (file.getD []) (frameDataOffset w.pageSize iFrame) s.pageSize

def readDbPage (pgno : UInt32) : PagerM Bytes := do
  let s ← getState
  let file ← contents ioFailed .db
  let buf := slice (file.getD []) ((pgno.toNat - 1) * s.pageSize) s.pageSize
  if buf.length < s.pageSize then
    throw (.corrupt s!"short read for page {pgno}: got {buf.length} of {s.pageSize} bytes")
  return buf

/-- A page that is not in memory: the newest frame of the log, else the database file. -/
def readStored (s : PagerState) (pgno : UInt32) : PagerM Bytes :=
  match s.walFrame pgno with
  | some (w, iFrame) => readWalPage w iFrame
  | none => readDbPage pgno

def getPage (pgno : UInt32) : PagerM Bytes := do
  let s ← getState
  let effectiveCount := s.effectiveCount
  if pgno = 0 ∨ effectiveCount < pgno then
    throw (.corrupt s!"page {pgno} out of range (page count {effectiveCount})")
  match s.resident pgno with
  | some page => return page
  | none =>
      let page ← readStored s pgno
      modifyState fun s => s.insertCache pgno page
      return page

/-- Keep the pre-image of a page that existed when the transaction began, once. -/
def journalPage (pgno : UInt32) (preimage : Bytes) : PagerM Unit := do
  let s ← getState
  if s.wal.isSome then return ()
  match s.txn with
  | none => return ()
  | some txn =>
      if txn.dbOrigSize < pgno ∨ pgno ∈ txn.journaled then return ()
      modifyState fun s => { s with txn := some { txn with
        journaled := pgno :: txn.journaled
        nrec := txn.nrec + 1
        journalOff := txn.journalOff + recordLen s.pageSize } }
      perform ioFailed
        (.write .journal txn.journalOff (buildRecord pgno preimage txn.cksumInit))

def readPageForWrite (pgno : UInt32) : PagerM Bytes := do
  let page ← getPage pgno
  journalPage pgno page
  return page

def writePage (pgno : UInt32) (data : Bytes) : PagerM Unit := do
  let s ← getState
  if data.length ≠ s.pageSize then
    throw (.corrupt
      s!"write_page: page {pgno} is {data.length} bytes, expected {s.pageSize}")
  modifyState fun s => { s with dirty := s.dirty.insert pgno data }

def withHeaderMut (f : DbHeader → DbHeader) : PagerM Unit :=
  modifyState fun s => { s with header := f s.header }

def truncateImage (nFin : UInt32) : PagerM Unit :=
  modifyState fun s =>
    { s.retainCache nFin with dirty := s.dirty.retain nFin, pageCount := nFin }

/-! ## Opening -/

def openPager : FileM Error DbFile Unit PagerState := do
  recoverHotJournal
  let file ← contents ioFailed .db
  let head := (file.getD []).take 100
  if head.length < 100 then throw (.notADb "file is shorter than the 100-byte header")
  match DbHeader.parse head with
  | .error e => throw e
  | .ok header =>
      let file ← contents ioFailed .db
      let pageCount := UInt32.ofNat ((file.getD []).length / header.pageSize.size)
      let wal ←
        if header.writeVersion = 2 ∨ header.readVersion = 2 then do
          let sidecar ← contents ioFailed .wal
          pure (some (Wal.openWal sidecar header.pageSize))
        else pure none
      return {
        geometry := DbHeader.geometry header
        header := header
        pageCount := pageCount
        cache := fun _ => none
        dirty := ∅
        txn := none
        savepoints := []
        wal := wal }

/-! ## A new database -/

def sqliteVersionNumber : UInt32 := 3053001

def freshHeader (pageSize : PageSize) : DbHeader where
  pageSize := pageSize
  writeVersion := 1
  readVersion := 1
  reservedSpace := 0
  fileChangeCounter := 0
  dbSizePages := 1
  firstFreelistTrunk := 0
  freelistCount := 0
  schemaCookie := 0
  schemaFormat := 4
  defaultCacheSize := 0
  largestRootPage := 0
  textEncoding := .utf8
  userVersion := 0
  incrementalVacuum := 0
  applicationId := 0
  versionValidFor := 0
  sqliteVersionNumber := sqliteVersionNumber
  usable := by
    have := pageSize.le_size
    simp
    omega

def buildFreshPage1 (header : DbHeader) (pageSize : Nat) : Bytes :=
  initEmptyLeaf (splice (List.replicate pageSize 0) 0 header.serialize) 100

def createFresh (pageSize : Nat) : FileM Error DbFile Unit PagerState := do
  if h : isValidPageSize pageSize = true then
    let ps : PageSize := ⟨pageSize, h⟩
    let header := freshHeader ps
    let page1 := buildFreshPage1 header pageSize
    perform ioFailed (.write .db 0 page1)
    perform ioFailed (.sync .db)
    return {
      geometry := DbHeader.geometry header
      header := header
      pageCount := 1
      cache := Function.update (fun _ => none) 1 (some page1)
      dirty := ∅
      txn := none
      savepoints := []
      wal := none }
  else throw (.msg s!"invalid page size {pageSize}")

/-! ## Savepoints -/

def openSavepoint (name : String) : PagerM Unit :=
  modifyState fun s => { s with
    savepoints := s.savepoints ++ [⟨name, s.pageCount, s.dirty⟩] }

def savepointIndex (s : PagerState) (name : String) : Option Nat :=
  s.savepoints.findIdx? fun sp => eqIgnoreAsciiCase sp.name name

def releaseSavepoint (name : String) : PagerM Bool := do
  let s ← getState
  match savepointIndex s name with
  | none => throw (.msg s!"no such savepoint: {name}")
  | some idx =>
      modifyState fun s => { s with savepoints := s.savepoints.take idx }
      return true

def rollbackToSavepoint (name : String) : PagerM Unit := do
  let s ← getState
  match savepointIndex s name with
  | none => throw (.msg s!"no such savepoint: {name}")
  | some idx =>
      match s.savepoints[idx]? with
      | none => throw (.panic "index out of bounds")
      | some sp =>
          modifyState fun s => { s.retainCache sp.nOrig with
            savepoints := s.savepoints.take (idx + 1)
            dirty := sp.dirtySnapshot
            pageCount := sp.nOrig }

end Rustqlite.Pager
