import Rustqlite.Btree.Autovac

/-!
# Write transactions

A transaction begins with an empty journal, collects modified pages in the
overlay, and ends with a commit that makes them durable or with a rollback that
drops them.
-/

namespace Rustqlite.Pager

open Foundation Format Btree FileM

def nextCksumInit (src : SaltSource) : UInt32 :=
  let seed := (src.pid.toUInt64 <<< 32) ^^^ (src.counter * 0x9e3779b97f4a7c15)
  let seed := (seed ^^^ (seed >>> 30)) * 0xbf58476d1ce4e5b9
  let seed := (seed ^^^ (seed >>> 27)) * 0x94d049bb133111eb
  (seed ^^^ (seed >>> 31)).toUInt32

def startTxn (cksumInit dbOrigSize : UInt32) (journalOff : Nat) : WriteTxn where
  cksumInit := cksumInit
  dbOrigSize := dbOrigSize
  nrec := 0
  journalOff := journalOff
  journaled := []

def beginWrite (src : SaltSource) : PagerM Unit := do
  let s ← getState
  if s.inWriteTxn then return ()
  perform ioFailed (.probe .db)
  perform ioFailed (.probe .db)
  let dbOrigSize := s.effectiveCount
  if s.wal.isSome then
    modifyState fun s => { s with txn := some (startTxn 0 dbOrigSize 0) }
  else
    let cksumInit := nextCksumInit src
    perform ioFailed (.create .journal)
    perform ioFailed (.truncate .journal 0)
    perform ioFailed (.write .journal 0
      (buildHeader 0 cksumInit dbOrigSize (UInt32.ofNat s.pageSize)))
    perform ioFailed (.sync .journal)
    modifyState fun s => { s with txn := some (startTxn cksumInit dbOrigSize journalHdrSz) }

def endTxn : PagerM Unit := do
  attempt (perform ioFailed (.delete .journal))
  perform ioFailed (.probe .db)
  modifyState fun s => { s with txn := none, savepoints := [] }

def rollback : PagerM Unit := do
  let s ← getState
  match s.txn with
  | none => return ()
  | some txn =>
      modifyState fun s => { s.retainCache txn.dbOrigSize with
        dirty := ∅
        pageCount := txn.dbOrigSize }
      endTxn

/-! ## Commit -/

def stampHeader (pageCount : UInt32) (h : DbHeader) : DbHeader :=
  { h with
    fileChangeCounter := h.fileChangeCounter + 1
    versionValidFor := h.fileChangeCounter + 1
    sqliteVersionNumber := sqliteVersionNumber
    dbSizePages := pageCount }

def PagerState.vacuums (s : PagerState) : Bool :=
  s.autoVacuum && !s.incrVacuum && 0 < s.header.freelistCount

def stampPageOne : PagerM Unit := do
  let pageCount := (← getState).effectiveCount
  withHeaderMut (stampHeader pageCount)
  let page1 ← readPageForWrite 1
  let header := (← getState).header
  writePage 1 (splice page1 0 header.serialize)

def promote (pending : List (UInt32 × Bytes)) : PagerM Unit :=
  modifyState fun s => pending.foldl (fun s r => s.insertCache r.1 r.2) s

def sortPages (pages : List (UInt32 × Bytes)) : List (UInt32 × Bytes) :=
  pages.mergeSort fun a b => a.1 ≤ b.1

def onWal {α : Type} (w : Wal) (m : Wal.WalM α) : PagerM α :=
  zoom (fun s => s.wal.getD w) (fun w s => { s with wal := some w }) m

def commitWal (order : DrainOrder) (src : SaltSource) (w : Wal) (pageCount : UInt32) :
    PagerM Unit := do
  let pending := sortPages (order.drain (← getState).dirty)
  modifyState fun s => { s with dirty := ∅ }
  onWal w (Wal.writeFrames src pending pageCount)
  promote pending
  endTxn

def syncJournal (txn : WriteTxn) : PagerM Unit := do
  perform ioFailed (.sync .journal)
  perform ioFailed (.write .journal 8 (be32 txn.nrec))
  perform ioFailed (.sync .journal)

def writePending (pageSize : Nat) : List (UInt32 × Bytes) → PagerM Unit
  | [] => pure ()
  | (pgno, data) :: rest => do
      if pgno = 0 then throw (.panic "attempt to subtract with overflow")
      perform ioFailed (.write .db ((pgno.toNat - 1) * pageSize) data)
      writePending pageSize rest

def commitJournal (order : DrainOrder) (txn : WriteTxn) (pageCount : UInt32) : PagerM Unit := do
  syncJournal txn
  let s ← getState
  let pending := order.drain s.dirty
  modifyState fun s => { s with dirty := ∅ }
  writePending s.pageSize pending
  perform ioFailed (.truncate .db (pageCount.toNat * s.pageSize))
  perform ioFailed (.sync .db)
  promote pending
  endTxn

def writeOut (order : DrainOrder) (src : SaltSource) (pageCount : UInt32) : PagerM Unit := do
  let s ← getState
  match s.wal, s.txn with
  | some w, _ => commitWal order src w pageCount
  | none, some txn => commitJournal order txn pageCount
  | none, none => throw (.panic "in transaction")

def commit (order : DrainOrder) (src : SaltSource) : PagerM Unit := do
  let s ← getState
  if s.inWriteTxn = false then return ()
  if s.dirty = ∅ then endTxn
  else
    if s.vacuums then autoVacuumCommit
    let pageCount := (← getState).effectiveCount
    stampPageOne
    writeOut order src pageCount

end Rustqlite.Pager
