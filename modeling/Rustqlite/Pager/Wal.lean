import Rustqlite.Foundation.Storage
import Rustqlite.Format.Wal
import Rustqlite.Pager.WalIndex

/-!
# The write-ahead log

Opening a log and recovering its index, appending the frames of a commit, and
copying committed frames back into the database.
-/

namespace Rustqlite.Pager

open Foundation Format

inductive DbFile where
  | db
  | journal
  | wal
  deriving DecidableEq

/-- What a file operation reports when it fails. -/
def ioFailed : Error := .ioErr "disk I/O error"

structure Wal where
  /-- Whether the sidecar has been opened. -/
  file : Bool
  header : WalHeader
  pageSize : PageSize
  blocks : List IndexBlock
  /-- The last commit frame; frames behind it are not visible. -/
  mxFrame : Nat
  /-- Pages of the database after the last commit. -/
  nPage : UInt32
  /-- The running checksum at the last commit frame. -/
  frameCksum : Option Cksum
  deriving DecidableEq

def frameSize (ps : PageSize) : Nat := ps.size + walFrameHeaderSize

/-- Where frame `iFrame`, counted from 1, starts in the log file. -/
def frameOffset (ps : PageSize) (iFrame : Nat) : Nat :=
  walHeaderSize + (iFrame - 1) * frameSize ps

def frameDataOffset (ps : PageSize) (iFrame : Nat) : Nat :=
  frameOffset ps iFrame + walFrameHeaderSize

def frameChecksum (bigEndian : Bool) (frame : Bytes) (running : Cksum) : Cksum :=
  walChecksum bigEndian (frame.drop walFrameHeaderSize)
    (walChecksum bigEndian (frame.take 8) running)

/-! ## Recovery -/

/-- The checks that `recover` makes on a whole frame. -/
def acceptFrame (header : WalHeader) (running : Cksum) (frame : Bytes) :
    Option (WalFrameHeader × Cksum) :=
  match WalFrameHeader.decode (frame.take walFrameHeaderSize) with
  | .error _ => none
  | .ok fh =>
      if (fh.salt1, fh.salt2) ≠ header.salts then none
      else if fh.pageNumber = 0 then none
      else
        let s := frameChecksum header.checksumBigEndian frame running
        if s ≠ (fh.checksum1, fh.checksum2) then none else some (fh, s)

structure Recovery where
  running : Cksum
  framePgnos : List UInt32
  lastCommitFrame : Nat
  lastCommitNpage : UInt32
  lastCommitCksum : Cksum
  deriving DecidableEq

def Recovery.start (header : WalHeader) : Recovery where
  running := header.checksum
  framePgnos := []
  lastCommitFrame := 0
  lastCommitNpage := 0
  lastCommitCksum := (0, 0)

/-- Take frame `iFrame` into account. -/
def Recovery.record (r : Recovery) (iFrame : Nat) (pgno commitSize : UInt32) (s : Cksum) :
    Recovery :=
  let r := { r with running := s, framePgnos := r.framePgnos ++ [pgno] }
  if commitSize ≠ 0 then
    { r with lastCommitFrame := iFrame, lastCommitNpage := commitSize, lastCommitCksum := s }
  else r

def recoverLoop (file : Bytes) (header : WalHeader) (ps : PageSize) :
    Nat → Nat → Recovery → Recovery
  | 0, _, r => r
  | left + 1, iFrame, r =>
      let frame := slice file (frameOffset ps iFrame) (frameSize ps)
      if frame.length < frameSize ps then r
      else
        match acceptFrame header r.running frame with
        | none => r
        | some (fh, s) =>
            recoverLoop file header ps left (iFrame + 1)
              (r.record iFrame fh.pageNumber fh.commitSize s)

/-- Whole frames in a log file; the loop counts them in 32 bits. -/
def countFrames (file : Bytes) (ps : PageSize) : Nat :=
  (file.length - walHeaderSize) / frameSize ps

def scanFrames (file : Bytes) (header : WalHeader) (ps : PageSize) : Recovery :=
  recoverLoop file header ps (countFrames file ps % 2 ^ 32) 1 (.start header)

namespace Wal

def placeholder (file : Bool) (ps : PageSize) : Wal where
  file := file
  header := ⟨0, 0, UInt32.ofNat ps.size, 0, 0, 0, 0, 0⟩
  pageSize := ps
  blocks := []
  mxFrame := 0
  nPage := 0
  frameCksum := none

def recover (wal : Wal) (file : Bytes) : Wal :=
  if countFrames file wal.pageSize = 0 then wal
  else
    let r := scanFrames file wal.header wal.pageSize
    { wal with
      blocks := indexFrames wal.blocks 1 (r.framePgnos.take r.lastCommitFrame)
      mxFrame := r.lastCommitFrame
      nPage := r.lastCommitNpage
      frameCksum := some (if r.lastCommitFrame = 0 then wal.header.checksum
        else r.lastCommitCksum) }

/-- The header of a log file, if it can be used with pages of this size. -/
def usableHeader (file : Bytes) (ps : PageSize) : Option WalHeader :=
  match WalHeader.decode (file.take walHeaderSize) with
  | .error _ => none
  | .ok header =>
      if header.pageSize.toNat ≠ ps.size then none
      else if walChecksum header.checksumBigEndian (file.take 24) (0, 0) ≠ header.checksum then
        none
      else some header

def openWal (sidecar : Option Bytes) (ps : PageSize) : Wal :=
  match sidecar with
  | none => placeholder false ps
  | some file =>
      if file.length < walHeaderSize then placeholder true ps
      else
        match usableHeader file ps with
        | none => placeholder true ps
        | some header =>
            recover
              { file := true, header := header, pageSize := ps, blocks := [], mxFrame := 0,
                nPage := 0, frameCksum := some header.checksum } file

def findFrame (wal : Wal) (pgno : UInt32) : Nat := Pager.findFrame wal.blocks wal.mxFrame pgno

end Wal

/-! ## Appending frames -/

/-- The process id and the value of the static counter that `next_wal_salt` mixes. -/
structure SaltSource where
  pid : UInt32
  counter : UInt64

def nextWalSalt (src : SaltSource) : UInt32 :=
  let seed := (src.pid.toUInt64 <<< 32) ^^^ (src.counter * 0x9e3779b97f4a7c15)
  let seed := (seed ^^^ (seed >>> 30)) * 0xbf58476d1ce4e5b9
  let seed := (seed ^^^ (seed >>> 27)) * 0x94d049bb133111eb
  let v := (seed ^^^ (seed >>> 31)).toUInt32
  if v = 0 then 1 else v

def SaltSource.next (src : SaltSource) : SaltSource := { src with counter := src.counter + 1 }

def SaltSource.salts (src : SaltSource) : UInt32 × UInt32 :=
  (nextWalSalt src, nextWalSalt src.next)

def freshWalHeader (ps : PageSize) (src : SaltSource) : WalHeader :=
  WalHeader.stamp {
    magic := walMagicBe
    formatVersion := walFormatVersion
    pageSize := UInt32.ofNat ps.size
    checkpointSeq := 0
    salt1 := src.salts.1
    salt2 := src.salts.2
    checksum1 := 0
    checksum2 := 0 }

def buildFrame (header : WalHeader) (running : Cksum) (pgno commitSize : UInt32) (data : Bytes) :
    Bytes × Cksum :=
  let s := walChecksum header.checksumBigEndian data
    (walChecksum header.checksumBigEndian (be32 pgno ++ be32 commitSize) running)
  let fh : WalFrameHeader := ⟨pgno, commitSize, header.salt1, header.salt2, s.1, s.2⟩
  (fh.encode ++ data, s)

namespace Wal

abbrev WalM := FileM Error DbFile Wal

open FileM

def writeFrameLoop (ps : PageSize) (header : WalHeader) (nTruncate : UInt32) :
    List (UInt32 × Bytes) → Nat → Cksum → WalM Cksum
  | [], _, running => pure running
  | (pgno, data) :: rest, iFrame, running => do
      if data.length ≠ ps.size then
        throw (.corrupt
          s!"wal::write_frames: page {pgno} is {data.length} bytes, expected {ps.size}")
      let commitSize := if rest = [] then nTruncate else 0
      let (frame, running) := buildFrame header running pgno commitSize data
      perform ioFailed (.write .wal (frameOffset ps (iFrame + 1)) frame)
      writeFrameLoop ps header nTruncate rest (iFrame + 1) running

def startLog (src : SaltSource) : WalM Cksum := do
  let wal ← getState
  if wal.mxFrame = 0 then
    let header := freshWalHeader wal.pageSize src
    modifyState fun wal => { wal with header := header }
    perform ioFailed (.write .wal 0 header.encode)
    perform ioFailed (.sync .wal)
    pure header.checksum
  else pure (wal.frameCksum.getD wal.header.checksum)

def openLazily : WalM Unit := do
  let wal ← getState
  if wal.file = false then
    perform ioFailed (.create .wal)
    modifyState fun wal => { wal with file := true }

/--
Frame numbers are 32-bit: where the index block of the last of `count` new
frames can no longer be computed, the call panics.
-/
def checkFrameNumbers (count : Nat) : WalM Unit := do
  let wal ← getState
  if 2 ^ 32 ≤ wal.mxFrame + count + hashtableNpage then
    throw (.panic "attempt to add with overflow")

def writeFrames (src : SaltSource) (frames : List (UInt32 × Bytes)) (nTruncate : UInt32) :
    WalM Unit := do
  if frames = [] then return ()
  checkFrameNumbers frames.length
  openLazily
  let running ← startLog src
  let wal ← getState
  let running ← writeFrameLoop wal.pageSize wal.header nTruncate frames wal.mxFrame running
  perform ioFailed (.sync .wal)
  modifyState fun wal => { wal with
    blocks := indexFrames wal.blocks (wal.mxFrame + 1) (frames.map Prod.fst)
    mxFrame := wal.mxFrame + frames.length
    nPage := nTruncate
    frameCksum := some running }

end Wal

/-! ## Checkpoints -/

inductive CheckpointMode where
  | passive
  | full
  | restart
  | truncate
  deriving DecidableEq

namespace Wal

open FileM

/-- Copy frames into the database, `left` of them from `iFrame` on. -/
def backfill (ps : PageSize) (salts : UInt32 × UInt32) : Nat → Nat → Nat → WalM Nat
  | 0, _, nCkpt => pure nCkpt
  | left + 1, iFrame, nCkpt => do
      let file ← contents ioFailed .wal
      let buf := slice (file.getD []) (frameOffset ps iFrame) (frameSize ps)
      if buf.length < frameSize ps then
        throw (.corrupt s!"wal::checkpoint: short read for frame {iFrame}")
      match WalFrameHeader.decode (buf.take walFrameHeaderSize) with
      | .error e => throw e
      | .ok fh =>
          if (fh.salt1, fh.salt2) ≠ salts then return nCkpt
          if fh.pageNumber = 0 then
            throw (.panic "attempt to subtract with overflow")
          perform ioFailed
            (.write .db ((fh.pageNumber.toNat - 1) * ps.size) (buf.drop walFrameHeaderSize))
          backfill ps salts left (iFrame + 1) (nCkpt + 1)

def restartHeader (header : WalHeader) (src : SaltSource) : WalHeader :=
  WalHeader.stamp { header with
    salt1 := src.salts.1
    salt2 := src.salts.2
    checkpointSeq := header.checkpointSeq + 1 }

def resetLog (src : SaltSource) (truncate : Bool) : WalM Unit := do
  let wal ← getState
  let header := restartHeader wal.header src
  modifyState fun wal => { wal with header := header }
  perform ioFailed (.write .wal 0 header.encode)
  perform ioFailed (.sync .wal)
  if truncate then
    perform ioFailed (.truncate .wal 0)
  modifyState fun wal => { wal with
    blocks := []
    mxFrame := 0
    nPage := 0
    frameCksum := some header.checksum }

def checkpoint (src : SaltSource) (mode : CheckpointMode) : WalM (Nat × Nat) := do
  let wal ← getState
  let nLog := wal.mxFrame
  if nLog = 0 then return (0, 0)
  if wal.file = false then
    throw (.corrupt "wal::checkpoint: no WAL file open")
  let nCkpt ← backfill wal.pageSize wal.header.salts nLog 1 0
  perform ioFailed (.truncate .db (wal.nPage.toNat * wal.pageSize.size))
  perform ioFailed (.sync .db)
  match mode with
  | .passive | .full => pure ()
  | .restart => resetLog src false
  | .truncate => resetLog src true
  return (nLog, nCkpt)

end Wal

end Rustqlite.Pager
