import Rustqlite.Pager.Wal

/-!
# The rollback journal

A header that fills one sector, then one record for each page that the
transaction changes, with the bytes the page had before.  A journal that is
still there when the database is opened is played back.
-/

namespace Rustqlite.Pager

open Foundation Format

def journalMagic : Bytes := [0xd9, 0xd5, 0x05, 0xf9, 0x20, 0xa1, 0x63, 0xd7]

def sectorSize : UInt32 := 512

def journalHdrSz : Nat := 512

/-- Every 200th byte, from 200 bytes before the end of the page down, summed onto the seed. -/
def pagerCksum (cksumInit : UInt32) (page : Bytes) : UInt32 :=
  (List.range ((page.length - 1) / 200)).foldl
    (fun cksum j => cksum + (page.getD (page.length - 200 * (j + 1)) 0).toUInt32) cksumInit

structure JournalHeader where
  nrec : UInt32
  cksumInit : UInt32
  dbOrigSize : UInt32
  sectorSize : UInt32
  pageSize : UInt32
  deriving DecidableEq

/-- The meaningful bytes of the header behind the magic and the record count. -/
def headerTail (cksumInit dbOrigSize pageSize : UInt32) : Bytes :=
  be32 cksumInit ++ be32 dbOrigSize ++ be32 sectorSize ++ be32 pageSize ++
    List.replicate (journalHdrSz - 28) 0

def buildHeader (nrec cksumInit dbOrigSize pageSize : UInt32) : Bytes :=
  journalMagic ++ be32 nrec ++ headerTail cksumInit dbOrigSize pageSize

def buildRecord (pgno : UInt32) (page : Bytes) (cksumInit : UInt32) : Bytes :=
  be32 pgno ++ page ++ be32 (pagerCksum cksumInit page)

def recordLen (pageSize : Nat) : Nat := 4 + pageSize + 4

def parseHeader (bytes : Bytes) : Option JournalHeader :=
  if bytes.length < 28 ∨ bytes.take 8 ≠ journalMagic then none
  else some {
    nrec := readBe32 (bytes.drop 8)
    cksumInit := readBe32 (bytes.drop 12)
    dbOrigSize := readBe32 (bytes.drop 16)
    sectorSize := readBe32 (bytes.drop 20)
    pageSize := readBe32 (bytes.drop 24) }

@[simp] theorem length_headerTail (cksumInit dbOrigSize pageSize : UInt32) :
    (headerTail cksumInit dbOrigSize pageSize).length = 500 := by
  simp only [headerTail, journalHdrSz, List.length_append, length_be32, List.length_replicate]

@[simp] theorem length_buildHeader (nrec cksumInit dbOrigSize pageSize : UInt32) :
    (buildHeader nrec cksumInit dbOrigSize pageSize).length = journalHdrSz := by
  simp [buildHeader, journalMagic, journalHdrSz]

@[simp] theorem length_buildRecord (pgno : UInt32) (page : Bytes) (cksumInit : UInt32) :
    (buildRecord pgno page cksumInit).length = recordLen page.length := by
  simp [buildRecord, recordLen]
  omega

theorem parseHeader_buildHeader (nrec cksumInit dbOrigSize pageSize : UInt32) :
    parseHeader (buildHeader nrec cksumInit dbOrigSize pageSize) =
      some ⟨nrec, cksumInit, dbOrigSize, sectorSize, pageSize⟩ := by
  have hlen : ¬ ((buildHeader nrec cksumInit dbOrigSize pageSize).length < 28 ∨
      (buildHeader nrec cksumInit dbOrigSize pageSize).take 8 ≠ journalMagic) := by
    simp [buildHeader, journalMagic]
  have hmagic : journalMagic.length = 8 := rfl
  have hdrop : ∀ n, 8 ≤ n → journalMagic.drop n = [] := fun n hn => List.drop_eq_nil_of_le hn
  rw [parseHeader, if_neg hlen]
  simp [buildHeader, headerTail, List.append_assoc, List.drop_append, hmagic, hdrop]

/-! ## Playback -/

abbrev PreImages := List (UInt32 × Bytes)

def encodeRecords (cksumInit : UInt32) (records : PreImages) : Bytes :=
  records.flatMap fun r => buildRecord r.1 r.2 cksumInit

section Recovery

variable {σ : Type}

open FileM

def playback (header : JournalHeader) : Nat → Nat → FileM Error DbFile σ Unit
  | 0, _ => pure ()
  | left + 1, off => do
      let pageSize := header.pageSize.toNat
      let journal ← contents ioFailed .journal
      let rec_ := slice (journal.getD []) off (recordLen pageSize)
      if rec_.length < recordLen pageSize then return ()
      let pgno := readBe32 rec_
      let data := slice rec_ 4 pageSize
      let stored := readBe32 (rec_.drop (4 + pageSize))
      if pgno = 0 ∨ pagerCksum header.cksumInit data ≠ stored then return ()
      if pgno ≤ header.dbOrigSize then
        perform ioFailed (.write .db ((pgno.toNat - 1) * pageSize) data)
      playback header left (off + recordLen pageSize)

/--
What opening a database does first.  The journal of a transaction that is still
running is told apart by the lock of its writer; here there is no other
connection.
-/
def recoverHotJournal : FileM Error DbFile σ Unit := do
  let found ← contents ioFailed .journal
  if found = none then return ()
  perform ioFailed (.probe .db)
  perform ioFailed (.create .journal)
  let journal ← contents ioFailed .journal
  match parseHeader ((journal.getD []).take journalHdrSz) with
  | none => attempt (perform ioFailed (.delete .journal))
  | some header =>
      if header.pageSize = 0 then attempt (perform ioFailed (.delete .journal))
      else
        perform ioFailed (.probe .db)
        playback header header.nrec.toNat journalHdrSz
        perform ioFailed (.truncate .db (header.dbOrigSize.toNat * header.pageSize.toNat))
        perform ioFailed (.sync .db)
        perform ioFailed (.delete .journal)
        perform ioFailed (.probe .db)

end Recovery

end Rustqlite.Pager
