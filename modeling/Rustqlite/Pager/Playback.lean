import Rustqlite.Foundation.Hoare
import Rustqlite.Pager.Pages

/-!
# Playing back a journal

Recovery copies the records that the header counts back over the database and
cuts the file to its old size.  If the file differs from the old one only in
pages that have a record, and behind its end, this brings the old file back.
-/

namespace Rustqlite.Pager

open Foundation Format FileM

variable {header : JournalHeader} {records : PreImages} {journal b : Bytes} {disk : Disk DbFile}

section Playback

variable {σ : Type} {cksumInit : UInt32} {ps : Nat}

def writePages (ps : Nat) (file : Bytes) (pages : List (UInt32 × Bytes)) : Bytes :=
  pages.foldl (fun file r => writeAt file ((r.1.toNat - 1) * ps) r.2) file

def writeOps (ps : Nat) (pages : List (UInt32 × Bytes)) : List (FileOp DbFile) :=
  pages.map fun r => .write .db ((r.1.toNat - 1) * ps) r.2

def within (orig : UInt32) (records : PreImages) : PreImages := records.filter fun r => r.1 ≤ orig

def playbackOps (ps : Nat) (orig : UInt32) (records : PreImages) : List (FileOp DbFile) :=
  records.flatMap fun r => .probe .journal :: writeOps ps (within orig [r])

structure Valid (ps : Nat) (r : UInt32 × Bytes) : Prop where
  pos : r.1 ≠ 0
  length : r.2.length = ps

theorem fields_buildRecord (cksumInit : UInt32) {r : UInt32 × Bytes} (h : Valid ps r) :
    (buildRecord r.1 r.2 cksumInit).length = recordLen ps ∧
      readBe32 (buildRecord r.1 r.2 cksumInit) = r.1 ∧
      slice (buildRecord r.1 r.2 cksumInit) 4 ps = r.2 ∧
      readBe32 ((buildRecord r.1 r.2 cksumInit).drop (4 + ps)) = pagerCksum cksumInit r.2 := by
  refine ⟨by rw [length_buildRecord, h.length], ?_, ?_, ?_⟩
  · rw [buildRecord, List.append_assoc, readBe32_be32_append]
  · rw [buildRecord, List.append_assoc, slice_append_right _ _ (by simp), length_be32,
      Nat.sub_self, slice, List.drop_zero, List.take_left' h.length]
  · rw [buildRecord, List.drop_left' (by rw [List.length_append, length_be32, h.length]),
      readBe32_be32]

variable {p : σ × World DbFile}

theorem performs_playback (hps : header.pageSize.toNat = ps) (hck : header.cksumInit = cksumInit)
    (hvalid : ∀ r ∈ records, Valid ps r) {off : Nat}
    (hfile : encodeRecords cksumInit records <+: ((p.2.disk .journal).getD []).drop off) :
    Performs ioFailed (playback header records.length off) p
      (playbackOps ps header.dbOrigSize records) () p.1 := by
  induction records generalizing off p with
  | nil => exact Performs.pure () p
  | cons r records ih =>
      have hr := hvalid r List.mem_cons_self
      obtain ⟨rest, hrest⟩ := hfile
      rw [encodeRecords, List.flatMap_cons, List.append_assoc] at hrest
      obtain ⟨hwhole, hpgno, hdata, hstored⟩ := fields_buildRecord cksumInit hr
      have hrec : slice ((p.2.disk .journal).getD []) off (recordLen ps) =
          buildRecord r.1 r.2 cksumInit := by
        rw [slice, ← hrest, List.take_left' hwhole]
      have hlen : ¬ (buildRecord r.1 r.2 cksumInit).length < recordLen ps := by omega
      have hgood : ¬ (r.1 = 0 ∨ pagerCksum cksumInit r.2 ≠ pagerCksum cksumInit r.2) := by
        simp [hr.pos]
      have hnext : encodeRecords cksumInit records <+:
          ((p.2.disk .journal).getD []).drop (off + recordLen ps) := by
        refine ⟨rest, ?_⟩
        rw [← List.drop_drop, ← hrest, ← hwhole, List.drop_left]
        rfl
      rw [List.length_cons, playback, playbackOps, List.flatMap_cons]
      refine (Performs.contents DbFile.journal p).bind ?_
      simp only [hps, hck, hrec, if_neg hlen, hpgno, hdata, hstored, if_neg hgood]
      by_cases hle : r.1 ≤ header.dbOrigSize
      · rw [if_pos hle, within, List.filter_cons_of_pos (by simpa using hle)]
        refine (Performs.perform _ _).bind ?_
        refine ih (fun x hx => hvalid x (List.mem_cons_of_mem r hx)) ?_
        simp only [World.applyAll_cons, World.applyAll_nil, World.apply, applyOp_probe]
        rw [applyOp_of_ne _ (by simp [FileOp.target])]
        exact hnext
      · rw [if_neg hle, within, List.filter_cons_of_neg (by simpa using hle)]
        exact ih (fun x hx => hvalid x (List.mem_cons_of_mem r hx)) hnext

structure HoldsRecords (journal : Bytes) (header : JournalHeader) (records : PreImages) : Prop where
  parsed : parseHeader (journal.take journalHdrSz) = some header
  pageSize_ne : header.pageSize ≠ 0
  nrec_eq : header.nrec.toNat = records.length
  layout : encodeRecords header.cksumInit records <+: journal.drop journalHdrSz
  valid : ∀ r ∈ records, Valid header.pageSize.toNat r

def restoreOps (ps : Nat) (orig : UInt32) (records : PreImages) : List (FileOp DbFile) :=
  [.probe .journal, .probe .db, .create .journal, .probe .journal, .probe .db] ++
    playbackOps ps orig records ++ [.truncate .db (orig.toNat * ps), .sync .db]

def recoverOps (ps : Nat) (orig : UInt32) (records : PreImages) : List (FileOp DbFile) :=
  restoreOps ps orig records ++ [.delete .journal, .probe .db]

theorem performs_recoverHotJournal (h : HoldsRecords journal header records)
    (hfile : p.2.disk .journal = some journal) :
    Performs ioFailed recoverHotJournal p
      (recoverOps header.pageSize.toNat header.dbOrigSize records) () p.1 := by
  have hcreate : (applyOp p.2.disk (.create .journal)) .journal = p.2.disk .journal := by
    simp [applyOp, hfile]
  have hplay : ∀ q : σ × World DbFile, q.2.disk .journal = p.2.disk .journal →
      Performs ioFailed (playback header header.nrec.toNat journalHdrSz) q
        (playbackOps header.pageSize.toNat header.dbOrigSize records) () q.1 := by
    intro q hq
    rw [h.nrec_eq]
    refine performs_playback rfl rfl h.valid ?_
    rw [hq, hfile]
    exact h.layout
  rw [recoverHotJournal, recoverOps, restoreOps]
  simp only [List.append_assoc]
  refine (Performs.contents DbFile.journal p).bind ?_
  rw [if_neg (by simp [hfile])]
  refine (Performs.perform _ _).bind ((Performs.perform _ _).bind ?_)
  refine (Performs.contents DbFile.journal _).bind ?_
  have hdisk : ((((p.2.applyAll [.probe .journal]).applyAll [.probe .db]).applyAll
      [.create .journal]).disk .journal) = p.2.disk .journal := hcreate
  dsimp only
  rw [hdisk, hfile, Option.getD_some, h.parsed]
  dsimp only
  rw [if_neg h.pageSize_ne]
  refine (Performs.perform _ _).bind ((hplay _ hdisk).bind ?_)
  exact (Performs.perform _ _).bind ((Performs.perform _ _).bind
    ((Performs.perform _ _).bind (Performs.perform _ _)))

end Playback

theorem toNat_pageSize (size : PageSize) : (UInt32.ofNat size.size).toNat = size.size := by
  have := size.size_le
  rw [UInt32.toNat_ofNat']
  omega

theorem holdsRecords_built (size : PageSize) {nrec : UInt32} (cksumInit orig : UInt32)
    (hnrec : nrec.toNat = records.length) (hvalid : ∀ r ∈ records, Valid size.size r)
    (rest : Bytes) :
    HoldsRecords (buildHeader nrec cksumInit orig (UInt32.ofNat size.size) ++
        encodeRecords cksumInit records ++ rest)
      ⟨nrec, cksumInit, orig, sectorSize, UInt32.ofNat size.size⟩ records where
  parsed := by
    rw [List.append_assoc, List.take_left' (length_buildHeader _ _ _ _)]
    exact parseHeader_buildHeader _ _ _ _
  pageSize_ne h0 := by
    have hps := toNat_pageSize size
    have := size.le_size
    rw [show UInt32.ofNat size.size = 0 from h0, UInt32.toNat_zero] at hps
    omega
  nrec_eq := hnrec
  layout := by
    refine ⟨rest, ?_⟩
    rw [List.append_assoc, List.drop_left' (length_buildHeader _ _ _ _)]
  valid := by
    rw [show (UInt32.ofNat size.size).toNat = size.size from toNat_pageSize size]
    exact hvalid

/-! ## What a reopened file holds -/

/-- The files after a database has been opened for recovery, with no failures. -/
def recovered (disk : Disk DbFile) : Disk DbFile :=
  (after (recoverHotJournal : FileM Error DbFile Unit Unit) ((), ⟨disk, [], none⟩)).2.disk

theorem recovered_of_no_journal (h : disk .journal = none) : recovered disk = disk := by
  have hperf : Performs ioFailed (recoverHotJournal : FileM Error DbFile Unit Unit)
      ((), ⟨disk, [], none⟩) ([.probe .journal] ++ []) () () := by
    refine (Performs.contents DbFile.journal _).bind ?_
    rw [if_pos h]
    exact Performs.pure () _
  have hrun := hperf.ok (by simp)
  rw [recovered, after, hrun]
  rfl

theorem applyOps_writeOps (disk : Disk DbFile) (ps : Nat) (pages : List (UInt32 × Bytes)) :
    applyOps disk (writeOps ps pages) .db = (disk .db).map fun b => writePages ps b pages := by
  induction pages generalizing disk with
  | nil => simp [writeOps, writePages]
  | cons r pages ih =>
      have h := ih (applyOp disk (.write .db ((r.1.toNat - 1) * ps) r.2))
      rw [applyOp_write_same, Option.map_map] at h
      exact h

theorem applyOps_playbackOps (disk : Disk DbFile) (ps : Nat) (orig : UInt32)
    (records : PreImages) : applyOps disk (playbackOps ps orig records) .db =
      (disk .db).map fun b => writePages ps b (within orig records) := by
  have heq : applyOps disk (playbackOps ps orig records) =
      applyOps disk (writeOps ps (within orig records)) := by
    induction records generalizing disk with
    | nil => rfl
    | cons r records ih =>
        have hsplit : within orig (r :: records) = within orig [r] ++ within orig records :=
          List.filter_append [r] records
        have hwrites : writeOps ps (within orig (r :: records)) =
            writeOps ps (within orig [r]) ++ writeOps ps (within orig records) := by
          rw [hsplit, writeOps, List.map_append]
          rfl
        rw [playbackOps, List.flatMap_cons, applyOps_append, applyOps_cons, applyOp_probe, hwrites,
          applyOps_append]
        exact ih _
  rw [heq, applyOps_writeOps]

def restoredFile (header : JournalHeader) (records : PreImages) (b : Bytes) : Bytes :=
  resize (writePages header.pageSize.toNat b (within header.dbOrigSize records))
    (header.dbOrigSize.toNat * header.pageSize.toNat)

theorem applyOps_restoreOps (hdb : disk .db = some b) (header : JournalHeader)
    (records : PreImages) :
    applyOps disk (restoreOps header.pageSize.toNat header.dbOrigSize records) .db =
      some (restoredFile header records b) := by
  rw [restoreOps]
  simp only [applyOps_append, applyOps_cons, applyOps_nil, applyOp_sync, applyOp_probe]
  rw [applyOp_truncate_same, applyOps_playbackOps, applyOp_of_ne _ (by simp [FileOp.target]), hdb]
  rfl

theorem recovered_run (h : HoldsRecords journal header records)
    (hfile : disk .journal = some journal) :
    recovered disk =
      applyOps disk (recoverOps header.pageSize.toNat header.dbOrigSize records) := by
  have hrun := (performs_recoverHotJournal (p := ((), ⟨disk, [], none⟩)) h hfile).ok (by simp)
  rw [recovered, after, hrun, World.disk_applyAll]

theorem recovered_db (h : HoldsRecords journal header records)
    (hfile : disk .journal = some journal) (hdb : disk .db = some b) :
    recovered disk .db = some (restoredFile header records b) := by
  rw [recovered_run h hfile, recoverOps, applyOps_append, applyOps_cons, applyOps_cons,
    applyOps_nil, applyOp_probe, applyOp_of_ne _ (by simp [FileOp.target]),
    applyOps_restoreOps hdb]

/-! ## The old file is back -/

abbrev InPage (ps : Nat) (pgno : UInt32) (i : Nat) : Prop :=
  (pgno.toNat - 1) * ps ≤ i ∧ i < (pgno.toNat - 1) * ps + ps

def pageOf (ps : Nat) (file : Bytes) (pgno : UInt32) : Bytes :=
  slice file ((pgno.toNat - 1) * ps) ps

end Rustqlite.Pager
