import Rustqlite.Pager.WalCheckpoint

/-!
# What a reader sees during a checkpoint

A reader takes the newest committed frame of a page, and the database file where
there is none.  A checkpoint may stop at any of its operations without changing
what it reads.
-/

namespace Rustqlite.Pager

open Foundation Format FileM

/-! ## What a reader sees -/

def readerPage (disk : Disk DbFile) (ps : PageSize) (pgno : UInt32) : Bytes :=
  let iFrame := (Wal.openWal (disk .wal) ps).findFrame pgno
  if iFrame ≠ 0 then slice ((disk .wal).getD []) (frameDataOffset ps iFrame) ps.size
  else readPadded ((disk .db).getD []) ((pgno.toNat - 1) * ps.size) ps.size

/-- Whether the page is in the log or lies wholly inside the database file. -/
def Readable (disk : Disk DbFile) (ps : PageSize) (pgno : UInt32) : Prop :=
  (Wal.openWal (disk .wal) ps).findFrame pgno ≠ 0 ∨
    pgno.toNat * ps.size ≤ ((disk .db).getD []).length

theorem findFrame_walOfScan (header : WalHeader) (ps : PageSize) {r : Recovery}
    (h : r.lastCommitFrame ≤ r.framePgnos.length) (pgno : UInt32) :
    (walOfScan header ps r).findFrame pgno =
      newestFrame pgno (r.framePgnos.take r.lastCommitFrame) := by
  have hindexed := indexed_nil.indexFrames (r.framePgnos.take r.lastCommitFrame)
  have hfind := hindexed.findFrame pgno
  rw [List.nil_append, List.length_take, Nat.min_eq_left h] at hfind
  exact hfind

inductive SparesPage (ps : PageSize) (pgno : UInt32) : FileOp DbFile → Prop where
  | probe (f : DbFile) : SparesPage ps pgno (.probe f)
  | sync (f : DbFile) : SparesPage ps pgno (.sync f)
  | write {other : UInt32} {data : Bytes} : other ≠ 0 → other ≠ pgno → data.length = ps.size →
      SparesPage ps pgno (.write .db ((other.toNat - 1) * ps.size) data)
  | truncate {size : Nat} : pgno.toNat * ps.size ≤ size → SparesPage ps pgno (.truncate .db size)

theorem SparesPage.apply {ps : PageSize} {pgno : UInt32} {op : FileOp DbFile}
    (h : SparesPage ps pgno op) (hpgno : pgno ≠ 0) {disk : Disk DbFile} {db : Bytes}
    (hdb : disk .db = some db) :
    applyOp disk op .wal = disk .wal ∧ ∃ db', applyOp disk op .db = some db' ∧
      readPadded db' ((pgno.toNat - 1) * ps.size) ps.size =
        readPadded db ((pgno.toNat - 1) * ps.size) ps.size ∧
      (pgno.toNat * ps.size ≤ db.length → pgno.toNat * ps.size ≤ db'.length) := by
  have hend : (pgno.toNat - 1) * ps.size + ps.size = pgno.toNat * ps.size := by
    have : pgno.toNat ≠ 0 := fun h0 => hpgno (UInt32.toNat_inj.mp h0)
    rw [← Nat.succ_mul]
    congr 1
    omega
  cases h with
  | probe f => exact ⟨rfl, db, hdb, rfl, id⟩
  | sync f => exact ⟨rfl, db, hdb, rfl, id⟩
  | @write other data hother hne hlen =>
      refine ⟨applyOp_of_ne _ (by simp [FileOp.target]), _,
        by rw [applyOp_write_same, hdb, Option.map_some], ?_, ?_⟩
      · apply readPadded_writeAt_of_disjoint
        rw [hlen]
        exact page_disjoint hpgno hother (Ne.symm hne) ps.size
      · intro hin
        rw [length_writeAt]
        omega
  | @truncate size hsize =>
      refine ⟨applyOp_of_ne _ (by simp [FileOp.target]), _,
        by rw [applyOp_truncate_same, hdb, Option.map_some], ?_, ?_⟩
      · exact readPadded_resize db (by omega)
      · intro _
        rwa [length_resize]

variable {ps : PageSize} {pgno : UInt32} {ops : List (FileOp DbFile)} {salts : UInt32 × UInt32}
  {file file' : Bytes} {header : WalHeader} {src : SaltSource} {disk : Disk DbFile}

theorem applyOps_spares (hpgno : pgno ≠ 0) (h : ∀ op ∈ ops, SparesPage ps pgno op) :
    ∀ {disk : Disk DbFile} {db : Bytes}, disk .db = some db →
      applyOps disk ops .wal = disk .wal ∧ ∃ db', applyOps disk ops .db = some db' ∧
        readPadded db' ((pgno.toNat - 1) * ps.size) ps.size =
          readPadded db ((pgno.toNat - 1) * ps.size) ps.size ∧
        (pgno.toNat * ps.size ≤ db.length → pgno.toNat * ps.size ≤ db'.length) := by
  induction ops with
  | nil => intro disk db hdb; exact ⟨rfl, db, hdb, rfl, id⟩
  | cons op ops ih =>
      intro disk db hdb
      obtain ⟨hwal, db₁, hdb₁, hpage₁, hin₁⟩ := (h op List.mem_cons_self).apply hpgno hdb
      obtain ⟨hwal', db₂, hdb₂, hpage₂, hin₂⟩ :=
        ih (fun o ho => h o (List.mem_cons_of_mem op ho)) hdb₁
      exact ⟨by rw [applyOps_cons, hwal', hwal], db₂, hdb₂, hpage₂.trans hpage₁, hin₂ ∘ hin₁⟩

/-! ## Copying frames back -/

def copiedPgnos (file : Bytes) (ps : PageSize) (left iFrame : Nat) : List UInt32 :=
  (List.range left).map fun j => pgnoAt file ps (iFrame + j)

theorem copiedPgnos_succ (file : Bytes) (ps : PageSize) (left iFrame : Nat) :
    copiedPgnos file ps (left + 1) iFrame =
      pgnoAt file ps iFrame :: copiedPgnos file ps left (iFrame + 1) := by
  simp only [copiedPgnos, List.range_succ_eq_map, List.map_cons, List.map_map, Nat.add_zero,
    List.cons.injEq, true_and]
  apply List.map_congr_left
  intro j _
  simp only [Function.comp_apply, Nat.succ_eq_add_one]
  congr 1
  omega

theorem length_frame_data {iFrame : Nat} (h : FrameOf salts file ps iFrame) :
    ((frameAt file ps iFrame).drop walFrameHeaderSize).length = ps.size := by
  rw [List.length_drop, h.whole, frameSize, Nat.add_sub_cancel]

theorem backfillOps_spares : ∀ {left iFrame}, (∀ j < left, FrameOf salts file ps (iFrame + j)) →
      pgno ∉ copiedPgnos file ps left iFrame →
      ∀ op ∈ backfillOps file ps left iFrame, SparesPage ps pgno op := by
  intro left
  induction left with
  | zero => intro iFrame _ _ op hop; simp [backfillOps] at hop
  | succ left ih =>
      intro iFrame hframes hnot op hop
      rw [copiedPgnos_succ, List.mem_cons, not_or] at hnot
      have hframe := hframes 0 (by omega)
      rw [Nat.add_zero] at hframe
      rw [backfillOps, List.mem_append] at hop
      rcases hop with hop | hop
      · rcases List.mem_pair.mp hop with rfl | rfl
        · exact .probe _
        · exact .write hframe.pgno_ne (Ne.symm hnot.1) (length_frame_data hframe)
      · refine ih (fun j hj => ?_) hnot.2 op hop
        rw [show iFrame + 1 + j = iFrame + (j + 1) by omega]
        exact hframes (j + 1) (by omega)

theorem applyOps_backfillOps_newest (hpgno : pgno ≠ 0) :
    ∀ {left iFrame} {disk : Disk DbFile} {db : Bytes},
      (∀ j < left, FrameOf salts file ps (iFrame + j)) → disk .db = some db →
      newestFrame pgno (copiedPgnos file ps left iFrame) ≠ 0 →
      ∃ db', applyOps disk (backfillOps file ps left iFrame) .db = some db' ∧
        readPadded db' ((pgno.toNat - 1) * ps.size) ps.size =
          (frameAt file ps (iFrame + newestFrame pgno (copiedPgnos file ps left iFrame) - 1)).drop
            walFrameHeaderSize ∧
        pgno.toNat * ps.size ≤ db'.length := by
  intro left
  induction left with
  | zero => intro iFrame disk db _ _ hne; exact absurd rfl hne
  | succ left ih =>
      intro iFrame disk db hframes hdb hne
      have hframe := hframes 0 (by omega)
      rw [Nat.add_zero] at hframe
      have hrest : ∀ j < left, FrameOf salts file ps (iFrame + 1 + j) := by
        intro j hj
        rw [show iFrame + 1 + j = iFrame + (j + 1) by omega]
        exact hframes (j + 1) (by omega)
      rw [backfillOps, applyOps_append]
      rw [copiedPgnos_succ, newestFrame] at hne ⊢
      have hdb₁ : applyOps disk [.probe .wal,
          .write .db (((pgnoAt file ps iFrame).toNat - 1) * ps.size)
            ((frameAt file ps iFrame).drop walFrameHeaderSize)] .db =
          some (writeAt db (((pgnoAt file ps iFrame).toNat - 1) * ps.size)
            ((frameAt file ps iFrame).drop walFrameHeaderSize)) := by
        rw [applyOps_cons, applyOps_cons, applyOps_nil, applyOp_probe, applyOp_write_same, hdb,
          Option.map_some]
      by_cases hlater : newestFrame pgno (copiedPgnos file ps left (iFrame + 1)) = 0
      · rw [if_pos hlater] at hne ⊢
        have hlast : pgnoAt file ps iFrame = pgno := by
          by_contra hother
          rw [if_neg hother] at hne
          exact hne rfl
        rw [if_pos hlast, Nat.add_sub_cancel]
        obtain ⟨-, db', hdb', hpage, hin⟩ := applyOps_spares hpgno
          (backfillOps_spares hrest ((newestFrame_eq_zero_iff _ _).mp hlater)) hdb₁
        refine ⟨db', hdb', ?_, hin ?_⟩
        · rw [hpage, hlast]
          have := readPadded_writeAt_same db ((pgno.toNat - 1) * ps.size)
            ((frameAt file ps iFrame).drop walFrameHeaderSize)
          rwa [length_frame_data hframe] at this
        · have hpos : pgno.toNat ≠ 0 := fun h0 => hpgno (UInt32.toNat_inj.mp h0)
          rw [length_writeAt, length_frame_data hframe, hlast, ← Nat.succ_mul,
            show (pgno.toNat - 1).succ = pgno.toNat by omega]
          omega
      · rw [if_neg hlater]
        obtain ⟨db', hdb', hpage, hin⟩ := ih hrest hdb₁ hlater
        refine ⟨db', hdb', ?_, hin⟩
        rw [hpage]
        congr 2
        omega

/-! ## Resetting the log -/

theorem acceptFrame_decode {running : Cksum} {frame : Bytes} {fh : WalFrameHeader} {s : Cksum}
    (h : acceptFrame header running frame = some (fh, s)) :
    WalFrameHeader.decode (frame.take walFrameHeaderSize) = .ok fh := by
  unfold acceptFrame at h
  cases hd : WalFrameHeader.decode (frame.take walFrameHeaderSize) with
  | error e =>
      rw [hd] at h
      cases h
  | ok fh' =>
      rw [hd] at h
      simp only at h
      split_ifs at h
      cases h
      rfl

theorem recoverLoop_congr {header' : WalHeader}
    (hframes : ∀ iFrame, frameAt file' ps iFrame = frameAt file ps iFrame)
    (hsalts : header'.salts = header.salts)
    (hbig : header'.checksumBigEndian = header.checksumBigEndian) :
    ∀ left iFrame r,
      recoverLoop file' header' ps left iFrame r = recoverLoop file header ps left iFrame r := by
  have haccept : ∀ running frame,
      acceptFrame header' running frame = acceptFrame header running frame := by
    intro running frame
    unfold acceptFrame
    rw [hsalts, hbig]
  intro left
  induction left with
  | zero => intro iFrame r; rfl
  | succ left ih =>
      intro iFrame r
      have hframe := hframes iFrame
      rw [frameAt, frameAt] at hframe
      rw [recoverLoop, recoverLoop, hframe]
      simp only [haccept, ih]

/--
Recovery under the header that a reset leaves finds no frame, or, where the new
salts happen to be the old ones, the frames that were there before.
-/
theorem scanFrames_restartHeader (hlen : file'.length = file.length)
    (hframes : ∀ iFrame, frameAt file' ps iFrame = frameAt file ps iFrame)
    (hcommit : (scanFrames file header ps).lastCommitFrame ≠ 0) :
    scanFrames file' (Wal.restartHeader header src) ps = scanFrames file header ps ∨
      scanFrames file' (Wal.restartHeader header src) ps =
        .start (Wal.restartHeader header src) := by
  have hbig : (Wal.restartHeader header src).checksumBigEndian = header.checksumBigEndian := rfl
  have hcount : countFrames file' ps = countFrames file ps := by
    rw [countFrames, countFrames, hlen]
  unfold scanFrames at hcommit ⊢
  rw [hcount]
  set header' := Wal.restartHeader header src
  cases hleft : countFrames file ps % 2 ^ 32 with
  | zero =>
      rw [hleft] at hcommit
      exact absurd rfl hcommit
  | succ left =>
      rw [hleft] at hcommit
      have hframe := hframes 1
      rw [frameAt, frameAt] at hframe
      rw [recoverLoop, recoverLoop, hframe]
      rw [recoverLoop] at hcommit
      by_cases hshort : (slice file (frameOffset ps 1) (frameSize ps)).length < frameSize ps
      · simp only [hshort, if_true] at hcommit
        exact absurd rfl hcommit
      simp only [hshort, if_false] at hcommit ⊢
      cases hold : acceptFrame header (Recovery.start header).running
          (slice file (frameOffset ps 1) (frameSize ps)) with
      | none =>
          simp only [hold] at hcommit
          exact absurd rfl hcommit
      | some result =>
          cases hnew : acceptFrame header' (Recovery.start header').running
              (slice file (frameOffset ps 1) (frameSize ps)) with
          | none => exact .inr rfl
          | some result' =>
              obtain ⟨fh, s⟩ := result
              obtain ⟨fh', s'⟩ := result'
              obtain ⟨hsalts, -, -, hs⟩ := acceptFrame_some hold
              obtain ⟨hsalts', -, -, hs'⟩ := acceptFrame_some hnew
              have hfh : fh' = fh := by
                have := (acceptFrame_decode hnew).symm.trans (acceptFrame_decode hold)
                cases this
                rfl
              subst hfh
              rw [← hs] at hs'
              subst hs'
              refine .inl ?_
              simp only
              rw [recoverLoop_congr hframes (hsalts'.symm.trans hsalts) hbig]
              rfl

theorem of_openWal_mxFrame_ne_zero {sidecar : Option Bytes}
    (h : (Wal.openWal sidecar ps).mxFrame ≠ 0) :
    ∃ file header, sidecar = some file ∧ walHeaderSize ≤ file.length ∧
      Wal.usableHeader file ps = some header ∧
      Wal.openWal sidecar ps = walOfScan header ps (scanFrames file header ps) ∧
      (scanFrames file header ps).lastCommitFrame ≠ 0 := by
  cases sidecar with
  | none => exact absurd rfl h
  | some file =>
      by_cases hlen : file.length < walHeaderSize
      · rw [openWal_of_unusable (.inl hlen)] at h
        exact absurd rfl h
      · cases husable : Wal.usableHeader file ps with
        | none =>
            rw [openWal_of_unusable (.inr husable)] at h
            exact absurd rfl h
        | some header =>
            have hopen := openWal_of_usableHeader (not_lt.mp hlen) husable
            rw [hopen] at h
            exact ⟨file, header, rfl, not_lt.mp hlen, husable, hopen, h⟩

theorem pageSize_of_usableHeader (h : Wal.usableHeader file ps = some header) :
    header.pageSize = UInt32.ofNat ps.size := by
  unfold Wal.usableHeader at h
  cases hd : WalHeader.decode (file.take walHeaderSize) with
  | error e =>
      rw [hd] at h
      cases h
  | ok header' =>
      rw [hd] at h
      simp only at h
      split_ifs at h with hsize
      cases h
      rw [not_not] at hsize
      rw [← hsize, UInt32.ofNat_toNat]

theorem newestFrame_copied :
    copiedPgnos file ps (scanFrames file header ps).lastCommitFrame 1 =
      (scanFrames file header ps).framePgnos.take (scanFrames file header ps).lastCommitFrame := by
  have hle := lastCommitFrame_le file header ps
  apply List.ext_getElem
  · simp [copiedPgnos, hle]
  · intro j hj hj'
    rw [List.length_take] at hj'
    have hat : (scanFrames file header ps).framePgnos[j]? =
        some (scanFrames file header ps).framePgnos[j] := List.getElem?_eq_getElem (by omega)
    simp only [copiedPgnos, List.getElem_map, List.getElem_range, List.getElem_take]
    exact (scanFrames_frameOf hat).2.symm

/-! ## A checkpoint at any of its operations -/

def SparesLog (op : FileOp DbFile) : Prop := ∀ disk, applyOp disk op .wal = disk .wal

theorem applyOps_sparesLog (h : ∀ op ∈ ops, SparesLog op) (disk : Disk DbFile) :
    applyOps disk ops .wal = disk .wal := by
  induction ops generalizing disk with
  | nil => rfl
  | cons op ops ih =>
      rw [applyOps_cons, ih fun o ho => h o (List.mem_cons_of_mem op ho),
        h op List.mem_cons_self]

theorem backfillOps_sparesLog : ∀ {left iFrame},
    ∀ op ∈ backfillOps file ps left iFrame, SparesLog op := by
  intro left
  induction left with
  | zero => intro iFrame op hop; simp [backfillOps] at hop
  | succ left ih =>
      intro iFrame op hop
      rw [backfillOps, List.mem_append] at hop
      rcases hop with hop | hop
      · rcases List.mem_pair.mp hop with rfl | rfl
        · exact fun _ => rfl
        · exact fun disk => applyOp_of_ne disk (by simp [FileOp.target])
      · exact ih op hop

def Wal.copyOps (wal : Wal) (file : Bytes) : List (FileOp DbFile) :=
  backfillOps file wal.pageSize wal.mxFrame 1 ++
    [.truncate .db (wal.nPage.toNat * wal.pageSize.size), .sync .db]

theorem copyOps_sparesLog (wal : Wal) (file : Bytes) : ∀ op ∈ wal.copyOps file, SparesLog op := by
  intro op hop
  rcases List.mem_append.mp hop with hop | hop
  · exact backfillOps_sparesLog op hop
  · rcases List.mem_pair.mp hop with rfl | rfl
    · exact fun disk => applyOp_of_ne disk (by simp [FileOp.target])
    · exact fun _ => rfl

section Checkpoint

variable {ps : PageSize} {file : Bytes} {header : WalHeader} {wal : Wal} {pgno : UInt32}

section

variable (hwal : wal = walOfScan header ps (scanFrames file header ps))

include hwal

theorem frameOf_committed :
    ∀ j < wal.mxFrame, FrameOf wal.header.salts file wal.pageSize (1 + j) := by
  subst hwal
  intro j hj
  have hle := lastCommitFrame_le file header ps
  have hj' : j < (scanFrames file header ps).lastCommitFrame := hj
  exact (scanFrames_frameOf (List.getElem?_eq_getElem (hj'.trans_le hle))).1

theorem findFrame_committed :
    wal.findFrame pgno = newestFrame pgno (copiedPgnos file wal.pageSize wal.mxFrame 1) := by
  subst hwal
  rw [findFrame_walOfScan header ps (lastCommitFrame_le file header ps) pgno, ← newestFrame_copied]
  rfl

theorem copyOps_spares (hn : pgno ≤ wal.nPage) (hfind : wal.findFrame pgno = 0) :
    ∀ op ∈ wal.copyOps file, SparesPage wal.pageSize pgno op := by
  rw [findFrame_committed hwal, newestFrame_eq_zero_iff] at hfind
  intro op hop
  rcases List.mem_append.mp hop with hop | hop
  · exact backfillOps_spares (frameOf_committed hwal) hfind op hop
  · rcases List.mem_pair.mp hop with rfl | rfl
    · exact .truncate (Nat.mul_le_mul_right _ (UInt32.le_iff_toNat_le.mp hn))
    · exact .sync _

theorem applyOps_copyOps (hpgno : pgno ≠ 0) (hn : pgno ≤ wal.nPage) {db : Bytes}
    (hsidecar : disk .wal = some file) (hopen : Wal.openWal (disk .wal) ps = wal)
    (hdb : disk .db = some db) :
    ∃ db', applyOps disk (wal.copyOps file) .db = some db' ∧
      readPadded db' ((pgno.toNat - 1) * ps.size) ps.size = readerPage disk ps pgno ∧
      (Readable disk ps pgno → pgno.toNat * ps.size ≤ db'.length) := by
  have hps : wal.pageSize = ps := by
    rw [hwal]
    rfl
  by_cases hfind : wal.findFrame pgno = 0
  · obtain ⟨-, db', hdb', hpage, hin⟩ :=
      applyOps_spares hpgno (copyOps_spares hwal hn hfind) hdb
    rw [hps] at hpage hin
    refine ⟨db', hdb', ?_, ?_⟩
    · rw [hpage, readerPage, hopen]
      simp only [hfind, ne_eq, not_true_eq_false, if_false, hdb, Option.getD_some]
    · rintro (hlog | hinside)
      · rw [hopen] at hlog
        exact absurd hfind hlog
      · rw [hdb] at hinside
        exact hin hinside
  · have hnewest := hfind
    rw [findFrame_committed hwal] at hnewest
    obtain ⟨db₁, hdb₁, hpage₁, hin₁⟩ := applyOps_backfillOps_newest
      hpgno (frameOf_committed hwal) hdb hnewest
    have hlast : ∀ op ∈ [FileOp.truncate DbFile.db (wal.nPage.toNat * wal.pageSize.size),
        .sync .db], SparesPage wal.pageSize pgno op := by
      intro op hop
      rcases List.mem_pair.mp hop with rfl | rfl
      · exact .truncate (Nat.mul_le_mul_right _ (UInt32.le_iff_toNat_le.mp hn))
      · exact .sync _
    obtain ⟨-, db', hdb', hpage, hin⟩ := applyOps_spares hpgno hlast hdb₁
    rw [hps] at hpage hin hpage₁ hin₁
    refine ⟨db', by rw [Wal.copyOps, applyOps_append, hdb'], ?_, fun _ => hin hin₁⟩
    rw [hpage, hpage₁, readerPage, hopen]
    have hne := hfind
    rw [findFrame_committed hwal] at hne
    simp only [findFrame_committed hwal, hps, hsidecar, Option.getD_some] at hne ⊢
    rw [if_pos hne, Nat.add_sub_cancel_left, frameAt, slice, slice, List.drop_take, List.drop_drop,
      frameSize, Nat.add_sub_cancel, frameDataOffset]

end

theorem readerPage_after_copy (hopen : Wal.openWal (some file) ps = wal) {disk' : Disk DbFile}
    {db' : Bytes} (hsidecar : disk .wal = some file) (hdb' : disk' .db = some db')
    (hpage : readPadded db' ((pgno.toNat - 1) * ps.size) ps.size = readerPage disk ps pgno)
    (hin : Readable disk ps pgno → pgno.toNat * ps.size ≤ db'.length)
    (hlog : (Wal.openWal (disk' .wal) ps).findFrame pgno = 0 ∨
      (Wal.openWal (disk' .wal) ps).findFrame pgno = wal.findFrame pgno ∧
        ∀ iFrame, iFrame ≠ 0 →
          slice ((disk' .wal).getD []) (frameDataOffset ps iFrame) ps.size =
            slice file (frameDataOffset ps iFrame) ps.size) :
    readerPage disk' ps pgno = readerPage disk ps pgno ∧
      (Readable disk ps pgno → Readable disk' ps pgno) := by
  have hinside : Readable disk ps pgno → Readable disk' ps pgno := by
    intro hread
    refine .inr ?_
    rw [hdb']
    exact hin hread
  refine ⟨?_, hinside⟩
  by_cases hzero : (Wal.openWal (disk' .wal) ps).findFrame pgno = 0
  · rw [← hpage, readerPage]
    simp only [hzero, ne_eq, not_true_eq_false, if_false, hdb', Option.getD_some]
  · obtain ⟨hsame, hdata⟩ := hlog.resolve_left hzero
    rw [readerPage, readerPage, hsidecar, hopen]
    simp only [hsame] at hzero ⊢
    rw [if_pos hzero, if_pos hzero, hdata _ hzero, Option.getD_some]

end Checkpoint

theorem slice_after_header (header : WalHeader) {off len : Nat} (h : walHeaderSize ≤ off) :
    slice (writeAt file 0 header.encode) off len = slice file off len := by
  rw [writeAt_zero, slice_append_right _ _ (by rw [WalHeader.length_encode]; exact h),
    WalHeader.length_encode, slice, slice, List.drop_drop]
  rw [walHeaderSize] at h
  congr 2
  omega

theorem findFrame_after_reset (hlen : walHeaderSize ≤ file.length)
    (husable : Wal.usableHeader file ps = some header)
    (hcommit : (scanFrames file header ps).lastCommitFrame ≠ 0)
    (hfile' : file' = writeAt file 0 (Wal.restartHeader header src).encode) (pgno : UInt32) :
    (Wal.openWal (some file') ps).findFrame pgno = 0 ∨
      (Wal.openWal (some file') ps).findFrame pgno =
        (Wal.openWal (some file) ps).findFrame pgno := by
  have hlen' : file'.length = file.length := by
    rw [hfile', length_writeAt, WalHeader.length_encode]
    rw [walHeaderSize] at hlen
    omega
  have hframes : ∀ iFrame, frameAt file' ps iFrame = frameAt file ps iFrame := by
    intro iFrame
    rw [frameAt, frameAt, hfile', slice_after_header]
    exact Nat.le_add_right _ _
  have hsize := pageSize_of_usableHeader husable
  have hfor : HeaderFor ps (Wal.restartHeader header src) := headerFor_stamp hsize
  have husable' : Wal.usableHeader file' ps = some (Wal.restartHeader header src) := by
    rw [hfile', writeAt_zero]
    exact hfor.usableHeader _
  rw [openWal_of_usableHeader (by omega) husable', openWal_of_usableHeader hlen husable]
  rcases scanFrames_restartHeader hlen' hframes hcommit with hsame | hstart
  · rw [hsame]
    exact .inr rfl
  · rw [hstart]
    exact .inl rfl

theorem applyOps_resetOps_take (wal : Wal) (src : SaltSource) (mode : CheckpointMode)
    (h : disk .wal = some file) (k : Nat) :
    applyOps disk ((wal.resetOps src mode).take k) .db = disk .db ∧
      (applyOps disk ((wal.resetOps src mode).take k) .wal = some file ∨
        applyOps disk ((wal.resetOps src mode).take k) .wal =
          some (writeAt file 0 (Wal.restartHeader wal.header src).encode) ∨
        applyOps disk ((wal.resetOps src mode).take k) .wal = some []) := by
  have hwrite : applyOp disk (.write .wal 0 (Wal.restartHeader wal.header src).encode) .wal =
      some (writeAt file 0 (Wal.restartHeader wal.header src).encode) := by
    rw [applyOp_write_same, h, Option.map_some]
  refine ⟨applyOps_of_ne _ fun op hop => ?_, ?_⟩
  · have := List.mem_of_mem_take hop
    cases mode <;> simp only [Wal.resetOps, List.mem_cons, List.not_mem_nil, or_false] at this
    · rcases this with rfl | rfl <;> simp [FileOp.target]
    · rcases this with rfl | rfl | rfl <;> simp [FileOp.target]
  · cases mode with
    | passive => simpa [Wal.resetOps] using Or.inl h
    | full => simpa [Wal.resetOps] using Or.inl h
    | restart =>
        rcases k with _ | _ | k
        · exact .inl h
        · exact .inr (.inl hwrite)
        · exact .inr (.inl (by simpa [Wal.resetOps] using hwrite))
    | truncate =>
        rcases k with _ | _ | _ | k
        · exact .inl h
        · exact .inr (.inl hwrite)
        · exact .inr (.inl hwrite)
        · refine .inr (.inr ?_)
          simp only [Wal.resetOps, List.take_succ_cons, List.take_nil, applyOps_cons,
            applyOps_nil, applyOp_sync, applyOp_truncate_same, hwrite, Option.map_some]
          rfl

/--
Whatever file a log handle was opened on, a checkpoint can stop after any number
of its operations: every page of the last commit reads as it did before, and is
there if it was.
-/
theorem readerPage_during_checkpoint {ps : PageSize} {p : Wal × World DbFile} {db : Bytes}
    (hhandle : p.1.mxFrame ≠ 0 → Wal.openWal (p.2.disk .wal) ps = p.1)
    (hdb : p.2.disk .db = some db) (hfail : p.2.failAt = none) (src : SaltSource)
    (mode : CheckpointMode) :
    ∃ r q ops, Wal.checkpoint src mode p = .ok r q ∧ q.2.trace = p.2.trace ++ ops ∧
      ∀ k pgno, pgno ≠ 0 → pgno ≤ p.1.nPage →
        readerPage (applyOps p.2.disk (ops.take k)) ps pgno = readerPage p.2.disk ps pgno ∧
        (Readable p.2.disk ps pgno → Readable (applyOps p.2.disk (ops.take k)) ps pgno) := by
  by_cases hmx : p.1.mxFrame = 0
  · refine ⟨(0, 0), p, [], ?_, by simp, fun k pgno _ _ => by simp⟩
    rw [Wal.checkpoint, getState_bind]
    simp only [hmx, if_true]
    rfl
  have hopen := hhandle hmx
  obtain ⟨file, header, hsidecar, hlen, husable, hscan, hcommit⟩ :=
    of_openWal_mxFrame_ne_zero (by rw [hopen]; exact hmx)
  have hwal : p.1 = walOfScan header ps (scanFrames file header ps) := hopen.symm.trans hscan
  have hfile : p.1.file = true := by rw [hwal]; rfl
  have hps : p.1.pageSize = ps := by rw [hwal]; rfl
  have hheader : p.1.header = header := by rw [hwal]; rfl
  have hperf := performs_checkpoint src mode hmx hfile hsidecar (frameOf_committed hwal)
  refine ⟨_, _, p.1.checkpointOps file src mode, hperf.ok (by simp [hfail]),
    World.trace_applyAll _ _, fun k pgno hpgno hn => ?_⟩
  obtain ⟨db', hdb', hpage, hin⟩ := applyOps_copyOps hwal hpgno hn hsidecar hopen hdb
  change readerPage (applyOps p.2.disk ((p.1.copyOps file ++ p.1.resetOps src mode).take k)) ps
    pgno = _ ∧ (_ → Readable (applyOps p.2.disk
      ((p.1.copyOps file ++ p.1.resetOps src mode).take k)) ps pgno)
  rw [List.take_append]
  by_cases hk : k ≤ (p.1.copyOps file).length
  · -- still copying: the log answers for every page that is written
    rw [Nat.sub_eq_zero_of_le hk, List.take_zero, List.append_nil]
    have hlog := applyOps_sparesLog (fun op hop => copyOps_sparesLog p.1 file op
      (List.mem_of_mem_take (i := k) hop)) p.2.disk
    by_cases hfind : p.1.findFrame pgno = 0
    · obtain ⟨-, db₁, hdb₁, hpage₁, hin₁⟩ := applyOps_spares hpgno
        (fun op hop => copyOps_spares hwal hn hfind op (List.mem_of_mem_take (i := k) hop)) hdb
      rw [hps] at hpage₁ hin₁
      simp only [readerPage, Readable, hlog, hopen, hfind, ne_eq, not_true_eq_false, if_false,
        false_or, hdb, hdb₁, Option.getD_some]
      exact ⟨hpage₁, hin₁⟩
    · simp only [readerPage, Readable, hlog, hopen, ne_eq, hfind, not_false_eq_true, if_true,
        true_or, implies_true, and_self]
  · -- copied: whatever is left of the log agrees with the database file
    rw [List.take_of_length_le (by omega), applyOps_append]
    have hlog := applyOps_sparesLog (copyOps_sparesLog p.1 file) p.2.disk
    rw [hsidecar] at hlog
    obtain ⟨hkeep, hcases⟩ := applyOps_resetOps_take p.1 src mode hlog
      (k - (p.1.copyOps file).length)
    refine readerPage_after_copy (hsidecar ▸ hopen) hsidecar (hkeep.trans hdb') hpage hin ?_
    rcases hcases with hsame | hreset | hcut
    · rw [hsame]
      exact .inr ⟨by rw [← hsidecar, hopen], fun _ _ => rfl⟩
    · rw [hreset, hheader]
      rcases findFrame_after_reset hlen husable hcommit rfl pgno with hnone | hold
      · exact .inl hnone
      · refine .inr ⟨by rw [hold, ← hsidecar, hopen], fun iFrame _ => ?_⟩
        exact slice_after_header _ (by rw [frameDataOffset, frameOffset]; omega)
    · rw [hcut]
      exact .inl rfl

/-- The checkpoint of a log with one frame, stopped right before the log is cut. -/
theorem readerPage_after_onePage : ∃ r q ops,
    Wal.checkpoint secondSalts .truncate afterCommit = .ok r q ∧
      q.2.trace = afterCommit.2.trace ++ ops ∧
      readerPage (applyOps afterCommit.2.disk (ops.take 6)) smallPage 1 =
        readerPage afterCommit.2.disk smallPage 1 := by
  obtain ⟨log, tail, hlive⟩ := live_afterCommit
  have hopen : Wal.openWal (afterCommit.2.disk .wal) smallPage = afterCommit.1 := by
    rw [disk_afterCommit]
    exact hlive.openWal_eq
  obtain ⟨r, q, ops, hrun, htrace, hview⟩ :=
    readerPage_during_checkpoint (fun _ => hopen) (show _ = some [] from rfl) rfl secondSalts
      .truncate
  exact ⟨r, q, ops, hrun, htrace, (hview 6 1 (by decide) (by decide)).1⟩

end Rustqlite.Pager
