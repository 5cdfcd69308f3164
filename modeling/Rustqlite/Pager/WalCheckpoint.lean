import Rustqlite.Pager.WalRun

/-!
# Checkpoints, and whole runs of a writer

What a checkpoint does to the files, and that any run of commits and checkpoints
leaves a log from which recovery rebuilds what the writer holds in memory.
-/

namespace Rustqlite.Pager

open Foundation Format FileM

def backfillOps (file : Bytes) (ps : PageSize) : Nat → Nat → List (FileOp DbFile)
  | 0, _ => []
  | left + 1, iFrame =>
      [.probe .wal,
        .write .db (((pgnoAt file ps iFrame).toNat - 1) * ps.size)
          ((frameAt file ps iFrame).drop walFrameHeaderSize)] ++
        backfillOps file ps left (iFrame + 1)

def CheckpointMode.resets : CheckpointMode → Bool
  | .passive | .full => false
  | .restart | .truncate => true

def Wal.resetOps (wal : Wal) (src : SaltSource) (mode : CheckpointMode) : List (FileOp DbFile) :=
  let header := restartHeader wal.header src
  match mode with
  | .passive | .full => []
  | .restart => [.write .wal 0 header.encode, .sync .wal]
  | .truncate => [.write .wal 0 header.encode, .sync .wal, .truncate .wal 0]

def Wal.checkpointOps (wal : Wal) (file : Bytes) (src : SaltSource) (mode : CheckpointMode) :
    List (FileOp DbFile) :=
  backfillOps file wal.pageSize wal.mxFrame 1 ++
    [.truncate .db (wal.nPage.toNat * wal.pageSize.size), .sync .db] ++ wal.resetOps src mode

def Wal.reset (wal : Wal) (src : SaltSource) : Wal :=
  { wal with
    header := restartHeader wal.header src
    blocks := []
    mxFrame := 0
    nPage := 0
    frameCksum := some (restartHeader wal.header src).checksum }

def Wal.afterCheckpoint (wal : Wal) (src : SaltSource) (mode : CheckpointMode) : Wal :=
  if mode.resets then wal.reset src else wal

variable {ps : PageSize} {file tail : Bytes} {p q : Wal × World DbFile} {wal : Wal}
  {log : List LogFrame} {src : SaltSource}

theorem exists_decode_frame {frame : Bytes} (h : frame.length = frameSize ps) :
    ∃ fh, WalFrameHeader.decode (frame.take walFrameHeaderSize) = .ok fh := by
  have hlen : ¬ (frame.take walFrameHeaderSize).length < walFrameHeaderSize := by
    rw [List.length_take, h, frameSize]
    omega
  exact ⟨_, by rw [WalFrameHeader.decode, if_neg hlen]⟩

theorem performs_backfill {salts : UInt32 × UInt32} :
    ∀ left iFrame nCkpt (p : Wal × World DbFile), p.2.disk .wal = some file →
      (∀ j < left, FrameOf salts file ps (iFrame + j)) →
      Performs ioFailed (Wal.backfill ps salts left iFrame nCkpt) p
        (backfillOps file ps left iFrame) (nCkpt + left) p.1 := by
  intro left
  induction left with
  | zero => intro iFrame nCkpt p _ _; exact .pure _ p
  | succ left ih =>
      intro iFrame nCkpt p hdisk hframes
      have hframe := hframes 0 (by omega)
      rw [Nat.add_zero] at hframe
      obtain ⟨fh, hfh⟩ := exists_decode_frame hframe.whole
      have hsalts := (decode_frame_salts hfh).trans hframe.salts_eq
      have hpgno : fh.pageNumber = pgnoAt file ps iFrame := decode_frame_pgno hfh
      have hlen : ¬ (slice file (frameOffset ps iFrame) (frameSize ps)).length < frameSize ps := by
        have := hframe.whole
        rw [frameAt] at this
        omega
      rw [Wal.backfill]
      refine (Performs.contents .wal p).bind ?_
      simp only [hdisk, Option.getD_some, if_neg hlen]
      rw [frameAt] at hfh
      simp only [hfh, hsalts, ne_eq, not_true_eq_false, if_false]
      rw [if_neg (by rw [hpgno]; exact hframe.pgno_ne), hpgno]
      refine (Performs.perform _ _).bind ?_
      have hrest := ih (iFrame + 1) (nCkpt + 1) (p.1, (p.2.applyAll [.probe .wal]).applyAll
        [.write .db (((pgnoAt file ps iFrame).toNat - 1) * ps.size)
          ((frameAt file ps iFrame).drop walFrameHeaderSize)]) ?_ ?_
      · rwa [show nCkpt + 1 + left = nCkpt + (left + 1) by omega] at hrest
      · rw [World.disk_applyAll, World.disk_applyAll, applyOps_of_ne _ (by simp [FileOp.target])]
        exact hdisk
      · intro j hj
        rw [show iFrame + 1 + j = iFrame + (j + 1) by omega]
        exact hframes (j + 1) (by omega)

theorem performs_resetLog (src : SaltSource) (truncate : Bool) (p : Wal × World DbFile) :
    Performs ioFailed (Wal.resetLog src truncate) p
      ([.write .wal 0 (Wal.restartHeader p.1.header src).encode, .sync .wal] ++
        if truncate then [.truncate .wal 0] else []) () (p.1.reset src) := by
  refine Performs.bind_nil (.getState p) ?_
  refine Performs.bind_nil (.modifyState _ p) ?_
  refine (Performs.perform _ _).bind ((Performs.perform _ _).bind ?_)
  cases truncate with
  | true => exact (Performs.perform _ _).bind (.modifyState _ _)
  | false =>
      simp only [Bool.false_eq_true, if_false]
      exact .modifyState _ _

theorem performs_checkpoint (src : SaltSource) (mode : CheckpointMode) (hmx : p.1.mxFrame ≠ 0)
    (hopen : p.1.file = true) (hdisk : p.2.disk .wal = some file)
    (hframes : ∀ j < p.1.mxFrame, FrameOf p.1.header.salts file p.1.pageSize (1 + j)) :
    Performs ioFailed (Wal.checkpoint src mode) p (p.1.checkpointOps file src mode)
      (p.1.mxFrame, p.1.mxFrame) (p.1.afterCheckpoint src mode) := by
  refine Performs.bind_nil (.getState p) ?_
  simp only [if_neg hmx, hopen, Bool.true_eq_false, if_false]
  rw [Wal.checkpointOps, List.append_assoc]
  have hback := performs_backfill p.1.mxFrame 1 0 p hdisk hframes
  rw [Nat.zero_add] at hback
  refine hback.bind ((Performs.perform _ _).bind ((Performs.perform _ _).bind ?_))
  cases mode with
  | passive => exact .pure _ _
  | full => exact .pure _ _
  | restart => exact (performs_resetLog src false _).bind (.pure _ _)
  | truncate => exact (performs_resetLog src true _).bind (.pure _ _)

/-! ## One checkpoint keeps the relation -/

theorem applyOps_backfillOps_wal (disk : Disk DbFile) (file : Bytes) (ps : PageSize) :
    ∀ left iFrame, applyOps disk (backfillOps file ps left iFrame) .wal = disk .wal := by
  intro left
  induction left generalizing disk with
  | zero => intro iFrame; rfl
  | succ left ih =>
      intro iFrame
      rw [backfillOps, applyOps_append, ih]
      rfl

theorem Live.frameOf (h : Live wal file log tail) :
    ∀ j < wal.mxFrame, FrameOf wal.header.salts file wal.pageSize (1 + j) := by
  intro j hj
  have hpgnos : (scanFrames file wal.header wal.pageSize).framePgnos = log.map LogFrame.pgno := by
    rw [h.scanFrames_eq, framePgnos_recordLog]
    rfl
  rw [h.mxFrame_eq] at hj
  refine (scanFrames_frameOf (j := j) (p := log[j].pgno) ?_).1
  rw [hpgnos, List.getElem?_map, List.getElem?_eq_getElem hj]
  rfl

theorem Live.reset (h : Live wal file log tail) (hfresh : FreshSalts wal.pageSize src (some file)) :
    Live (wal.reset src)
      ((Wal.restartHeader wal.header src).encode ++ file.drop walHeaderSize) []
      (file.drop walHeaderSize) := by
  refine ⟨h.isOpen, headerFor_stamp h.header_for.pageSize_eq, ?_, by simp, .inl ⟨rfl, rfl⟩, rfl,
    rfl, rfl, hfresh, ?_⟩
  · simp [Wal.reset, encodeLog]
  · have hcount := h.count_lt
    rw [countFrames] at hcount ⊢
    rw [List.length_append, WalHeader.length_encode, walHeaderSize, Nat.add_sub_cancel_left,
      List.length_drop]
    exact hcount

theorem Tracks.checkpoint {mode : CheckpointMode} {r : Nat × Nat}
    (h : Tracks ps p.1 (p.2.disk .wal))
    (hfresh : p.1.mxFrame ≠ 0 → mode.resets → FreshSalts ps src (p.2.disk .wal))
    (hrun : Wal.checkpoint src mode p = .ok r q) : Tracks ps q.1 (q.2.disk .wal) := by
  by_cases hmx : p.1.mxFrame = 0
  · rw [Wal.checkpoint, getState_bind] at hrun
    simp only [hmx, if_true] at hrun
    cases hrun
    exact h
  generalize hdisk : p.2.disk .wal = sidecar at h hfresh
  cases h with
  | absent heq => exact absurd (by rw [heq]; rfl) hmx
  | emptied _ _ _ hzero _ => exact absurd hzero hmx
  | @live file log tail hps hlive =>
      subst hps
      obtain ⟨-, rfl⟩ :=
        (performs_checkpoint src mode hmx hlive.isOpen hdisk hlive.frameOf).of_ok hrun
      have hfile : applyOps p.2.disk (backfillOps file p.1.pageSize p.1.mxFrame 1 ++
          [.truncate .db (p.1.nPage.toNat * p.1.pageSize.size), .sync .db]) .wal = some file := by
        rw [applyOps_append, applyOps_of_ne _ (by simp [FileOp.target]),
          applyOps_backfillOps_wal, hdisk]
      simp only [World.disk_applyAll, Wal.checkpointOps, applyOps_append] at hfile ⊢
      cases mode with
      | passive =>
          rw [Wal.resetOps, applyOps_nil, hfile]
          exact .live rfl hlive
      | full =>
          rw [Wal.resetOps, applyOps_nil, hfile]
          exact .live rfl hlive
      | restart =>
          rw [Wal.resetOps]
          simp only [applyOps_cons, applyOps_nil, applyOp_sync, applyOp_write_same] at hfile ⊢
          rw [hfile, Option.map_some, writeAt_zero, WalHeader.length_encode]
          exact .live rfl (hlive.reset (hfresh hmx rfl))
      | truncate =>
          rw [Wal.resetOps]
          simp only [applyOps_cons, applyOps_nil, applyOp_sync, applyOp_write_same,
            applyOp_truncate_same] at hfile ⊢
          rw [hfile]
          exact .emptied hlive.isOpen rfl rfl rfl rfl

/-! ## Runs of a writer -/

/--
One call of a writer that returns `Ok`.  Pages are numbered from 1 and a commit
leaves at least one page; the salts of a new generation are not those of a frame
that is still in the file.
-/
inductive WalStep (ps : PageSize) : Wal × World DbFile → Wal × World DbFile → Prop where
  | writeFrames {p q : Wal × World DbFile} (src : SaltSource) (frames : List (UInt32 × Bytes))
      (nTruncate : UInt32) (hpgno : ∀ f ∈ frames, f.1 ≠ 0) (htrunc : nTruncate ≠ 0)
      (hfresh : p.1.mxFrame = 0 → FreshSalts ps src (p.2.disk .wal))
      (hrun : Wal.writeFrames src frames nTruncate p = .ok () q) : WalStep ps p q
  | checkpoint {p q : Wal × World DbFile} (src : SaltSource) (mode : CheckpointMode)
      (r : Nat × Nat)
      (hfresh : p.1.mxFrame ≠ 0 → mode.resets → FreshSalts ps src (p.2.disk .wal))
      (hrun : Wal.checkpoint src mode p = .ok r q) : WalStep ps p q

def WalRun (ps : PageSize) : Wal × World DbFile → Wal × World DbFile → Prop :=
  Relation.ReflTransGen (WalStep ps)

theorem WalStep.tracks (h : WalStep ps p q) (hp : Tracks ps p.1 (p.2.disk .wal)) :
    Tracks ps q.1 (q.2.disk .wal) := by
  cases h with
  | writeFrames src frames nTruncate hpgno htrunc hfresh hrun =>
      exact hp.writeFrames hpgno htrunc hfresh hrun
  | checkpoint src mode r hfresh hrun => exact hp.checkpoint hfresh hrun

theorem WalRun.tracks (h : WalRun ps p q) (hp : Tracks ps p.1 (p.2.disk .wal)) :
    Tracks ps q.1 (q.2.disk .wal) := by
  induction h with
  | refl => exact hp
  | tail _ hstep ih => exact hstep.tracks ih

theorem tracks_fresh (ps : PageSize) {w : World DbFile} (h : w.disk .wal = none) :
    Tracks ps (Wal.openWal none ps) (w.disk .wal) := by
  rw [h]
  exact .absent rfl

/--
After any run from a fresh log, opening the sidecar recovers what the writer
holds; only after a TRUNCATE, while the file is empty, recovery has no checksum.
-/
theorem openWal_agrees_with_writer {ps : PageSize} {w : World DbFile} {q : Wal × World DbFile}
    (hw : w.disk .wal = none) (hrun : WalRun ps (Wal.openWal none ps, w) q) :
    let recovered := Wal.openWal (q.2.disk .wal) ps
    recovered.mxFrame = q.1.mxFrame ∧ recovered.nPage = q.1.nPage ∧
      (∀ pgno, recovered.findFrame pgno = q.1.findFrame pgno) ∧
      (q.2.disk .wal ≠ some [] → recovered.frameCksum = q.1.frameCksum) := by
  have htracks := hrun.tracks (tracks_fresh ps hw)
  generalize q.2.disk .wal = sidecar at htracks ⊢
  cases htracks with
  | absent heq =>
      rw [heq]
      exact ⟨rfl, rfl, fun _ => rfl, fun _ => rfl⟩
  | emptied _ _ hblocks hmx hpage =>
      refine ⟨hmx.symm, hpage.symm, fun pgno => ?_, fun hne => absurd rfl hne⟩
      rw [Wal.findFrame, Wal.findFrame, hblocks, hmx]
      rfl
  | live hps hlive =>
      subst hps
      rw [hlive.openWal_eq]
      exact ⟨rfl, rfl, fun _ => rfl, fun _ => rfl⟩

/-! ## Two commits, and a TRUNCATE after one -/

def smallPage : PageSize := ⟨512, isValidPageSize_512⟩

def emptyFiles : World DbFile where
  disk f := if f = .db then some [] else none
  trace := []
  failAt := none

def onePage : List (UInt32 × Bytes) := [(1, List.replicate 512 0)]

def firstSalts : SaltSource := ⟨1, 0⟩

def afterCommit : Wal × World DbFile :=
  ((Wal.openWal none smallPage).afterWrite firstSalts onePage 1,
    emptyFiles.applyAll ((Wal.openWal none smallPage).writeFramesOps firstSalts onePage 1))

theorem writeFrames_onePage :
    Wal.writeFrames firstSalts onePage 1 (Wal.openWal none smallPage, emptyFiles) =
      .ok () afterCommit := by
  refine (performs_writeFrames firstSalts 1 (by decide) (by decide) ?_).ok (by simp [emptyFiles])
  intro f hf
  rw [onePage, List.mem_singleton] at hf
  subst hf
  exact List.length_replicate

theorem freshSalts_none (ps : PageSize) (src : SaltSource) : FreshSalts ps src none := by
  intro i hi
  have hpos : 0 < (i + 1) * frameSize ps := Nat.mul_pos (Nat.succ_pos i) (frameSize_pos ps)
  exact absurd (hpos.trans_le hi) (by simp [slotBytes])

theorem walStep_onePage :
    WalStep smallPage (Wal.openWal none smallPage, emptyFiles) afterCommit := by
  refine .writeFrames firstSalts onePage 1 ?_ (by decide) (fun _ => freshSalts_none _ _)
    writeFrames_onePage
  intro f hf
  rw [onePage, List.mem_singleton] at hf
  subst hf
  decide

def bothPages : List (UInt32 × Bytes) := [(2, List.replicate 512 1), (1, List.replicate 512 2)]

def afterSecond : Wal × World DbFile :=
  (afterCommit.1.afterWrite firstSalts bothPages 2,
    afterCommit.2.applyAll (afterCommit.1.writeFramesOps firstSalts bothPages 2))

theorem walStep_bothPages : WalStep smallPage afterCommit afterSecond := by
  have hpages : ∀ f ∈ bothPages, f.1 ≠ 0 ∧ f.2.length = 512 :=
    List.forall_mem_cons.mpr ⟨⟨by decide, List.length_replicate⟩,
      List.forall_mem_singleton.mpr ⟨by decide, List.length_replicate⟩⟩
  have hperf := performs_writeFrames (p := afterCommit) firstSalts 2 (by decide) (by decide)
    fun f hf => (hpages f hf).2
  exact .writeFrames firstSalts bothPages 2 (fun f hf => (hpages f hf).1) (by decide)
    (fun hmx => absurd hmx (by decide)) (hperf.ok (by intro k hk; cases hk))

/-- Three frames after a second commit, and the last of them is page 1's. -/
theorem openWal_agrees_after_twoCommits :
    let recovered := Wal.openWal (afterSecond.2.disk .wal) smallPage
    recovered.mxFrame = 3 ∧ recovered.nPage = 2 ∧ recovered.findFrame 1 = 3 := by
  obtain ⟨hmx, hpage, hfind, -⟩ :=
    openWal_agrees_with_writer rfl (.tail (.single walStep_onePage) walStep_bothPages)
  exact ⟨hmx.trans (by decide), hpage.trans (by decide), (hfind 1).trans (by decide +kernel)⟩

def committedFile : Bytes := (afterCommit.2.disk .wal).getD []

set_option maxRecDepth 10000 in
theorem disk_afterCommit : afterCommit.2.disk .wal = some committedFile := by
  decide

def secondSalts : SaltSource := ⟨1, 2⟩

set_option maxRecDepth 10000 in
theorem freshSalts_afterCommit : FreshSalts smallPage secondSalts (some committedFile) := by
  have hlen : committedFile.length = 568 := by decide
  intro i hi
  have hi0 : i = 0 := by
    rw [slotBytes, Option.getD_some, List.length_drop, hlen] at hi
    simp only [frameSize, smallPage, walFrameHeaderSize, walHeaderSize] at hi
    omega
  subst hi0
  decide

theorem live_afterCommit : ∃ log tail, Live afterCommit.1 committedFile log tail := by
  have htracks : Tracks smallPage afterCommit.1 (afterCommit.2.disk .wal) :=
    (walStep_onePage).tracks (tracks_fresh smallPage rfl)
  have hmx : afterCommit.1.mxFrame ≠ 0 := by decide
  obtain ⟨-, file, log, tail, hlive, hfile, -⟩ := htracks.of_mxFrame_ne_zero hmx secondSalts
  rw [disk_afterCommit] at hfile
  cases hfile
  exact ⟨log, tail, hlive⟩

/-- After a TRUNCATE the writer keeps a checksum that recovery does not find. -/
theorem truncate_loses_checksum : ∃ q,
    WalRun smallPage (Wal.openWal none smallPage, emptyFiles) q ∧
      (Wal.openWal (q.2.disk .wal) smallPage).frameCksum ≠ q.1.frameCksum := by
  obtain ⟨log, tail, hlive⟩ := live_afterCommit
  have hperf := performs_checkpoint secondSalts .truncate (by decide) hlive.isOpen disk_afterCommit
    hlive.frameOf
  have hok := hperf.ok (by intro k hk; cases hk)
  refine ⟨_, .tail (.single walStep_onePage)
    (.checkpoint secondSalts .truncate _ (fun _ _ => ?_) hok), ?_⟩
  · rw [disk_afterCommit]
    exact freshSalts_afterCommit
  · have hempty : (afterCommit.2.applyAll
        (afterCommit.1.checkpointOps committedFile secondSalts .truncate)).disk .wal = some [] := by
      rw [World.disk_applyAll, Wal.checkpointOps, applyOps_append, applyOps_append, Wal.resetOps]
      simp only [applyOps_cons, applyOps_nil, applyOp_sync, applyOp_truncate_same,
        applyOp_write_same]
      rw [applyOp_of_ne _ (by simp [FileOp.target]), applyOps_backfillOps_wal, disk_afterCommit]
      rfl
    simp only [hempty]
    change (none : Option Cksum) ≠ some _
    exact (Option.some_ne_none _).symm

end Rustqlite.Pager
