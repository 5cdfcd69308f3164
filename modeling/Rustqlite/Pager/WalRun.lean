import Rustqlite.Pager.WalLog

/-!
# Writer and recovery agree

The handle of a writer and the log file stand in a relation that every commit
and every checkpoint keeps; from that relation, opening the file gives back the
handle.
-/

namespace Rustqlite.Pager

open Foundation Format

def StaleSlots (ps : PageSize) (salts : UInt32 × UInt32) (tail : Bytes) : Prop :=
  ∀ i, (i + 1) * frameSize ps ≤ tail.length →
    frameSalts (slice tail (i * frameSize ps) (frameSize ps)) ≠ salts

structure HeaderFor (ps : PageSize) (header : WalHeader) : Prop where
  checksum_eq : header.checksum =
    walChecksum header.checksumBigEndian header.encodeFields (0, 0)
  pageSize_eq : header.pageSize = UInt32.ofNat ps.size

structure Live (wal : Wal) (file : Bytes) (log : List LogFrame) (tail : Bytes) : Prop where
  isOpen : wal.file = true
  header_for : HeaderFor wal.pageSize wal.header
  file_eq : file = wal.header.encode ++ encodeLog wal.header wal.header.checksum log ++ tail
  fits : ∀ f ∈ log, f.Fits wal.pageSize
  committed : log = [] ∧ wal.nPage = 0 ∨
    ∃ init last, log = init ++ [last] ∧ last.commitSize = wal.nPage ∧ wal.nPage ≠ 0
  mxFrame_eq : wal.mxFrame = log.length
  cksum_eq : wal.frameCksum = some (logCksum wal.header wal.header.checksum log)
  blocks_eq : wal.blocks = indexFrames [] 1 (log.map LogFrame.pgno)
  stale : StaleSlots wal.pageSize wal.header.salts tail
  count_lt : countFrames file wal.pageSize < 2 ^ 32

variable {ps : PageSize} {header : WalHeader} {tail file : Bytes} {frames : List (UInt32 × Bytes)}
  {nTruncate : UInt32} {p q : Wal × World DbFile} {log : List LogFrame} {wal : Wal}
  {src : SaltSource} {disk : Disk DbFile}

theorem HeaderFor.usableHeader (h : HeaderFor ps header) (rest : Bytes) :
    Wal.usableHeader (header.encode ++ rest) ps = some header := by
  have hdecode : WalHeader.decode ((header.encode ++ rest).take walHeaderSize) = .ok header := by
    rw [walHeaderSize, List.take_left' header.length_encode]
    simpa using header.decode_encode_append []
  have hsize : header.pageSize.toNat = ps.size := by
    have := ps.size_le
    rw [h.pageSize_eq, UInt32.toNat_ofNat']
    omega
  rw [Wal.usableHeader, hdecode]
  simp only [hsize, ne_eq, not_true_eq_false, if_false, WalHeader.take_encode_append,
    ← h.checksum_eq]

theorem headerFor_stamp (h : header.pageSize = UInt32.ofNat ps.size) :
    HeaderFor ps header.stamp where
  checksum_eq := rfl
  pageSize_eq := h

theorem StaleSlots.drop {salts : UInt32 × UInt32} (h : StaleSlots ps salts tail) (k : Nat) :
        StaleSlots ps salts (tail.drop (k * frameSize ps)) := by
  intro i hi
  have hin : (k + i + 1) * frameSize ps ≤ tail.length := by
    rw [List.length_drop] at hi
    rw [show k + i + 1 = k + (i + 1) by omega, Nat.add_mul]
    have := frameSize_pos ps
    have : 0 < (i + 1) * frameSize ps := Nat.mul_pos (by omega) this
    omega
  have heq : slice (tail.drop (k * frameSize ps)) (i * frameSize ps) (frameSize ps) =
      slice tail ((k + i) * frameSize ps) (frameSize ps) := by
    rw [slice, slice, List.drop_drop, Nat.add_mul]
  rw [heq]
  exact h (k + i) hin

namespace Live

variable {wal : Wal} {file : Bytes} {log : List LogFrame} {tail : Bytes}

section

variable (h : Live wal file log tail)

include h

theorem length_file :
    file.length = walHeaderSize + log.length * frameSize wal.pageSize + tail.length := by
  rw [h.file_eq, List.length_append, List.length_append, WalHeader.length_encode,
    length_encodeLog _ _ h.fits, walHeaderSize]

theorem countFrames_eq :
    countFrames file wal.pageSize = log.length + tail.length / frameSize wal.pageSize := by
  rw [countFrames, h.length_file, Nat.add_assoc, Nat.add_sub_cancel_left, Nat.mul_comm,
    Nat.mul_add_div (frameSize_pos _)]

theorem scanFrames_eq :
    scanFrames file wal.header wal.pageSize =
      (Recovery.start wal.header).recordLog wal.header 1 log := by
  have hpre : wal.header.encode.length = frameOffset wal.pageSize 1 := by
    simp [frameOffset, walHeaderSize]
  have hloop := recoverLoop_encodeLog wal.header h.fits wal.header.encode tail
    (tail.length / frameSize wal.pageSize) 1 (Recovery.start wal.header) le_rfl hpre
  rw [show (Recovery.start wal.header).running = wal.header.checksum from rfl, ← h.file_eq]
    at hloop
  rw [scanFrames, Nat.mod_eq_of_lt h.count_lt, h.countFrames_eq, hloop]
  apply recoverLoop_stop
  intro hlen
  -- the slot behind the log is the first one of the tail
  have hoff : frameOffset wal.pageSize (1 + log.length) =
      (wal.header.encode ++ encodeLog wal.header wal.header.checksum log).length := by
    rw [List.length_append, WalHeader.length_encode, length_encodeLog _ _ h.fits, frameOffset,
      walHeaderSize, Nat.add_sub_cancel_left]
  have hslot : slice file (frameOffset wal.pageSize (1 + log.length)) (frameSize wal.pageSize) =
      slice tail 0 (frameSize wal.pageSize) := by
    rw [h.file_eq, hoff, slice_append_right _ _ le_rfl, Nat.sub_self]
  apply acceptFrame_of_salts_ne
  rw [hslot] at hlen ⊢
  have := h.stale 0 (by
    rw [length_slice] at hlen
    omega)
  simpa using this

theorem lastCommit :
    let r := (Recovery.start wal.header).recordLog wal.header 1 log
    r.lastCommitFrame = log.length ∧ r.lastCommitNpage = wal.nPage ∧
      (log ≠ [] → r.lastCommitCksum = logCksum wal.header wal.header.checksum log) := by
  rcases h.committed with ⟨rfl, hpage⟩ | ⟨init, last, rfl, hcommit, hpage⟩
  · exact ⟨rfl, hpage.symm, fun hne => absurd rfl hne⟩
  · obtain ⟨hframe, hnpage, hcksum⟩ := recordLog_commit wal.header (Recovery.start wal.header) 1
      init (f := last) (by rw [hcommit]; exact hpage)
    refine ⟨?_, hnpage.trans hcommit, fun _ => hcksum⟩
    rw [hframe, List.length_append, List.length_singleton, Nat.add_comm]

theorem openWal_eq : Wal.openWal (some file) wal.pageSize = wal := by
  have hshort : ¬ file.length < walHeaderSize := by
    rw [h.length_file]
    omega
  have husable : Wal.usableHeader file wal.pageSize = some wal.header := by
    rw [h.file_eq, List.append_assoc]
    exact h.header_for.usableHeader _
  obtain ⟨hframe, hnpage, hcksum⟩ := h.lastCommit
  have hpgnos := framePgnos_recordLog wal.header (Recovery.start wal.header) 1 log
  have hscan := h.scanFrames_eq
  set r := (Recovery.start wal.header).recordLog wal.header 1 log
  have hvisible : r.framePgnos.take r.lastCommitFrame = log.map LogFrame.pgno := by
    rw [hpgnos, hframe]
    simp [Recovery.start]
  have hlast : some (if log.length = 0 then wal.header.checksum else r.lastCommitCksum) =
      wal.frameCksum := by
    rw [h.cksum_eq]
    by_cases hnil : log = []
    · simp [hnil, logCksum]
    · rw [if_neg (mt List.length_eq_zero_iff.mp hnil), hcksum hnil]
  rw [openWal_of_usableHeader (not_lt.mp hshort) husable, hscan, walOfScan, hvisible, hframe,
    hnpage, hlast, ← h.mxFrame_eq, ← h.blocks_eq, ← h.isOpen]

end

end Live

/-! ## What a commit does to the files -/

open FileM

def frameWrites (ps : PageSize) (header : WalHeader) :
    List LogFrame → Nat → Cksum → List (FileOp DbFile)
  | [], _, _ => []
  | f :: log, iFrame, running =>
      .write .wal (frameOffset ps (iFrame + 1))
          (buildFrame header running f.pgno f.commitSize f.data).1 ::
        frameWrites ps header log (iFrame + 1)
          (buildFrame header running f.pgno f.commitSize f.data).2

def Wal.nextHeader (wal : Wal) (src : SaltSource) : WalHeader :=
  if wal.mxFrame = 0 then freshWalHeader wal.pageSize src else wal.header

def Wal.nextSeed (wal : Wal) (src : SaltSource) : Cksum :=
  if wal.mxFrame = 0 then (freshWalHeader wal.pageSize src).checksum
  else wal.frameCksum.getD wal.header.checksum

def Wal.openOps (wal : Wal) : List (FileOp DbFile) :=
  if wal.file = false then [.create .wal] else []

def Wal.headerOps (wal : Wal) (src : SaltSource) : List (FileOp DbFile) :=
  if wal.mxFrame = 0 then
    [.write .wal 0 (freshWalHeader wal.pageSize src).encode, .sync .wal]
  else []

/-- Every operation of a `write_frames` call, in order. -/
def Wal.writeFramesOps (wal : Wal) (src : SaltSource) (frames : List (UInt32 × Bytes))
    (nTruncate : UInt32) : List (FileOp DbFile) :=
  wal.openOps ++ wal.headerOps src ++
    frameWrites wal.pageSize (wal.nextHeader src) (batchLog nTruncate frames) wal.mxFrame
      (wal.nextSeed src) ++
    [.sync .wal]

def Wal.afterWrite (wal : Wal) (src : SaltSource) (frames : List (UInt32 × Bytes))
    (nTruncate : UInt32) : Wal :=
  { wal with
    file := true
    header := wal.nextHeader src
    blocks := indexFrames wal.blocks (wal.mxFrame + 1) (frames.map Prod.fst)
    mxFrame := wal.mxFrame + frames.length
    nPage := nTruncate
    frameCksum := some (logCksum (wal.nextHeader src) (wal.nextSeed src)
      (batchLog nTruncate frames)) }

theorem performs_writeFrameLoop (header : WalHeader) (nTruncate : UInt32)
    (hlen : ∀ f ∈ frames, f.2.length = ps.size) :
    ∀ iFrame running p, Performs ioFailed
      (Wal.writeFrameLoop ps header nTruncate frames iFrame running) p
      (frameWrites ps header (batchLog nTruncate frames) iFrame running)
      (logCksum header running (batchLog nTruncate frames)) p.1 := by
  induction frames with
  | nil => intro iFrame running p; exact .pure _ p
  | cons f frames ih =>
      intro iFrame running p
      obtain ⟨pgno, data⟩ := f
      have hdata := hlen (pgno, data) List.mem_cons_self
      simp only at hdata
      simp only [Wal.writeFrameLoop, batchLog, frameWrites, logCksum, hdata, ne_eq,
        not_true_eq_false, if_false]
      exact (Performs.perform _ p).bind
        (ih (fun g hg => hlen g (List.mem_cons_of_mem _ hg)) _ _ (p.1, _))

theorem writeFrameLoop_ok_length : ∀ {iFrame : Nat} {running : Cksum} {p : Wal × World DbFile}
      {a : Cksum} {q : Wal × World DbFile},
      Wal.writeFrameLoop ps header nTruncate frames iFrame running p = .ok a q →
      ∀ f ∈ frames, f.2.length = ps.size := by
  induction frames with
  | nil => simp
  | cons f frames ih =>
      intro iFrame running p a q h
      obtain ⟨pgno, data⟩ := f
      by_cases hdata : data.length = ps.size
      · simp only [Wal.writeFrameLoop, hdata, ne_eq, not_true_eq_false, if_false] at h
        intro g hg
        rcases List.mem_cons.mp hg with rfl | hg
        · exact hdata
        · cases hperf : perform ioFailed (.write .wal (frameOffset ps (iFrame + 1))
              (buildFrame header running pgno (if frames = [] then nTruncate else 0) data).1) p with
          | ok b p' =>
              rw [bind_ok hperf] at h
              exact ih h g hg
          | error e p' =>
              rw [bind_error hperf] at h
              cases h
      · simp only [Wal.writeFrameLoop, ne_eq, hdata, not_false_eq_true, if_true] at h
        cases h

theorem performs_openLazily (p : Wal × World DbFile) :
    Performs ioFailed Wal.openLazily p p.1.openOps () { p.1 with file := true } := by
  refine Performs.bind_nil (.getState p) ?_
  by_cases hfile : p.1.file = false
  · simp only [if_pos hfile, Wal.openOps]
    exact (Performs.perform _ p).bind (.modifyState _ _)
  · simp only [if_neg hfile, Wal.openOps]
    have hopen : p.1 = { p.1 with file := true } := by
      rw [Bool.not_eq_false] at hfile
      rw [← hfile]
    rw [← hopen]
    exact .pure _ p

theorem performs_startLog (src : SaltSource) (p : Wal × World DbFile) :
    Performs ioFailed (Wal.startLog src) p (p.1.headerOps src) (p.1.nextSeed src)
      { p.1 with header := p.1.nextHeader src } := by
  refine Performs.bind_nil (.getState p) ?_
  by_cases hmx : p.1.mxFrame = 0
  · simp only [if_pos hmx, Wal.headerOps, Wal.nextSeed, Wal.nextHeader]
    refine Performs.bind_nil (.modifyState _ p) ?_
    exact (Performs.perform _ _).bind ((Performs.perform _ _).bind (.pure _ _))
  · simp only [if_neg hmx, Wal.headerOps, Wal.nextSeed, Wal.nextHeader]
    exact .pure _ p

theorem performs_writeFrames (src : SaltSource) (nTruncate : UInt32) (hne : frames ≠ [])
    (hcount : p.1.mxFrame + frames.length + hashtableNpage < 2 ^ 32)
    (hlen : ∀ f ∈ frames, f.2.length = p.1.pageSize.size) :
    Performs ioFailed (Wal.writeFrames src frames nTruncate) p
      (p.1.writeFramesOps src frames nTruncate) () (p.1.afterWrite src frames nTruncate) := by
  have hcheck : Performs ioFailed (Wal.checkFrameNumbers frames.length) p [] () p.1 := by
    refine Performs.bind_nil (.getState p) ?_
    rw [if_neg (by omega)]
    exact .pure _ p
  simp only [Wal.writeFrames, hne, if_false]
  refine hcheck.bind_nil ?_
  rw [Wal.writeFramesOps, List.append_assoc, List.append_assoc]
  refine (performs_openLazily p).bind ?_
  refine (performs_startLog src _).bind ?_
  refine Performs.bind_nil (.getState _) ?_
  refine (performs_writeFrameLoop _ nTruncate hlen _ _ _).bind ?_
  exact (Performs.perform _ _).bind (.modifyState _ _)

theorem applyOps_frameWrites (header : WalHeader) (hfits : ∀ f ∈ log, f.Fits ps) :
    ∀ (iFrame : Nat) (running : Cksum) (disk : Disk DbFile)
      (pre tail : Bytes), disk .wal = some (pre ++ tail) → pre.length = frameOffset ps
          (iFrame + 1) →
      applyOps disk (frameWrites ps header log iFrame running) .wal =
        some (pre ++ encodeLog header running log ++ tail.drop (log.length * frameSize ps)) := by
  induction log with
  | nil =>
      intro iFrame running disk pre tail hdisk _
      simpa [frameWrites, encodeLog] using hdisk
  | cons f log ih =>
      intro iFrame running disk pre tail hdisk hpre
      have hlen := length_buildFrame header running f.pgno f.commitSize
        (hfits f List.mem_cons_self).2
      set frame := (buildFrame header running f.pgno f.commitSize f.data).1
      have hstep : applyOp disk (.write .wal (frameOffset ps (iFrame + 1)) frame) .wal =
          some ((pre ++ frame) ++ tail.drop (frameSize ps)) := by
        rw [applyOp_write_same, hdisk, Option.map_some, ← hpre, writeAt_append, hlen]
      have hoff : frameOffset ps (iFrame + 1 + 1) = frameOffset ps (iFrame + 1) + frameSize ps :=
        frameOffset_succ ps (by omega)
      rw [frameWrites, applyOps_cons,
        ih (fun g hg => hfits g (List.mem_cons_of_mem f hg)) _ _ _ _ _ hstep
          (by rw [List.length_append, hlen, hpre, hoff])]
      simp only [encodeLog, List.length_cons, Nat.succ_mul, List.drop_drop, List.append_assoc,
        Option.some.injEq]
      rw [Nat.add_comm (frameSize ps)]

/-! ## One commit keeps the relation -/

inductive Tracks (ps : PageSize) (wal : Wal) : Option Bytes → Prop where
  | absent : wal = .placeholder false ps → Tracks ps wal none
  | emptied : wal.file = true → wal.pageSize = ps → wal.blocks = [] → wal.mxFrame = 0 →
      wal.nPage = 0 → Tracks ps wal (some [])
  | live {file : Bytes} {log : List LogFrame} {tail : Bytes} : wal.pageSize = ps →
      Live wal file log tail → Tracks ps wal (some file)

def slotBytes (sidecar : Option Bytes) : Bytes := (sidecar.getD []).drop walHeaderSize

/-- The salts of a new generation differ from those of the frames left in the file. -/
def FreshSalts (ps : PageSize) (src : SaltSource) (sidecar : Option Bytes) : Prop :=
  StaleSlots ps src.salts (slotBytes sidecar)

def Wal.started (wal : Wal) (src : SaltSource) : Wal :=
  { wal with
    file := true
    header := wal.nextHeader src
    frameCksum := some (wal.nextSeed src) }

theorem Tracks.pageSize_eq {sidecar : Option Bytes} (h : Tracks ps wal sidecar) :
    wal.pageSize = ps := by
  cases h with
  | absent heq => rw [heq]; rfl
  | emptied _ hps _ _ _ => exact hps
  | live hps _ => exact hps

theorem live_started_fresh (hmx : wal.mxFrame = 0) (hblocks : wal.blocks = [])
    (hpage : wal.nPage = 0) (hstale : StaleSlots wal.pageSize src.salts tail)
    (hcount : tail.length / frameSize wal.pageSize < 2 ^ 32) :
    Live (wal.started src) ((freshWalHeader wal.pageSize src).encode ++ tail) [] tail := by
  have hheader : (wal.started src).header = freshWalHeader wal.pageSize src := if_pos hmx
  refine ⟨rfl, ?_, ?_, by simp, .inl ⟨rfl, hpage⟩, hmx, ?_, hblocks, ?_, ?_⟩
  · rw [hheader]
    exact headerFor_stamp rfl
  · rw [hheader]
    simp [encodeLog]
  · rw [hheader, logCksum, Wal.started, Wal.nextSeed, if_pos hmx]
  · rw [hheader]
    exact hstale
  · rw [countFrames, List.length_append, WalHeader.length_encode, walHeaderSize,
      Nat.add_sub_cancel_left]
    exact hcount

theorem Tracks.of_mxFrame_eq_zero (h : Tracks ps wal (disk .wal)) (hmx : wal.mxFrame = 0)
    (src : SaltSource) :
    wal.blocks = [] ∧ wal.nPage = 0 ∧ (slotBytes (disk .wal)).length / frameSize ps < 2 ^ 32 ∧
      applyOps disk (wal.openOps ++ wal.headerOps src) .wal =
        some ((freshWalHeader wal.pageSize src).encode ++ slotBytes (disk .wal)) := by
  generalize hdisk : disk .wal = sidecar at h
  cases h with
  | absent heq =>
      subst heq
      refine ⟨rfl, rfl, by simp [slotBytes], ?_⟩
      simp [Wal.openOps, Wal.headerOps, Wal.placeholder, applyOp, hdisk, writeAt_zero, slotBytes]
  | emptied hfile hps hblocks _ hpage =>
      refine ⟨hblocks, hpage, by simp [slotBytes], ?_⟩
      simp [Wal.openOps, Wal.headerOps, hfile, hmx, applyOp, hdisk, writeAt_zero, slotBytes]
  | @live file log tail hps hlive =>
      subst hps
      have hopen : wal.openOps = [] := if_neg (by rw [hlive.isOpen]; simp)
      have hlog : log = [] := List.length_eq_zero_iff.mp (hlive.mxFrame_eq ▸ hmx)
      subst hlog
      have hcount := hlive.count_lt
      rw [countFrames] at hcount
      refine ⟨hlive.blocks_eq, ?_, ?_, ?_⟩
      · rcases hlive.committed with ⟨-, hpage⟩ | ⟨init, last, hlog, -⟩
        · exact hpage
        · simp at hlog
      · rwa [slotBytes, Option.getD_some, List.length_drop]
      · rw [hopen, List.nil_append, Wal.headerOps, if_pos hmx, applyOps_cons, applyOps_cons,
          applyOps_nil, applyOp_sync, applyOp_write_same, hdisk, Option.map_some, writeAt_zero,
          WalHeader.length_encode]
        rfl

theorem Tracks.of_mxFrame_ne_zero (h : Tracks ps wal (disk .wal)) (hmx : wal.mxFrame ≠ 0)
    (src : SaltSource) :
    wal.started src = wal ∧ ∃ file log tail, Live wal file log tail ∧ disk .wal = some file ∧
      applyOps disk (wal.openOps ++ wal.headerOps src) .wal = some file := by
  generalize hdisk : disk .wal = sidecar at h
  cases h with
  | absent heq => exact absurd (by rw [heq]; rfl) hmx
  | emptied _ _ _ hzero _ => exact absurd hzero hmx
  | @live file log tail hps hlive =>
      have hopen : wal.openOps = [] := if_neg (by rw [hlive.isOpen]; simp)
      have hsame : wal.started src = wal := by
        rw [Wal.started, Wal.nextHeader, Wal.nextSeed, if_neg hmx, if_neg hmx, hlive.cksum_eq,
          Option.getD_some, ← hlive.cksum_eq, ← hlive.isOpen]
      refine ⟨hsame, file, log, tail, hlive, rfl, ?_⟩
      rw [hopen, Wal.headerOps, if_neg hmx]
      exact hdisk

theorem Tracks.started (h : Tracks ps wal (disk .wal))
    (hfresh : wal.mxFrame = 0 → FreshSalts ps src (disk .wal)) :
    ∃ file log tail, Live (wal.started src) file log tail ∧
      applyOps disk (wal.openOps ++ wal.headerOps src) .wal = some file := by
  by_cases hmx : wal.mxFrame = 0
  · obtain ⟨hblocks, hpage, hcount, hfile⟩ := h.of_mxFrame_eq_zero hmx src
    have hstale := hfresh hmx
    rw [← h.pageSize_eq] at hstale hcount
    exact ⟨_, _, _, live_started_fresh hmx hblocks hpage hstale hcount, hfile⟩
  · obtain ⟨hsame, file, log, tail, hlive, -, hfile⟩ := h.of_mxFrame_ne_zero hmx src
    exact ⟨file, log, tail, by rwa [hsame], hfile⟩

def Wal.appended (wal : Wal) (frames : List (UInt32 × Bytes)) (nTruncate : UInt32) : Wal :=
  { wal with
    blocks := indexFrames wal.blocks (wal.mxFrame + 1) (frames.map Prod.fst)
    mxFrame := wal.mxFrame + frames.length
    nPage := nTruncate
    frameCksum := wal.frameCksum.map fun s => logCksum wal.header s (batchLog nTruncate frames) }

theorem Wal.afterWrite_eq (wal : Wal) (src : SaltSource) (frames : List (UInt32 × Bytes))
    (nTruncate : UInt32) :
    wal.afterWrite src frames nTruncate = (wal.started src).appended frames nTruncate := rfl

theorem Live.append (h : Live wal file log tail) (hne : frames ≠ []) (htrunc : nTruncate ≠ 0)
    (hframes : ∀ f ∈ frames, f.1 ≠ 0 ∧ f.2.length = wal.pageSize.size)
    (hcount : wal.mxFrame + frames.length < 2 ^ 32) :
    Live (wal.appended frames nTruncate)
      (wal.header.encode ++
        encodeLog wal.header wal.header.checksum (log ++ batchLog nTruncate frames) ++
        tail.drop (frames.length * frameSize wal.pageSize))
      (log ++ batchLog nTruncate frames)
      (tail.drop (frames.length * frameSize wal.pageSize)) := by
  have hfits : ∀ f ∈ log ++ batchLog nTruncate frames, f.Fits wal.pageSize := by
    intro f hf
    rcases List.mem_append.mp hf with hf | hf
    · exact h.fits f hf
    · exact fits_batchLog nTruncate hframes f hf
  refine ⟨h.isOpen, h.header_for, rfl, hfits, .inr ?_, ?_, ?_, ?_, h.stale.drop _, ?_⟩
  · obtain ⟨init, last, heq, hlast, -⟩ := batchLog_eq_append nTruncate hne
    exact ⟨log ++ init, last, by rw [heq, List.append_assoc], hlast, htrunc⟩
  · rw [List.length_append, length_batchLog, ← h.mxFrame_eq]
    rfl
  · rw [Wal.appended, h.cksum_eq, Option.map_some, logCksum_append]
  · rw [List.map_append, map_pgno_batchLog, indexFrames_append, ← h.blocks_eq, List.length_map,
      ← h.mxFrame_eq, Nat.add_comm 1]
    rfl
  · have hold := h.count_lt
    rw [h.countFrames_eq] at hold
    have hmx := h.mxFrame_eq
    change countFrames _ wal.pageSize < 2 ^ 32
    rw [countFrames, List.length_append, List.length_append, WalHeader.length_encode,
      length_encodeLog _ _ hfits, List.length_append, length_batchLog, walHeaderSize,
      Nat.add_assoc, Nat.add_sub_cancel_left, Nat.mul_comm, Nat.mul_add_div (frameSize_pos _),
      List.length_drop, Nat.mul_comm, Nat.sub_mul_div]
    omega

theorem Live.applyOps_frameWrites (h : Live wal file log tail) {batch : List LogFrame}
    (hbatch : ∀ f ∈ batch, f.Fits wal.pageSize) (hdisk : disk .wal = some file) :
    applyOps disk (frameWrites wal.pageSize wal.header batch wal.mxFrame
        (logCksum wal.header wal.header.checksum log)) .wal =
      some (wal.header.encode ++ encodeLog wal.header wal.header.checksum (log ++ batch) ++
        tail.drop (batch.length * frameSize wal.pageSize)) := by
  have hpre : (wal.header.encode ++ encodeLog wal.header wal.header.checksum log).length =
      frameOffset wal.pageSize (wal.mxFrame + 1) := by
    rw [List.length_append, WalHeader.length_encode, length_encodeLog _ _ h.fits, frameOffset,
      walHeaderSize, Nat.add_sub_cancel, h.mxFrame_eq]
  rw [Pager.applyOps_frameWrites wal.header hbatch _ _ disk _ tail (by rw [hdisk, h.file_eq]) hpre,
    encodeLog_append]
  simp only [List.append_assoc]

theorem of_writeFrames_ok (hne : frames ≠ [])
    (hrun : Wal.writeFrames src frames nTruncate p = .ok () q) :
    p.1.mxFrame + frames.length + hashtableNpage < 2 ^ 32 ∧
      ∀ f ∈ frames, f.2.length = p.1.pageSize.size := by
  simp only [Wal.writeFrames, hne, if_false] at hrun
  obtain ⟨_, p₁, hcheck, hrun⟩ := of_bind_ok hrun
  obtain ⟨_, p₂, hopen, hrun⟩ := of_bind_ok hrun
  obtain ⟨running, p₃, hstart, hrun⟩ := of_bind_ok hrun
  rw [getState_bind] at hrun
  obtain ⟨_, p₄, hloop, -⟩ := of_bind_ok hrun
  rw [Wal.checkFrameNumbers, getState_bind] at hcheck
  split_ifs at hcheck with hbig
  · cases hcheck
  · cases hcheck
    refine ⟨not_le.mp hbig, ?_⟩
    obtain ⟨-, h₂⟩ := (performs_openLazily p).of_ok hopen
    obtain ⟨-, h₃⟩ := (performs_startLog src p₂).of_ok hstart
    have hps : p₃.1.pageSize = p.1.pageSize := by
      rw [h₃, h₂]
    rw [← hps]
    exact writeFrameLoop_ok_length hloop

theorem Tracks.writeFrames (h : Tracks ps p.1 (p.2.disk .wal)) (hpgno : ∀ f ∈ frames, f.1 ≠ 0)
    (htrunc : nTruncate ≠ 0) (hfresh : p.1.mxFrame = 0 → FreshSalts ps src (p.2.disk .wal))
    (hrun : Wal.writeFrames src frames nTruncate p = .ok () q) : Tracks ps q.1 (q.2.disk .wal) := by
  by_cases hne : frames = []
  · simp only [Wal.writeFrames, hne, if_true] at hrun
    cases hrun
    exact h
  obtain ⟨hcount, hlen⟩ := of_writeFrames_ok hne hrun
  obtain ⟨-, rfl⟩ := (performs_writeFrames src nTruncate hne hcount hlen).of_ok hrun
  obtain ⟨file, log, tail, hlive, hdisk⟩ := h.started hfresh
  have hframes : ∀ f ∈ frames, f.1 ≠ 0 ∧ f.2.length = (p.1.started src).pageSize.size :=
    fun f hf => ⟨hpgno f hf, hlen f hf⟩
  have hseed : p.1.nextSeed src =
      logCksum (p.1.started src).header (p.1.started src).header.checksum log :=
    Option.some.inj hlive.cksum_eq
  have hfile := hlive.applyOps_frameWrites (fits_batchLog nTruncate hframes) hdisk
  rw [length_batchLog] at hfile
  have hdisk' : (p.2.applyAll (p.1.writeFramesOps src frames nTruncate)).disk .wal =
      some ((p.1.started src).header.encode ++
        encodeLog (p.1.started src).header (p.1.started src).header.checksum
          (log ++ batchLog nTruncate frames) ++
        tail.drop (frames.length * frameSize (p.1.started src).pageSize)) := by
    rw [World.disk_applyAll, Wal.writeFramesOps, applyOps_append, applyOps_append, hseed]
    exact hfile
  simp only [hdisk', Wal.afterWrite_eq]
  exact .live h.pageSize_eq (hlive.append hne htrunc hframes (by
    have : (p.1.started src).mxFrame = p.1.mxFrame := rfl
    omega))

end Rustqlite.Pager
