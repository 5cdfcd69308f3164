import Rustqlite.Pager.Wal

/-!
# A log as a list of frames

The abstract content of a log file is its header, a list of frames and a tail
that recovery does not accept.  Recovery gives the list back up to its last
commit frame.
-/

namespace Rustqlite.Pager

open Foundation Format

structure LogFrame where
  pgno : UInt32
  commitSize : UInt32
  data : Bytes
  deriving DecidableEq

def LogFrame.Fits (ps : PageSize) (f : LogFrame) : Prop := f.pgno ≠ 0 ∧ f.data.length = ps.size

def encodeLog (header : WalHeader) : Cksum → List LogFrame → Bytes
  | _, [] => []
  | running, f :: log =>
      let (frame, running) := buildFrame header running f.pgno f.commitSize f.data
      frame ++ encodeLog header running log

def logCksum (header : WalHeader) : Cksum → List LogFrame → Cksum
  | running, [] => running
  | running, f :: log =>
      logCksum header (buildFrame header running f.pgno f.commitSize f.data).2 log

/-- The frames that one `write_frames` call appends. -/
def batchLog (nTruncate : UInt32) : List (UInt32 × Bytes) → List LogFrame
  | [] => []
  | (pgno, data) :: rest =>
      ⟨pgno, if rest = [] then nTruncate else 0, data⟩ :: batchLog nTruncate rest

section Equations

variable (header : WalHeader) (running : Cksum) (nTruncate : UInt32) (f : LogFrame)
  (log : List LogFrame)

end Equations

variable {ps : PageSize} {log : List LogFrame} {frames : List (UInt32 × Bytes)} {file frame : Bytes}
  {header : WalHeader} {fh : WalFrameHeader} {running : Cksum} {iFrame : Nat} {r : Recovery}

theorem length_buildFrame (header : WalHeader) (running : Cksum) (pgno commitSize : UInt32)
    {data : Bytes} (h : data.length = ps.size) :
    (buildFrame header running pgno commitSize data).1.length = frameSize ps := by
  simp [buildFrame, frameSize, walFrameHeaderSize, h, Nat.add_comm]

theorem frameSize_pos (ps : PageSize) : 0 < frameSize ps := by
  simp [frameSize, walFrameHeaderSize]

section Encode

variable (header : WalHeader) (running : Cksum)

theorem encodeLog_append (log log' : List LogFrame) :
    encodeLog header running (log ++ log') =
      encodeLog header running log ++ encodeLog header (logCksum header running log) log' := by
  induction log generalizing running with
  | nil => rfl
  | cons f log ih => simp [encodeLog, logCksum, ih]

theorem logCksum_append (log log' : List LogFrame) :
    logCksum header running (log ++ log') =
      logCksum header (logCksum header running log) log' := by
  induction log generalizing running with
  | nil => rfl
  | cons f log ih => simp [logCksum, ih]

theorem length_encodeLog (h : ∀ f ∈ log, f.Fits ps) :
    (encodeLog header running log).length = log.length * frameSize ps := by
  induction log generalizing running with
  | nil => exact (Nat.zero_mul _).symm
  | cons f log ih =>
      have hf := length_buildFrame header running f.pgno f.commitSize (h f List.mem_cons_self).2
      simp only [encodeLog, List.length_append, hf, List.length_cons,
        ih _ fun g hg => h g (List.mem_cons_of_mem f hg), Nat.succ_mul]
      omega

end Encode

@[simp] theorem length_batchLog (nTruncate : UInt32) (frames : List (UInt32 × Bytes)) :
    (batchLog nTruncate frames).length = frames.length := by
  induction frames with
  | nil => rfl
  | cons f frames ih => simp [batchLog, ih]

theorem map_pgno_batchLog (nTruncate : UInt32) (frames : List (UInt32 × Bytes)) :
    (batchLog nTruncate frames).map LogFrame.pgno = frames.map Prod.fst := by
  induction frames with
  | nil => rfl
  | cons f frames ih => simp [batchLog, ih]

theorem fits_batchLog (nTruncate : UInt32) (h : ∀ f ∈ frames, f.1 ≠ 0 ∧ f.2.length = ps.size) :
    ∀ f ∈ batchLog nTruncate frames, f.Fits ps := by
  induction frames with
  | nil => simp [batchLog]
  | cons f frames ih =>
      intro g hg
      rcases List.mem_cons.mp hg with rfl | hg
      · exact h f List.mem_cons_self
      · exact ih (fun k hk => h k (List.mem_cons_of_mem f hk)) g hg

theorem batchLog_eq_append (nTruncate : UInt32) (h : frames ≠ []) :
    ∃ init last, batchLog nTruncate frames = init ++ [last] ∧
      last.commitSize = nTruncate ∧ ∀ f ∈ init, f.commitSize = 0 := by
  induction frames with
  | nil => exact absurd rfl h
  | cons f frames ih =>
      obtain ⟨pgno, data⟩ := f
      by_cases hnil : frames = []
      · subst hnil
        exact ⟨[], ⟨pgno, nTruncate, data⟩, rfl, rfl, by simp⟩
      · obtain ⟨init, last, heq, hlast, hinit⟩ := ih hnil
        refine ⟨⟨pgno, 0, data⟩ :: init, last, by simp [batchLog, hnil, heq], hlast, ?_⟩
        intro g hg
        rcases List.mem_cons.mp hg with rfl | hg
        · rfl
        · exact hinit g hg

/-! ## What opening a log gives -/

def walOfScan (header : WalHeader) (ps : PageSize) (r : Recovery) : Wal where
  file := true
  header := header
  pageSize := ps
  blocks := indexFrames [] 1 (r.framePgnos.take r.lastCommitFrame)
  mxFrame := r.lastCommitFrame
  nPage := r.lastCommitNpage
  frameCksum := some (if r.lastCommitFrame = 0 then header.checksum else r.lastCommitCksum)

theorem openWal_of_usableHeader (hlen : walHeaderSize ≤ file.length)
    (h : Wal.usableHeader file ps = some header) :
    Wal.openWal (some file) ps = walOfScan header ps (scanFrames file header ps) := by
  rw [Wal.openWal]
  simp only [not_lt.mpr hlen, if_false, h]
  rw [Wal.recover]
  by_cases hnone : countFrames file ps = 0
  · have hscan : scanFrames file header ps = .start header := by
      rw [scanFrames, hnone]
      rfl
    rw [if_pos hnone, hscan]
    rfl
  · rw [if_neg hnone]
    rfl

theorem openWal_of_unusable (h : file.length < walHeaderSize ∨ Wal.usableHeader file ps = none) :
    Wal.openWal (some file) ps = .placeholder true ps := by
  rw [Wal.openWal]
  by_cases hlen : file.length < walHeaderSize
  · simp only [hlen, if_true]
  · simp only [hlen, if_false, h.resolve_left hlen]

/-! ## Recovery accepts what was written -/

theorem acceptFrame_buildFrame (header : WalHeader) (running : Cksum) (f : LogFrame)
    (hpgno : f.pgno ≠ 0) :
    acceptFrame header running (buildFrame header running f.pgno f.commitSize f.data).1 =
      some (⟨f.pgno, f.commitSize, header.salt1, header.salt2,
          (buildFrame header running f.pgno f.commitSize f.data).2.1,
          (buildFrame header running f.pgno f.commitSize f.data).2.2⟩,
        (buildFrame header running f.pgno f.commitSize f.data).2) := by
  set s := (buildFrame header running f.pgno f.commitSize f.data).2 with hs
  set fh : WalFrameHeader := ⟨f.pgno, f.commitSize, header.salt1, header.salt2, s.1, s.2⟩
  have hframe : (buildFrame header running f.pgno f.commitSize f.data).1 = fh.encode ++ f.data :=
    rfl
  have hdecode : WalFrameHeader.decode ((fh.encode ++ f.data).take walFrameHeaderSize) =
      .ok fh := by
    rw [walFrameHeaderSize, List.take_left' fh.length_encode, WalFrameHeader.decode_encode]
  have hfirst : (fh.encode ++ f.data).take 8 = be32 f.pgno ++ be32 f.commitSize := by
    simp [fh, WalFrameHeader.encode, List.append_assoc, List.take_append]
  have hsum : frameChecksum header.checksumBigEndian (fh.encode ++ f.data) running = s := by
    rw [frameChecksum, hfirst, walFrameHeaderSize, List.drop_left' fh.length_encode]
    rfl
  rw [hframe, acceptFrame, hdecode]
  simp only [WalHeader.salts, hsum]
  rw [if_neg (by simp [fh]), if_neg hpgno, if_neg (by simp [fh])]

def frameSalts (frame : Bytes) : UInt32 × UInt32 :=
  (readBe32 (frame.drop 8), readBe32 (frame.drop 12))

theorem decode_frame_salts (h : WalFrameHeader.decode (frame.take walFrameHeaderSize) = .ok fh) :
    (fh.salt1, fh.salt2) = frameSalts frame := by
  unfold WalFrameHeader.decode at h
  split_ifs at h
  cases h
  simp [frameSalts, readBe32, List.drop_take, walFrameHeaderSize, List.take_take]

theorem acceptFrame_of_salts_ne (h : frameSalts frame ≠ header.salts) :
    acceptFrame header running frame = none := by
  unfold acceptFrame
  cases hd : WalFrameHeader.decode (frame.take walFrameHeaderSize) with
  | error e => rfl
  | ok fh => simp only [decode_frame_salts hd, ne_eq, h, not_false_eq_true, if_true]

/-! ## The recovery loop over an encoded log -/

def Recovery.recordLog (header : WalHeader) : Recovery → Nat → List LogFrame → Recovery
  | r, _, [] => r
  | r, iFrame, f :: log =>
      recordLog header
        (r.record iFrame f.pgno f.commitSize
          (buildFrame header r.running f.pgno f.commitSize f.data).2) (iFrame + 1) log

section RecordLog

variable (header : WalHeader)

@[simp] theorem running_record (r : Recovery) (i : Nat) (p c : UInt32) (s : Cksum) :
    (r.record i p c s).running = s := by
  unfold Recovery.record
  split_ifs <;> rfl

@[simp] theorem framePgnos_record (r : Recovery) (i : Nat) (p c : UInt32) (s : Cksum) :
    (r.record i p c s).framePgnos = r.framePgnos ++ [p] := by
  unfold Recovery.record
  split_ifs <;> rfl

theorem recordLog_append (r : Recovery) (iFrame : Nat) (log log' : List LogFrame) :
    r.recordLog header iFrame (log ++ log') =
      (r.recordLog header iFrame log).recordLog header (iFrame + log.length) log' := by
  induction log generalizing r iFrame with
  | nil => rfl
  | cons f log ih =>
      simp only [List.cons_append, Recovery.recordLog, ih, List.length_cons]
      congr 1
      omega

theorem running_recordLog (r : Recovery) (iFrame : Nat) (log : List LogFrame) :
    (r.recordLog header iFrame log).running = logCksum header r.running log := by
  induction log generalizing r iFrame with
  | nil => rfl
  | cons f log ih => simp [Recovery.recordLog, logCksum, ih]

theorem framePgnos_recordLog (r : Recovery) (iFrame : Nat) (log : List LogFrame) :
    (r.recordLog header iFrame log).framePgnos = r.framePgnos ++ log.map LogFrame.pgno := by
  induction log generalizing r iFrame with
  | nil => exact (List.append_nil _).symm
  | cons f log ih => simp [Recovery.recordLog, ih]

theorem recordLog_uncommitted (r : Recovery) (iFrame : Nat) (h : ∀ f ∈ log, f.commitSize = 0) :
    (r.recordLog header iFrame log).lastCommitFrame = r.lastCommitFrame ∧
      (r.recordLog header iFrame log).lastCommitNpage = r.lastCommitNpage ∧
      (r.recordLog header iFrame log).lastCommitCksum = r.lastCommitCksum := by
  induction log generalizing r iFrame with
  | nil => exact ⟨rfl, rfl, rfl⟩
  | cons f log ih =>
      have hf := h f List.mem_cons_self
      have hrest := ih (r.record iFrame f.pgno f.commitSize
          (buildFrame header r.running f.pgno f.commitSize f.data).2) (iFrame + 1)
        fun g hg => h g (List.mem_cons_of_mem f hg)
      simpa [Recovery.recordLog, Recovery.record, hf] using hrest

theorem recordLog_commit (r : Recovery) (iFrame : Nat) (log : List LogFrame) {f : LogFrame}
    (h : f.commitSize ≠ 0) :
    (r.recordLog header iFrame (log ++ [f])).lastCommitFrame = iFrame + log.length ∧
      (r.recordLog header iFrame (log ++ [f])).lastCommitNpage = f.commitSize ∧
      (r.recordLog header iFrame (log ++ [f])).lastCommitCksum =
        logCksum header r.running (log ++ [f]) := by
  rw [recordLog_append, logCksum_append, ← running_recordLog header r iFrame log]
  simp [Recovery.recordLog, Recovery.record, h, logCksum]

end RecordLog

theorem frameOffset_succ (ps : PageSize) (h : 1 ≤ iFrame) :
    frameOffset ps (iFrame + 1) = frameOffset ps iFrame + frameSize ps := by
  obtain ⟨i, rfl⟩ : ∃ i, iFrame = i + 1 := ⟨iFrame - 1, by omega⟩
  simp only [frameOffset, Nat.add_sub_cancel, Nat.succ_mul]
  omega

theorem recoverLoop_encodeLog (header : WalHeader) (hfits : ∀ f ∈ log, f.Fits ps) :
    ∀ (pre tail : Bytes) (left iFrame : Nat) (r : Recovery), 1 ≤ iFrame →
      pre.length = frameOffset ps iFrame →
      recoverLoop (pre ++ encodeLog header r.running log ++ tail) header ps (log.length + left)
          iFrame r =
        recoverLoop (pre ++ encodeLog header r.running log ++ tail) header ps left
          (iFrame + log.length) (r.recordLog header iFrame log) := by
  induction log with
  | nil => intro pre tail left iFrame r _ _; simp [Recovery.recordLog]
  | cons f log ih =>
      intro pre tail left iFrame r hi hpre
      obtain ⟨hpgno, hdata⟩ := hfits f List.mem_cons_self
      have hlen := length_buildFrame header r.running f.pgno f.commitSize hdata
      have haccept := acceptFrame_buildFrame header r.running f hpgno
      set frame := (buildFrame header r.running f.pgno f.commitSize f.data).1 with hframe
      set s := (buildFrame header r.running f.pgno f.commitSize f.data).2 with hs
      have hencode : encodeLog header r.running (f :: log) = frame ++ encodeLog header s log := rfl
      have hslice : slice (pre ++ encodeLog header r.running (f :: log) ++ tail)
          (frameOffset ps iFrame) (frameSize ps) = frame := by
        rw [← hpre, ← hlen, List.append_assoc, slice_append_right _ _ le_rfl, Nat.sub_self,
          hencode, List.append_assoc]
        simp [slice]
      have hnext := ih (fun g hg => hfits g (List.mem_cons_of_mem f hg)) (pre ++ frame) tail left
        (iFrame + 1) (r.record iFrame f.pgno f.commitSize s) (by omega)
        (by rw [List.length_append, hlen, hpre, frameOffset_succ ps hi])
      rw [running_record] at hnext
      have hfile : pre ++ frame ++ encodeLog header s log ++ tail =
          pre ++ encodeLog header r.running (f :: log) ++ tail := by
        rw [hencode]
        simp only [List.append_assoc]
      rw [hfile] at hnext
      rw [show (f :: log).length + left = (log.length + left) + 1 by simp; omega, recoverLoop]
      simp only [hslice, hlen, lt_irrefl, if_false, haccept]
      rw [hnext, Recovery.recordLog, List.length_cons]
      congr 1
      omega

theorem recoverLoop_stop
    (h : (slice file (frameOffset ps iFrame) (frameSize ps)).length = frameSize ps →
      acceptFrame header r.running (slice file (frameOffset ps iFrame) (frameSize ps)) = none)
    (left : Nat) : recoverLoop file header ps left iFrame r = r := by
  cases left with
  | zero => rfl
  | succ left =>
      rw [recoverLoop]
      by_cases hlen : (slice file (frameOffset ps iFrame) (frameSize ps)).length < frameSize ps
      · simp only [hlen, if_true]
      · have hle : (slice file (frameOffset ps iFrame) (frameSize ps)).length ≤ frameSize ps := by
          rw [length_slice]
          omega
        simp only [hlen, if_false, h (by omega)]

/-! ## What a scan of any file has seen -/

def frameAt (file : Bytes) (ps : PageSize) (iFrame : Nat) : Bytes :=
  slice file (frameOffset ps iFrame) (frameSize ps)

def pgnoAt (file : Bytes) (ps : PageSize) (iFrame : Nat) : UInt32 :=
  readBe32 (frameAt file ps iFrame)

structure FrameOf (salts : UInt32 × UInt32) (file : Bytes) (ps : PageSize) (iFrame : Nat) :
    Prop where
  whole : (frameAt file ps iFrame).length = frameSize ps
  salts_eq : frameSalts (frameAt file ps iFrame) = salts
  pgno_ne : pgnoAt file ps iFrame ≠ 0

theorem decode_frame_pgno (h : WalFrameHeader.decode (frame.take walFrameHeaderSize) = .ok fh) :
    fh.pageNumber = readBe32 frame := by
  unfold WalFrameHeader.decode at h
  split_ifs at h
  cases h
  simp [readBe32, walFrameHeaderSize, List.take_take]

theorem acceptFrame_some {s : Cksum} (h : acceptFrame header running frame = some (fh, s)) :
    frameSalts frame = header.salts ∧ fh.pageNumber = readBe32 frame ∧ readBe32 frame ≠ 0 ∧
      s = (fh.checksum1, fh.checksum2) := by
  unfold acceptFrame at h
  cases hd : WalFrameHeader.decode (frame.take walFrameHeaderSize) with
  | error e =>
      rw [hd] at h
      cases h
  | ok fh' =>
      rw [hd] at h
      simp only at h
      split_ifs at h with hsalt hpgno hsum
      cases h
      rw [not_not] at hsalt hsum
      refine ⟨(decode_frame_salts hd).symm.trans hsalt, decode_frame_pgno hd, ?_, hsum⟩
      rwa [← decode_frame_pgno hd]

theorem recoverLoop_spec (file : Bytes) (header : WalHeader) (ps : PageSize) :
    ∀ left iFrame r, ∃ new,
      (recoverLoop file header ps left iFrame r).framePgnos = r.framePgnos ++ new ∧
      (∀ j p, new[j]? = some p →
        FrameOf header.salts file ps (iFrame + j) ∧ p = pgnoAt file ps (iFrame + j)) ∧
      ((recoverLoop file header ps left iFrame r).lastCommitFrame = r.lastCommitFrame ∨
        (recoverLoop file header ps left iFrame r).lastCommitFrame < iFrame + new.length) := by
  intro left
  induction left with
  | zero => exact fun iFrame r => ⟨[], by simp [recoverLoop]⟩
  | succ left ih =>
      intro iFrame r
      rw [recoverLoop]
      split_ifs with hlen
      · exact ⟨[], by simp⟩
      · cases haccept : acceptFrame header r.running
            (slice file (frameOffset ps iFrame) (frameSize ps)) with
        | none => exact ⟨[], by simp⟩
        | some result =>
            obtain ⟨fh, s⟩ := result
            obtain ⟨hsalts, hpgno, hne, -⟩ := acceptFrame_some haccept
            obtain ⟨new, hnew, hvalid, hcommit⟩ :=
              ih (iFrame + 1) (r.record iFrame fh.pageNumber fh.commitSize s)
            refine ⟨fh.pageNumber :: new, by simp [hnew], ?_, ?_⟩
            · intro j p hj
              cases j with
              | zero =>
                  simp only [List.getElem?_cons_zero, Option.some.injEq] at hj
                  subst hj
                  refine ⟨⟨le_antisymm ?_ (not_lt.mp hlen), hsalts, hne⟩, hpgno⟩
                  simp only [frameAt, length_slice]
                  omega
              | succ j =>
                  rw [List.getElem?_cons_succ] at hj
                  have := hvalid j p hj
                  rwa [show iFrame + 1 + j = iFrame + (j + 1) by omega] at this
            · simp only [List.length_cons]
              rcases hcommit with heq | hlt
              · rw [heq]
                unfold Recovery.record
                simp only
                split_ifs
                · exact .inr (by simp only; omega)
                · exact .inl rfl
              · exact .inr (by omega)

theorem scanFrames_frameOf {j : Nat} {p : UInt32}
    (h : (scanFrames file header ps).framePgnos[j]? = some p) :
    FrameOf header.salts file ps (1 + j) ∧ p = pgnoAt file ps (1 + j) := by
  obtain ⟨new, hnew, hvalid, -⟩ := recoverLoop_spec file header ps
    (countFrames file ps % 2 ^ 32) 1 (.start header)
  rw [scanFrames, hnew] at h
  exact hvalid j p (by simpa [Recovery.start] using h)

theorem lastCommitFrame_le (file : Bytes) (header : WalHeader) (ps : PageSize) :
    (scanFrames file header ps).lastCommitFrame ≤
      (scanFrames file header ps).framePgnos.length := by
  obtain ⟨new, hnew, -, hcommit⟩ := recoverLoop_spec file header ps
    (countFrames file ps % 2 ^ 32) 1 (.start header)
  rw [scanFrames, hnew, List.length_append]
  rcases hcommit with heq | hlt
  · rw [heq]
    exact Nat.zero_le _
  · omega

theorem recoverLoop_eq_self {left : Nat}
    (h : (recoverLoop file header ps left iFrame r).framePgnos.length ≤ r.framePgnos.length) :
    recoverLoop file header ps left iFrame r = r := by
  cases left with
  | zero => rfl
  | succ left =>
      apply recoverLoop_stop
      intro hlen
      by_contra hne
      obtain ⟨⟨fh, s⟩, haccept⟩ := Option.ne_none_iff_exists'.mp hne
      obtain ⟨new, hnew, -⟩ := recoverLoop_spec file header ps left (iFrame + 1)
        (r.record iFrame fh.pageNumber fh.commitSize s)
      rw [recoverLoop] at h
      simp only [hlen, lt_irrefl, if_false, haccept, hnew] at h
      simp at h

end Rustqlite.Pager
