import Rustqlite.Pager.WalCheckpoint

/-!
# Commits cut short

A commit that reached the log only in part leaves what was committed before.
-/

namespace Rustqlite.Pager

open Foundation Format FileM

def acceptedFrames (sidecar : Option Bytes) (ps : PageSize) : Nat :=
  match sidecar with
  | none => 0
  | some file =>
      if file.length < walHeaderSize then 0
      else
        match Wal.usableHeader file ps with
        | none => 0
        | some header => (scanFrames file header ps).framePgnos.length

def Wal.headerBytes (wal : Wal) : Nat := if wal.mxFrame = 0 then walHeaderSize else 0

variable {ps : PageSize} {log : List LogFrame} {k : Nat} {wal : Wal} {disk : Disk DbFile}

theorem openWal_of_no_frames {sidecar : Option Bytes} (h : acceptedFrames sidecar ps = 0) :
    (Wal.openWal sidecar ps).mxFrame = 0 ∧ (Wal.openWal sidecar ps).nPage = 0 := by
  cases sidecar with
  | none => exact ⟨rfl, rfl⟩
  | some file =>
      by_cases hlen : file.length < walHeaderSize
      · rw [openWal_of_unusable (.inl hlen)]
        exact ⟨rfl, rfl⟩
      · cases husable : Wal.usableHeader file ps with
        | none =>
            rw [openWal_of_unusable (.inr husable)]
            exact ⟨rfl, rfl⟩
        | some header =>
            simp only [acceptedFrames, hlen, if_false, husable] at h
            have hscan : scanFrames file header ps = .start header :=
              recoverLoop_eq_self (by
                change (scanFrames file header ps).framePgnos.length ≤ _
                rw [h]
                exact Nat.zero_le _)
            rw [openWal_of_usableHeader (not_lt.mp hlen) husable, hscan]
            exact ⟨rfl, rfl⟩

theorem totalBytes_frameWrites (header : WalHeader) (hfits : ∀ f ∈ log, f.Fits ps) :
    ∀ iFrame running,
      totalBytes (frameWrites ps header log iFrame running) = log.length * frameSize ps := by
  induction log with
  | nil => intro _ _; simp [frameWrites, totalBytes]
  | cons f log ih =>
      intro iFrame running
      have hlen := length_buildFrame header running f.pgno f.commitSize
        (hfits f List.mem_cons_self).2
      have hrest := ih (fun g hg => hfits g (List.mem_cons_of_mem f hg)) (iFrame + 1)
        (buildFrame header running f.pgno f.commitSize f.data).2
      simp only [totalBytes, frameWrites, List.map_cons, List.sum_cons, FileOp.bytes, hlen,
        List.length_cons, Nat.succ_mul] at hrest ⊢
      omega

theorem frameWrites_append (ps : PageSize) (header : WalHeader) (log log' : List LogFrame) :
    ∀ iFrame running, frameWrites ps header (log ++ log') iFrame running =
      frameWrites ps header log iFrame running ++
        frameWrites ps header log' (iFrame + log.length) (logCksum header running log) := by
  induction log with
  | nil => intro _ _; rfl
  | cons f log ih =>
      intro iFrame running
      simp only [List.cons_append, frameWrites, ih, logCksum, List.length_cons, List.cons.injEq,
        true_and, List.append_cancel_left_eq]
      congr 1
      omega

theorem tear_frameWrites (header : WalHeader) (hfits : ∀ f ∈ log, f.Fits ps)
    (hk : k < log.length * frameSize ps) (iFrame : Nat) (running : Cksum) :
    ∃ part : Bytes, part.length = k % frameSize ps ∧
      tear k (frameWrites ps header log iFrame running) =
        frameWrites ps header (log.take (k / frameSize ps)) iFrame running ++
          if k % frameSize ps = 0 then []
          else [.write .wal (frameOffset ps (iFrame + k / frameSize ps + 1)) part] := by
  have hsize := frameSize_pos ps
  have hj : k / frameSize ps < log.length := (Nat.div_lt_iff_lt_mul hsize).mpr hk
  set j := k / frameSize ps with hjdef
  have htake : ∀ f ∈ log.take j, f.Fits ps := fun f hf => hfits f (List.mem_of_mem_take hf)
  have hbytes := totalBytes_frameWrites header htake iFrame running
  rw [List.length_take, Nat.min_eq_left hj.le] at hbytes
  have hrem : k - j * frameSize ps = k % frameSize ps := by
    have := Nat.div_add_mod k (frameSize ps)
    rw [Nat.mul_comm, ← hjdef] at this
    omega
  have hlow : j * frameSize ps ≤ k := Nat.div_mul_le_self k (frameSize ps)
  have hlt : k % frameSize ps < frameSize ps := Nat.mod_lt k hsize
  obtain ⟨f, rest, hsplit⟩ : ∃ f rest, log.drop j = f :: rest :=
    ⟨log[j], log.drop (j + 1), List.drop_eq_getElem_cons hj⟩
  have hf : f.Fits ps := hfits f (List.mem_of_mem_drop (hsplit ▸ List.mem_cons_self))
  set s := logCksum header running (log.take j)
  have hlen := length_buildFrame header s f.pgno f.commitSize hf.2
  refine ⟨(buildFrame header s f.pgno f.commitSize f.data).1.take (k % frameSize ps), ?_, ?_⟩
  · rw [List.length_take, hlen]
    omega
  · conv_lhs => rw [← List.take_append_drop j log, frameWrites_append]
    rw [tear_append_of_le (by omega), hbytes, hrem, hsplit, List.length_take,
      Nat.min_eq_left hj.le, frameWrites, tear, if_neg (by rw [hlen]; omega)]

theorem Live.openWal_uncommitted {file : Bytes} {tail : Bytes} (h : Live wal file log tail)
    {extra : List LogFrame} {crashed tail' : Bytes} (hfits : ∀ f ∈ extra, f.Fits wal.pageSize)
    (hextra : ∀ f ∈ extra, f.commitSize = 0) (hcrashed : crashed = wal.header.encode ++
      encodeLog wal.header wal.header.checksum (log ++ extra) ++ tail')
    (hcount : countFrames crashed wal.pageSize < 2 ^ 32)
    (haccept : acceptedFrames (some crashed) wal.pageSize ≤ log.length + extra.length) :
    (Wal.openWal (some crashed) wal.pageSize).mxFrame = wal.mxFrame ∧
      (Wal.openWal (some crashed) wal.pageSize).nPage = wal.nPage ∧
      (Wal.openWal (some crashed) wal.pageSize).blocks = wal.blocks := by
  have hall : ∀ f ∈ log ++ extra, f.Fits wal.pageSize := by
    intro f hf
    rcases List.mem_append.mp hf with hf | hf
    · exact h.fits f hf
    · exact hfits f hf
  have hlen : crashed.length =
      walHeaderSize + (log ++ extra).length * frameSize wal.pageSize + tail'.length := by
    rw [hcrashed, List.length_append, List.length_append, WalHeader.length_encode,
      length_encodeLog _ _ hall, walHeaderSize]
  have hshort : ¬ crashed.length < walHeaderSize := by omega
  have husable : Wal.usableHeader crashed wal.pageSize = some wal.header := by
    rw [hcrashed, List.append_assoc]
    exact h.header_for.usableHeader _
  have hslots : countFrames crashed wal.pageSize =
      (log ++ extra).length + tail'.length / frameSize wal.pageSize := by
    rw [countFrames, hlen, Nat.add_assoc, Nat.add_sub_cancel_left, Nat.mul_comm,
      Nat.mul_add_div (frameSize_pos _)]
  have hpgnos := framePgnos_recordLog wal.header (Recovery.start wal.header) 1 (log ++ extra)
  -- recovery goes through the frames that are there and accepts none behind them
  have hscan : scanFrames crashed wal.header wal.pageSize =
      (Recovery.start wal.header).recordLog wal.header 1 (log ++ extra) := by
    simp only [acceptedFrames, hshort, if_false, husable] at haccept
    rw [scanFrames, Nat.mod_eq_of_lt hcount, hslots] at haccept ⊢
    have hloop := recoverLoop_encodeLog wal.header hall wal.header.encode tail'
      (tail'.length / frameSize wal.pageSize) 1 (Recovery.start wal.header) le_rfl
      (by simp [frameOffset, walHeaderSize])
    rw [show (Recovery.start wal.header).running = wal.header.checksum from rfl, ← hcrashed]
      at hloop
    rw [hloop] at haccept ⊢
    apply recoverLoop_eq_self
    rw [hpgnos]
    simpa [Recovery.start] using haccept
  obtain ⟨hframe, hnpage, -⟩ := h.lastCommit
  obtain ⟨hframe', hnpage', -⟩ := recordLog_uncommitted wal.header
    ((Recovery.start wal.header).recordLog wal.header 1 log) (1 + log.length) hextra
  rw [← recordLog_append] at hframe' hnpage'
  rw [openWal_of_usableHeader (not_lt.mp hshort) husable, hscan]
  refine ⟨?_, hnpage'.trans hnpage, ?_⟩
  · exact (hframe'.trans hframe).trans h.mxFrame_eq.symm
  · rw [walOfScan, hpgnos, hframe', hframe, h.blocks_eq]
    simp [Recovery.start]

/--
The sidecar once the header of the commit's generation is in it: frames of the
writer's log, then slots that the commit will overwrite.
-/
theorem Tracks.started_slots (h : Tracks ps wal (disk .wal)) (src : SaltSource) :
    ∃ file log tail slots, Live (wal.started src) file log tail ∧
      log.length + slots.length / frameSize ps < 2 ^ 32 ∧
      applyOps disk (wal.openOps ++ wal.headerOps src) .wal =
        some ((wal.nextHeader src).encode ++
          encodeLog (wal.nextHeader src) (wal.nextHeader src).checksum log ++ slots) := by
  by_cases hmx : wal.mxFrame = 0
  · obtain ⟨hblocks, hpage, hcount, hfile⟩ := h.of_mxFrame_eq_zero hmx src
    have hnone : StaleSlots wal.pageSize src.salts [] := freshSalts_none _ src
    refine ⟨_, [], [], slotBytes (disk .wal),
      live_started_fresh hmx hblocks hpage hnone (by simp), by simpa using hcount, ?_⟩
    rw [hfile, Wal.nextHeader, if_pos hmx]
    simp [encodeLog]
  · obtain ⟨hsame, file, log, tail, hlive, -, hfile⟩ := h.of_mxFrame_ne_zero hmx src
    have hcount := hlive.count_lt
    rw [hlive.countFrames_eq, h.pageSize_eq] at hcount
    refine ⟨file, log, tail, tail, by rwa [hsame], hcount, ?_⟩
    rw [hfile, Wal.nextHeader, if_neg hmx, ← hlive.file_eq]

theorem totalBytes_openOps (wal : Wal) : totalBytes wal.openOps = 0 := by
  unfold Wal.openOps
  split_ifs <;> rfl

theorem totalBytes_headerOps (wal : Wal) (src : SaltSource) :
    totalBytes (wal.headerOps src) = wal.headerBytes := by
  unfold Wal.headerOps Wal.headerBytes
  split_ifs
  · simp [totalBytes, FileOp.bytes, walHeaderSize]
  · rfl

theorem findFrame_of_mxFrame_eq_zero (h : wal.mxFrame = 0) (pgno : UInt32) :
    wal.findFrame pgno = 0 := by
  rw [Wal.findFrame, findFrame, if_pos h]

theorem applyOps_torn_frames (header : WalHeader) {batch : List LogFrame}
    (hfits : ∀ f ∈ batch, f.Fits ps) (hk : k < batch.length * frameSize ps) {iFrame : Nat}
    (running : Cksum) {pre slots : Bytes} (hdisk : disk .wal = some (pre ++ slots))
    (hpre : pre.length = frameOffset ps (iFrame + 1)) :
    ∃ slots', applyOps disk (tear k (frameWrites ps header batch iFrame running)) .wal =
        some (pre ++ encodeLog header running (batch.take (k / frameSize ps)) ++ slots') ∧
      slots'.length / frameSize ps ≤ slots.length / frameSize ps - k / frameSize ps := by
  have hsize := frameSize_pos ps
  obtain ⟨part, hpart, htear⟩ := tear_frameWrites header hfits hk iFrame running
  have hj : k / frameSize ps < batch.length := (Nat.div_lt_iff_lt_mul hsize).mpr hk
  have htake : ∀ f ∈ batch.take (k / frameSize ps), f.Fits ps :=
    fun f hf => hfits f (List.mem_of_mem_take hf)
  have hwhole := applyOps_frameWrites header htake iFrame running disk pre slots hdisk hpre
  rw [List.length_take, Nat.min_eq_left hj.le] at hwhole
  rw [htear, applyOps_append]
  set j := k / frameSize ps
  have hrest : (slots.drop (j * frameSize ps)).length / frameSize ps =
      slots.length / frameSize ps - j := by
    rw [List.length_drop, Nat.mul_comm, Nat.sub_mul_div]
  by_cases hrem : k % frameSize ps = 0
  · exact ⟨slots.drop (j * frameSize ps), by rw [if_pos hrem, applyOps_nil, hwhole], hrest.le⟩
  · have hend : (pre ++ encodeLog header running (batch.take j)).length =
        frameOffset ps (iFrame + j + 1) := by
      rw [List.length_append, hpre, length_encodeLog _ _ htake, List.length_take,
        Nat.min_eq_left hj.le]
      simp only [frameOffset, Nat.add_sub_cancel, Nat.add_mul]
      omega
    refine ⟨part ++ (slots.drop (j * frameSize ps)).drop part.length, ?_, ?_⟩
    · rw [if_neg hrem, applyOps_cons, applyOps_nil, applyOp_write_same, hwhole, Option.map_some,
        ← hend, writeAt_append, List.append_assoc]
    · rw [← hrest, List.length_append, List.length_drop, hpart]
      have hlt := Nat.mod_lt k hsize
      by_cases hroom : k % frameSize ps ≤ (slots.drop (j * frameSize ps)).length
      · rw [Nat.add_sub_cancel' hroom]
      · rw [Nat.sub_eq_zero_of_le (by omega), Nat.add_zero, Nat.div_eq_of_lt hlt]
        exact Nat.zero_le _

/--
A commit of which only some bytes reached the log, and behind which no bytes
happen to pass for a frame, is not there after a reopen.
-/
theorem openWal_torn_commit {ps : PageSize} {w : World DbFile} {p q : Wal × World DbFile}
    {src : SaltSource} {frames : List (UInt32 × Bytes)} {nTruncate : UInt32}
    {ops : List (FileOp DbFile)} {k : Nat} (hw : w.disk .wal = none)
    (hreach : WalRun ps (Wal.openWal none ps, w) p) (hne : frames ≠ [])
    (hpgno : ∀ f ∈ frames, f.1 ≠ 0)
    (hrun : Wal.writeFrames src frames nTruncate p = .ok () q)
    (hops : q.2.trace = p.2.trace ++ ops) (hk : k < totalBytes ops)
    (hcut : acceptedFrames (applyOps p.2.disk (tear k ops) .wal) ps ≤
      p.1.mxFrame + (k - p.1.headerBytes) / frameSize ps) :
    let recovered := Wal.openWal (applyOps p.2.disk (tear k ops) .wal) ps
    recovered.mxFrame = p.1.mxFrame ∧ recovered.nPage = p.1.nPage ∧
      ∀ pgno, recovered.findFrame pgno = p.1.findFrame pgno := by
  have htracks := hreach.tracks (tracks_fresh ps hw)
  obtain ⟨hcount, hlen⟩ := of_writeFrames_ok hne hrun
  obtain ⟨-, rfl⟩ := (performs_writeFrames src nTruncate hne hcount hlen).of_ok hrun
  rw [World.trace_applyAll, List.append_cancel_left_eq] at hops
  subst hops
  have hfits : ∀ f ∈ batchLog nTruncate frames, f.Fits ps :=
    fits_batchLog nTruncate fun f hf => ⟨hpgno f hf, htracks.pageSize_eq ▸ hlen f hf⟩
  rw [Wal.writeFramesOps, List.append_assoc] at hk hcut ⊢
  have hsizes : totalBytes (p.1.openOps ++ p.1.headerOps src) = p.1.headerBytes := by
    rw [totalBytes_append, totalBytes_openOps, totalBytes_headerOps, Nat.zero_add]
  by_cases hheader : k < p.1.headerBytes
  · -- the cut is inside the header of a new generation: nothing was committed in it
    have hmx : p.1.mxFrame = 0 := by
      by_contra hne'
      rw [Wal.headerBytes, if_neg hne'] at hheader
      omega
    have hzero : p.1.mxFrame + (k - p.1.headerBytes) / frameSize ps = 0 := by
      rw [hmx, Nat.sub_eq_zero_of_le hheader.le, Nat.zero_div]
    rw [hzero] at hcut
    obtain ⟨hmx', hpage'⟩ := openWal_of_no_frames (Nat.le_zero.mp hcut)
    obtain ⟨-, hpage, -⟩ := htracks.of_mxFrame_eq_zero hmx src
    refine ⟨hmx'.trans hmx.symm, hpage'.trans hpage.symm, fun pgno => ?_⟩
    rw [findFrame_of_mxFrame_eq_zero hmx', findFrame_of_mxFrame_eq_zero hmx]
  · obtain ⟨file, log, tail, slots, hlive, hroom, hstart⟩ := htracks.started_slots src
    have hps : (p.1.started src).pageSize = ps := htracks.pageSize_eq
    have hseed : p.1.nextSeed src =
        logCksum (p.1.nextHeader src) (p.1.nextHeader src).checksum log :=
      Option.some.inj hlive.cksum_eq
    have hmx : p.1.mxFrame = log.length := hlive.mxFrame_eq
    have hpre : ((p.1.nextHeader src).encode ++
        encodeLog (p.1.nextHeader src) (p.1.nextHeader src).checksum log).length =
          frameOffset ps (p.1.mxFrame + 1) := by
      rw [List.length_append, WalHeader.length_encode,
        length_encodeLog _ _ (hps ▸ hlive.fits), frameOffset, walHeaderSize, Nat.add_sub_cancel,
        hmx]
    rw [totalBytes_append, hsizes, totalBytes_append, htracks.pageSize_eq,
      totalBytes_frameWrites _ hfits] at hk
    have hkframes : k - p.1.headerBytes < (batchLog nTruncate frames).length * frameSize ps := by
      have : totalBytes [FileOp.sync DbFile.wal] = 0 := rfl
      omega
    obtain ⟨slots', hcrashed, hslots'⟩ :=
      applyOps_torn_frames (p.1.nextHeader src) hfits hkframes (p.1.nextSeed src) hstart hpre
    rw [tear_append_of_le (by omega), hsizes, htracks.pageSize_eq,
      tear_append_of_lt (by rw [totalBytes_frameWrites _ hfits]; exact hkframes),
      applyOps_append, hcrashed] at hcut ⊢
    set j := (k - p.1.headerBytes) / frameSize ps
    have hj : j < (batchLog nTruncate frames).length :=
      (Nat.div_lt_iff_lt_mul (frameSize_pos ps)).mpr hkframes
    -- the commit frame is the last one, so it is not among the whole ones
    have huncommitted : ∀ f ∈ (batchLog nTruncate frames).take j, f.commitSize = 0 := by
      obtain ⟨init, last, heq, -, hinit⟩ := batchLog_eq_append nTruncate hne
      intro f hf
      rw [heq, List.length_append, List.length_singleton] at hj
      rw [heq, List.take_append_of_le_length (by omega)] at hf
      exact hinit f (List.mem_of_mem_take hf)
    have hfits' : ∀ f ∈ (batchLog nTruncate frames).take j, f.Fits (p.1.started src).pageSize :=
      fun f hf => hps ▸ hfits f (List.mem_of_mem_take hf)
    have hextra : ((batchLog nTruncate frames).take j).length = j := by
      rw [List.length_take, Nat.min_eq_left hj.le]
    have hall : ∀ f ∈ log ++ (batchLog nTruncate frames).take j, f.Fits ps := by
      intro f hf
      rcases List.mem_append.mp hf with hf | hf
      · exact hps ▸ hlive.fits f hf
      · exact hfits f (List.mem_of_mem_take hf)
    generalize hfile : (p.1.nextHeader src).encode ++
      encodeLog (p.1.nextHeader src) (p.1.nextHeader src).checksum log ++
      encodeLog (p.1.nextHeader src) (p.1.nextSeed src) ((batchLog nTruncate frames).take j) ++
      slots' = crashed at hcut ⊢
    have hcrashed' : crashed = (p.1.started src).header.encode ++
        encodeLog (p.1.started src).header (p.1.started src).header.checksum
          (log ++ (batchLog nTruncate frames).take j) ++ slots' := by
      rw [← hfile, encodeLog_append, hseed]
      simp only [List.append_assoc]
      rfl
    have hslots : countFrames crashed ps < 2 ^ 32 := by
      rw [countFrames, hcrashed', List.length_append, List.length_append, WalHeader.length_encode,
        length_encodeLog _ _ hall, List.length_append, hextra, walHeaderSize, Nat.add_assoc,
        Nat.add_sub_cancel_left, Nat.mul_comm, Nat.mul_add_div (frameSize_pos _)]
      rw [length_batchLog] at hj
      omega
    obtain ⟨hmx', hpage', hblocks'⟩ := hlive.openWal_uncommitted hfits' huncommitted hcrashed'
      (hps ▸ hslots) (by rw [hps, hextra, ← hmx]; exact hcut)
    rw [hps] at hmx' hpage' hblocks'
    refine ⟨hmx', hpage', fun pgno => ?_⟩
    rw [Wal.findFrame, hmx', hblocks']
    rfl

set_option maxRecDepth 10000 in
/-- A second commit cut off after 100 bytes leaves the first one. -/
theorem openWal_torn_second_commit :
    (Wal.openWal (applyOps afterCommit.2.disk
      (tear 100 (afterCommit.1.writeFramesOps secondSalts onePage 1)) .wal) smallPage).mxFrame =
        1 := by
  have hlen : ∀ f ∈ onePage, f.2.length = afterCommit.1.pageSize.size := by
    intro f hf
    rw [onePage, List.mem_singleton] at hf
    subst hf
    exact List.length_replicate
  have hrun := (performs_writeFrames (p := afterCommit) secondSalts 1 (by decide) (by decide)
    hlen).ok (by intro k hk; cases hk)
  refine (openWal_torn_commit rfl (Relation.ReflTransGen.single walStep_onePage) (by decide) ?_
    hrun (World.trace_applyAll _ _) (by decide) (by decide)).1
  intro f hf
  rw [onePage, List.mem_singleton] at hf
  subst hf
  decide

end Rustqlite.Pager
