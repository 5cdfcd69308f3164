import Rustqlite.Pager.Playback

/-!
# Recovery can be interrupted

Until the journal is deleted a recovery only writes pages that have a record, and
the size of the file.  A second one therefore starts from a file that differs from
the first one's in nothing that playback does not replace.
-/

namespace Rustqlite.Pager

open Foundation Format FileM

/-! ## Writing pages over files that differ -/

variable {ps : Nat} {pages : List (UInt32 × Bytes)} {f g : Bytes}

theorem getD_writePages_congr (hlen : ∀ r ∈ pages, r.2.length = ps) {i : Nat}
    (h : (∃ r ∈ pages, InPage ps r.1 i) ∨ f.getD i 0 = g.getD i 0) :
    (writePages ps f pages).getD i 0 = (writePages ps g pages).getD i 0 := by
  induction pages generalizing f g with
  | nil => exact h.resolve_left (by simp)
  | cons r pages ih =>
      have hr := hlen r List.mem_cons_self
      apply ih fun x hx => hlen x (List.mem_cons_of_mem r hx)
      rw [getD_writeAt, getD_writeAt, hr]
      by_cases hin : InPage ps r.1 i
      · rw [if_pos hin, if_pos hin]
        exact .inr rfl
      · rw [if_neg hin, if_neg hin]
        rcases h with ⟨x, hx, hix⟩ | heq
        · rcases List.mem_cons.mp hx with rfl | hx
          · exact absurd hix hin
          · exact .inl ⟨x, hx, hix⟩
        · exact .inr heq

theorem resize_congr {n : Nat} (h : ∀ i < n, f.getD i 0 = g.getD i 0) :
    resize f n = resize g n := by
  apply List.ext_getElem (by simp)
  intro i hi hi'
  have hn : i < n := by simpa using hi
  have hget := (getD_resize f n i hn).trans ((h i hn).trans (getD_resize g n i hn).symm)
  rwa [List.getD_eq_getElem?_getD, List.getD_eq_getElem?_getD, List.getElem?_eq_getElem hi,
    List.getElem?_eq_getElem hi', Option.getD_some, Option.getD_some] at hget

/-! ## An interrupted recovery -/

/-- `f` differs from `b` at most behind the old end of the file and in pages with a record. -/
def AgreesOutside (header : JournalHeader) (records : PreImages) (b f : Bytes) : Prop :=
  ∀ i < header.dbOrigSize.toNat * header.pageSize.toNat,
    (∃ r ∈ within header.dbOrigSize records, InPage header.pageSize.toNat r.1 i) ∨
      f.getD i 0 = b.getD i 0

section Recovery

variable {journal b : Bytes} {header : JournalHeader} {records : PreImages}

theorem restoredFile_congr (h : HoldsRecords journal header records)
    (hf : AgreesOutside header records b f) :
    restoredFile header records f = restoredFile header records b := by
  apply resize_congr
  intro i hi
  apply getD_writePages_congr _ (hf i hi)
  intro r hr
  exact (h.valid r (List.mem_of_mem_filter hr)).length

inductive Midway (journal b : Bytes) (header : JournalHeader) (records : PreImages)
    (disk : Disk DbFile) : Prop where
  | pending {f : Bytes} (hjournal : disk .journal = some journal) (hdb : disk .db = some f)
      (hagrees : AgreesOutside header records b f)
  | finished (hjournal : disk .journal = none)
      (hdb : disk .db = some (restoredFile header records b))

inductive Restoring (header : JournalHeader) (records : PreImages) : FileOp DbFile → Prop where
  | probe (f : DbFile) : Restoring header records (.probe f)
  | sync (f : DbFile) : Restoring header records (.sync f)
  | create : Restoring header records (.create .journal)
  | write {r : UInt32 × Bytes} : r ∈ within header.dbOrigSize records →
      Restoring header records (.write .db ((r.1.toNat - 1) * header.pageSize.toNat) r.2)
  | truncate : Restoring header records
      (.truncate .db (header.dbOrigSize.toNat * header.pageSize.toNat))

variable {disk : Disk DbFile} {pgno : UInt32}

theorem Restoring.apply (h : HoldsRecords journal header records) {op : FileOp DbFile}
    (hop : Restoring header records op) (hjournal : disk .journal = some journal)
    (hdb : disk .db = some f) (hagrees : AgreesOutside header records b f) :
    applyOp disk op .journal = some journal ∧
      ∃ f', applyOp disk op .db = some f' ∧ AgreesOutside header records b f' := by
  cases hop with
  | probe => exact ⟨hjournal, f, hdb, hagrees⟩
  | sync => exact ⟨hjournal, f, hdb, hagrees⟩
  | create =>
      constructor
      · simp [applyOp, hjournal]
      · exact ⟨f, by rw [applyOp_of_ne _ (by simp [FileOp.target]), hdb], hagrees⟩
  | @write r hr =>
      have hlen := (h.valid r (List.mem_of_mem_filter hr)).length
      constructor
      · rw [applyOp_of_ne _ (by simp [FileOp.target]), hjournal]
      · refine ⟨_, by rw [applyOp_write_same, hdb, Option.map_some], fun i hi => ?_⟩
        rw [getD_writeAt, hlen]
        by_cases hin : InPage header.pageSize.toNat r.1 i
        · exact .inl ⟨r, hr, hin⟩
        · rw [if_neg hin]
          exact hagrees i hi
  | truncate =>
      constructor
      · rw [applyOp_of_ne _ (by simp [FileOp.target]), hjournal]
      · refine ⟨_, by rw [applyOp_truncate_same, hdb, Option.map_some], fun i hi => ?_⟩
        rw [getD_resize _ _ _ hi]
        exact hagrees i hi

theorem applyOps_restoring (h : HoldsRecords journal header records) {ops : List (FileOp DbFile)}
    (hops : ∀ op ∈ ops, Restoring header records op) (hjournal : disk .journal = some journal)
    (hdb : disk .db = some f) (hagrees : AgreesOutside header records b f) :
    applyOps disk ops .journal = some journal ∧
      ∃ f', applyOps disk ops .db = some f' ∧ AgreesOutside header records b f' := by
  induction ops generalizing disk f with
  | nil => exact ⟨hjournal, f, hdb, hagrees⟩
  | cons op ops ih =>
      obtain ⟨hjournal', f', hdb', hagrees'⟩ :=
        (hops op List.mem_cons_self).apply h hjournal hdb hagrees
      exact ih (fun o ho => hops o (List.mem_cons_of_mem op ho)) hjournal' hdb' hagrees'

theorem restoring_restoreOps (header : JournalHeader) (records : PreImages) :
    ∀ op ∈ restoreOps header.pageSize.toNat header.dbOrigSize records,
      Restoring header records op := by
  intro op hop
  rw [restoreOps, List.mem_append, List.mem_append] at hop
  rcases hop with (hop | hop) | hop
  · simp only [List.mem_cons, List.not_mem_nil, or_false] at hop
    rcases hop with rfl | rfl | rfl | rfl | rfl
    · exact .probe _
    · exact .probe _
    · exact .create
    · exact .probe _
    · exact .probe _
  · rw [playbackOps, List.mem_flatMap] at hop
    obtain ⟨r, hr, hop⟩ := hop
    rcases List.mem_cons.mp hop with rfl | hop
    · exact .probe _
    · rw [writeOps, List.mem_map] at hop
      obtain ⟨x, hx, rfl⟩ := hop
      rw [within, List.mem_filter, List.mem_singleton] at hx
      obtain ⟨rfl, hle⟩ := hx
      exact .write (List.mem_filter.mpr ⟨hr, hle⟩)
  · rcases List.mem_pair.mp hop with rfl | rfl
    · exact .truncate
    · exact .sync _

theorem Midway.take (h : HoldsRecords journal header records)
    (hjournal : disk .journal = some journal) (hdb : disk .db = some f)
    (hagrees : AgreesOutside header records b f) (k : Nat) :
    Midway journal b header records (applyOps disk
      ((recoverOps header.pageSize.toNat header.dbOrigSize records).take k)) := by
  set restore := restoreOps header.pageSize.toNat header.dbOrigSize records with hrestore
  rw [recoverOps, ← hrestore, List.take_append]
  by_cases hk : k ≤ restore.length
  · rw [Nat.sub_eq_zero_of_le hk, List.take_zero, List.append_nil]
    obtain ⟨hjournal', f', hdb', hagrees'⟩ := applyOps_restoring h
      (fun op hop => restoring_restoreOps header records op (List.mem_of_mem_take hop))
      hjournal hdb hagrees
    exact .pending hjournal' hdb' hagrees'
  · rw [List.take_of_length_le (by omega), applyOps_append]
    have hfile := applyOps_restoreOps hdb header records
    rw [← hrestore, restoredFile_congr h hagrees] at hfile
    obtain ⟨n, hn⟩ : ∃ n, k - restore.length = n + 1 := ⟨k - restore.length - 1, by omega⟩
    rw [hn, List.take_succ_cons]
    have hprobe : ∀ d : Disk DbFile,
        applyOps d (([.probe .db] : List (FileOp DbFile)).take n) = d := by
      intro d
      cases n with
      | zero => rfl
      | succ n => simp
    refine .finished ?_ ?_
    · rw [applyOps_cons, hprobe]
      simp [applyOp]
    · rw [applyOps_cons, hprobe, applyOp_of_ne _ (by simp [FileOp.target]), hfile]

/-- The files when recovery stops in front of its `k`th operation. -/
def interrupted (disk : Disk DbFile) (k : Nat) : Disk DbFile :=
  (after (recoverHotJournal : FileM Error DbFile Unit Unit) ((), ⟨disk, [], some k⟩)).2.disk

theorem interrupted_of_no_journal (h : disk .journal = none) (k : Nat) :
    interrupted disk k = disk := by
  have hperf : Performs ioFailed (recoverHotJournal : FileM Error DbFile Unit Unit)
      ((), ⟨disk, [], some k⟩) ([.probe .journal] ++ []) () () := by
    refine (Performs.contents DbFile.journal _).bind ?_
    rw [if_pos h]
    exact Performs.pure () _
  rw [interrupted, after]
  cases k with
  | zero =>
      obtain ⟨u, hrun⟩ := hperf.fail 0 rfl (by simp)
      rw [hrun]
      rfl
  | succ k =>
      rw [hperf.ok (by rintro n hn; cases hn; simp)]
      rfl

section

variable (h : HoldsRecords journal header records)

include h

theorem interrupted_run (hjournal : disk .journal = some journal) (k : Nat) :
    interrupted disk k = applyOps disk
      ((recoverOps header.pageSize.toNat header.dbOrigSize records).take k) := by
  have hperf := performs_recoverHotJournal (p := ((), ⟨disk, [], some k⟩)) h hjournal
  rw [interrupted, after]
  by_cases hk : k < (recoverOps header.pageSize.toNat header.dbOrigSize records).length
  · obtain ⟨u, hrun⟩ := hperf.fail k rfl hk
    rw [hrun, World.disk_applyAll]
  · rw [hperf.ok (by rintro n hn; cases hn; omega), World.disk_applyAll,
      List.take_of_length_le (by omega)]

theorem Midway.interrupted {disk : Disk DbFile} (hdisk : Midway journal b header records disk)
    (k : Nat) : Midway journal b header records (interrupted disk k) := by
  cases hdisk with
  | pending hjournal hdb hagrees =>
      rw [interrupted_run h hjournal]
      exact .take h hjournal hdb hagrees k
  | finished hjournal hdb =>
      rw [interrupted_of_no_journal hjournal]
      exact .finished hjournal hdb

theorem Midway.recovered {disk : Disk DbFile} (hdisk : Midway journal b header records disk) :
    recovered disk .db = some (restoredFile header records b) := by
  cases hdisk with
  | pending hjournal hdb hagrees => rw [recovered_db h hjournal hdb, restoredFile_congr h hagrees]
  | finished hjournal hdb => rw [recovered_of_no_journal hjournal, hdb]

theorem Midway.interruptions (hdisk : Midway journal b header records disk) (ks : List Nat) :
    Midway journal b header records (ks.foldl Pager.interrupted disk) := by
  induction ks generalizing disk with
  | nil => exact hdisk
  | cons k ks ih => exact ih (hdisk.interrupted h k)

end

/-! ## The pages of the restored file -/

theorem readPadded_writePages_of_not_mem (hvalid : ∀ r ∈ pages, Valid ps r) (h0 : pgno ≠ 0)
    (hnot : pgno ∉ pages.map Prod.fst) (b : Bytes) :
    readPadded (writePages ps b pages) ((pgno.toNat - 1) * ps) ps =
      readPadded b ((pgno.toNat - 1) * ps) ps := by
  induction pages generalizing b with
  | nil => rfl
  | cons r pages ih =>
      rw [List.map_cons, List.mem_cons, not_or] at hnot
      have hr := hvalid r List.mem_cons_self
      refine (ih (fun x hx => hvalid x (List.mem_cons_of_mem r hx)) hnot.2 _).trans ?_
      apply readPadded_writeAt_of_disjoint
      rw [hr.length]
      exact page_disjoint h0 hr.pos hnot.1 ps

theorem readPadded_writePages_of_mem (hvalid : ∀ r ∈ pages, Valid ps r)
    (hdistinct : (pages.map Prod.fst).Nodup) {r : UInt32 × Bytes} (hr : r ∈ pages) (b : Bytes) :
    readPadded (writePages ps b pages) ((r.1.toNat - 1) * ps) ps = r.2 := by
  induction pages generalizing b with
  | nil => cases hr
  | cons x pages ih =>
      rw [List.map_cons, List.nodup_cons] at hdistinct
      have htail : ∀ y ∈ pages, Valid ps y := fun y hy => hvalid y (List.mem_cons_of_mem x hy)
      rcases List.mem_cons.mp hr with rfl | hr
      · have hx := hvalid r List.mem_cons_self
        refine (readPadded_writePages_of_not_mem htail hx.pos hdistinct.1 _).trans ?_
        have hsame := readPadded_writeAt_same b ((r.1.toNat - 1) * ps) r.2
        rwa [hx.length] at hsame
      · exact ih htail hdistinct.2 hr _

def restoredPage (records : PreImages) (ps : Nat) (b : Bytes) (pgno : UInt32) : Bytes :=
  match records.find? fun r => r.1 = pgno with
  | some r => r.2
  | none => readPadded b ((pgno.toNat - 1) * ps) ps

theorem pageOf_restoredFile (h : HoldsRecords journal header records)
    (hdistinct : (records.map Prod.fst).Nodup) (h0 : pgno ≠ 0) (hle : pgno ≤ header.dbOrigSize) :
    pageOf header.pageSize.toNat (restoredFile header records b) pgno =
      restoredPage records header.pageSize.toNat b pgno := by
  set ps := header.pageSize.toNat with hps
  have hend : (pgno.toNat - 1) * ps + ps ≤ header.dbOrigSize.toNat * ps := by
    have hpos : pgno.toNat ≠ 0 := fun hz => h0 (UInt32.toNat_inj.mp hz)
    rw [← Nat.succ_mul]
    exact Nat.mul_le_mul_right ps (by have := UInt32.le_iff_toNat_le.mp hle; omega)
  have hvalid : ∀ r ∈ within header.dbOrigSize records, Valid ps r :=
    fun r hr => h.valid r (List.mem_of_mem_filter hr)
  have hsub : (within header.dbOrigSize records).Sublist records := List.filter_sublist
  rw [pageOf, ← readPadded_eq_slice (by rw [restoredFile, length_resize]; exact hend),
    restoredFile, readPadded_resize _ hend, restoredPage]
  cases hfind : records.find? fun r => r.1 = pgno with
  | some r =>
      have hr := List.mem_of_find?_eq_some hfind
      have hpgno : r.1 = pgno := by simpa using List.find?_some hfind
      subst hpgno
      have hin : r ∈ within header.dbOrigSize records :=
        List.mem_filter.mpr ⟨hr, by simpa using hle⟩
      exact readPadded_writePages_of_mem hvalid ((hsub.map Prod.fst).nodup hdistinct) hin b
  | none =>
      have hnot : pgno ∉ (within header.dbOrigSize records).map Prod.fst := by
        intro hmem
        obtain ⟨r, hr, rfl⟩ := List.mem_map.mp hmem
        simpa using List.find?_eq_none.mp hfind r (List.mem_of_mem_filter hr)
      exact readPadded_writePages_of_not_mem hvalid h0 hnot b

/--
Recovery succeeds, puts back the images in the journal, leaves every other page of
the old database alone and the file at its old size; interrupted any number of
times, each time at any of its operations, it ends with the same file.
-/
theorem recoverHotJournal_restores {disk : Disk DbFile} (hdb : disk .db = some b)
    (hjournal : disk .journal = some journal) (h : HoldsRecords journal header records)
    (hdistinct : (records.map Prod.fst).Nodup) :
    ∃ w b', (recoverHotJournal : FileM Error DbFile Unit Unit) ((), ⟨disk, [], none⟩) =
        .ok () ((), w) ∧ w.disk .db = some b' ∧ w.disk .journal = none ∧
      b'.length = header.dbOrigSize.toNat * header.pageSize.toNat ∧
      (∀ pgno, pgno ≠ 0 → pgno ≤ header.dbOrigSize →
        pageOf header.pageSize.toNat b' pgno =
          restoredPage records header.pageSize.toNat b pgno) ∧
      ∀ ks : List Nat, recovered (ks.foldl interrupted disk) .db = some b' := by
  have hrun := (performs_recoverHotJournal (p := ((), ⟨disk, [], none⟩)) h hjournal).ok (by simp)
  have hstart : Midway journal b header records disk :=
    .pending hjournal hdb fun _ _ => .inr rfl
  have hfile := recovered_db h hjournal hdb
  rw [recovered_run h hjournal] at hfile
  refine ⟨_, restoredFile header records b, hrun, ?_, ?_, ?_, ?_, ?_⟩
  · rw [World.disk_applyAll]
    exact hfile
  · rw [World.disk_applyAll, recoverOps, applyOps_append]
    simp [applyOp]
  · rw [restoredFile, length_resize]
  · exact fun pgno h0 hle => pageOf_restoredFile h hdistinct h0 hle
  · exact fun ks => (hstart.interruptions h ks).recovered h

end Recovery

def crashedFiles : Disk DbFile
  | .db => some (List.replicate 1024 1)
  | .journal => some (buildHeader 1 5 2 512 ++
      encodeRecords 5 [(2, List.replicate 512 7)] ++ [])
  | .wal => none

theorem recoverHotJournal_restores_crashedFiles :
    ∃ w b', (recoverHotJournal : FileM Error DbFile Unit Unit) ((), ⟨crashedFiles, [], none⟩) =
        .ok () ((), w) ∧ w.disk .db = some b' ∧ b'.length = 1024 ∧
      recovered ([3, 7, 5].foldl interrupted crashedFiles) .db = some b' := by
  have hvalid : ∀ r ∈ ([(2, List.replicate 512 7)] : PreImages), Valid 512 r := by
    intro r hr
    rw [List.mem_singleton.mp hr]
    exact ⟨by decide, List.length_replicate⟩
  have hnrec : (1 : UInt32).toNat = [((2 : UInt32), List.replicate 512 (7 : UInt8))].length := rfl
  have hholds := holdsRecords_built ⟨512, isValidPageSize_512⟩ 5 2 hnrec hvalid []
  obtain ⟨w, b', hrun, hdb, -, hlen, -, hagain⟩ :=
    recoverHotJournal_restores (show crashedFiles .db = _ from rfl) rfl hholds
      (List.nodup_singleton _)
  exact ⟨w, b', hrun, hdb, hlen, hagain [3, 7, 5]⟩

end Rustqlite.Pager
