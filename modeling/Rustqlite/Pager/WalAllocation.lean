import Rustqlite.Pager.Rollback
import Rustqlite.Pager.WalCheckpoint

/-!
# Allocating pages in WAL mode

An allocation that finds the freelist empty extends the page count that is kept
in memory, while `page_count()` also looks at the log.  After a reopen the first
comes from the size of the file and may be the smaller one.
-/

namespace Rustqlite.Pager

open Foundation Format Btree FileM

def PagerState.reserves (s : PagerState) (pgno : UInt32) : Bool :=
  isPendingBytePage pgno.toNat || (s.autoVacuum && isPtrmapPage s.geometry.usableSize pgno.toNat)

structure ExtendedTo (s s' : PagerState) (pgno : UInt32) : Prop where
  geometry : s'.geometry = s.geometry
  header : s'.header = s.header
  wal : s'.wal = s.wal
  pageCount : s'.pageCount = pgno
  above : s.pageCount < pgno
  free : s.reserves pgno = false
  skipped : ∀ q, s.pageCount < q → q < pgno → s.reserves q = true

variable {s s' : PagerState} {pgno : UInt32} {p : PagerState × World DbFile}

theorem reserves_congr (hg : s'.geometry = s.geometry) (hh : s'.header = s.header) (q : UInt32) :
    s'.reserves q = s.reserves q := by
  simp only [PagerState.reserves, PagerState.autoVacuum, hg, hh]

theorem toNat_succ_pageCount {n : UInt32} {left : Nat} (h : left + 1 + n.toNat = 2 ^ 32 - 1) :
    (n + 1).toNat = n.toNat + 1 := by
  rw [UInt32.toNat_add, UInt32.toNat_one]
  omega

def PagerState.extended (s : PagerState) : PagerState :=
  { s with
    pageCount := s.pageCount + 1
    dirty := s.dirty.insert (s.pageCount + 1) (zeroPage s.geometry) }

theorem extendFile_succ (left : Nat) (s : PagerState) (w : World DbFile) :
    extendFile s.geometry (left + 1) (s, w) =
      if s.reserves (s.pageCount + 1) then extendFile s.geometry left (s.extended, w)
      else .ok (s.pageCount + 1) (s.extended, w) := by
  simp only [extendFile, modifyState_bind, getState_bind]
  rw [PagerState.reserves]
  change (if isPendingBytePage (s.pageCount + 1).toNat then extendFile s.geometry left
    else if s.autoVacuum && isPtrmapPage s.geometry.usableSize (s.pageCount + 1).toNat then
      extendFile s.geometry left
    else pure (s.pageCount + 1)) (s.extended, w) = _
  cases isPendingBytePage (s.pageCount + 1).toNat with
  | true => rfl
  | false =>
      cases s.autoVacuum && isPtrmapPage s.geometry.usableSize (s.pageCount + 1).toNat with
      | true => rfl
      | false => rfl

theorem extendFile_spec (left : Nat) (s : PagerState) (w : World DbFile)
    (hleft : left + s.pageCount.toNat = 2 ^ 32 - 1) :
    match extendFile s.geometry left (s, w) with
    | .ok pgno q => ExtendedTo s q.1 pgno ∧ q.2 = w
    | .error _ _ => ∀ q, s.pageCount < q → s.reserves q = true := by
  induction left generalizing s with
  | zero =>
      intro q hq
      have hlt := UInt32.lt_iff_toNat_lt.mp hq
      have := q.toNat_lt
      omega
  | succ left ih =>
      have hnext := toNat_succ_pageCount hleft
      have hlt : s.pageCount < s.pageCount + 1 := by
        rw [UInt32.lt_iff_toNat_lt, hnext]
        omega
      have hsplit : ∀ q, s.pageCount < q → q = s.pageCount + 1 ∨ s.pageCount + 1 < q := by
        intro q hq
        rw [UInt32.lt_iff_toNat_lt] at hq ⊢
        rw [← UInt32.toNat_inj, hnext]
        omega
      have hsame : ∀ q, s.extended.reserves q = s.reserves q := reserves_congr rfl rfl
      rw [extendFile_succ]
      split_ifs with hres
      · have hrest := ih s.extended (by simp only [PagerState.extended, hnext]; omega)
        change match extendFile s.extended.geometry left (s.extended, w) with
          | .ok pgno q => ExtendedTo s q.1 pgno ∧ q.2 = w
          | .error _ _ => ∀ q, s.pageCount < q → s.reserves q = true
        split at hrest
        · obtain ⟨h, rfl⟩ := hrest
          refine ⟨⟨h.geometry, h.header, h.wal, h.pageCount, UInt32.lt_trans hlt h.above, ?_, ?_⟩,
            rfl⟩
          · rw [← hsame]
            exact h.free
          · intro q hq hqp
            rcases hsplit q hq with rfl | hq
            · exact hres
            · rw [← hsame]
              exact h.skipped q hq hqp
        · intro q hq
          rcases hsplit q hq with rfl | hq
          · exact hres
          · rw [← hsame]
            exact hrest q hq
      · refine ⟨⟨rfl, rfl, rfl, rfl, hlt, by simpa using hres, ?_⟩, rfl⟩
        intro q hq hqp
        rcases hsplit q hq with rfl | hq
        · exact absurd hqp (UInt32.lt_irrefl _)
        · exact absurd hqp (UInt32.lt_asymm hq)

def PagerState.freelistEmpty (s : PagerState) : Prop :=
  ¬ (0 < s.header.freelistCount ∧ s.header.firstFreelistTrunk ≠ 0)

theorem allocatePage_spec (h : s.freelistEmpty) (w : World DbFile) :
    match allocatePage (s, w) with
    | .ok pgno q => ExtendedTo s q.1 pgno ∧ q.2 = w
    | .error _ _ => ∀ q, s.pageCount < q → s.reserves q = true := by
  have hspec := extendFile_spec (2 ^ 32 - 1 - s.pageCount.toNat) s w (by
    have := s.pageCount.toNat_lt
    omega)
  rwa [allocatePage, getState_bind, if_neg h]

/-! ## Sequences of allocations -/

/--
The page count before each of `n` allocations and the page that it returns.  The
call has no error to return; a panic ends the sequence.
-/
def allocations : Nat → PagerState × World DbFile → List (UInt32 × UInt32)
  | 0, _ => []
  | n + 1, p =>
      match allocatePage p with
      | .ok pgno q => (p.1.effectiveCount, pgno) :: allocations n q
      | .error _ _ => []

def PagerState.logCount (s : PagerState) : UInt32 :=
  match s.wal with
  | some w => if w.mxFrame ≠ 0 then w.nPage else 0
  | none => 0

theorem toNat_effectiveCount (s : PagerState) :
    s.effectiveCount.toNat = max s.logCount.toNat s.pageCount.toNat := by
  have hmax : ∀ x y : UInt32, max x y = if x ≤ y then y else x := fun _ _ => rfl
  rw [PagerState.effectiveCount, PagerState.logCount]
  cases s.wal with
  | none => simp
  | some w =>
      dsimp only
      split_ifs with hmx
      · rw [hmax]
        split_ifs with h
        · exact (Nat.max_eq_right (UInt32.le_iff_toNat_le.mp h)).symm
        · have hlt := UInt32.lt_iff_toNat_lt.mp (UInt32.not_le.mp h)
          exact (Nat.max_eq_left hlt.le).symm
      · simp

def CaughtUp (s : PagerState) : Prop :=
  ∀ q, s.pageCount < q → q ≤ s.effectiveCount → s.reserves q = true

theorem ExtendedTo.caughtUp (h : ExtendedTo s s' pgno) (hlt : s.effectiveCount < pgno) :
    CaughtUp s' := by
  intro q hq hle
  have hlog : s'.logCount = s.logCount := by simp only [PagerState.logCount, h.wal]
  rw [UInt32.lt_iff_toNat_lt] at hq hlt
  rw [UInt32.le_iff_toNat_le, toNat_effectiveCount, hlog] at hle
  rw [toNat_effectiveCount] at hlt
  rw [h.pageCount] at hq hle
  omega

theorem CaughtUp.lt (h : ExtendedTo s s' pgno) (hs : CaughtUp s) : s.effectiveCount < pgno := by
  by_contra hle
  have hres := hs pgno h.above (UInt32.not_lt.mp hle)
  rw [h.free] at hres
  cases hres

theorem allocations_fresh (hempty : p.1.freelistEmpty) (hfresh : CaughtUp p.1) (n : Nat) :
    ∀ a ∈ allocations n p, a.1 < a.2 := by
  induction n generalizing p with
  | zero => simp [allocations]
  | succ n ih =>
      have hspec := allocatePage_spec hempty p.2
      rw [allocations]
      split
      · rename_i pgno q hrun
        rw [hrun] at hspec
        have hlt := hfresh.lt hspec.1
        have hempty' : q.1.freelistEmpty := by
          rw [PagerState.freelistEmpty, hspec.1.header]
          exact hempty
        rintro a ha
        rcases List.mem_cons.mp ha with rfl | ha
        · exact hlt
        · exact ih hempty' (hspec.1.caughtUp hlt) a ha
      · simp

theorem allocations_fresh_iff (hempty : p.1.freelistEmpty) :
    (∀ n, ∀ a ∈ allocations n p, a.1 < a.2) ↔ CaughtUp p.1 := by
  constructor
  · intro h q hq hle
    have hspec := allocatePage_spec hempty p.2
    have hfirst := h 1
    rw [allocations] at hfirst
    split at hfirst
    · rename_i pgno p' hrun
      rw [hrun] at hspec
      have hlt : p.1.effectiveCount < pgno := hfirst _ List.mem_cons_self
      refine hspec.1.skipped q hq ?_
      rw [UInt32.lt_iff_toNat_lt] at hlt ⊢
      rw [UInt32.le_iff_toNat_le] at hle
      omega
    · rename_i hrun
      rw [hrun] at hspec
      exact hspec q hq
  · exact fun h n => allocations_fresh hempty h n

/-! ## After a reopen -/

structure OpenedOn (disk : Disk DbFile) (s : PagerState) : Prop where
  header : DbHeader.parse (((disk .db).getD []).take 100) = .ok s.header
  geometry : s.geometry = DbHeader.geometry s.header
  pageCount : s.pageCount = UInt32.ofNat (((disk .db).getD []).length / s.pageSize)
  cache : s.cache = fun _ => none
  dirty : s.dirty = ∅
  txn : s.txn = none
  savepoints : s.savepoints = []
  wal : s.wal = if s.header.writeVersion = 2 ∨ s.header.readVersion = 2 then
    some (Wal.openWal (disk .wal) s.geometry.pageSize) else none

theorem openedOn_of_openPager {p : Unit × World DbFile} {q : Unit × World DbFile}
    (h : openPager p = .ok s q) : OpenedOn q.2.disk s := by
  obtain ⟨_, p₁, -, h⟩ := of_bind_ok h
  obtain ⟨file, p₂, hfile, h⟩ := of_bind_ok h
  obtain ⟨rfl, rfl⟩ := (Performs.contents _ _).of_ok hfile
  dsimp only at h
  by_cases hshort : (((p₁.2.disk .db).getD []).take 100).length < 100
  · rw [if_pos hshort] at h
    cases h
  rw [if_neg hshort] at h
  cases hparse : DbHeader.parse (((p₁.2.disk .db).getD []).take 100) with
  | error e =>
      rw [hparse] at h
      cases h
  | ok header =>
      rw [hparse] at h
      obtain ⟨file, p₄, hfile, h⟩ := of_bind_ok h
      obtain ⟨rfl, rfl⟩ := (Performs.contents _ _).of_ok hfile
      by_cases hmode : header.writeVersion = 2 ∨ header.readVersion = 2
      · simp only [hmode, if_true] at h
        obtain ⟨sidecar, p₅, hwal, h⟩ := of_bind_ok h
        obtain ⟨rfl, rfl⟩ := (Performs.contents _ _).of_ok hwal
        cases h
        exact ⟨hparse, rfl, rfl, rfl, rfl, rfl, rfl, (if_pos hmode).symm⟩
      · simp only [hmode, if_false] at h
        cases h
        exact ⟨hparse, rfl, rfl, rfl, rfl, rfl, rfl, (if_neg hmode).symm⟩

def filePages (disk : Disk DbFile) (s : PagerState) : UInt32 :=
  UInt32.ofNat (((disk .db).getD []).length / s.pageSize)

/--
In a transaction after a reopen in WAL mode, allocations that find the freelist
empty return fresh pages exactly when every page that the log has committed
beyond the end of the file is reserved.
-/
theorem allocations_after_reopen {w : World DbFile} {s : PagerState} {q : Unit × World DbFile}
    {log : Wal} (hopen : openPager ((), w) = .ok s q) (hwal : s.wal = some log)
    (hempty : s.freelistEmpty) {src : SaltSource} {p : PagerState × World DbFile}
    (hbegin : beginWrite src (s, q.2) = .ok () p) :
    (∀ n, ∀ a ∈ allocations n p, a.1 < a.2) ↔
      (log.mxFrame ≠ 0 → ∀ pgno, filePages q.2.disk s < pgno → pgno ≤ log.nPage →
        s.reserves pgno = true) := by
  have hopened := openedOn_of_openPager hopen
  obtain ⟨-, rfl⟩ := (performs_beginWrite hopened.txn src q.2).of_ok hbegin
  rw [allocations_fresh_iff hempty]
  have hlog : s.logCount = if log.mxFrame ≠ 0 then log.nPage else 0 := by
    rw [PagerState.logCount, hwal]
  have hcount : s.pageCount = filePages q.2.disk s := hopened.pageCount
  constructor
  · intro h hmx pgno hlt hle
    refine h pgno (hcount ▸ hlt) ?_
    change pgno ≤ s.effectiveCount
    rw [if_pos hmx] at hlog
    rw [UInt32.le_iff_toNat_le] at hle ⊢
    rw [toNat_effectiveCount, hlog]
    omega
  · intro h pgno hlt hle
    change s.pageCount < pgno at hlt
    change pgno ≤ s.effectiveCount at hle
    have hnat := UInt32.lt_iff_toNat_lt.mp hlt
    rw [UInt32.le_iff_toNat_le, toNat_effectiveCount, hlog] at hle
    by_cases hmx : log.mxFrame = 0
    · simp [hmx] at hle
      omega
    · rw [if_pos hmx] at hle
      exact h hmx pgno (hcount ▸ hlt) (by rw [UInt32.le_iff_toNat_le]; omega)

def walPageOne : Bytes :=
  buildFreshPage1 { freshHeader smallPage with writeVersion := 2, readVersion := 2 } 512

/-- The files after a commit that has put the first page and `extra` more into the log. -/
def walFiles (extra : List UInt32) : World DbFile :=
  let start : World DbFile :=
    ⟨Function.update (fun _ => none) .db (some walPageOne), [], none⟩
  let frames := (1, walPageOne) :: extra.map fun pgno => (pgno, List.replicate 512 0)
  (after (Wal.writeFrames firstSalts frames (UInt32.ofNat frames.length))
    (Wal.openWal none smallPage, start)).2

def testReopen (w : World DbFile) (test : PagerState → PagerState × World DbFile → Bool) : Bool :=
  endsWith openPager ((), w) fun s q => endsWith (beginWrite firstSalts) (s, q.2) fun _ => test s

instance (s : PagerState) : Decidable s.freelistEmpty :=
  inferInstanceAs (Decidable (¬ (0 < s.header.freelistCount ∧ s.header.firstFreelistTrunk ≠ 0)))

theorem exists_of_testReopen (w : World DbFile)
    (test : PagerState → PagerState × World DbFile → Bool) (h : testReopen w test = true) :
    ∃ s q p, openPager ((), w) = .ok s q ∧ beginWrite firstSalts (s, q.2) = .ok () p ∧
      test s p = true := by
  obtain ⟨s, q, hopen, h⟩ := exists_of_endsWith _ _ _ h
  obtain ⟨_, p, hbegin, h⟩ := exists_of_endsWith _ _ _ h
  exact ⟨s, q, p, hopen, hbegin, h⟩

set_option maxRecDepth 10000 in
/-- The log has no page that the file does not have. -/
theorem allocations_after_reopen_one : ∃ s q p,
    openPager ((), walFiles []) = .ok s q ∧ beginWrite firstSalts (s, q.2) = .ok () p ∧
      ∀ n, ∀ a ∈ allocations n p, a.1 < a.2 := by
  obtain ⟨s, q, p, hopen, hbegin, htest⟩ := exists_of_testReopen (walFiles [])
    (fun s _ => decide s.freelistEmpty && s.pageCount == 1 &&
      s.wal.any fun log => log.nPage == 1) (by decide)
  simp only [Bool.and_eq_true, decide_eq_true_eq, beq_iff_eq, Option.any_eq_true] at htest
  obtain ⟨⟨hempty, hcount⟩, log, hwal, hpages⟩ := htest
  refine ⟨s, q, p, hopen, hbegin, ?_⟩
  refine (allocations_after_reopen hopen hwal hempty hbegin).mpr fun _ pgno hlt hle => ?_
  have hfile : filePages q.2.disk s = 1 := (openedOn_of_openPager hopen).pageCount.symm.trans hcount
  rw [hfile, UInt32.lt_iff_toNat_lt] at hlt
  rw [hpages, UInt32.le_iff_toNat_le] at hle
  omega

set_option maxRecDepth 10000 in
/-- A page that is committed in the log only is handed out again. -/
theorem allocation_reuses_committed_page : ∃ s q p,
    openPager ((), walFiles [2]) = .ok s q ∧ s.wal.isSome ∧ s.freelistEmpty ∧
      beginWrite firstSalts (s, q.2) = .ok () p ∧
      ¬ ∀ n, ∀ a ∈ allocations n p, a.1 < a.2 := by
  obtain ⟨s, q, p, hopen, hbegin, htest⟩ := exists_of_testReopen (walFiles [2])
    (fun s p => decide s.freelistEmpty && s.wal.isSome && allocations 1 p == [(2, 2)])
    (by decide)
  simp only [Bool.and_eq_true, decide_eq_true_eq, beq_iff_eq] at htest
  obtain ⟨⟨hempty, hwal⟩, hfirst⟩ := htest
  refine ⟨s, q, p, hopen, hwal, hempty, hbegin, fun h => ?_⟩
  have := h 1 (2, 2) (by rw [hfirst]; exact List.mem_singleton.mpr rfl)
  exact absurd this (by decide)

end Rustqlite.Pager
