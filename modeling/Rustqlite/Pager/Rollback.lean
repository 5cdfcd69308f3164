import Rustqlite.Pager.Calls

/-!
# Rollback

A rollback drops the overlay, and a rollback to a savepoint puts back the one
that the savepoint remembers.  Neither touches the header in memory, so both
bring back the state only as far as the calls before them kept the header.
-/

namespace Rustqlite.Pager

open Foundation Format Btree FileM

def actingFields (h : DbHeader) : UInt32 × UInt32 × UInt32 × UInt32 :=
  (h.firstFreelistTrunk, h.freelistCount, h.schemaCookie, h.largestRootPage)

structure Restored (p p' : PagerState × World DbFile) : Prop where
  pages : ∀ pgno, seen p' pgno = seen p pgno
  pageCount : p'.1.effectiveCount = p.1.effectiveCount
  header : actingFields p'.1.header = actingFields p.1.header

/--
The call leaves the given fields of the header alone: it takes no page off the
freelist, puts none there, and sets no other value.
-/
def KeepsFields {α : Type} (fields : DbHeader → α) (p : PagerState × World DbFile) :
    TxnCall → Prop
  | .allocate => ¬ (0 < p.1.header.freelistCount ∧ p.1.header.firstFreelistTrunk ≠ 0)
  | .free pgno => ∃ e, pageSeen p.1 p.2.disk pgno = .error e
  | .updateHeader u => fields (u.apply p.1.header) = fields p.1.header
  | .setAutoVacuum mode =>
      1 < p.1.effectiveCount ∨ fields (autoVacuumHeader mode p.1.header) = fields p.1.header
  | .get _ | .readForWrite _ | .write _ _ => True

theorem KeepsFields.after {α : Type} {fields : DbHeader → α} {p : PagerState × World DbFile}
    {c : TxnCall} (hfail : p.2.failAt = none) (h : KeepsFields fields p c) :
    fields (after c.run p).1.header = fields p.1.header := by
  have hself : HeaderIs p.1.header p := ⟨rfl, hfail⟩
  cases c with
  | get pgno =>
      exact congrArg fields
        (Triple.after ((headerIs_getPage pgno).bind fun _ => Keeps.pure ()) hself).1
  | readForWrite pgno =>
      have hkeeps : Keeps (HeaderIs p.1.header) (readPageForWrite pgno) :=
        (headerIs_getPage pgno).bind fun page =>
          (headerIs_journalPage pgno page).bind fun _ => Keeps.pure page
      exact congrArg fields (Triple.after (hkeeps.bind fun _ => Keeps.pure ()) hself).1
  | write pgno data => exact congrArg fields (Triple.after (headerIs_writePage pgno data) hself).1
  | allocate =>
      have hrun : TxnCall.allocate.run p =
          (do let _ ← extendFile p.1.geometry (2 ^ 32 - 1 - p.1.pageCount.toNat)) p := by
        simp only [TxnCall.run, allocatePage, getState_bind, bind_assoc]
        rw [if_neg h]
      have hkeeps : Keeps (HeaderIs p.1.header)
          (do let _ ← extendFile p.1.geometry (2 ^ 32 - 1 - p.1.pageCount.toNat)) :=
        (headerIs_extendFile _ _).bind fun _ => Keeps.pure ()
      have hafter := Triple.after hkeeps hself
      rw [FileM.after, ← hrun] at hafter
      exact congrArg fields hafter.1
  | free pgno =>
      obtain ⟨e, he⟩ := h
      obtain ⟨w', -, hrun⟩ := freePage_error (s := p.1) hfail he
      rw [FileM.after, show p = (p.1, p.2) from rfl, TxnCall.run, hrun]
  | updateHeader u => exact h
  | setAutoVacuum mode =>
      simp only [FileM.after, TxnCall.run, Pager.setAutoVacuum, getState_bind]
      by_cases hcount : 1 < p.1.effectiveCount
      · simp only [if_pos hcount]
        rfl
      · simp only [if_neg hcount]
        exact h.resolve_left hcount

/-! ## Rollback of a transaction -/

def beginOps (s : PagerState) (src : SaltSource) : List (FileOp DbFile) :=
  if s.wal.isSome then [.probe .db, .probe .db]
  else
    [.probe .db, .probe .db, .create .journal, .truncate .journal 0,
      .write .journal 0 (buildHeader 0 (nextCksumInit src) s.effectiveCount
        (UInt32.ofNat s.pageSize)),
      .sync .journal]

/-- The transaction that `beginWrite` opens. -/
def begunTxn (s : PagerState) (src : SaltSource) : WriteTxn :=
  if s.wal.isSome then startTxn 0 s.effectiveCount 0
  else startTxn (nextCksumInit src) s.effectiveCount journalHdrSz

variable {s : PagerState} {w : World DbFile}

theorem performs_beginWrite (htxn : s.txn = none) (src : SaltSource) (w : World DbFile) :
    Performs ioFailed (beginWrite src) (s, w) (beginOps s src) ()
      { s with txn := some (begunTxn s src) } := by
  have hnot : s.inWriteTxn = false := by simp [PagerState.inWriteTxn, htxn]
  refine (Performs.getState (s, w)).bind_nil ?_
  simp only [hnot, Bool.false_eq_true, if_false, beginOps, begunTxn]
  cases hwal : s.wal.isSome with
  | true =>
      simp only [if_true]
      exact (Performs.perform _ _).bind ((Performs.perform _ _).bind (Performs.modifyState _ _))
  | false =>
      simp only [Bool.false_eq_true, if_false]
      exact (Performs.perform _ _).bind ((Performs.perform _ _).bind
        ((Performs.perform _ _).bind ((Performs.perform _ _).bind ((Performs.perform _ _).bind
          ((Performs.perform _ _).bind (Performs.modifyState _ _))))))

theorem endTxn_run (hfail : w.failAt = none) :
    endTxn (s, w) = .ok () ({ s with txn := none, savepoints := [] },
      w.applyAll [.delete .journal, .probe .db]) := by
  have hok : w.failAt ≠ some 0 := by simp [hfail]
  have hok' : (w.apply (.delete .journal)).failAt ≠ some 0 := by simp [World.apply, hfail]
  have hdelete : attempt (perform ioFailed (.delete .journal)) (s, w) =
      .ok () (s, w.apply (.delete .journal)) := by
    rw [attempt, perform_ok ioFailed _ s hok]
  rw [endTxn, bind_ok hdelete, bind_ok (perform_ok ioFailed _ s hok')]
  rfl

def rolledBack (s : PagerState) (n : UInt32) : PagerState where
  geometry := s.geometry
  header := s.header
  pageCount := n
  cache := fun p => if p ≤ n then s.cache p else none
  dirty := ∅
  txn := none
  savepoints := []
  wal := s.wal

theorem rollback_run (hfail : w.failAt = none) {t : WriteTxn} (htxn : s.txn = some t) :
    rollback (s, w) = .ok ()
      (rolledBack s t.dbOrigSize, w.applyAll [.delete .journal, .probe .db]) := by
  simp only [rollback, getState_bind, htxn, modifyState_bind]
  exact endTxn_run hfail

theorem applyAll_of_sideOnly (w : World DbFile) (ops : List (FileOp DbFile))
    (h : ∀ op ∈ ops, FileOp.sideOnly op = true) :
    (w.applyAll ops).disk .db = w.disk .db ∧ (w.applyAll ops).disk .wal = w.disk .wal := by
  induction ops generalizing w with
  | nil => exact ⟨rfl, rfl⟩
  | cons op ops ih =>
      have hop := applyOp_of_sideOnly (h op List.mem_cons_self) w.disk
      have hrest := ih (w.apply op) fun o ho => h o (List.mem_cons_of_mem op ho)
      exact ⟨hrest.1.trans hop.1, hrest.2.trans hop.2⟩

theorem sideOnly_beginOps (s : PagerState) (src : SaltSource) :
    ∀ op ∈ beginOps s src, FileOp.sideOnly op = true := by
  simp only [beginOps]
  split <;> simp [FileOp.sideOnly]

theorem begun_state (hfail : w.failAt = none) (htxn : s.txn = none) (src : SaltSource) :
    after (beginWrite src) (s, w) =
      ({ s with txn := some (begunTxn s src) }, w.applyAll (beginOps s src)) := by
  have hrun := (performs_beginWrite htxn src w).ok (by simp [hfail])
  rw [after, hrun]

theorem dbOrigSize_begunTxn (s : PagerState) (src : SaltSource) :
    (begunTxn s src).dbOrigSize = s.effectiveCount := by
  simp only [begunTxn]
  split <;> rfl

theorem max_max_left (a b : UInt32) : max a (max a b) = max a b := by
  have hmax : ∀ x y : UInt32, max x y = if x ≤ y then y else x := fun _ _ => rfl
  rw [hmax a b]
  split_ifs with h
  · rw [hmax, if_pos h]
  · rw [hmax, if_pos (UInt32.le_refl a)]

theorem effectiveCount_reset (s s' : PagerState) (hwal : s'.wal = s.wal)
    (hcount : s'.pageCount = s.effectiveCount) : s'.effectiveCount = s.effectiveCount := by
  simp only [PagerState.effectiveCount, hwal, hcount]
  cases s.wal with
  | none => rfl
  | some wal =>
      dsimp only
      split_ifs
      · exact max_max_left _ _
      · rfl

theorem pageSeen_congr {s' : PagerState} {disk disk' : Disk DbFile}
    (hcount : s'.effectiveCount = s.effectiveCount) {pgno : UInt32}
    (hpage : pgno ≤ s.effectiveCount →
      (s'.resident pgno).elim (storedPage s' disk' pgno) .ok =
        (s.resident pgno).elim (storedPage s disk pgno) .ok) :
    pageSeen s' disk' pgno = pageSeen s disk pgno := by
  simp only [pageSeen, hcount]
  split_ifs with h
  · rfl
  · have hle : pgno ≤ s.effectiveCount := UInt32.not_lt.mp fun hlt => h (.inr hlt)
    have := hpage hle
    revert this
    cases s'.resident pgno <;> cases s.resident pgno <;> exact id

theorem Extends.base_eq {p₀ p : PagerState × World DbFile} (h : Extends p₀ p) (pgno : UInt32) :
    (p.1.cache pgno).elim (storedPage p.1 p.2.disk pgno) .ok =
      (p₀.1.cache pgno).elim (storedPage p₀.1 p₀.2.disk pgno) .ok := by
  rw [h.storedPage_eq]
  cases hc₀ : p₀.1.cache pgno with
  | some d => rw [h.cache_grows pgno d hc₀]
  | none =>
      cases hc : p.1.cache pgno with
      | none => rfl
      | some d =>
          have := (h.cache_from pgno d hc).resolve_left (by simp [hc₀])
          exact this.symm

theorem rollback_restores (src : SaltSource) (calls : List TxnCall) {s : PagerState}
    {w : World DbFile} (hfail : w.failAt = none) (htxn : s.txn = none) (hdirty : s.dirty = ∅)
    (hcalls : StepsMeet TxnCall.run (KeepsFields actingFields) calls
      (after (beginWrite src) (s, w))) :
    ∃ p', rollback (runCalls TxnCall.run calls (after (beginWrite src) (s, w))) = .ok () p' ∧
      Restored (s, w) p' := by
  rw [begun_state hfail htxn src] at hcalls ⊢
  set p₁ : PagerState × World DbFile :=
    ({ s with txn := some (begunTxn s src) }, w.applyAll (beginOps s src)) with hp₁
  have hfail₁ : p₁.2.failAt = none := by simp [hp₁, World.failAt_applyAll, hfail]
  have hfiles : p₁.2.disk .db = w.disk .db ∧ p₁.2.disk .wal = w.disk .wal :=
    applyAll_of_sideOnly w _ (sideOnly_beginOps s src)
  set p₂ := runCalls TxnCall.run calls p₁
  -- the calls extend the state in which they start, and keep the fields
  have hrun : Extends p₁ p₂ ∧ actingFields p₂.1.header = actingFields s.header := by
    refine runCalls_invariant (I := fun p => Extends p₁ p ∧
      actingFields p.1.header = actingFields s.header) ?_ ⟨.refl hfail₁, rfl⟩ hcalls
    rintro p c ⟨hp, hh⟩ hc
    exact ⟨Triple.after (Extends.run c) hp, (hc.after hp.failAt).trans hh⟩
  obtain ⟨hext, hheader⟩ := hrun
  obtain ⟨t, ht, hsize⟩ : ∃ t, p₂.1.txn = some t ∧ t.dbOrigSize = s.effectiveCount := by
    have := hext.txn
    rw [hp₁, Option.map_some, dbOrigSize_begunTxn, Option.map_eq_some_iff] at this
    exact this
  have hroll := rollback_run (s := p₂.1) hext.failAt ht
  rw [hsize] at hroll
  refine ⟨_, hroll, ?_⟩
  have hcount := effectiveCount_reset s (rolledBack p₂.1 s.effectiveCount) hext.wal rfl
  have hdone : (p₂.2.applyAll [.delete .journal, .probe .db]).failAt = none := by
    rw [World.failAt_applyAll, hext.failAt, Option.map_none]
  have hside := applyAll_of_sideOnly p₂.2 [.delete .journal, .probe .db]
    (by simp [FileOp.sideOnly])
  constructor
  · intro pgno
    rw [seen_eq hdone, seen_eq hfail]
    apply pageSeen_congr hcount
    intro hle
    have hstored : storedPage p₁.1 p₁.2.disk pgno = storedPage s w.disk pgno :=
      storedPage_congr rfl rfl hfiles.1 hfiles.2 pgno
    have hstored' : storedPage (rolledBack p₂.1 s.effectiveCount)
        (p₂.2.applyAll [.delete .journal, .probe .db]).disk pgno = storedPage s w.disk pgno :=
      storedPage_congr hext.geometry hext.wal (hside.1.trans (hext.dbFile.trans hfiles.1))
        (hside.2.trans (hext.walFile.trans hfiles.2)) pgno
    have hbase := hext.base_eq pgno
    rw [hext.storedPage_eq, hstored] at hbase
    simp only [PagerState.resident, hdirty, AList.lookup_empty, Option.none_or, hstored']
    simpa [rolledBack, hle] using hbase
  · exact hcount
  · exact hheader

/-- A new database with pages of 512 bytes, as its pager sees it. -/
def freshPager : PagerState × World DbFile :=
  match createFresh 512 ((), ⟨Function.update (fun _ => none) .db (some []), [], none⟩) with
  | .ok s (_, w) => (s, w)
  | .error _ (_, w) => (⟨DbHeader.geometry (freshHeader ⟨512, isValidPageSize_512⟩),
      freshHeader ⟨512, isValidPageSize_512⟩, 0, fun _ => none, ∅, none, [], none⟩, w)

def firstSource : SaltSource := ⟨1, 0⟩

set_option maxRecDepth 10000 in
theorem rollback_restores_freshPager :
    ∃ p', rollback (runCalls TxnCall.run [.allocate, .write 2 (zeroPage freshPager.1.geometry),
        .updateHeader (.userVersion 7)] (after (beginWrite firstSource) freshPager)) = .ok () p' ∧
      Restored freshPager p' := by
  have hempty : ¬ (0 < (after (beginWrite firstSource) freshPager).1.header.freelistCount ∧
      (after (beginWrite firstSource) freshPager).1.header.firstFreelistTrunk ≠ 0) := by
    decide
  have hfields : ∀ h, actingFields ((HeaderUpdate.userVersion 7).apply h) = actingFields h :=
    fun _ => rfl
  exact rollback_restores firstSource _ (s := freshPager.1) (w := freshPager.2) rfl rfl rfl
    ⟨hempty, trivial, hfields _, trivial⟩

set_option maxRecDepth 10000 in
/-- A page that the transaction allocates and frees is on the freelist after the rollback. -/
theorem rollback_keeps_freed_page :
    ¬ Restored freshPager (after rollback (runCalls TxnCall.run [.allocate, .free 2]
      (after (beginWrite firstSource) freshPager))) := by
  intro h
  have := h.header
  revert this
  decide

end Rustqlite.Pager
