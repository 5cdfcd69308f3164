import Rustqlite.Pager.FreelistRun
import Rustqlite.Vdbe.Transactions

/-!
# A COMMIT that fails

`OP_AutoCommit` turns the flag of the connection on before it asks the pager to
commit.  When the pager cannot, the flag stays on.
-/

namespace Rustqlite.Vdbe

open Foundation Format Pager FileM

/-! ## A commit of the pager -/

section Pager

def NoneDirty (p : PagerState × World DbFile) : Prop := p.1.dirty = ∅

/-- If the program ends without an error, nothing is pending and there is no transaction. -/
abbrev Ends (P : PagerState × World DbFile → Prop) (m : PagerM Unit) : Prop :=
  Triple P m (fun _ q => q.1.dirty = ∅ ∧ q.1.txn = none) fun _ => True

theorem noneDirty_perform (e : Error) (op : FileOp DbFile) : Keeps NoneDirty (perform e op) :=
  Triple.perform (fun _ h => h) fun _ h _ => h

theorem noneDirty_writePending (pageSize : Nat) (pending : List (UInt32 × Bytes)) :
    Keeps NoneDirty (writePending pageSize pending) := by
  induction pending with
  | nil => exact Keeps.pure ()
  | cons r pending ih =>
      obtain ⟨pgno, data⟩ := r
      rw [writePending]
      exact Keeps.ite (Keeps.throw _) ((noneDirty_perform _ _).bind fun _ => ih)

theorem noneDirty_promote (pending : List (UInt32 × Bytes)) :
    Keeps NoneDirty (promote pending) := by
  refine Triple.modifyState fun p hp => ?_
  obtain ⟨cache, hcache⟩ := promoted_state pending p.1
  rw [promoted] at hcache
  rw [NoneDirty, hcache]
  exact hp

theorem noneDirty_onWal {α : Type} (w : Wal) (m : Wal.WalM α) : Keeps NoneDirty (onWal w m) := by
  intro p hp
  rw [onWal, zoom]
  cases m (p.1.wal.getD w, p.2) with
  | ok a q => exact hp
  | error e q => exact hp

theorem noneDirty_attempt {m : PagerM Unit} (h : Keeps NoneDirty m) :
    Keeps NoneDirty (attempt m) :=
  Triple.attempt h

theorem endTxn_ends : Ends NoneDirty endTxn := by
  refine Triple.bind (E := fun _ => True) (Q := fun _ => NoneDirty) ?_ fun _ => ?_
  · exact (noneDirty_attempt (noneDirty_perform _ _)).conseq (fun _ h => h) (fun _ _ h => h)
      fun _ _ => trivial
  · refine Triple.bind (Q := fun _ => NoneDirty) ?_ fun _ => Triple.modifyState fun _ h => ⟨h, rfl⟩
    exact Triple.perform (fun _ h => h) fun _ _ _ => trivial

theorem Ends.after {α : Type} {P : PagerState × World DbFile → Prop} {m : PagerM α}
    {f : α → PagerM Unit} (hm : Keeps P m) (hf : ∀ a, Ends P (f a)) : Ends P (m >>= f) :=
  (hm.conseq (fun _ h => h) (fun _ _ h => h) fun _ _ => trivial).bind hf

theorem commitWal_ends (order : DrainOrder) (src : SaltSource) (w : Wal) (n : UInt32) :
    Ends (fun _ => True) (commitWal order src w n) := by
  refine Triple.bind (Triple.getState (Q := fun _ _ => True) fun _ _ => trivial) fun _ => ?_
  refine Triple.bind (Q := fun _ => NoneDirty) (Triple.modifyState fun _ _ => rfl) fun _ => ?_
  exact Ends.after (noneDirty_onWal _ _) fun _ =>
    Ends.after (noneDirty_promote _) fun _ => endTxn_ends

theorem commitJournal_ends (order : DrainOrder) (t : WriteTxn) (n : UInt32) :
    Ends (fun _ => True) (commitJournal order t n) := by
  refine Triple.bind (Q := fun _ _ => True) ?_ fun _ => ?_
  · intro p _
    split <;> trivial
  refine Triple.bind (Triple.getState (Q := fun _ _ => True) fun _ _ => trivial) fun s => ?_
  refine Triple.bind (Q := fun _ => NoneDirty) (Triple.modifyState fun _ _ => rfl) fun _ => ?_
  exact Ends.after (noneDirty_writePending _ _) fun _ =>
    Ends.after (noneDirty_perform _ _) fun _ => Ends.after (noneDirty_perform _ _) fun _ =>
      Ends.after (noneDirty_promote _) fun _ => endTxn_ends

theorem writeOut_ends (order : DrainOrder) (src : SaltSource) (n : UInt32) :
    Ends (fun _ => True) (writeOut order src n) := by
  refine Triple.bind (Triple.getState (Q := fun _ _ => True) fun _ _ => trivial) fun s => ?_
  cases s.wal with
  | some w => exact commitWal_ends order src w n
  | none =>
      cases s.txn with
      | some t => exact commitJournal_ends order t n
      | none => exact Triple.throw fun _ _ => trivial

/-- A commit that ends without an error leaves nothing pending, and no transaction. -/
theorem commit_ends (order : DrainOrder) (src : SaltSource) {p q : PagerState × World DbFile}
    (hopen : p.1.inWriteTxn = true) (h : commit order src p = .ok () q) :
    q.1.dirty = ∅ ∧ q.1.txn = none := by
  simp only [commit, getState_bind] at h
  split_ifs at h with hclosed hdirty hvacuums
  · rw [hopen] at hclosed
    cases hclosed
  · have hends := endTxn_ends p hdirty
    rwa [h] at hends
  · obtain ⟨_, p₁, -, h⟩ := of_bind_ok h
    simp only [getState_bind] at h
    obtain ⟨_, p₂, -, h⟩ := of_bind_ok h
    have hends := writeOut_ends order src p₁.1.effectiveCount p₂ trivial
    rwa [h] at hends
  · simp only [getState_bind] at h
    obtain ⟨_, p₁, -, h⟩ := of_bind_ok h
    have hends := writeOut_ends order src p.1.effectiveCount p₁ trivial
    rwa [h] at hends

end Pager

/-! ## COMMIT -/

structure StillOpen (p q : Session × World DbFile) : Prop where
  autocommit : q.1.autocommit = false
  dirty : q.1.pager.dirty = p.1.pager.dirty
  txn : q.1.pager.inWriteTxn = p.1.pager.inWriteTxn

structure Closed (q : Session × World DbFile) : Prop where
  autocommit : q.1.autocommit = true
  dirty : q.1.pager.dirty = ∅
  txn : q.1.pager.txn = none

/-- A COMMIT that fails keeps the transaction, and one that does not ends it. -/
def CommitRight (order : DrainOrder) (src : SaltSource) (p : Session × World DbFile) : Prop :=
  match commitStatement order src p with
  | .ok _ q => Closed q
  | .error e q => e.code = .panic ∨ StillOpen p q

/-- The branch in which the pager cannot commit is not taken; outside a write nothing is dirty. -/
def PagerCommits (order : DrainOrder) (src : SaltSource) (p : PagerState × World DbFile) : Prop :=
  if p.1.inWriteTxn then ∀ e q, commit order src p = .error e q → e.code = .panic
  else p.1.dirty = ∅

section Commit

variable {order : DrainOrder} {src : SaltSource} {p : Session × World DbFile}

variable {w : World DbFile} {s : PagerState}

theorem autoCommit_commit {c : Session} (h : c.autocommit = false) :
    autoCommit order src true false (c, w) =
      (do
        if c.pager.inWriteTxn then onPager (commit order src)
        onPager clearSavepoints
        modifyState fun c => { c with isTransactionSavepoint := false, writeTxn := false } :
          SessionM Unit) ({ c with autocommit := true }, w) := by
  simp only [autoCommit, getState_bind, h, Bool.true_eq_false, if_false, modifyState_bind, if_true,
    Bool.false_eq_true]

theorem commitStatement_error {e : Error} (h : p.1.autocommit = false)
    (hopen : p.1.pager.inWriteTxn = true)
    (hcommit : commit order src (p.1.pager, p.2) = .error e (s, w)) :
    ∃ q, commitStatement order src p = .error e q ∧ q.1.autocommit = true ∧ q.1.pager = s := by
  obtain ⟨c, w₀⟩ := p
  have hfails : onPager (commit order src) ({ c.prepared with autocommit := true }, w₀) =
      .error e ({ c.prepared with autocommit := true, pager := s }, w) := onPager_error hcommit
  have hrun : autoCommit order src true false (c.prepared, w₀) =
      .error e ({ c.prepared with autocommit := true, pager := s }, w) := by
    have hflag : c.prepared.autocommit = false := h
    have hopen' : c.prepared.pager.inWriteTxn = true := hopen
    rw [autoCommit_commit hflag, if_pos hopen', bind_error hfails]
  refine ⟨({ c.prepared with autocommit := true, pager := s }, w), ?_, rfl, rfl⟩
  simp only [commitStatement, runStatement, modifyState_bind, step, hrun]
  rw [after, cleanUp_reading order src _ rfl]
  rfl

theorem commitStatement_ok (h : p.1.autocommit = false) (hopen : p.1.pager.inWriteTxn = true)
    (hcommit : commit order src (p.1.pager, p.2) = .ok () (s, w)) :
    ∃ q, commitStatement order src p = .ok () q ∧ q.1.autocommit = true ∧
      q.1.pager = { s with savepoints := [] } := by
  obtain ⟨c, w₀⟩ := p
  have hpager : onPager (commit order src) ({ c.prepared with autocommit := true }, w₀) =
      .ok () ({ c.prepared with autocommit := true, pager := s }, w) := onPager_ok hcommit
  have hrun : autoCommit order src true false (c.prepared, w₀) =
      .ok () ({ c.prepared with
        autocommit := true
        pager := { s with savepoints := [] }
        isTransactionSavepoint := false
        writeTxn := false }, w) := by
    have hflag : c.prepared.autocommit = false := h
    have hopen' : c.prepared.pager.inWriteTxn = true := hopen
    rw [autoCommit_commit hflag, if_pos hopen', bind_ok hpager]
    rfl
  have hstatement : commitStatement order src (c, w₀) = .ok () ({ c.prepared with
      autocommit := true
      pager := { s with savepoints := [] }
      isTransactionSavepoint := false
      writeTxn := false }, w) := by
    simp only [commitStatement, runStatement, modifyState_bind]
    exact step_ok hrun
  exact ⟨_, hstatement, rfl, rfl⟩

theorem commitStatement_idle (h : p.1.autocommit = false) (hopen : p.1.pager.inWriteTxn = false) :
    ∃ q, commitStatement order src p = .ok () q ∧ q.1.autocommit = true ∧
      q.1.pager = { p.1.pager with savepoints := [] } := by
  obtain ⟨c, w⟩ := p
  have hrun : autoCommit order src true false (c.prepared, w) =
      .ok () ({ c.prepared with
        autocommit := true
        pager := { c.pager with savepoints := [] }
        isTransactionSavepoint := false
        writeTxn := false }, w) := by
    have hidle : c.prepared.pager.inWriteTxn = false := hopen
    have hflag : c.prepared.autocommit = false := h
    rw [autoCommit_commit hflag, hidle]
    rfl
  have hstatement : commitStatement order src (c, w) = .ok () ({ c.prepared with
      autocommit := true
      pager := { c.pager with savepoints := [] }
      isTransactionSavepoint := false
      writeTxn := false }, w) := by
    simp only [commitStatement, runStatement, modifyState_bind]
    exact step_ok hrun
  exact ⟨_, hstatement, rfl, rfl⟩

/--
Outside autocommit, a COMMIT keeps the transaction when it fails and ends it
when it does not, exactly when the pager's commit does not fail: the flag is on
before the pager is asked.
-/
theorem commitStatement_right_iff (order : DrainOrder) (src : SaltSource)
    (h : p.1.autocommit = false) :
    CommitRight order src p ↔ PagerCommits order src (p.1.pager, p.2) := by
  rw [CommitRight, PagerCommits]
  cases hopen : p.1.pager.inWriteTxn with
  | false =>
      obtain ⟨q, hrun, hflag, hpager⟩ := commitStatement_idle h hopen
      have htxn : q.1.pager.txn = none := by
        rw [hpager]
        simpa [PagerState.inWriteTxn] using hopen
      rw [hrun, if_neg (by simp)]
      constructor
      · intro hclosed
        have hdirty := hclosed.dirty
        rwa [hpager] at hdirty
      · intro hdirty
        exact ⟨hflag, by rw [hpager]; exact hdirty, htxn⟩
  | true =>
      rw [if_pos rfl]
      cases hcommit : commit order src (p.1.pager, p.2) with
      | ok u r =>
          obtain ⟨q, hrun, hflag, hpager⟩ := commitStatement_ok h hopen hcommit
          obtain ⟨hdirty, htxn⟩ := commit_ends order src hopen hcommit
          rw [hrun]
          refine iff_of_true ⟨hflag, ?_, ?_⟩ fun e q' herr => by cases herr
          · rw [hpager]
            exact hdirty
          · rw [hpager]
            exact htxn
      | error e r =>
          obtain ⟨q, hrun, hflag, -⟩ := commitStatement_error h hopen hcommit
          have hnot : ¬StillOpen p q := fun hstill => by
            have hoff := hstill.autocommit
            rw [hflag] at hoff
            cases hoff
          rw [hrun]
          constructor
          · intro hright e' q' herr
            cases herr
            exact hright.resolve_right hnot
          · intro hpanic
            exact .inl (hpanic e r rfl)

theorem rollbackStatement_autocommit (order : DrainOrder) (src : SaltSource)
    (h : p.1.autocommit = true) :
    ∃ q, rollbackStatement order src p =
        .error (.msg "cannot rollback - no transaction is active") q ∧ q.1.pager = p.1.pager := by
  obtain ⟨c, w⟩ := p
  have hflag : c.prepared.autocommit = true := h
  have hrun : autoCommit order src true true (c.prepared, w) =
      .error (.msg "cannot rollback - no transaction is active") (c.prepared, w) := by
    simp only [autoCommit, getState_bind, hflag, if_true]
    rfl
  have hstatement : rollbackStatement order src (c, w) =
      .error (.msg "cannot rollback - no transaction is active") (c.prepared, w) := by
    simp only [rollbackStatement, runStatement, modifyState_bind, step, hrun]
    rw [after, cleanUp_reading order src _ rfl]
    rfl
  exact ⟨_, hstatement, rfl⟩

end Commit

/-- A new database, in a transaction that has replaced page 1; `n` operations still succeed. -/
@[irreducible] def pendingSession (n : Option Nat) : Session × World DbFile :=
  let p := runCalls TxnCall.run [.readForWrite 1, .write 1 (zeroPage freshPager.1.geometry)]
    (after (beginWrite firstSource) freshPager)
  (⟨p.1, false, false, false, none, none⟩, { p.2 with failAt := n })

theorem commitStatement_right_pending :
    CommitRight listedOrder firstSource (pendingSession none) := by
  have hflag : (pendingSession none).1.autocommit = false := by decide +kernel
  have hmodified : (pendingSession none).1.pager.modified = true := by decide +kernel
  have hends : FileM.endsWith (commitStamped listedOrder firstSource)
      ((pendingSession none).1.pager, (pendingSession none).2) (fun _ _ => true) = true := by
    decide +kernel
  obtain ⟨u, q, hrun, -⟩ := FileM.exists_of_endsWith _ _ _ hends
  have hcommit := commit_of_modified (p := ((pendingSession none).1.pager, (pendingSession none).2))
    hmodified listedOrder firstSource
  refine (commitStatement_right_iff listedOrder firstSource hflag).mpr ?_
  rw [PagerCommits, hcommit, hrun]
  split_ifs with hopen
  · intro e q' herr
    cases herr
  · simp only [PagerState.modified, Bool.and_eq_true] at hmodified
    exact absurd hmodified.1.1 hopen

def failsOpen : EStateM.Result Error (PagerState × World DbFile) Unit → Bool
  | .ok _ _ => false
  | .error e q => decide (e.code = .ioErr) && q.1.inWriteTxn

/-- The first sync of the journal fails, and then there is no transaction to roll back. -/
theorem commitStatement_fails_closed : (pendingSession (some 0)).1.autocommit = false ∧
    ¬CommitRight listedOrder firstSource (pendingSession (some 0)) ∧
    ∃ e q, commitStatement listedOrder firstSource (pendingSession (some 0)) = .error e q ∧
      e.code = .ioErr ∧ ∃ e' q', rollbackStatement listedOrder firstSource q = .error e' q' ∧
        q'.1.pager.inWriteTxn = true := by
  have hflag : (pendingSession (some 0)).1.autocommit = false := by decide +kernel
  have hmodified : (pendingSession (some 0)).1.pager.modified = true := by decide +kernel
  have hcommit := commit_of_modified
    (p := ((pendingSession (some 0)).1.pager, (pendingSession (some 0)).2))
    hmodified listedOrder firstSource
  have htest : failsOpen (commitStamped listedOrder firstSource
      ((pendingSession (some 0)).1.pager, (pendingSession (some 0)).2)) = true := by
    decide +kernel
  have hopen : (pendingSession (some 0)).1.pager.inWriteTxn = true := by
    simp only [PagerState.modified, Bool.and_eq_true] at hmodified
    exact hmodified.1.1
  rw [← hcommit] at htest
  cases hfails : commit listedOrder firstSource
      ((pendingSession (some 0)).1.pager, (pendingSession (some 0)).2) with
  | ok u r => simp [hfails, failsOpen] at htest
  | error e r =>
      simp only [hfails, failsOpen, Bool.and_eq_true, decide_eq_true_eq] at htest
      obtain ⟨hcode, htxn⟩ := htest
      obtain ⟨q, hrun, hon, hpager⟩ := commitStatement_error hflag hopen hfails
      obtain ⟨q', hback, hpager'⟩ :=
        rollbackStatement_autocommit listedOrder firstSource hon
      refine ⟨hflag, ?_, e, q, hrun, hcode, _, q', hback, ?_⟩
      · rw [CommitRight, hrun]
        rintro (hpanic | hstill)
        · rw [hcode] at hpanic
          cases hpanic
        · rw [hstill.autocommit] at hon
          cases hon
      · rw [hpager', hpager]
        exact htxn

end Rustqlite.Vdbe
