import Mathlib.Data.List.TakeWhile
import Rustqlite.Pager.FreelistRun
import Rustqlite.Vdbe.Transactions

/-!
# The savepoint of a statement

A statement that writes inside an explicit transaction opens a savepoint under a
name of its own and ends it by that name.  The user's savepoints are on the same
stack, and may have that name, too.
-/

namespace Rustqlite.Vdbe

open Foundation Format Pager FileM

inductive Ending where
  | done
  | raised (e : Error) (oe : Option OeAction)
  | abandoned

/-- The calls of a statement, whatever they answer. -/
def runBody : List TxnCall → SessionM Unit
  | [] => pure ()
  | call :: calls => do
      attempt (onPager call.run)
      runBody calls

def runEnding (order : DrainOrder) (src : SaltSource) : Ending → SessionM Unit
  | .done => halt order src
  | .raised e oe => haltWithError e oe
  | .abandoned => pure ()

def statement (order : DrainOrder) (src : SaltSource) (defaultOe : OeAction) (p2 : Nat)
    (calls : List TxnCall) (ending : Ending) : SessionM Unit :=
  runStatement order src defaultOe do
    transaction src p2
    runBody calls
    runEnding order src ending

/-! ## The user's savepoints -/

/-- A savepoint, and whether it is the user's or has been left behind by a statement. -/
abbrev Marked := PagerSavepoint × Bool

def users (stack : List Marked) : List PagerSavepoint :=
  (stack.filter Prod.snd).map Prod.fst

def Leftovers (stack : List Marked) : Prop := ∀ x ∈ stack, x.2 = false → x.1.name = stmtSp

def standing (c : Session) : List PagerSavepoint :=
  if c.stmtSavepoint = none then c.pager.savepoints else c.pager.savepoints.dropLast

/-- Beside what statements have left behind, the stack has the user's savepoints as they were. -/
def KeepsUsers (stack : List Marked) (c : Session) : Prop :=
  ∃ stack', standing c = stack'.map Prod.fst ∧ Leftovers stack' ∧ users stack' = users stack

def Ending.finds : Ending → String → Bool
  | .abandoned => fun name => name == stmtSp
  | .done | .raised _ _ => fun name => eqIgnoreAsciiCase name stmtSp

/-- No savepoint of the user has such a name, and none has been opened above a leftover. -/
def UsersApart (finds : String → Bool) (stack : List Marked) : Prop :=
  (∀ x ∈ stack, x.2 = true → finds x.1.name = false) ∧
    stack.Pairwise fun x y => y.2 = true → x.2 = true

def Opens (src : SaltSource) (p2 : Nat) (p : PagerState × World DbFile) : Prop :=
  p2 ≠ 0 ∧ (p.1.txn = none → ∀ k, p.2.failAt = some k → (beginOps p.1 src).length ≤ k)

section Stack

variable {finds : String → Bool} {stack : List Marked}

theorem users_eq_nil (h : ∀ x ∈ stack, x.2 = false) : users stack = [] := by
  rw [users, List.map_eq_nil_iff, List.filter_eq_nil_iff]
  intro x hx hmine
  rw [h x hx] at hmine
  cases hmine

theorem takeWhile_eq_users_iff (hfinds : finds stmtSp = true) (h : Leftovers stack) :
    (stack.map Prod.fst).takeWhile (fun sp => !finds sp.name) = users stack ↔
      UsersApart finds stack := by
  induction stack with
  | nil => simp [users, UsersApart]
  | cons x stack ih =>
      obtain ⟨hx, hrest⟩ := List.forall_mem_cons.mp h
      rw [List.map_cons, UsersApart, List.forall_mem_cons, List.pairwise_cons]
      cases hfound : finds x.1.name with
      | true =>
          rw [List.takeWhile_cons_of_neg (by simp [hfound])]
          cases hmine : x.2 with
          | true =>
              simp [users, hmine]
          | false =>
              -- no savepoint of the user may stand above the leftover
              simp only [users, List.filter_cons, hmine, Bool.false_eq_true, if_false,
                false_implies, true_and, imp_false, Bool.not_eq_true]
              constructor
              · intro hnil
                have hnone : ∀ y ∈ stack, y.2 = false := by
                  simpa using hnil
                refine ⟨fun y hy hyes => ?_, hnone, List.pairwise_of_forall_mem_list ?_⟩
                · rw [hnone y hy] at hyes
                  cases hyes
                · intro y _ z hz hyes
                  rw [hnone z hz] at hyes
                  cases hyes
              · rintro ⟨-, hnone, -⟩
                exact (users_eq_nil hnone).symm
      | false =>
          have hmine : x.2 = true := by
            by_contra hleft
            rw [hx (by simpa using hleft), hfinds] at hfound
            cases hfound
          rw [List.takeWhile_cons_of_pos (by simp [hfound])]
          have husers : users (x :: stack) = x.1 :: users stack := by
            simp [users, hmine]
          rw [husers, List.cons.injEq, ih hrest, UsersApart]
          simp [hmine]

end Stack

/-! ## What does not touch the stack -/

section Quiet

abbrev StackIs (S : List PagerSavepoint) (p : PagerState × World DbFile) : Prop :=
  p.1.savepoints = S

variable {S : List PagerSavepoint}

theorem stackIs_perform (e : Error) (op : FileOp DbFile) : Keeps (StackIs S) (perform e op) :=
  Triple.perform (fun _ h => h) fun _ h _ => h

theorem stackIs_contents (e : Error) (f : DbFile) : Keeps (StackIs S) (contents e f) :=
  Triple.contents (fun _ h => h) fun _ h _ => h

theorem stackIs_readStored (s : PagerState) (pgno : UInt32) :
    Keeps (StackIs S) (readStored s pgno) := by
  rw [readStored]
  split
  · exact Keeps.getState.bind fun _ => Keeps.ite (Keeps.throw _)
      ((stackIs_contents _ _).bind fun _ => Keeps.pure _)
  · exact Keeps.getState.bind fun _ => (stackIs_contents _ _).bind fun _ =>
      Keeps.ite (Keeps.throw _) (Keeps.pure _)

theorem stackIs_getPage (pgno : UInt32) : Keeps (StackIs S) (getPage pgno) := by
  refine Keeps.getState.bind fun s => Keeps.ite (Keeps.throw _) ?_
  cases s.resident pgno with
  | some page => exact Keeps.pure page
  | none =>
      exact (stackIs_readStored s pgno).bind fun _ =>
        Triple.bind (Triple.modifyState fun _ h => h) fun _ => Keeps.pure _

theorem stackIs_journalPage (pgno : UInt32) (preimage : Bytes) :
    Keeps (StackIs S) (journalPage pgno preimage) := by
  refine Keeps.getState.bind fun s => Keeps.ite (Keeps.pure _) ?_
  cases s.txn with
  | none => exact Keeps.pure _
  | some t =>
      exact Keeps.ite (Keeps.pure _)
        (Triple.bind (Triple.modifyState fun _ h => h) fun _ => stackIs_perform _ _)

theorem stackIs_primitives : Primitives (StackIs S) where
  getPage := stackIs_getPage
  journalPage := stackIs_journalPage
  writePage _ _ :=
    Keeps.getState.bind fun _ => Keeps.ite (Keeps.throw _) (Triple.modifyState fun _ h => h)
  withHeaderMut _ _ := Triple.modifyState fun _ h => h
  zeroed _ _ := Triple.modifyState fun _ h => h
  extended _ := Triple.modifyState fun _ h => h

theorem stackIs_beginWrite (src : SaltSource) : Keeps (StackIs S) (beginWrite src) := by
  refine Keeps.getState.bind fun s => Keeps.ite (Keeps.pure _) ?_
  refine (stackIs_perform _ _).bind fun _ => (stackIs_perform _ _).bind fun _ => ?_
  refine Keeps.ite (Triple.modifyState fun _ h => h) ?_
  exact (stackIs_perform _ _).bind fun _ => (stackIs_perform _ _).bind fun _ =>
    (stackIs_perform _ _).bind fun _ => (stackIs_perform _ _).bind fun _ =>
      Triple.modifyState fun _ h => h

theorem of_onPager_ok {α : Type} {m : PagerM α} {p q : Session × World DbFile} {a : α}
    (h : onPager m p = .ok a q) :
    ∃ r, m (p.1.pager, p.2) = .ok a r ∧ q = ({ p.1 with pager := r.1 }, r.2) := by
  rw [onPager, zoom] at h
  cases hm : m (p.1.pager, p.2) with
  | ok b r =>
      rw [hm] at h
      cases h
      exact ⟨r, rfl, rfl⟩
  | error e r =>
      rw [hm] at h
      cases h

structure Stands (writing : Bool) (own : Option String) (S : List PagerSavepoint)
    (p : Session × World DbFile) : Prop where
  autocommit : p.1.autocommit = false
  writeTxn : p.1.writeTxn = writing
  stmtSavepoint : p.1.stmtSavepoint = own
  oeOverride : p.1.oeOverride = none
  stack : p.1.pager.savepoints = S

variable {writing : Bool} {own : Option String}

theorem stands_onPager {α : Type} {m : PagerM α} (h : Keeps (StackIs S) m) :
    Keeps (Stands writing own S) (onPager m) := by
  intro p hp
  have hm := h (p.1.pager, p.2) hp.stack
  rw [onPager, zoom]
  cases hrun : m (p.1.pager, p.2) with
  | ok a q =>
      rw [hrun] at hm
      exact { hp with stack := hm }
  | error e q =>
      rw [hrun] at hm
      exact { hp with stack := hm }

theorem stands_runBody (calls : List TxnCall) :
    Triple (Stands writing own S) (runBody calls) (fun _ => Stands writing own S)
      fun _ => False := by
  induction calls with
  | nil => exact Triple.pure fun _ h => h
  | cons call calls ih =>
      exact Triple.bind (Triple.attempt (stands_onPager ((stackIs_primitives).run call)))
        fun _ => ih

end Quiet

/-! ## Opening the savepoint -/

section Run

variable {S : List PagerSavepoint} {src : SaltSource} {p2 : Nat} {p : Session × World DbFile}

theorem beginWrite_ok_iff {p : PagerState × World DbFile} : (∃ q, beginWrite src p = .ok () q) ↔
    (p.1.txn = none → ∀ k, p.2.failAt = some k → (beginOps p.1 src).length ≤ k) := by
  obtain ⟨s, w⟩ := p
  by_cases htxn : s.txn = none
  · have hperforms := performs_beginWrite htxn src w
    constructor
    · rintro ⟨q, hq⟩ - k hk
      by_contra hlt
      obtain ⟨s', herr⟩ := hperforms.fail k hk (Nat.lt_of_not_le hlt)
      rw [hq] at herr
      cases herr
    · intro h
      exact ⟨_, hperforms.ok (h htxn)⟩
  · refine iff_of_true ⟨(s, w), ?_⟩ fun h => absurd h htxn
    have hopen : s.inWriteTxn = true := Option.isSome_iff_ne_none.mpr htxn
    simp only [beginWrite, getState_bind, hopen, if_true]
    rfl

theorem dropSavepointNamed_savepoints (name : String) (s : PagerState) (w : World DbFile) :
    ∃ s', dropSavepointNamed name (s, w) = .ok () (s', w) ∧
      s'.savepoints = s.savepoints.takeWhile fun sp => !(sp.name == name) := by
  refine ⟨_, rfl, ?_⟩
  rw [List.takeWhile_eq_take_findIdx_not]
  simp only [Bool.not_not]
  cases hidx : s.savepoints.findIdx? fun sp => sp.name == name with
  | none =>
      have hlen : (s.savepoints.findIdx fun sp => sp.name == name) = s.savepoints.length :=
        List.findIdx_eq_length_of_false (by simpa using hidx)
      rw [hlen, List.take_length]
  | some idx =>
      rw [(List.findIdx?_eq_some_iff_findIdx_eq.mp hidx).2]

theorem transaction_reading (h : Stands false none S p) (hopens : ¬Opens src p2 (p.1.pager, p.2)) :
    Stands false none S (after (transaction src p2) p) := by
  rw [transaction]
  by_cases hzero : p2 = 0
  · rw [if_pos hzero]
    exact Triple.after (stands_onPager (stackIs_perform _ _)) h
  · rw [if_neg hzero]
    have hfails : ¬∃ q, beginWrite src (p.1.pager, p.2) = .ok () q := fun hok =>
      hopens ⟨hzero, (beginWrite_ok_iff).mp hok⟩
    have hstands := Triple.after (stands_onPager (stackIs_beginWrite src)) h
    rw [after] at hstands ⊢
    simp only [getState_bind]
    cases hrun : onPager (beginWrite src) p with
    | ok u q =>
        obtain ⟨r, hr, -⟩ := of_onPager_ok hrun
        exact absurd ⟨r, hr⟩ hfails
    | error e q =>
        rw [bind_error hrun]
        rwa [hrun] at hstands

theorem transaction_opening (h : Stands false none S p) (hopens : Opens src p2 (p.1.pager, p.2)) :
    ∃ own q, own.name = stmtSp ∧ transaction src p2 p = .ok () q ∧
      Stands true (some stmtSp) ((S.takeWhile fun sp => !(sp.name == stmtSp)) ++ [own]) q := by
  obtain ⟨c, w⟩ := p
  obtain ⟨⟨s, w'⟩, hbegin⟩ := (beginWrite_ok_iff).mpr hopens.2
  have hstack : s.savepoints = S := (stackIs_beginWrite src).of_ok h.stack hbegin
  obtain ⟨s', hdrop, hdropped⟩ := dropSavepointNamed_savepoints stmtSp s w'
  have hoff : c.autocommit = false := h.autocommit
  have hreads : c.writeTxn = false := h.writeTxn
  refine ⟨⟨stmtSp, s'.pageCount, s'.dirty⟩, ({ c with
    pager := { s' with savepoints := s'.savepoints ++ [⟨stmtSp, s'.pageCount, s'.dirty⟩] }
    writeTxn := true
    stmtSavepoint := some stmtSp }, w'), rfl, ?_, ?_⟩
  · simp only [transaction, if_neg hopens.1, getState_bind, bind_ok (onPager_ok hbegin),
      modifyState_bind, hoff, hreads, Bool.not_false, Bool.and_true, if_true]
    have hdrop' : onPager (dropSavepointNamed stmtSp)
        ({ c with pager := s, writeTxn := true }, w') =
        .ok () ({ c with pager := s', writeTxn := true }, w') := onPager_ok hdrop
    rw [hoff] at hdrop'
    rw [bind_ok hdrop']
    rfl
  · exact ⟨hoff, rfl, rfl, h.oeOverride, by rw [hdropped, hstack]⟩

/-! ## Ending the statement -/

variable {q : Session × World DbFile} {own : PagerSavepoint} {T : List PagerSavepoint}
  {order : DrainOrder}

def below (name : String) (S : List PagerSavepoint) : List PagerSavepoint :=
  S.takeWhile fun sp => !eqIgnoreAsciiCase sp.name name

theorem below_eq_take (name : String) (s : PagerState) : below name s.savepoints =
    s.savepoints.take ((savepointIndex s name).getD s.savepoints.length) := by
  rw [below, List.takeWhile_eq_take_findIdx_not, savepointIndex]
  simp only [Bool.not_not]
  cases hidx : s.savepoints.findIdx? fun sp => eqIgnoreAsciiCase sp.name name with
  | none =>
      rw [List.findIdx_eq_length_of_false (by simpa using hidx)]
      rfl
  | some idx =>
      rw [(List.findIdx?_eq_some_iff_findIdx_eq.mp hidx).2]
      rfl

theorem savepoints_after_release (name : String) (p : PagerState × World DbFile) :
    (after (do let _ ← releaseSavepoint name) p).1.savepoints = below name p.1.savepoints := by
  rw [below_eq_take]
  cases hidx : savepointIndex p.1 name with
  | none =>
      have hrun : ∃ e, releaseSavepoint name p = .error e p := by
        simp only [releaseSavepoint, getState_bind, hidx]
        exact ⟨_, rfl⟩
      obtain ⟨e, he⟩ := hrun
      rw [after, bind_error he, Option.getD_none, List.take_length]
  | some idx =>
      rw [after, bind_ok (releaseSavepoint_run hidx)]
      rfl

theorem below_after_rollback (name : String) (p : PagerState × World DbFile) :
    below name (after (rollbackToSavepoint name) p).1.savepoints = below name p.1.savepoints := by
  cases hidx : savepointIndex p.1 name with
  | none =>
      have hrun : ∃ e, rollbackToSavepoint name p = .error e p := by
        simp only [rollbackToSavepoint, getState_bind, hidx]
        exact ⟨_, rfl⟩
      obtain ⟨e, he⟩ := hrun
      rw [after, he]
  | some idx =>
      have hlt := savepointIndex_lt hidx
      rw [after, rollbackToSavepoint_run hidx (List.getElem?_eq_getElem hlt)]
      have htake : below name (p.1.savepoints.take (idx + 1)) =
          (below name p.1.savepoints).take (idx + 1) := List.take_takeWhile.symm
      rw [below_eq_take, hidx, Option.getD_some, List.take_take,
        Nat.min_eq_right (Nat.le_succ idx)] at htake
      refine htake.trans ?_
      rw [below_eq_take, hidx, Option.getD_some]

theorem attempt_onPager (m : PagerM Unit) (p : Session × World DbFile) :
    attempt (onPager m) p = .ok () ({ p.1 with pager := (after m (p.1.pager, p.2)).1 },
      (after m (p.1.pager, p.2)).2) := by
  rw [attempt, onPager, zoom, after]
  cases m (p.1.pager, p.2) <;> rfl

def Finished (S : List PagerSavepoint) (p : Session × World DbFile) : Prop :=
  p.1.stmtSavepoint = none ∧ p.1.pager.savepoints = S

theorem halt_writing (order : DrainOrder) (src : SaltSource)
    (h : Stands true (some stmtSp) T p) :
    ∃ q, halt order src p = .ok () q ∧ Finished (below stmtSp T) q := by
  obtain ⟨c, w⟩ := p
  have hown : c.stmtSavepoint = some stmtSp := h.stmtSavepoint
  have hoff : c.autocommit = false := h.autocommit
  simp only [halt, getState_bind, hoff, Bool.and_false, Bool.false_eq_true, if_false, hown,
    modifyState_bind, attempt_onPager]
  exact ⟨_, rfl, rfl, (savepoints_after_release stmtSp _).trans (congrArg _ h.stack)⟩

theorem halt_reading (h : Stands false none T p) : halt order src p = .ok () p := by
  obtain ⟨c, w⟩ := p
  have hown : c.stmtSavepoint = none := h.stmtSavepoint
  have hreads : c.writeTxn = false := h.writeTxn
  simp only [halt, getState_bind, hreads, Bool.false_and, Bool.false_eq_true, if_false, hown]
  rfl

variable {oe : OeAction} {m : SessionM Unit} {e : Error}

theorem cleanUp_writing (order : DrainOrder) (src : SaltSource) (h : Stands true (some stmtSp) T p)
    (hoe : oe ≠ .rollback) :
    ∃ q, cleanUp order src oe p = .ok () q ∧ Finished (below stmtSp T) q := by
  obtain ⟨c, w⟩ := p
  have hown : c.stmtSavepoint = some stmtSp := h.stmtSavepoint
  have hwrites : c.writeTxn = true := h.writeTxn
  have hrelease := savepoints_after_release stmtSp
  cases oe with
  | rollback => exact absurd rfl hoe
  | fail =>
      simp only [cleanUp, getState_bind, hwrites, if_true, hown, modifyState_bind, attempt_onPager]
      exact ⟨_, rfl, rfl, (hrelease _).trans (congrArg _ h.stack)⟩
  | none | abort | ignore | replace | update =>
      simp only [cleanUp, getState_bind, hwrites, if_true, hown, modifyState_bind]
      rw [bind_ok (attempt_onPager _ _), attempt_onPager]
      refine ⟨_, rfl, rfl, (hrelease _).trans ?_⟩
      exact (below_after_rollback stmtSp _).trans (congrArg _ h.stack)

variable {defaultOe : OeAction} {calls : List TxnCall} {ending : Ending} {writing : Bool}
  {name : Option String}

theorem stands_prepared (hoff : p.1.autocommit = false) :
    Stands false none p.1.pager.savepoints (p.1.prepared, p.2) :=
  ⟨hoff, rfl, rfl, rfl, rfl⟩

theorem runBody_ok (h : Stands writing name T p) (calls : List TxnCall) :
    ∃ q, runBody calls p = .ok () q ∧ Stands writing name T q := by
  have hbody := stands_runBody calls p h
  cases hrun : runBody calls p with
  | ok u q =>
      rw [hrun] at hbody
      exact ⟨q, rfl, hbody⟩
  | error e q =>
      rw [hrun] at hbody
      exact hbody.elim

theorem after_step_ok (h : m p = .ok () q) : after (step order src defaultOe m) p = q := by
  rw [after, step_ok h]

/-- The action of a `Halt` stays with the statement until `step` has looked at it. -/
theorem after_step_error (h : m p = .error e q) :
    after (step order src defaultOe m) p =
      after (cleanUp order src (q.1.oeOverride.getD defaultOe))
        ({ q.1 with oeOverride := none }, q.2) := by
  rw [after, step, h]

theorem Stands.cleared (h : Stands writing name T p) :
    Stands writing name T ({ p.1 with oeOverride := none }, p.2) :=
  ⟨h.autocommit, h.writeTxn, h.stmtSavepoint, rfl, h.stack⟩

theorem after_step_haltWithError {oe : Option OeAction} (h : m p = haltWithError e oe q) :
    after (step order src defaultOe m) p =
      after (cleanUp order src (oe.getD defaultOe)) ({ q.1 with oeOverride := none }, q.2) :=
  after_step_error (q := ({ q.1 with oeOverride := oe }, q.2)) h

theorem finished_cleanUp_reading (h : Stands false none T p) :
    Finished T (after (cleanUp order src oe) p) := by
  obtain ⟨c, w⟩ := p
  rw [after, cleanUp_reading order src oe h.writeTxn]
  exact ⟨h.stmtSavepoint, h.stack⟩

theorem statement_reading (order : DrainOrder) (defaultOe : OeAction) (calls : List TxnCall)
    (ending : Ending) (hoff : p.1.autocommit = false)
    (hopens : ¬Opens src p2 (p.1.pager, p.2)) :
    Finished p.1.pager.savepoints
      (after (statement order src defaultOe p2 calls ending) p) := by
  have hstart := transaction_reading (stands_prepared hoff) hopens
  have hstatement : after (statement order src defaultOe p2 calls ending) p =
      after (step order src defaultOe (do
        transaction src p2
        runBody calls
        runEnding order src ending)) (p.1.prepared, p.2) := rfl
  rw [hstatement]
  rw [after] at hstart
  cases hrun : transaction src p2 (p.1.prepared, p.2) with
  | error e q =>
      rw [hrun] at hstart
      rw [after_step_error (bind_error hrun)]
      exact finished_cleanUp_reading hstart.cleared
  | ok u q =>
      rw [hrun] at hstart
      obtain ⟨r, hbody, hr⟩ := runBody_ok hstart calls
      have hprogram : (do
          transaction src p2
          runBody calls
          runEnding order src ending : SessionM Unit) (p.1.prepared, p.2) =
          runEnding order src ending r := by
        rw [bind_ok hrun, bind_ok hbody]
      cases ending with
      | done =>
          rw [after_step_ok (hprogram.trans (halt_reading hr))]
          exact ⟨hr.stmtSavepoint, hr.stack⟩
      | abandoned =>
          rw [after_step_ok hprogram]
          exact ⟨hr.stmtSavepoint, hr.stack⟩
      | raised e oe =>
          rw [after_step_haltWithError hprogram]
          exact finished_cleanUp_reading hr.cleared

def Ending.finishes : Ending → Bool
  | .abandoned => false
  | .done | .raised _ _ => true

/-- The error does not roll back the transaction with all of its savepoints. -/
def Ending.KeepsTransaction (defaultOe : OeAction) : Ending → Prop
  | .raised _ oe => oe.getD defaultOe ≠ .rollback
  | .done | .abandoned => True

theorem statement_writing (order : DrainOrder) (calls : List TxnCall)
    (hoff : p.1.autocommit = false) (hopens : Opens src p2 (p.1.pager, p.2))
    (hkind : ending.KeepsTransaction defaultOe) :
    ∃ own : PagerSavepoint, own.name = stmtSp ∧
      standing (after (statement order src defaultOe p2 calls ending) p).1 =
        if ending.finishes then
          below stmtSp ((p.1.pager.savepoints.takeWhile fun sp => !(sp.name == stmtSp)) ++ [own])
        else p.1.pager.savepoints.takeWhile fun sp => !(sp.name == stmtSp) := by
  obtain ⟨own, q, hname, hrun, hq⟩ := transaction_opening (stands_prepared hoff) hopens
  obtain ⟨r, hbody, hr⟩ := runBody_ok hq calls
  have hstatement : after (statement order src defaultOe p2 calls ending) p =
      after (step order src defaultOe (do
        transaction src p2
        runBody calls
        runEnding order src ending)) (p.1.prepared, p.2) := rfl
  have hprogram : (do
      transaction src p2
      runBody calls
      runEnding order src ending : SessionM Unit) (p.1.prepared, p.2) =
      runEnding order src ending r := by
    rw [bind_ok hrun, bind_ok hbody]
  have hfinished {T : List PagerSavepoint} {q : Session × World DbFile} (h : Finished T q) :
      standing q.1 = T := by
    rw [standing, if_pos h.1, h.2]
  refine ⟨own, hname, ?_⟩
  rw [hstatement]
  cases ending with
  | done =>
      obtain ⟨q', hhalt, hq'⟩ := halt_writing order src hr
      rw [after_step_ok (hprogram.trans hhalt)]
      exact hfinished hq'
  | abandoned =>
      rw [after_step_ok hprogram, standing, if_neg (by simp [hr.stmtSavepoint]), hr.stack]
      exact List.dropLast_concat
  | raised e oe =>
      rw [after_step_haltWithError hprogram]
      obtain ⟨q', hclean, hq'⟩ := cleanUp_writing order src hr.cleared hkind
      rw [after, hclean]
      exact hfinished hq'

theorem eqIgnoreAsciiCase_refl (name : String) : eqIgnoreAsciiCase name name = true := by
  simp [eqIgnoreAsciiCase]

theorem below_takeWhile (hown : own.name = stmtSp) (S : List PagerSavepoint) :
    below stmtSp ((S.takeWhile fun sp => !(sp.name == stmtSp)) ++ [own]) = below stmtSp S := by
  induction S with
  | nil =>
      have hfound : eqIgnoreAsciiCase own.name stmtSp = true := by
        rw [hown]
        exact eqIgnoreAsciiCase_refl stmtSp
      simp [below, hfound]
  | cons sp S ih =>
      rw [below, below] at ih ⊢
      by_cases hsame : sp.name = stmtSp
      · have hfound : eqIgnoreAsciiCase sp.name stmtSp = true := by
          rw [hsame]
          exact eqIgnoreAsciiCase_refl stmtSp
        have hcase : eqIgnoreAsciiCase own.name stmtSp = true := by
          rw [hown]
          exact eqIgnoreAsciiCase_refl stmtSp
        simp [hsame, hcase, eqIgnoreAsciiCase_refl]
      · rw [List.takeWhile_cons_of_pos (by simpa using hsame), List.cons_append]
        cases hfound : eqIgnoreAsciiCase sp.name stmtSp with
        | true => simp [hfound]
        | false => simp [hfound, ih]

theorem standing_of_opens (order : DrainOrder) (calls : List TxnCall)
    (hoff : p.1.autocommit = false) (hopens : Opens src p2 (p.1.pager, p.2))
    (hkind : ending.KeepsTransaction defaultOe) :
    standing (after (statement order src defaultOe p2 calls ending) p).1 =
      p.1.pager.savepoints.takeWhile fun sp => !ending.finds sp.name := by
  obtain ⟨own, hown, hstanding⟩ := statement_writing order calls hoff hopens hkind
  rw [hstanding]
  cases ending with
  | abandoned => rfl
  | done => exact below_takeWhile hown p.1.pager.savepoints
  | raised e oe => exact below_takeWhile hown p.1.pager.savepoints

/-! ## The user's savepoints -/

theorem finds_stmtSp (ending : Ending) : ending.finds stmtSp = true := by
  cases ending with
  | abandoned => exact beq_self_eq_true stmtSp
  | done | raised _ _ => exact eqIgnoreAsciiCase_refl stmtSp

theorem users_marked (S : List PagerSavepoint) : users (S.map (·, true)) = S := by
  induction S with
  | nil => rfl
  | cons sp S ih => simpa [users] using ih

theorem keepsUsers_takeWhile {c : Session} {stack : List Marked} {finds : String → Bool}
    (hfinds : finds stmtSp = true)
    (hstanding : standing c = (stack.map Prod.fst).takeWhile fun sp => !finds sp.name) :
    KeepsUsers stack c ↔ standing c = users stack := by
  constructor
  · rintro ⟨stack', hmap, hleft, husers⟩
    have hmine : ∀ x ∈ stack', x.2 = true := by
      intro x hx
      by_contra hother
      have hname : x.1.name = stmtSp := hleft x hx (by simpa using hother)
      have hmem : x.1 ∈ standing c := by
        rw [hmap]
        exact List.mem_map_of_mem hx
      rw [hstanding] at hmem
      have hmissed := List.mem_takeWhile_imp hmem
      rw [hname, hfinds] at hmissed
      cases hmissed
    rw [← husers, hmap, users, List.filter_eq_self.mpr hmine]
  · intro hsame
    refine ⟨(users stack).map (·, true), hsame.trans (by simp [Function.comp_def]),
        fun x hx hother => ?_, users_marked _⟩
    obtain ⟨sp, -, rfl⟩ := List.mem_map.mp hx
    cases hother

/--
Outside autocommit, a statement keeps the user's savepoints on the stack exactly
when it does not begin to write, or no savepoint of the user has the name of the
statement's own and none has been opened above one that a statement left behind.
-/
theorem statement_keepsUsers_iff (order : DrainOrder) (src : SaltSource) (defaultOe : OeAction)
    (p2 : Nat) (calls : List TxnCall) (ending : Ending) {stack : List Marked}
    (hoff : p.1.autocommit = false) (hstack : p.1.pager.savepoints = stack.map Prod.fst)
    (hleft : Leftovers stack) (hkind : ending.KeepsTransaction defaultOe) :
    KeepsUsers stack (after (statement order src defaultOe p2 calls ending) p).1 ↔
      (Opens src p2 (p.1.pager, p.2) → UsersApart ending.finds stack) := by
  by_cases hopens : Opens src p2 (p.1.pager, p.2)
  · have hstanding := standing_of_opens order calls hoff hopens hkind
    rw [hstack] at hstanding
    rw [keepsUsers_takeWhile (finds_stmtSp ending) hstanding, hstanding,
      takeWhile_eq_users_iff (finds_stmtSp ending) hleft]
    exact ⟨fun h _ => h, fun h => h hopens⟩
  · obtain ⟨hnone, hsame⟩ := statement_reading order defaultOe calls ending hoff hopens
    refine iff_of_true ⟨stack, ?_, hleft, rfl⟩ fun h => absurd h hopens
    rw [standing, if_pos hnone, hsame, hstack]

end Run

/-! ## A savepoint with the name of the statement's own -/

def savepointBegin (name : String) : SessionM Unit := do
  let wasAutocommit := (← getState).autocommit
  if wasAutocommit then
    modifyState fun c => { c with autocommit := false, isTransactionSavepoint := true }
  onPager (openSavepoint name)

/-- A new database, after the user's `SAVEPOINT name`. -/
def savepointSession (name : String) : Session × World DbFile :=
  after (savepointBegin name) (⟨freshPager.1, true, false, false, none, none⟩, freshPager.2)

def savepointStack (name : String) : List Marked :=
  [(⟨name, freshPager.1.pageCount, freshPager.1.dirty⟩, true)]

theorem savepointSession_autocommit (name : String) :
    (savepointSession name).1.autocommit = false := rfl

theorem savepointSession_savepoints (name : String) :
    (savepointSession name).1.pager.savepoints = (savepointStack name).map Prod.fst := by
  have hempty : freshPager.1.savepoints = [] := by decide
  have hopened : (savepointSession name).1.pager.savepoints =
      freshPager.1.savepoints ++ [⟨name, freshPager.1.pageCount, freshPager.1.dirty⟩] := rfl
  rw [hopened, hempty]
  rfl

theorem leftovers_savepointStack (name : String) : Leftovers (savepointStack name) := by
  intro x hx hother
  rw [List.mem_singleton.mp hx] at hother
  cases hother

theorem statement_keepsUsers_named : KeepsUsers (savepointStack "a")
    (after (statement listedOrder firstSource .abort 1 [.allocate] .done)
      (savepointSession "a")).1 := by
  refine (statement_keepsUsers_iff listedOrder firstSource .abort 1 [.allocate] .done
    (savepointSession_autocommit "a") (savepointSession_savepoints "a")
    (leftovers_savepointStack "a") trivial).mpr fun _ => ⟨?_, List.pairwise_singleton _ _⟩
  intro x hx _
  rw [List.mem_singleton.mp hx]
  decide

/-- A statement that succeeds releases the user's savepoint of that name. -/
theorem statement_drops_users : (savepointSession stmtSp).1.autocommit = false ∧
    (savepointSession stmtSp).1.pager.savepoints = (savepointStack stmtSp).map Prod.fst ∧
    Opens firstSource 1 ((savepointSession stmtSp).1.pager, (savepointSession stmtSp).2) ∧
    ¬KeepsUsers (savepointStack stmtSp)
      (after (statement listedOrder firstSource .abort 1 [] .done)
        (savepointSession stmtSp)).1 := by
  have hoff := savepointSession_autocommit stmtSp
  have hstack := savepointSession_savepoints stmtSp
  have hopens : Opens firstSource 1
      ((savepointSession stmtSp).1.pager, (savepointSession stmtSp).2) := by
    refine ⟨by decide, fun _ k hk => ?_⟩
    have hnever : (savepointSession stmtSp).2.failAt = none := by decide
    rw [hnever] at hk
    cases hk
  refine ⟨hoff, hstack, hopens, fun hkeeps => ?_⟩
  have hstanding := standing_of_opens listedOrder [] hoff hopens
    (show Ending.KeepsTransaction .abort .done from trivial)
  rw [hstack] at hstanding
  have hsame := (keepsUsers_takeWhile (finds_stmtSp .done) hstanding).mp hkeeps
  rw [hstanding] at hsame
  have happart := (takeWhile_eq_users_iff (finds_stmtSp .done)
    (leftovers_savepointStack stmtSp)).mp hsame
  have hmissed := happart.1 _ (List.mem_singleton_self _) rfl
  exact absurd hmissed (by decide)

end Rustqlite.Vdbe
