import Rustqlite.Pager.SavepointNames

/-!
# Transactions and statements

The opcodes that begin and end transactions, and what is done when a statement
is through or stops with an error.  A statement that writes inside an explicit
transaction has a savepoint of its own on the stack of the user's.
-/

namespace Rustqlite.Vdbe

open Foundation Format Pager FileM

inductive OeAction where
  | none
  | rollback
  | abort
  | fail
  | ignore
  | replace
  | update
  deriving DecidableEq

/-- A connection with an open database, and the statement that runs on it. -/
structure Session where
  pager : PagerState
  autocommit : Bool
  isTransactionSavepoint : Bool
  /-- The statement has begun to write. -/
  writeTxn : Bool
  stmtSavepoint : Option String
  oeOverride : Option OeAction

abbrev SessionM := FileM Error DbFile Session

def onPager {α : Type} (m : PagerM α) : SessionM α :=
  zoom Session.pager (fun s c => { c with pager := s }) m

/-! ## Savepoints of statements -/

def stmtSp : String := "__rustqlite_stmt_abort"

/-- Drop the first savepoint with exactly this name, and those opened after it. -/
def dropSavepointNamed (name : String) : PagerM Unit :=
  modifyState fun s => match s.savepoints.findIdx? fun sp => sp.name == name with
    | some idx => { s with savepoints := s.savepoints.take idx }
    | none => s

def clearSavepoints : PagerM Unit := modifyState fun s => { s with savepoints := [] }

/-! ## Opcodes -/

def beginRead : PagerM Unit := perform ioFailed (.probe .db)

def transaction (src : SaltSource) (p2 : Nat) : SessionM Unit := do
  if p2 = 0 then onPager beginRead
  else
    let alreadyWrite := (← getState).writeTxn
    onPager (beginWrite src)
    modifyState fun c => { c with writeTxn := true }
    let c ← getState
    if !alreadyWrite && !c.autocommit then
      onPager (dropSavepointNamed stmtSp)
      onPager (openSavepoint stmtSp)
      modifyState fun c => { c with stmtSavepoint := some stmtSp }

/-- `OP_AutoCommit`: BEGIN turns the flag off, COMMIT and ROLLBACK turn it on. -/
def autoCommit (order : DrainOrder) (src : SaltSource) (desired rollback : Bool) :
    SessionM Unit := do
  let c ← getState
  if desired = c.autocommit then
    throw (.msg (if !desired then "cannot start a transaction within a transaction"
      else if rollback then "cannot rollback - no transaction is active"
      else "cannot commit - no transaction is active"))
  modifyState fun c => { c with autocommit := desired }
  if desired then
    if c.pager.inWriteTxn then
      if rollback then onPager Pager.rollback else onPager (commit order src)
    onPager clearSavepoints
    modifyState fun c => { c with isTransactionSavepoint := false, writeTxn := false }

def halt (order : DrainOrder) (src : SaltSource) : SessionM Unit := do
  let c ← getState
  if c.writeTxn && c.autocommit then
    onPager (commit order src)
    modifyState fun c => { c with writeTxn := false }
  else
    match c.stmtSavepoint with
    | some name =>
        modifyState fun c => { c with stmtSavepoint := none }
        attempt (onPager do let _ ← releaseSavepoint name)
    | none => pure ()

def haltWithError (e : Error) (oe : Option OeAction) : SessionM Unit := do
  modifyState fun c => { c with oeOverride := oe }
  throw e

/-! ## The end of a statement -/

/-- What `step` does when the statement has stopped with an error. -/
def cleanUp (order : DrainOrder) (src : SaltSource) (oe : OeAction) : SessionM Unit := do
  let c ← getState
  if c.writeTxn then
    match oe, c.stmtSavepoint with
    | .fail, some name =>
        modifyState fun c => { c with stmtSavepoint := none }
        attempt (onPager do let _ ← releaseSavepoint name)
    | .fail, none =>
        if c.autocommit then
          attempt (onPager (commit order src))
          modifyState fun c => { c with writeTxn := false }
    | .rollback, _ =>
        attempt (onPager Pager.rollback)
        modifyState fun c => { c with writeTxn := false, stmtSavepoint := none }
    | _, some name =>
        modifyState fun c => { c with stmtSavepoint := none }
        attempt (onPager (rollbackToSavepoint name))
        attempt (onPager do let _ ← releaseSavepoint name)
    | _, none =>
        attempt (onPager Pager.rollback)
        modifyState fun c => { c with writeTxn := false }

/-- Run the program of a statement, and clean up behind an error. -/
def step {α : Type} (order : DrainOrder) (src : SaltSource) (defaultOe : OeAction)
    (m : SessionM α) : SessionM α := fun p =>
  match m p with
  | .ok a q => .ok a q
  | .error e q =>
      let oe := q.1.oeOverride.getD defaultOe
      .error e (after (cleanUp order src oe) ({ q.1 with oeOverride := none }, q.2))

def Session.prepared (c : Session) : Session :=
  { c with writeTxn := false, stmtSavepoint := none, oeOverride := none }

def runStatement {α : Type} (order : DrainOrder) (src : SaltSource) (defaultOe : OeAction)
    (m : SessionM α) : SessionM α := do
  modifyState Session.prepared
  step order src defaultOe m

def commitStatement (order : DrainOrder) (src : SaltSource) : SessionM Unit :=
  runStatement order src .none (autoCommit order src true false)

def rollbackStatement (order : DrainOrder) (src : SaltSource) : SessionM Unit :=
  runStatement order src .none (autoCommit order src true true)

/-! ## Programs on the pager -/

section Lemmas

variable {c : Session} {w : World DbFile} {α : Type}

variable {m : PagerM α} {a : α} {s : PagerState} {w' : World DbFile}

theorem onPager_ok (h : m (c.pager, w) = .ok a (s, w')) :
    onPager m (c, w) = .ok a ({ c with pager := s },
        w') := by
  rw [onPager, zoom, h]

theorem onPager_error {e : Error} (h : m (c.pager, w) = .error e (s, w')) :
    onPager m (c, w) = .error e ({ c with pager := s }, w') := by
  rw [onPager, zoom, h]

theorem step_ok {order : DrainOrder} {src : SaltSource} {oe : OeAction} {m : SessionM α}
    {p q : Session × World DbFile} (h : m p = .ok a q) :
        step order src oe m p = .ok a q := by
  rw [step, h]

theorem cleanUp_reading (order : DrainOrder) (src : SaltSource) (oe : OeAction)
    (h : c.writeTxn = false) : cleanUp order src oe (c, w) = .ok () (c, w) := by
  simp only [cleanUp, getState_bind, h, Bool.false_eq_true, if_false]
  rfl

end Lemmas

end Rustqlite.Vdbe
