import Rustqlite.Pager.View

/-!
# Runs of calls

The calls that a program makes between the beginning and the end of a
transaction, in any order and whatever they answer.
-/

namespace Rustqlite.Pager

open Foundation Format Btree FileM

inductive HeaderUpdate where
  | schemaCookie (v : UInt32)
  | largestRootPage (v : UInt32)
  | userVersion (v : UInt32)
  | applicationId (v : UInt32)
  | defaultCacheSize (v : UInt32)

def HeaderUpdate.apply : HeaderUpdate → DbHeader → DbHeader
  | .schemaCookie v, h => { h with schemaCookie := v }
  | .largestRootPage v, h => { h with largestRootPage := v }
  | .userVersion v, h => { h with userVersion := v }
  | .applicationId v, h => { h with applicationId := v }
  | .defaultCacheSize v, h => { h with defaultCacheSize := v }

def autoVacuumHeader (mode : UInt8) (h : DbHeader) : DbHeader :=
  { h with
    largestRootPage := if mode ≠ 0 then 1 else 0
    incrementalVacuum := if mode = 2 then 1 else 0 }

def setAutoVacuum (mode : UInt8) : PagerM Unit := do
  let s ← getState
  if 1 < s.effectiveCount then
    throw (.msg "cannot change auto_vacuum mode after the database has been written")
  else withHeaderMut (autoVacuumHeader mode)

inductive TxnCall where
  | get (pgno : UInt32)
  | readForWrite (pgno : UInt32)
  | write (pgno : UInt32) (data : Bytes)
  | allocate
  | free (pgno : UInt32)
  | updateHeader (u : HeaderUpdate)
  | setAutoVacuum (mode : UInt8)

def TxnCall.run : TxnCall → PagerM Unit
  | .get pgno => do let _ ← getPage pgno
  | .readForWrite pgno => do let _ ← readPageForWrite pgno
  | .write pgno data => writePage pgno data
  | .allocate => do let _ ← allocatePage
  | .free pgno => freePage pgno
  | .updateHeader u => withHeaderMut u.apply
  | .setAutoVacuum mode => Pager.setAutoVacuum mode

variable {I : PagerState × World DbFile → Prop}

section Runs

variable {κ : Type}

/-- The state after a sequence of calls; an error ends its call and not the sequence. -/
def runCalls (run : κ → PagerM Unit) (calls : List κ) (p : PagerState × World DbFile) :
    PagerState × World DbFile :=
  calls.foldl (fun p c => after (run c) p) p

def StepsMeet (run : κ → PagerM Unit) (P : PagerState × World DbFile → κ → Prop) :
    List κ → PagerState × World DbFile → Prop
  | [], _ => True
  | c :: calls, p => P p c ∧ StepsMeet run P calls (after (run c) p)

variable {run : κ → PagerM Unit} {P : PagerState × World DbFile → κ → Prop} {calls : List κ}
  {p : PagerState × World DbFile}

theorem StepsMeet.and {Q : PagerState × World DbFile → κ → Prop} (hP : StepsMeet run P calls p)
    (hQ : StepsMeet run Q calls p) : StepsMeet run (fun p c => P p c ∧ Q p c) calls p := by
  induction calls generalizing p with
  | nil => trivial
  | cons c calls ih => exact ⟨⟨hP.1, hQ.1⟩, ih hP.2 hQ.2⟩

theorem runCalls_invariant (hstep : ∀ p c, I p → P p c → I (after (run c) p)) (hp : I p)
    (hcalls : StepsMeet run P calls p) : I (runCalls run calls p) := by
  induction calls generalizing p with
  | nil => exact hp
  | cons c calls ih => exact ih (hstep p c hp hcalls.1) hcalls.2

end Runs

theorem Primitives.run (h : Primitives I) (c : TxnCall) : Keeps I c.run := by
  cases c with
  | get pgno => exact (h.getPage pgno).bind fun _ => Keeps.pure ()
  | readForWrite pgno => exact (h.readPageForWrite pgno).bind fun _ => Keeps.pure ()
  | write pgno data => exact h.writePage pgno data
  | allocate => exact h.allocatePage.bind fun _ => Keeps.pure ()
  | free pgno => exact h.freePage pgno
  | updateHeader u => exact h.withHeaderMut u.apply fun _ => by cases u <;> rfl
  | setAutoVacuum mode =>
      exact Keeps.getState.bind fun _ => Keeps.ite (Keeps.throw _)
          (h.withHeaderMut _ fun _ => by rfl)

theorem Extends.run {p₀ : PagerState × World DbFile} (c : TxnCall) :
    Keeps (Extends p₀) c.run :=
  Extends.primitives.run c

/-! ## The header in memory -/

abbrev HeaderIs (h : DbHeader) (p : PagerState × World DbFile) : Prop :=
  p.1.header = h ∧ p.2.failAt = none

section Header

variable {h : DbHeader}

variable {w : World DbFile}

theorem Probed.failAt {w' : World DbFile} (hw : Probed w w') (hf : w.failAt = none) :
    w'.failAt = none := by
  rcases hw with rfl | ⟨f, rfl⟩
  · exact hf
  · simp [World.apply, hf]

theorem headerIs_getPage (pgno : UInt32) : Keeps (HeaderIs h) (getPage pgno) := by
  rintro ⟨s, w⟩ ⟨hs, hw⟩
  obtain ⟨w', hw', hrun⟩ := getPage_run (s := s) hw pgno
  rw [hrun]
  cases pageSeen s w.disk pgno with
  | error e => exact ⟨hs, hw'.failAt hw⟩
  | ok page =>
      constructor
      · simp only [afterRead]
        split <;> exact hs
      · exact hw'.failAt hw

theorem headerIs_journalPage (pgno : UInt32) (preimage : Bytes) :
    Keeps (HeaderIs h) (journalPage pgno preimage) := by
  rintro ⟨s, w⟩ ⟨hs, hw⟩
  have hok : w.failAt ≠ some 0 := by simp [show w.failAt = none from hw]
  rw [journalPage_run hok]
  cases mustJournal s pgno with
  | none => exact ⟨hs, hw⟩
  | some t => exact ⟨hs, by simp [World.apply, show w.failAt = none from hw]⟩

theorem headerIs_writePage (pgno : UInt32) (data : Bytes) :
    Keeps (HeaderIs h) (writePage pgno data) :=
  Keeps.getState.bind fun _ => Keeps.ite (Keeps.throw _) (Triple.modifyState fun _ hp => hp)

theorem headerIs_extendFile (g : Geometry) (left : Nat) :
    Keeps (HeaderIs h) (extendFile g left) := by
  induction left with
  | zero => exact Keeps.throw _
  | succ left ih =>
      refine Keeps.bind (Triple.modifyState fun _ hp => hp) fun _ => ?_
      exact Keeps.getState.bind fun s => Keeps.ite ih (Keeps.ite ih (Keeps.pure _))

theorem freePage_error {s : PagerState} (hw : w.failAt = none) {pgno : UInt32} {e : Error}
    (he : pageSeen s w.disk pgno = .error e) :
    ∃ w', Probed w w' ∧ freePage pgno (s, w) = .error e (s, w') := by
  obtain ⟨w', hw', hrun⟩ := getPage_run (s := s) hw pgno
  rw [he] at hrun
  exact ⟨w', hw', bind_error hrun⟩

end Header

end Rustqlite.Pager
