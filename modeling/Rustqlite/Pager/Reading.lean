import Rustqlite.Pager.View

/-!
# Programs that only read

Scans and cursors ask a pager for pages and do nothing else to it.  Such a
program is a tree of questions; its result depends on what the pager shows.
-/

namespace Rustqlite.Pager

open Foundation Format Btree FileM

inductive Reading (α : Type) where
  | done (r : Result α)
  | get (pgno : UInt32) (k : Bytes → Reading α)
  /-- Go on with an error, too; a panic is no answer. -/
  | attempt (pgno : UInt32) (k : Result Bytes → Reading α)

namespace Reading

variable {α β : Type}

def bind : Reading α → (α → Reading β) → Reading β
  | done (.ok a), f => f a
  | done (.error e), _ => done (.error e)
  | get pgno k, f => get pgno fun page => (k page).bind f
  | attempt pgno k, f => attempt pgno fun r => (k r).bind f

instance : Monad Reading where
  pure a := done (.ok a)
  bind := bind

theorem bind_done (m : Reading α) : m.bind (fun a => done (.ok a)) = m := by
  induction m with
  | done r => cases r <;> rfl
  | get pgno k ih => exact congrArg (get pgno) (funext ih)
  | attempt pgno k ih => exact congrArg (attempt pgno) (funext ih)

theorem bind_assoc {γ : Type} (m : Reading α) (f : α → Reading β) (g : β → Reading γ) :
    (m.bind f).bind g = m.bind fun a => (f a).bind g := by
  induction m with
  | done r => cases r <;> rfl
  | get pgno k ih => exact congrArg (get pgno) (funext ih)
  | attempt pgno k ih => exact congrArg (attempt pgno) (funext ih)

instance : LawfulMonad Reading :=
  LawfulMonad.mk' Reading (fun m => bind_done m) (fun _ _ => rfl) fun m f g => bind_assoc m f g

instance : MonadLift (Except Error) Reading := ⟨done⟩

def fail (e : Error) : Reading α := done (.error e)

def getPage (pgno : UInt32) : Reading Bytes := get pgno fun page => done (.ok page)

def catching : Reading α → Reading (Result α)
  | done (.ok a) => done (.ok (.ok a))
  | done (.error e) => if e.code = .panic then done (.error e) else done (.ok (.error e))
  | get pgno k => attempt pgno fun
      | .ok page => (k page).catching
      | .error e => done (.ok (.error e))
  | attempt pgno k => attempt pgno fun r => (k r).catching

def eval (view : UInt32 → Result Bytes) : Reading α → Result α
  | done r => r
  | get pgno k =>
      match view pgno with
      | .ok page => (k page).eval view
      | .error e => .error e
  | attempt pgno k =>
      match view pgno with
      | .ok page => (k (.ok page)).eval view
      | .error e => if e.code = .panic then .error e else (k (.error e)).eval view

def run : Reading α → PagerM α
  | done r => liftResult r
  | get pgno k => do
      let page ← Pager.getPage pgno
      (k page).run
  | attempt pgno k => do
      let r ← tryResult (Pager.getPage pgno)
      (k r).run

section Eval

variable {view : UInt32 → Result Bytes}

@[simp] theorem eval_pure (a : α) : (pure a : Reading α).eval view = .ok a := rfl

@[simp] theorem eval_fail (e : Error) : (fail e : Reading α).eval view = .error e := rfl

@[simp] theorem eval_done (r : Result α) : (done r).eval view = r := rfl

@[simp] theorem eval_lift (r : Result α) : (liftM r : Reading α).eval view = r := rfl

@[simp] theorem eval_getPage (pgno : UInt32) : (getPage pgno).eval view = view pgno := by
  rw [getPage, eval]
  cases view pgno <;> rfl

@[simp] theorem eval_bind (m : Reading α) (f : α → Reading β) :
    (m >>= f).eval view = m.eval view >>= fun a => (f a).eval view := by
  change (m.bind f).eval view = _
  induction m with
  | done r => cases r <;> rfl
  | get pgno k ih =>
      rw [bind, eval, eval]
      cases view pgno with
      | ok page => exact ih page
      | error e => rfl
  | attempt pgno k ih =>
      rw [bind, eval, eval]
      cases view pgno with
      | ok page => exact ih (.ok page)
      | error e =>
          dsimp only
          split_ifs
          · rfl
          · exact ih (.error e)

@[simp] theorem eval_map (g : α → β) (m : Reading α) :
    (g <$> m).eval view = g <$> m.eval view := by
  rw [map_eq_pure_bind, eval_bind]
  cases m.eval view <;> rfl

theorem eval_mapM (l : List α) (f : α → Reading β) :
    (l.mapM f).eval view = l.mapM fun a => (f a).eval view := by
  induction l with
  | nil => rfl
  | cons a l ih => simp [ih]

end Eval

end Reading

theorem pageSeen_afterRead {s : PagerState} {disk : Disk DbFile} {pgno : UInt32} {page : Bytes}
    (h : pageSeen s disk pgno = .ok page) (q : UInt32) :
    pageSeen (afterRead s pgno page) disk q = pageSeen s disk q := by
  rw [afterRead]
  split_ifs with hres
  · have hstored : storedPage s disk pgno = .ok page := by
      simp only [pageSeen, hres] at h
      split_ifs at h
      exact h
    have hsame : storedPage (s.insertCache pgno page) disk q = storedPage s disk q := rfl
    have hcount : (s.insertCache pgno page).effectiveCount = s.effectiveCount := rfl
    simp only [pageSeen, hcount, hsame]
    split_ifs
    · rfl
    · by_cases hq : q = pgno
      · subst hq
        have hnew : (s.insertCache q page).resident q = some page := by
          simp only [PagerState.resident, Option.or_eq_none_iff] at hres
          simp [PagerState.resident, PagerState.insertCache, hres.1]
        rw [hnew, hres, hstored]
      · have hnew : (s.insertCache pgno page).resident q = s.resident q := by
          simp [PagerState.resident, PagerState.insertCache, Function.update_of_ne hq]
        rw [hnew]
  · rfl

structure SameView (p q : PagerState × World DbFile) : Prop where
  state : ∃ cache, q.1 = { p.1 with cache := cache }
  disk : q.2.disk = p.2.disk
  failAt : q.2.failAt = none
  view : ∀ pgno, pageSeen q.1 q.2.disk pgno = pageSeen p.1 p.2.disk pgno

variable {p : PagerState × World DbFile} {w w' : World DbFile}

theorem SameView.trans {q r : PagerState × World DbFile} (h : SameView p q) (h' : SameView q r) :
    SameView p r where
  state := by
    obtain ⟨c, hc⟩ := h.state
    obtain ⟨c', hc'⟩ := h'.state
    exact ⟨c', by rw [hc', hc]⟩
  disk := h'.disk.trans h.disk
  failAt := h'.failAt
  view pgno := (h'.view pgno).trans (h.view pgno)

theorem SameView.refl (h : p.2.failAt = none) : SameView p p :=
  ⟨⟨p.1.cache, rfl⟩, rfl, h, fun _ => rfl⟩

theorem disk_probed (h : Probed w w') : w'.disk = w.disk := by
  rcases h with rfl | ⟨f, rfl⟩
  · rfl
  · rfl

theorem failAt_probed (h : Probed w w') (hf : w.failAt = none) : w'.failAt = none := by
  rcases h with rfl | ⟨f, rfl⟩
  · exact hf
  · simp [World.apply, hf]

theorem sameView_getPage (h : p.2.failAt = none) (pgno : UInt32) :
    ∃ q, SameView p q ∧ getPage pgno p =
      match pageSeen p.1 p.2.disk pgno with
      | .ok page => .ok page q
      | .error e => .error e q := by
  obtain ⟨w', hw', hrun⟩ := getPage_run (s := p.1) h pgno
  rw [show p = (p.1, p.2) from rfl, hrun]
  cases hseen : pageSeen p.1 p.2.disk pgno with
  | error e =>
      exact ⟨(p.1, w'), ⟨⟨p.1.cache, rfl⟩, disk_probed hw', failAt_probed hw' h, fun q => by
        rw [disk_probed hw']⟩, rfl⟩
  | ok page =>
      refine ⟨(afterRead p.1 pgno page, w'), ⟨?_, disk_probed hw', failAt_probed hw' h, ?_⟩, rfl⟩
      · rw [afterRead]
        split_ifs
        · exact ⟨_, rfl⟩
        · exact ⟨p.1.cache, rfl⟩
      · intro q
        rw [disk_probed hw']
        exact pageSeen_afterRead hseen q

theorem run_eq_eval {α : Type} (m : Reading α) (h : p.2.failAt = none) :
    ∃ q, SameView p q ∧ m.run p =
      match m.eval (pageSeen p.1 p.2.disk) with
      | .ok a => .ok a q
      | .error e => .error e q := by
  induction m generalizing p with
  | done r =>
      refine ⟨p, SameView.refl h, ?_⟩
      cases r <;> rfl
  | get pgno k ih =>
      obtain ⟨q, hq, hrun⟩ := sameView_getPage h pgno
      rw [Reading.run, Reading.eval]
      cases hseen : pageSeen p.1 p.2.disk pgno with
      | error e =>
          rw [hseen] at hrun
          exact ⟨q, hq, by rw [bind_error hrun]⟩
      | ok page =>
          rw [hseen] at hrun
          obtain ⟨r, hr, hrun'⟩ := ih page hq.failAt
          refine ⟨r, hq.trans hr, ?_⟩
          rw [bind_ok hrun, hrun', funext hq.view]
  | attempt pgno k ih =>
      obtain ⟨q, hq, hrun⟩ := sameView_getPage h pgno
      rw [Reading.run, Reading.eval]
      cases hseen : pageSeen p.1 p.2.disk pgno with
      | error e =>
          rw [hseen] at hrun
          dsimp only
          split_ifs with hpanic
          · have htry : tryResult (getPage pgno) p = .error e q := by
              rw [tryResult, hrun]
              exact if_pos hpanic
            exact ⟨q, hq, by rw [bind_error htry]⟩
          · have htry : tryResult (getPage pgno) p = .ok (.error e) q := by
              rw [tryResult, hrun]
              exact if_neg hpanic
            obtain ⟨r, hr, hrun'⟩ := ih (.error e) hq.failAt
            refine ⟨r, hq.trans hr, ?_⟩
            rw [bind_ok htry, hrun', funext hq.view]
      | ok page =>
          rw [hseen] at hrun
          have htry : tryResult (getPage pgno) p = .ok (.ok page) q := by
            rw [tryResult, hrun]
          obtain ⟨r, hr, hrun'⟩ := ih (.ok page) hq.failAt
          refine ⟨r, hq.trans hr, ?_⟩
          rw [bind_ok htry, hrun', funext hq.view]

end Rustqlite.Pager
