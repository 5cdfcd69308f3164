import Rustqlite.Foundation.Hoare
import Rustqlite.Pager.Transaction

/-!
# What a pager shows

The content of a page is what the overlay holds, else what the cache holds, else
what the files hold.  The calls of a transaction change the overlay and the
journal; they fill the cache from the files and leave the files alone.
-/

namespace Rustqlite.Pager

open Foundation Format Btree FileM

/-- What `getPage` answers. -/
def seen (p : PagerState × World DbFile) (pgno : UInt32) : Result Bytes :=
  match getPage pgno p with
  | .ok page _ => .ok page
  | .error e _ => .error e

def storedPage (s : PagerState) (disk : Disk DbFile) (pgno : UInt32) : Result Bytes :=
  match s.walFrame pgno with
  | some (w, iFrame) =>
      if w.file = false then .error (.panic "wal frame exists, file must be open")
      else
        .ok (readPadded ((disk .wal).getD []) (frameDataOffset w.pageSize iFrame) s.pageSize)
  | none =>
      let buf := slice ((disk .db).getD []) ((pgno.toNat - 1) * s.pageSize) s.pageSize
      if buf.length < s.pageSize then
        .error (.corrupt s!"short read for page {pgno}: got {buf.length} of {s.pageSize} bytes")
      else .ok buf

theorem storedPage_congr {s s' : PagerState} {disk disk' : Disk DbFile}
    (hg : s.geometry = s'.geometry) (hw : s.wal = s'.wal) (hdb : disk .db = disk' .db)
    (hwal : disk .wal = disk' .wal) (q : UInt32) : storedPage s disk q = storedPage s' disk' q := by
  unfold storedPage PagerState.walFrame PagerState.pageSize
  rw [hg, hw, hdb, hwal]

def FileOp.sideOnly : FileOp DbFile → Bool
  | .create f | .write f _ _ | .truncate f _ | .delete f => f == .journal
  | .sync _ | .probe _ => true

theorem applyOp_of_sideOnly {op : FileOp DbFile} (h : FileOp.sideOnly op = true)
    (disk : Disk DbFile) :
    applyOp disk op .db = disk .db ∧ applyOp disk op .wal = disk .wal := by
  cases op with
  | sync f => exact ⟨rfl, rfl⟩
  | probe f => exact ⟨rfl, rfl⟩
  | _ =>
      simp only [FileOp.sideOnly, beq_iff_eq] at h
      subst h
      constructor <;> apply applyOp_of_ne <;> simp [FileOp.target]

structure Extends (p₀ p : PagerState × World DbFile) : Prop where
  geometry : p.1.geometry = p₀.1.geometry
  wal : p.1.wal = p₀.1.wal
  savepoints : p.1.savepoints = p₀.1.savepoints
  dbFile : p.2.disk .db = p₀.2.disk .db
  walFile : p.2.disk .wal = p₀.2.disk .wal
  failAt : p.2.failAt = none
  txn : p.1.txn.map WriteTxn.dbOrigSize = p₀.1.txn.map WriteTxn.dbOrigSize
  cache_grows : ∀ q d, p₀.1.cache q = some d → p.1.cache q = some d
  cache_from : ∀ q d, p.1.cache q = some d →
    p₀.1.cache q = some d ∨ storedPage p₀.1 p₀.2.disk q = .ok d

namespace Extends

variable {p₀ p : PagerState × World DbFile}

theorem refl (h : p₀.2.failAt = none) : Extends p₀ p₀ where
  geometry := rfl
  wal := rfl
  savepoints := rfl
  dbFile := rfl
  walFile := rfl
  failAt := h
  txn := rfl
  cache_grows _ _ h := h
  cache_from _ _ h := .inl h

theorem storedPage_eq (h : Extends p₀ p) (q : UInt32) :
    storedPage p.1 p.2.disk q = storedPage p₀.1 p₀.2.disk q :=
  storedPage_congr h.geometry h.wal h.dbFile h.walFile q

theorem apply (h : Extends p₀ p) (op : FileOp DbFile) (hop : FileOp.sideOnly op = true) :
    Extends p₀ (p.1, p.2.apply op) where
  geometry := h.geometry
  wal := h.wal
  savepoints := h.savepoints
  dbFile := (applyOp_of_sideOnly hop _).1.trans h.dbFile
  walFile := (applyOp_of_sideOnly hop _).2.trans h.walFile
  failAt := by simp [World.apply, h.failAt]
  txn := h.txn
  cache_grows := h.cache_grows
  cache_from := h.cache_from

end Extends

/-! ## Reading without failures -/

/-- The answer of `getPage` as a function of the state and the files. -/
def pageSeen (s : PagerState) (disk : Disk DbFile) (pgno : UInt32) : Result Bytes :=
  if pgno = 0 ∨ s.effectiveCount < pgno then
    .error (.corrupt s!"page {pgno} out of range (page count {s.effectiveCount})")
  else
    match s.resident pgno with
    | some page => .ok page
    | none => storedPage s disk pgno

def afterRead (s : PagerState) (pgno : UInt32) (page : Bytes) : PagerState :=
  if s.resident pgno = none then s.insertCache pgno page else s

def Probed (w w' : World DbFile) : Prop := w' = w ∨ ∃ f, w' = w.apply (.probe f)

section Reading

variable {s : PagerState} {w : World DbFile}

theorem readStored_run (h : w.failAt = none) (pgno : UInt32) :
    ∃ w', Probed w w' ∧ readStored s pgno (s, w) =
      match storedPage s w.disk pgno with
      | .ok page => .ok page (s, w')
      | .error e => .error e (s, w') := by
  have hok : w.failAt ≠ some 0 := by simp [h]
  rw [readStored, storedPage]
  cases hf : s.walFrame pgno with
  | none =>
      refine ⟨w.apply (.probe .db), .inr ⟨.db, rfl⟩, ?_⟩
      simp only [readDbPage, getState_bind, bind_ok (contents_ok ioFailed .db s hok)]
      split_ifs <;> rfl
  | some r =>
      obtain ⟨wal, iFrame⟩ := r
      cases hfile : wal.file with
      | false =>
          refine ⟨w, .inl rfl, ?_⟩
          simp only [readWalPage, getState_bind, hfile, if_true]
          rfl
      | true =>
          refine ⟨w.apply (.probe .wal), .inr ⟨.wal, rfl⟩, ?_⟩
          simp only [readWalPage, getState_bind, hfile, Bool.true_eq_false, if_false,
            bind_ok (contents_ok ioFailed .wal s hok)]
          rfl

theorem getPage_run (h : w.failAt = none) (pgno : UInt32) :
    ∃ w', Probed w w' ∧ getPage pgno (s, w) =
      match pageSeen s w.disk pgno with
      | .ok page => .ok page (afterRead s pgno page, w')
      | .error e => .error e (s, w') := by
  rw [getPage, pageSeen]
  simp only [getState_bind]
  by_cases hrange : pgno = 0 ∨ s.effectiveCount < pgno
  · exact ⟨w, .inl rfl, by simp only [if_pos hrange]; rfl⟩
  · simp only [if_neg hrange]
    cases hres : s.resident pgno with
    | some page => exact ⟨w, .inl rfl, by simp [afterRead, hres]⟩
    | none =>
        obtain ⟨w', hw', hrun⟩ := readStored_run (s := s) h pgno
        refine ⟨w', hw', ?_⟩
        cases hst : storedPage s w.disk pgno with
        | error e =>
            rw [hst] at hrun
            simp only [bind_error hrun]
        | ok page =>
            rw [hst] at hrun
            simp only [bind_ok hrun, modifyState_bind, pure_run, afterRead, hres, if_true]

def mustJournal (s : PagerState) (pgno : UInt32) : Option WriteTxn :=
  if s.wal.isSome then none
  else s.txn.filter fun t => !(t.dbOrigSize < pgno || t.journaled.contains pgno)

def WriteTxn.record (t : WriteTxn) (pageSize : Nat) (pgno : UInt32) : WriteTxn :=
  { t with
    journaled := pgno :: t.journaled
    nrec := t.nrec + 1
    journalOff := t.journalOff + recordLen pageSize }

theorem journalPage_run (h : w.failAt ≠ some 0) (pgno : UInt32) (preimage : Bytes) :
    journalPage pgno preimage (s, w) =
      match mustJournal s pgno with
      | none => .ok () (s, w)
      | some t => .ok () ({ s with txn := some (t.record s.pageSize pgno) },
          w.apply (.write .journal t.journalOff (buildRecord pgno preimage t.cksumInit))) := by
  rw [journalPage, mustJournal]
  simp only [getState_bind]
  by_cases hwal : s.wal.isSome
  · simp only [hwal, if_true]
    rfl
  · simp only [hwal, Bool.false_eq_true, if_false]
    cases ht : s.txn with
    | none => rfl
    | some t =>
        simp only [Option.filter_some, List.contains_eq_mem, Bool.not_eq_true',
          Bool.or_eq_false_iff, decide_eq_false_iff_not]
        by_cases hj : t.dbOrigSize < pgno ∨ pgno ∈ t.journaled
        · have : ¬ (¬ t.dbOrigSize < pgno ∧ pgno ∉ t.journaled) := by tauto
          simp only [if_pos hj, if_neg this]
          rfl
        · have : ¬ t.dbOrigSize < pgno ∧ pgno ∉ t.journaled := by tauto
          simp only [if_neg hj, if_pos this, modifyState_bind]
          exact perform_ok ioFailed _ _ h

theorem seen_eq (h : w.failAt = none) (pgno : UInt32) :
    seen (s, w) pgno = pageSeen s w.disk pgno := by
  obtain ⟨w', -, hrun⟩ := getPage_run (s := s) h pgno
  rw [seen, hrun]
  cases pageSeen s w.disk pgno <;> rfl

end Reading

/-! ## The calls of a transaction -/

section Calls

variable {p₀ : PagerState × World DbFile}

theorem Extends.probed {p : PagerState × World DbFile} {w : World DbFile} (h : Extends p₀ p)
    (hw : Probed p.2 w) : Extends p₀ (p.1, w) := by
  rcases hw with rfl | ⟨f, rfl⟩
  · exact h
  · exact h.apply _ rfl

theorem Extends.afterRead {p : PagerState × World DbFile} (h : Extends p₀ p) {pgno : UInt32}
    {page : Bytes} (hseen : pageSeen p.1 p.2.disk pgno = .ok page) :
    Extends p₀ (afterRead p.1 pgno page, p.2) := by
  rw [Pager.afterRead]
  split_ifs with hres
  · have hcache : p.1.cache pgno = none := by
      simp only [PagerState.resident, Option.or_eq_none_iff] at hres
      exact hres.2
    have hstored : storedPage p₀.1 p₀.2.disk pgno = .ok page := by
      rw [← h.storedPage_eq]
      simp only [pageSeen, hres] at hseen
      split_ifs at hseen
      exact hseen
    exact {
      geometry := h.geometry
      wal := h.wal
      savepoints := h.savepoints
      dbFile := h.dbFile
      walFile := h.walFile
      failAt := h.failAt
      txn := h.txn
      cache_grows := by
        intro q d hq
        have hne : q ≠ pgno := by
          rintro rfl
          rw [h.cache_grows q d hq] at hcache
          cases hcache
        simpa [PagerState.insertCache, hne] using h.cache_grows q d hq
      cache_from := by
        intro q d hq
        by_cases hne : q = pgno
        · subst hne
          simp only [PagerState.insertCache, Function.update_self, Option.some.injEq] at hq
          exact .inr (hq ▸ hstored)
        · simp only [PagerState.insertCache, Function.update_of_ne hne] at hq
          exact h.cache_from q d hq }
  · exact h

theorem Extends.getPage (pgno : UInt32) : Keeps (Extends p₀) (getPage pgno) := by
  intro p h
  obtain ⟨w', hw', hrun⟩ := getPage_run (s := p.1) h.failAt pgno
  rw [show p = (p.1, p.2) from rfl, hrun]
  cases hseen : pageSeen p.1 p.2.disk pgno with
  | error e => exact h.probed hw'
  | ok page => exact (h.afterRead hseen).probed hw'

theorem Extends.modify {f : PagerState → PagerState} (hg : ∀ s, (f s).geometry = s.geometry)
    (hw : ∀ s, (f s).wal = s.wal) (hsp : ∀ s, (f s).savepoints = s.savepoints)
    (htxn : ∀ s, (f s).txn.map WriteTxn.dbOrigSize = s.txn.map WriteTxn.dbOrigSize)
    (hc : ∀ s, (f s).cache = s.cache) : Keeps (Extends p₀) (modifyState f : PagerM Unit) := by
  apply Triple.modifyState
  intro p h
  exact {
    geometry := (hg _).trans h.geometry
    wal := (hw _).trans h.wal
    savepoints := (hsp _).trans h.savepoints
    dbFile := h.dbFile
    walFile := h.walFile
    failAt := h.failAt
    txn := (htxn _).trans h.txn
    cache_grows := fun q d hq => by rw [hc]; exact h.cache_grows q d hq
    cache_from := fun q d hq => by rw [hc] at hq; exact h.cache_from q d hq }

theorem Extends.journalPage (pgno : UInt32) (preimage : Bytes) :
    Keeps (Extends p₀) (journalPage pgno preimage) := by
  intro p h
  have hok : p.2.failAt ≠ some 0 := by simp [h.failAt]
  rw [show p = (p.1, p.2) from rfl, journalPage_run hok]
  cases hj : mustJournal p.1 pgno with
  | none => exact h
  | some t =>
      have ht : p.1.txn = some t := by
        simp only [mustJournal] at hj
        split_ifs at hj
        exact (Option.filter_eq_some_iff.mp hj).1
      have h' := h.apply (.write .journal t.journalOff
        (buildRecord pgno preimage t.cksumInit)) rfl
      exact { h' with
        txn := by rw [← h.txn, ht]; rfl
        geometry := h'.geometry }

theorem Extends.writePage (pgno : UInt32) (data : Bytes) :
    Keeps (Extends p₀) (writePage pgno data) := by
  refine Keeps.getState.bind fun s => Keeps.ite (Keeps.throw _) ?_
  exact Extends.modify (fun _ => rfl) (fun _ => rfl) (fun _ => rfl) (fun _ => rfl) fun _ => rfl

end Calls

/-! ## Invariants of the write path -/

section Lift

variable {I : PagerState × World DbFile → Prop}

theorem keeps_tryResult {α : Type} {m : PagerM α} (h : Keeps I m) : Keeps I (tryResult m) := by
  intro p hp
  have := h p hp
  rw [tryResult]
  cases hm : m p with
  | ok a q => rwa [hm] at this
  | error e q =>
      rw [hm] at this
      dsimp only
      split_ifs <;> exact this

theorem keeps_liftResult {α : Type} (r : Result α) : Keeps I (liftResult r) := by
  cases r with
  | ok a => exact Keeps.pure a
  | error e => exact Keeps.throw e

theorem keeps_ptrmapOffset (pm pgno : Nat) : Keeps I (ptrmapOffset pm pgno) := by
  exact Keeps.ite (Keeps.throw _) (Keeps.pure _)

theorem keeps_ptrmapDiffers (usable pm : Nat) (pgno : UInt32) (ty : PtrMapType) (parent : UInt32)
    (page : Bytes) : Keeps I (ptrmapDiffers usable pm pgno ty parent page) := by
  exact (keeps_ptrmapOffset pm pgno.toNat).bind fun off =>
    Keeps.ite (Keeps.throw _) (Keeps.pure _)

end Lift

def layoutFields (h : DbHeader) : PageSize × UInt8 × UInt8 × UInt8 :=
  (h.pageSize, h.reservedSpace, h.writeVersion, h.readVersion)

structure Primitives (I : PagerState × World DbFile → Prop) : Prop where
  getPage : ∀ pgno, Keeps I (getPage pgno)
  journalPage : ∀ pgno preimage, Keeps I (journalPage pgno preimage)
  writePage : ∀ pgno data, Keeps I (writePage pgno data)
  withHeaderMut : ∀ f, (∀ h, layoutFields (f h) = layoutFields h) → Keeps I (withHeaderMut f)
  zeroed : ∀ g pgno, Keeps I (modifyState fun s =>
    { s with dirty := s.dirty.insert pgno (zeroPage g) } : PagerM Unit)
  extended : ∀ g, Keeps I (modifyState fun s => { s with
    pageCount := s.pageCount + 1
    dirty := s.dirty.insert (s.pageCount + 1) (zeroPage g) } : PagerM Unit)

namespace Primitives

variable {I : PagerState × World DbFile → Prop} (h : Primitives I)

include h

theorem readPageForWrite (pgno : UInt32) : Keeps I (readPageForWrite pgno) :=
  (h.getPage pgno).bind fun page => (h.journalPage pgno page).bind fun _ => Keeps.pure page

theorem ptrmapWrite (pm : Nat) (pgno : UInt32) (ty : PtrMapType) (parent : UInt32) :
    Keeps I (ptrmapWrite pm pgno ty parent) :=
  (h.readPageForWrite _).bind fun _ =>
    (keeps_ptrmapOffset _ _).bind fun _ => h.writePage _ _

theorem ptrmapPut (pgno : UInt32) (ty : PtrMapType) (parent : UInt32) :
    Keeps I (ptrmapPut pgno ty parent) := by
  refine Keeps.getState.bind fun s => Keeps.ite (Keeps.throw _) ?_
  refine (keeps_tryResult (h.getPage _)).bind fun r => ?_
  cases r with
  | error e => exact h.ptrmapWrite _ _ _ _
  | ok page =>
      refine (keeps_ptrmapDiffers _ _ _ _ _ _).bind fun needsWrite => ?_
      exact Keeps.ite (h.ptrmapWrite _ _ _ _) (Keeps.pure _)

theorem takeTrunk (firstTrunk nextTrunk : UInt32) : Keeps I (takeTrunk firstTrunk nextTrunk) :=
  (h.withHeaderMut _ fun _ => by rfl).bind fun _ => Keeps.pure _

theorem takeLeaf (firstTrunk : UInt32) (trunk : Bytes) (k : UInt32) :
    Keeps I (takeLeaf firstTrunk trunk k) := by
  refine Keeps.ite (Keeps.throw _) ?_
  refine (keeps_tryResult (h.writePage _ _)).bind fun r => ?_
  cases r with
  | error e => exact Keeps.throw _
  | ok _ =>
      refine Keeps.ite (h.takeTrunk _ _) ?_
      exact (h.withHeaderMut _ fun _ => by rfl).bind fun _ => Keeps.pure _

theorem allocateFromFreelist (firstTrunk : UInt32) : Keeps I (allocateFromFreelist firstTrunk) := by
  refine Keeps.getState.bind fun s => ?_
  refine (keeps_tryResult (h.getPage _)).bind fun r => ?_
  refine Keeps.bind (Keeps.ite (h.takeTrunk _ _) (h.takeLeaf _ _ _)) fun pgno => ?_
  exact (h.zeroed _ _).bind fun _ => Keeps.pure _

theorem extendFile (g : Geometry) (left : Nat) : Keeps I (extendFile g left) := by
  induction left with
  | zero => exact Keeps.throw _
  | succ left ih =>
      refine (h.extended g).bind fun _ => Keeps.getState.bind fun s => ?_
      exact Keeps.ite ih (Keeps.ite ih (Keeps.pure _))

theorem allocatePage : Keeps I allocatePage := by
  exact Keeps.getState.bind fun s => Keeps.ite (h.allocateFromFreelist _) (h.extendFile _ _)

theorem freePage (pgno : UInt32) : Keeps I (freePage pgno) := by
  refine (h.getPage _).bind fun preimage => ?_
  refine (h.journalPage _ _).bind fun _ => Keeps.getState.bind fun s => ?_
  refine (h.writePage _ _).bind fun _ => ?_
  refine (h.withHeaderMut _ fun _ => by rfl).bind fun _ => Keeps.getState.bind fun s => ?_
  exact Keeps.ite (h.ptrmapPut _ _ _) (Keeps.pure _)

end Primitives

theorem Extends.primitives {p₀ : PagerState × World DbFile} : Primitives (Extends p₀) where
  getPage := Extends.getPage
  journalPage := Extends.journalPage
  writePage := Extends.writePage
  withHeaderMut _ _ :=
    Extends.modify (fun _ => rfl) (fun _ => rfl) (fun _ => rfl) (fun _ => rfl) fun _ => rfl
  zeroed _ _ :=
    Extends.modify (fun _ => rfl) (fun _ => rfl) (fun _ => rfl) (fun _ => rfl) fun _ => rfl
  extended _ :=
    Extends.modify (fun _ => rfl) (fun _ => rfl) (fun _ => rfl) (fun _ => rfl) fun _ => rfl

end Rustqlite.Pager
