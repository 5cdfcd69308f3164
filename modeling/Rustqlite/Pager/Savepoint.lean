import Rustqlite.Pager.Rollback

/-!
# Savepoints

Between the opening of a savepoint and a rollback to it, pages may be written,
allocated and freed, and other savepoints opened, released and rolled back to.
-/

namespace Rustqlite.Pager

open Foundation Format Btree FileM

inductive SavepointCall where
  | txn (c : TxnCall)
  | beginWrite (src : SaltSource)
  | openSavepoint (name : String)
  | release (name : String)
  | rollbackTo (name : String)

def SavepointCall.run : SavepointCall → PagerM Unit
  | .txn c => c.run
  | .beginWrite src => Pager.beginWrite src
  | .openSavepoint name => Pager.openSavepoint name
  | .release name => do let _ ← releaseSavepoint name
  | .rollbackTo name => rollbackToSavepoint name

def Coherent (s : PagerState) (disk : Disk DbFile) : Prop :=
  ∀ q d, s.cache q = some d → storedPage s disk q = .ok d

def freelistFields (h : DbHeader) : UInt32 × UInt32 := (h.firstFreelistTrunk, h.freelistCount)

structure RolledBackTo (p p' : PagerState × World DbFile) : Prop where
  pages : ∀ pgno, seen p' pgno = seen p pgno
  pageCount : p'.1.effectiveCount = p.1.effectiveCount
  freelist : freelistFields p'.1.header = freelistFields p.1.header
  savepoints : p'.1.savepoints = p.1.savepoints

def KeepsFreelist (p : PagerState × World DbFile) : SavepointCall → Prop
  | .txn c => KeepsFields freelistFields p c
  | _ => True

def KeepsOpen (depth : Nat) (p : PagerState × World DbFile) : SavepointCall → Prop
  | .release name => ∀ i, savepointIndex p.1 name = some i → depth ≤ i
  | .rollbackTo name => ∀ i, savepointIndex p.1 name = some i → depth ≤ i + 1
  | _ => True

structure Nested (p₁ p : PagerState × World DbFile) : Prop where
  geometry : p.1.geometry = p₁.1.geometry
  wal : p.1.wal = p₁.1.wal
  dbFile : p.2.disk .db = p₁.2.disk .db
  walFile : p.2.disk .wal = p₁.2.disk .wal
  failAt : p.2.failAt = none
  freelist : freelistFields p.1.header = freelistFields p₁.1.header
  cache : ∀ q d, p.1.cache q = some d → storedPage p₁.1 p₁.2.disk q = .ok d
  stack : p₁.1.savepoints <+: p.1.savepoints

variable {s : PagerState} {name : String} {sp : PagerSavepoint}

namespace Nested

variable {p₁ p : PagerState × World DbFile}

section

variable (h : Nested p₁ p)

include h

theorem storedPage_eq (q : UInt32) : storedPage p.1 p.2.disk q = storedPage p₁.1 p₁.2.disk q :=
  storedPage_congr h.geometry h.wal h.dbFile h.walFile q

theorem txn {c : TxnCall} (hc : KeepsFields freelistFields p c) : Nested p₁ (after c.run p) := by
  have hext : Extends p (after c.run p) := Triple.after (Extends.run c) (.refl h.failAt)
  exact {
    geometry := hext.geometry.trans h.geometry
    wal := hext.wal.trans h.wal
    dbFile := hext.dbFile.trans h.dbFile
    walFile := hext.walFile.trans h.walFile
    failAt := hext.failAt
    freelist := (hc.after h.failAt).trans h.freelist
    cache := by
      intro q d hq
      rcases hext.cache_from q d hq with hold | hread
      · exact h.cache q d hold
      · rwa [h.storedPage_eq] at hread
    stack := by
      rw [hext.savepoints]
      exact h.stack }

theorem beginWrite (src : SaltSource) : Nested p₁ (after (Pager.beginWrite src) p) := by
  cases ht : p.1.txn with
  | some t =>
      have hrun : Pager.beginWrite src p = .ok () p := by
        simp only [Pager.beginWrite, getState_bind, PagerState.inWriteTxn, ht, Option.isSome_some,
          if_true]
        rfl
      rw [after, hrun]
      exact h
  | none =>
      have hbegun := begun_state (s := p.1) h.failAt ht src
      have hfiles := applyAll_of_sideOnly p.2 _ (sideOnly_beginOps p.1 src)
      rw [show p = (p.1, p.2) from rfl, hbegun]
      exact {
        geometry := h.geometry
        wal := h.wal
        dbFile := hfiles.1.trans h.dbFile
        walFile := hfiles.2.trans h.walFile
        failAt := by rw [World.failAt_applyAll, h.failAt, Option.map_none]
        freelist := h.freelist
        cache := h.cache
        stack := h.stack }

theorem restack (hg : s.geometry = p.1.geometry) (hw : s.wal = p.1.wal) (hh : s.header = p.1.header)
    (hc : ∀ q d, s.cache q = some d → p.1.cache q = some d)
    (hs : p₁.1.savepoints <+: s.savepoints) :
    Nested p₁ (s, p.2) where
  geometry := hg.trans h.geometry
  wal := hw.trans h.wal
  dbFile := h.dbFile
  walFile := h.walFile
  failAt := h.failAt
  freelist := by rw [hh]; exact h.freelist
  cache q d hq := h.cache q d (hc q d hq)
  stack := hs

theorem release (hopen : KeepsOpen p₁.1.savepoints.length p (.release name)) :
    Nested p₁ (after (SavepointCall.release name).run p) := by
  simp only [after, SavepointCall.run, releaseSavepoint, getState_bind, bind_assoc]
  cases hi : savepointIndex p.1 name with
  | none => exact h
  | some i =>
      refine h.restack rfl rfl rfl (fun _ _ hq => hq) ?_
      exact List.prefix_take_iff.mpr ⟨h.stack, hopen i hi⟩

theorem rollbackTo (hopen : KeepsOpen p₁.1.savepoints.length p (.rollbackTo name)) :
    Nested p₁ (after (SavepointCall.rollbackTo name).run p) := by
  simp only [after, SavepointCall.run, rollbackToSavepoint, getState_bind]
  cases hi : savepointIndex p.1 name with
  | none => exact h
  | some i =>
      dsimp only
      cases hsp : p.1.savepoints[i]? with
      | none => exact h
      | some sp =>
          refine h.restack rfl rfl rfl ?_ (List.prefix_take_iff.mpr ⟨h.stack, hopen i hi⟩)
          intro q d hq
          simp only [PagerState.retainCache] at hq
          split_ifs at hq
          exact hq

theorem run {c : SavepointCall} (hc : KeepsFreelist p c)
    (hopen : KeepsOpen p₁.1.savepoints.length p c) : Nested p₁ (after c.run p) := by
  cases c with
  | txn c => exact h.txn hc
  | beginWrite src => exact h.beginWrite src
  | openSavepoint name =>
      exact h.restack rfl rfl rfl (fun _ _ hq => hq)
        (h.stack.trans (List.prefix_append _ _))
  | release name => exact h.release hopen
  | rollbackTo name => exact h.rollbackTo hopen

end

end Nested

theorem savepointIndex_eq {outer inner : List PagerSavepoint}
    (hstack : s.savepoints = outer ++ sp :: inner) (hsp : eqIgnoreAsciiCase sp.name name = true)
    (hne : ∀ o ∈ outer, eqIgnoreAsciiCase o.name name = false) :
    savepointIndex s name = some outer.length := by
  have houter : outer.findIdx? (fun o => eqIgnoreAsciiCase o.name name) = none := by
    simpa [List.findIdx?_eq_none_iff] using hne
  rw [savepointIndex, hstack, List.findIdx?_append, houter, List.findIdx?_cons, hsp]
  simp

def backTo (s : PagerState) (sp : PagerSavepoint) (idx : Nat) : PagerState where
  geometry := s.geometry
  header := s.header
  pageCount := sp.nOrig
  cache := fun p => if p ≤ sp.nOrig then s.cache p else none
  dirty := sp.dirtySnapshot
  txn := s.txn
  savepoints := s.savepoints.take (idx + 1)
  wal := s.wal

theorem rollbackToSavepoint_run {p : PagerState × World DbFile} {idx : Nat}
    (hindex : savepointIndex p.1 name = some idx) (hget : p.1.savepoints[idx]? = some sp) :
    rollbackToSavepoint name p = .ok () (backTo p.1 sp idx, p.2) := by
  simp only [rollbackToSavepoint, getState_bind, hindex, hget]
  rfl

theorem resident_elim {stored : Result Bytes} {q : UInt32}
    (h : ∀ d, s.cache q = some d → stored = .ok d) :
    (s.resident q).elim stored .ok = (s.dirty.lookup q).elim stored .ok := by
  rw [PagerState.resident]
  cases s.dirty.lookup q with
  | some d => rfl
  | none =>
      rw [Option.none_or]
      cases hc : s.cache q with
      | none => rfl
      | some d => exact (h d hc).symm

theorem rollbackToSavepoint_restores (name : String) (calls : List SavepointCall)
    {p : PagerState × World DbFile} (hfail : p.2.failAt = none)
    (hclean : Coherent p.1 p.2.disk)
    (hopen : StepsMeet SavepointCall.run (KeepsOpen (p.1.savepoints.length + 1)) calls
      (after (openSavepoint name) p))
    (hname : ∀ sp ∈ p.1.savepoints, eqIgnoreAsciiCase sp.name name = false)
    (hfreelist : StepsMeet SavepointCall.run KeepsFreelist calls
      (after (openSavepoint name) p)) :
    ∃ p', rollbackToSavepoint name
        (runCalls SavepointCall.run calls (after (openSavepoint name) p)) = .ok () p' ∧
      RolledBackTo (after (openSavepoint name) p) p' := by
  set p₁ := after (openSavepoint name) p with hp₁
  have hstate : p₁ = ({ p.1 with savepoints :=
      p.1.savepoints ++ [⟨name, p.1.pageCount, p.1.dirty⟩] }, p.2) := rfl
  set p₂ := runCalls SavepointCall.run calls p₁
  have hnested : Nested p₁ p₂ := by
    refine runCalls_invariant (I := Nested p₁) ?_ ?_ (hfreelist.and hopen)
    · rintro q c hq ⟨hc, ho⟩
      exact hq.run hc (by simpa [hstate] using ho)
    · exact ⟨rfl, rfl, rfl, rfl, hfail, rfl, hclean, List.prefix_rfl⟩
  obtain ⟨inner, hinner⟩ := hnested.stack
  have hstack : p₂.1.savepoints =
      p.1.savepoints ++ ⟨name, p.1.pageCount, p.1.dirty⟩ :: inner := by
    rw [← hinner, hstate, List.append_assoc, List.singleton_append]
  have hindex : savepointIndex p₂.1 name = some p.1.savepoints.length :=
    savepointIndex_eq hstack (by simp [eqIgnoreAsciiCase]) hname
  have hget : p₂.1.savepoints[p.1.savepoints.length]? =
      some ⟨name, p.1.pageCount, p.1.dirty⟩ := by
    rw [hstack, List.getElem?_append_right le_rfl, Nat.sub_self, List.getElem?_cons_zero]
  refine ⟨_, rollbackToSavepoint_run hindex hget, ?_⟩
  have hcount : (backTo p₂.1 ⟨name, p.1.pageCount, p.1.dirty⟩
      p.1.savepoints.length).effectiveCount = p₁.1.effectiveCount := by
    simp only [PagerState.effectiveCount, backTo, hnested.wal]
    rfl
  constructor
  · intro pgno
    rw [seen_eq hnested.failAt, show p₁ = (p₁.1, p₁.2) from rfl,
      seen_eq (show p₁.2.failAt = none from hfail)]
    apply pageSeen_congr hcount
    intro _
    have hstored : storedPage (backTo p₂.1 ⟨name, p.1.pageCount, p.1.dirty⟩
        p.1.savepoints.length) p₂.2.disk pgno = storedPage p₁.1 p₁.2.disk pgno :=
      hnested.storedPage_eq pgno
    have hclean₁ : Coherent p₁.1 p₁.2.disk := hclean
    rw [hstored, resident_elim (hclean₁ pgno), resident_elim]
    · rfl
    · intro d hd
      simp only [backTo] at hd
      split_ifs at hd
      exact hnested.cache pgno d hd
  · exact hcount
  · exact hnested.freelist
  · have htake := congrArg (List.take (p.1.savepoints.length + 1)) hstack
    rw [List.take_append, List.take_of_length_le (Nat.le_succ _), Nat.add_sub_cancel_left,
      List.take_succ_cons, List.take_zero] at htake
    exact htake

set_option maxRecDepth 10000 in
theorem coherent_freshPager : Coherent freshPager.1 freshPager.2.disk := by
  intro q d hd
  have hcache : freshPager.1.cache = Function.update (fun _ => none) 1
      (some (buildFreshPage1 (freshHeader ⟨512, isValidPageSize_512⟩) 512)) := rfl
  have hq : q = 1 := by
    by_contra hne
    rw [hcache, Function.update_of_ne hne] at hd
    cases hd
  subst hq
  have hone : (freshPager.1.cache 1).elim (.error ioFailed) .ok =
      storedPage freshPager.1 freshPager.2.disk 1 := by
    decide
  rw [hd] at hone
  exact hone.symm

theorem rollbackToSavepoint_restores_freshPager :
    ∃ p', rollbackToSavepoint "s" (runCalls SavepointCall.run
        [.openSavepoint "t", .beginWrite firstSource, .txn .allocate, .release "t"]
        (after (openSavepoint "s") freshPager)) = .ok () p' ∧
      RolledBackTo (after (openSavepoint "s") freshPager) p' := by
  apply rollbackToSavepoint_restores "s" _ rfl coherent_freshPager
  · refine ⟨trivial, trivial, trivial, ?_, trivial⟩
    intro i hi
    have hindex : savepointIndex (runCalls SavepointCall.run
        [.openSavepoint "t", .beginWrite firstSource, .txn .allocate]
        (after (openSavepoint "s") freshPager)).1 "t" = some 1 := by
      decide
    have hone : some 1 = some i := hindex.symm.trans hi
    cases hone
    exact le_rfl
  · intro sp hsp
    cases hsp
  · have hempty : ¬ (0 < (runCalls SavepointCall.run [.openSavepoint "t", .beginWrite firstSource]
          (after (openSavepoint "s") freshPager)).1.header.freelistCount ∧
        (runCalls SavepointCall.run [.openSavepoint "t", .beginWrite firstSource]
          (after (openSavepoint "s") freshPager)).1.header.firstFreelistTrunk ≠ 0) := by
      decide
    exact ⟨trivial, trivial, hempty, trivial, trivial⟩

set_option maxRecDepth 10000 in
/-- A page freed behind a savepoint is still on the freelist after the rollback to it. -/
theorem rollbackToSavepoint_keeps_freed_page :
    ¬ RolledBackTo (after (openSavepoint "s") freshPager)
      (after (rollbackToSavepoint "s") (runCalls SavepointCall.run
        [.beginWrite firstSource, .txn .allocate, .txn (.free 2)]
        (after (openSavepoint "s") freshPager))) := by
  intro h
  have := h.freelist
  revert this
  decide

end Rustqlite.Pager
