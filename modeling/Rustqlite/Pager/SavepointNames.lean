import Rustqlite.Pager.Savepoint

/-!
# Savepoints with the same name

Names may repeat on the stack.  A name stands for the savepoint that was opened
last under it, while the search starts at the one that was opened first.
-/

namespace Rustqlite.Pager

open Foundation Format Btree FileM

variable {i : Nat} {s : PagerState} {name : String}

section LastIndex

variable {α : Type} {p : α → Bool}

def lastIdx? (p : α → Bool) : List α → Option Nat
  | [] => none
  | x :: xs =>
      match lastIdx? p xs with
      | some i => some (i + 1)
      | none => if p x then some 0 else none

variable {xs : List α}

theorem lastIdx?_eq_none_iff : lastIdx? p xs = none ↔ xs.countP p = 0 := by
  induction xs with
  | nil => simp [lastIdx?]
  | cons x xs ih =>
      rw [lastIdx?, List.countP_cons]
      cases hrest : lastIdx? p xs with
      | none =>
          have := ih.mp hrest
          by_cases hx : p x = true <;> simp [hx, this]
      | some i =>
          have hne : xs.countP p ≠ 0 := fun h => by simp [ih.mpr h] at hrest
          simp only [reduceCtorEq, false_iff]
          omega

theorem lastIdx?_eq_some (h : lastIdx? p xs = some i) :
    (∃ x, xs[i]? = some x ∧ p x = true) ∧ ∀ j x, i < j → xs[j]? = some x → p x = false := by
  induction xs generalizing i with
  | nil => cases h
  | cons x xs ih =>
      rw [lastIdx?] at h
      cases hrest : lastIdx? p xs with
      | some k =>
          rw [hrest] at h
          cases h
          obtain ⟨hk, hlater⟩ := ih hrest
          constructor
          · exact hk
          · intro j y hj hy
            obtain ⟨j, rfl⟩ : ∃ n, j = n + 1 := ⟨j - 1, by omega⟩
            exact hlater j y (by omega) hy
      | none =>
          rw [hrest] at h
          by_cases hx : p x = true
          · simp only [hx, if_true, Option.some.injEq] at h
            subst h
            constructor
            · exact ⟨x, rfl, hx⟩
            · intro j y hj hy
              obtain ⟨j, rfl⟩ : ∃ n, j = n + 1 := ⟨j - 1, by omega⟩
              have hzero := (lastIdx?_eq_none_iff).mp hrest
              rw [List.countP_eq_zero] at hzero
              simpa using hzero y (List.mem_of_getElem? hy)
          · simp [hx] at h

theorem findIdx?_eq_lastIdx?_iff : xs.findIdx? p = lastIdx? p xs ↔ xs.countP p ≤ 1 := by
  induction xs with
  | nil => simp [lastIdx?]
  | cons x xs ih =>
      rw [lastIdx?, List.countP_cons, List.findIdx?_cons]
      by_cases hx : p x = true
      · have hzero : lastIdx? p xs = none ↔ xs.countP p = 0 := lastIdx?_eq_none_iff
        simp only [hx, if_true]
        cases hrest : lastIdx? p xs with
        | none =>
            rw [hrest] at hzero
            simp [hzero.mp rfl]
        | some i =>
            have hne : xs.countP p ≠ 0 := fun h => by simp [hzero.mpr h] at hrest
            simp only [Option.some.injEq, Nat.right_eq_add, Nat.add_eq_zero_iff]
            omega
      · simp only [hx, Bool.false_eq_true, if_false, Nat.add_zero, ← ih]
        cases xs.findIdx? p <;> cases lastIdx? p xs <;> simp

end LastIndex

def innermostIndex (s : PagerState) (name : String) : Option Nat :=
  lastIdx? (fun sp => eqIgnoreAsciiCase sp.name name) s.savepoints

def savepointsNamed (s : PagerState) (name : String) : Nat :=
  s.savepoints.countP fun sp => eqIgnoreAsciiCase sp.name name

/--
A release drops the innermost savepoint of its name and those opened after it, a
rollback restores what that savepoint remembers and keeps it; the older ones stay.
Without a savepoint of the name nothing happens.
-/
def ActsOnInnermost (p : PagerState × World DbFile) : SavepointCall → Prop
  | .release name =>
      match innermostIndex p.1 name with
      | none => ∃ e, releaseSavepoint name p = .error e p
      | some i => releaseSavepoint name p =
          .ok true ({ p.1 with savepoints := p.1.savepoints.take i }, p.2)
  | .rollbackTo name =>
      match innermostIndex p.1 name with
      | none => ∃ e, rollbackToSavepoint name p = .error e p
      | some i => ∃ sp, p.1.savepoints[i]? = some sp ∧
          rollbackToSavepoint name p = .ok () (backTo p.1 sp i, p.2)
  | _ => True

def NamesOne (p : PagerState × World DbFile) : SavepointCall → Prop
  | .release name | .rollbackTo name => savepointsNamed p.1 name ≤ 1
  | _ => True

theorem savepointIndex_eq_innermost_iff (s : PagerState) (name : String) :
    savepointIndex s name = innermostIndex s name ↔ savepointsNamed s name ≤ 1 :=
  findIdx?_eq_lastIdx?_iff

theorem savepointIndex_eq_none_iff (s : PagerState) (name : String) :
    savepointIndex s name = none ↔ innermostIndex s name = none := by
  rw [innermostIndex, lastIdx?_eq_none_iff, savepointIndex, List.findIdx?_eq_none_iff,
    List.countP_eq_zero]
  simp

theorem savepointIndex_lt (h : savepointIndex s name = some i) : i < s.savepoints.length :=
  (List.findIdx?_eq_some_iff_findIdx_eq.mp h).1

theorem innermostIndex_lt (h : innermostIndex s name = some i) : i < s.savepoints.length := by
  obtain ⟨⟨sp, hsp, -⟩, -⟩ := lastIdx?_eq_some h
  exact (List.getElem?_eq_some_iff.mp hsp).1

theorem releaseSavepoint_run {p : PagerState × World DbFile}
    (h : savepointIndex p.1 name = some i) :
    releaseSavepoint name p = .ok true ({ p.1 with savepoints := p.1.savepoints.take i }, p.2) := by
  simp only [releaseSavepoint, getState_bind, h]
  rfl

theorem take_injective {α : Type} {xs : List α} {j : Nat} (hi : i ≤ xs.length) (hj : j ≤ xs.length)
    (h : xs.take i = xs.take j) : i = j := by
  have := congrArg List.length h
  simpa [Nat.min_eq_left hi, Nat.min_eq_left hj] using this

theorem actsOnInnermost_iff_step (p : PagerState × World DbFile) (c : SavepointCall) :
    ActsOnInnermost p c ↔ NamesOne p c := by
  cases c with
  | release name =>
      simp only [ActsOnInnermost, NamesOne]
      rw [← savepointIndex_eq_innermost_iff]
      cases hin : innermostIndex p.1 name with
      | none =>
          have hnone := (savepointIndex_eq_none_iff p.1 name).mpr hin
          simp only [hnone, iff_true]
          exact ⟨_, by simp only [releaseSavepoint, getState_bind, hnone]; rfl⟩
      | some i =>
          cases hfirst : savepointIndex p.1 name with
          | none => simp [(savepointIndex_eq_none_iff p.1 name).mp hfirst] at hin
          | some k =>
              dsimp only
              rw [releaseSavepoint_run hfirst, Option.some.injEq]
              constructor
              · intro h
                injection h with _ hstate
                have htake := congrArg (fun q => q.1.savepoints) hstate
                exact take_injective (savepointIndex_lt hfirst).le (innermostIndex_lt hin).le htake
              · rintro rfl
                rfl
  | rollbackTo name =>
      simp only [ActsOnInnermost, NamesOne]
      rw [← savepointIndex_eq_innermost_iff]
      cases hin : innermostIndex p.1 name with
      | none =>
          have hnone := (savepointIndex_eq_none_iff p.1 name).mpr hin
          simp only [hnone, iff_true]
          exact ⟨_, by simp only [rollbackToSavepoint, getState_bind, hnone]; rfl⟩
      | some i =>
          cases hfirst : savepointIndex p.1 name with
          | none => simp [(savepointIndex_eq_none_iff p.1 name).mp hfirst] at hin
          | some k =>
              have hk := savepointIndex_lt hfirst
              have hi := innermostIndex_lt hin
              dsimp only
              rw [rollbackToSavepoint_run hfirst (List.getElem?_eq_getElem hk), Option.some.injEq]
              constructor
              · rintro ⟨sp, -, h⟩
                injection h with _ hstate
                have htake := congrArg (fun q => q.1.savepoints) hstate
                exact Nat.succ.inj (take_injective hk hi htake)
              · rintro rfl
                exact ⟨_, List.getElem?_eq_getElem hk, rfl⟩
  | txn c => exact Iff.rfl
  | beginWrite src => exact Iff.rfl
  | openSavepoint name => exact Iff.rfl

/--
In a run of calls every release and rollback acts on the innermost savepoint of
its name exactly when none gives a name that several savepoints then have.
-/
theorem actsOnInnermost_iff (calls : List SavepointCall) (p : PagerState × World DbFile) :
    StepsMeet SavepointCall.run ActsOnInnermost calls p ↔
      StepsMeet SavepointCall.run NamesOne calls p := by
  induction calls generalizing p with
  | nil => exact Iff.rfl
  | cons c calls ih => exact and_congr (actsOnInnermost_iff_step p c) (ih _)

/-- With two savepoints of one name, a release drops both. -/
theorem release_drops_outermost : ¬ StepsMeet SavepointCall.run ActsOnInnermost
    [.openSavepoint "a", .openSavepoint "A", .release "a"] freshPager := by
  rintro ⟨-, -, hacts, -⟩
  have hone : savepointsNamed (runCalls SavepointCall.run
      [.openSavepoint "a", .openSavepoint "A"] freshPager).1 "a" ≤ 1 :=
    (actsOnInnermost_iff_step _ (.release "a")).mp hacts
  revert hone
  decide

end Rustqlite.Pager
