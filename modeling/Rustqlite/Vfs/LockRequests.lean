import Rustqlite.Vfs.Lock

/-!
# Requests for file locks

Which requests the shared state grants, and what one that is refused leaves in
it.
-/

namespace Rustqlite.Vfs.LockTable

open Foundation

variable {ι : Type} [DecidableEq ι]

def AloneAt (s : LockTable ι) (i : ι) : Prop := ∀ j, j ≠ i → s.level j = .unlocked

instance [Fintype ι] (s : LockTable ι) (i : ι) : Decidable (s.AloneAt i) :=
  inferInstanceAs (Decidable (∀ j, j ≠ i → s.level j = .unlocked))

/--
A reader or a writer that is alone gets `EXCLUSIVE`, and a request that is
refused leaves the shared state as it was.
-/
def Answers (s : LockTable ι) : LockCall ι → Prop
  | .lock i level =>
      (level = .exclusive → s.level i = .shared ∨ s.level i = .reserved → s.AloneAt i →
        ((s.handle i).lock level).1 = .ok ()) ∧
      (((s.handle i).lock level).1 ≠ .ok () → (s.step (.lock i level)).state = s.state)
  | .unlock _ _ => True

/-- A reader asks for `EXCLUSIVE` only where it is alone, and a writer only where it is not. -/
def Fits (s : LockTable ι) : LockCall ι → Prop
  | .lock i .exclusive =>
      (s.level i = .shared → s.AloneAt i) ∧ (s.level i = .reserved → ¬s.AloneAt i)
  | _ => True

instance [Fintype ι] (s : LockTable ι) : ∀ c, Decidable (s.Fits c)
  | .lock i .exclusive => inferInstanceAs (Decidable
      ((s.level i = .shared → s.AloneAt i) ∧ (s.level i = .reserved → ¬s.AloneAt i)))
  | .lock _ .unlocked | .lock _ .shared | .lock _ .reserved | .lock _ .pending =>
      inferInstanceAs (Decidable True)
  | .unlock _ _ => inferInstanceAs (Decidable True)

variable [Fintype ι]

def Roomy (s : LockTable ι) : LockCall ι → Prop
  | .lock i .shared => s.level i = .unlocked → s.sharedCount + 1 < 2 ^ 32
  | .unlock i .shared => .shared < s.level i → s.sharedCount + 1 < 2 ^ 32
  | _ => True

instance (s : LockTable ι) : ∀ c, Decidable (s.Roomy c)
  | .lock i .shared => inferInstanceAs (Decidable (s.level i = .unlocked →
        s.sharedCount + 1 < 2 ^ 32))
  | .unlock i .shared =>
      inferInstanceAs (Decidable (.shared < s.level i → s.sharedCount + 1 < 2 ^ 32))
  | .lock _ .unlocked | .lock _ .reserved | .lock _ .pending | .lock _ .exclusive =>
      inferInstanceAs (Decidable True)
  | .unlock _ .unlocked | .unlock _ .reserved | .unlock _ .pending | .unlock _ .exclusive =>
      inferInstanceAs (Decidable True)

variable {s : LockTable ι} {i : ι} {level : LockLevel} {state : LockState}

omit [DecidableEq ι] in
theorem Roomy.unimpeded {c : LockCall ι} (hroom : s.Roomy c) (hfits : s.Fits c) :
    s.Unimpeded c := by
  cases c with
  | lock i level =>
      cases level with
      | shared => exact hroom
      | exclusive => exact hfits.1
      | _ => trivial
  | unlock i level =>
      cases level with
      | shared => exact hroom
      | _ => trivial

/-! ## What a request comes to -/

omit [DecidableEq ι] [Fintype ι] in
theorem lock_of_le (h : level ≤ s.level i) : ((s.handle i).lock level).1 = .ok () := by
  simp [handle, MemFile.lock, h]

omit [DecidableEq ι] [Fintype ι] in
theorem lock_granted (hle : ¬level ≤ s.level i)
    (hlock : s.state.applyLock (s.level i) level = (.ok (), state)) :
    ((s.handle i).lock level).1 = .ok () := by
  simp [handle, MemFile.lock, hle, hlock]

omit [DecidableEq ι] [Fintype ι] in
theorem lock_refused {e : Error} (hle : ¬level ≤ s.level i)
    (hlock : s.state.applyLock (s.level i) level = (.error e, state)) :
    ((s.handle i).lock level).1 = .error e := by
  simp [handle, MemFile.lock, hle, hlock]

omit [Fintype ι] in
theorem state_of_refused (h : ¬(level = .exclusive ∧ s.level i = .shared))
    (hrefused : ((s.handle i).lock level).1 ≠ .ok ()) :
    (s.step (.lock i level)).state = s.state := by
  by_cases hle : level ≤ s.level i
  · exact absurd (lock_of_le hle) hrefused
  · have hsame : ∀ e state, s.state.applyLock (s.level i) level = (.error e, state) →
        state = s.state := by
      intro e state hlock
      unfold LockState.applyLock at hlock
      rw [if_neg hle] at hlock
      split at hlock
      · split_ifs at hlock
        · exact (Prod.mk.inj hlock).2.symm
        · cases hlock
      · split_ifs at hlock
        · exact (Prod.mk.inj hlock).2.symm
        · cases hlock
      next heq =>
        have hshared : s.level i ≠ .shared := fun hs => h ⟨rfl, hs⟩
        simp only [if_neg hshared] at hlock
        split_ifs at hlock
        · exact (Prod.mk.inj hlock).2.symm
        · cases hlock
      · cases hlock
    cases hlock : s.state.applyLock (s.level i) level with
    | mk result state =>
        cases result with
        | ok u => exact absurd (lock_granted hle hlock) hrefused
        | error e => rw [step_lock_refused s hle hlock, hsame e state hlock]

omit [DecidableEq ι] in
theorem lock_exclusive_ok_iff (h : s.Consistent) (hi : s.level i = .shared) :
    ((s.handle i).lock .exclusive).1 = .ok () ↔ s.AloneAt i := by
  classical
  have hle : ¬.exclusive ≤ s.level i := by rw [hi]; decide
  have hlock := s.state.applyLock_shared_exclusive
  rw [← hi] at hlock
  have hone := one_le_sharedCount hi
  by_cases hrefuse : 0 < saturatingPred s.state.nShared ∨ s.state.writer.isSome
  · rw [if_pos hrefuse] at hlock
    rw [lock_refused hle hlock]
    refine ⟨nofun, fun halone => ?_⟩
    exfalso
    rcases hrefuse with hmore | hwriter
    · have hcount : s.sharedCount = 1 := by
        rw [sharedCount, Finset.card_eq_one]
        refine ⟨i, Finset.ext fun j => ?_⟩
        rw [Finset.mem_filter, Finset.mem_singleton]
        constructor
        · rintro ⟨-, hj⟩
          by_contra hji
          rw [halone j hji] at hj
          cases hj
        · rintro rfl
          exact ⟨Finset.mem_univ _, hi⟩
      rw [UInt32.lt_iff_toNat_lt, toNat_saturatingPred, h.counted, hcount] at hmore
      exact absurd hmore (by decide)
    · obtain ⟨j, hj⟩ := h.held hwriter
      rcases eq_or_ne j i with rfl | hji
      · exact absurd hj (by rw [hi]; decide)
      · exact absurd hj (by rw [halone j hji]; decide)
  · rw [if_neg hrefuse] at hlock
    rw [lock_granted hle hlock]
    refine ⟨fun _ => ?_, fun _ => rfl⟩
    simp only [not_or, UInt32.not_lt, UInt32.le_zero_iff, Option.isSome_iff_ne_none,
      not_not] at hrefuse
    have hzero := congrArg UInt32.toNat hrefuse.1
    rw [toNat_saturatingPred, h.counted, UInt32.toNat_zero] at hzero
    exact h.others_unlocked hrefuse.2 (by rw [if_pos hi]; omega)

omit [DecidableEq ι] in
/-- A writer is never granted `EXCLUSIVE`: the writer that is in its way is itself. -/
theorem lock_exclusive_refused (h : s.Consistent) (hi : s.level i = .reserved) :
    ((s.handle i).lock .exclusive).1 = .error lockedError := by
  have hwriter := h.recorded i (by rw [hi]; decide)
  have hlock := s.state.applyLock_exclusive (by rw [hi]; decide : s.level i ≠ .shared)
    (by rw [hi]; decide)
  rw [if_pos (.inr (by rw [hwriter]; rfl))] at hlock
  exact lock_refused (by rw [hi]; decide) hlock

theorem state_of_reader_refused (h : s.Consistent) (hi : s.level i = .shared)
    (halone : ¬s.AloneAt i) : (s.step (.lock i .exclusive)).state ≠ s.state := by
  intro hsame
  have hne : ((s.handle i).lock .exclusive).1 ≠ .ok () :=
    fun hok => halone ((lock_exclusive_ok_iff h hi).mp hok)
  have hle : ¬.exclusive ≤ s.level i := by rw [hi]; decide
  have hlock := s.state.applyLock_shared_exclusive
  rw [← hi] at hlock
  split_ifs at hlock with hrefuse
  · rw [step_lock_refused s hle hlock] at hsame
    have hcount := congrArg (fun state => state.nShared.toNat) hsame
    dsimp only at hcount
    rw [toNat_saturatingPred, h.counted] at hcount
    have hone := one_le_sharedCount hi
    omega
  · exact hne (lock_granted hle hlock)

theorem answers_iff_fits (h : s.Consistent) (c : LockCall ι) : s.Answers c ↔ s.Fits c := by
  cases c with
  | unlock i level => exact Iff.rfl
  | lock i level =>
      by_cases hx : level = .exclusive
      · subst hx
        by_cases hshared : s.level i = .shared
        · have hnot : s.level i ≠ .reserved := by rw [hshared]; decide
          constructor
          · rintro ⟨-, hsame⟩
            refine ⟨fun _ => ?_, fun hr => absurd hr hnot⟩
            by_contra halone
            exact state_of_reader_refused h hshared halone
              (hsame fun hok => halone ((lock_exclusive_ok_iff h hshared).mp hok))
          · rintro ⟨halone, -⟩
            have hok := (lock_exclusive_ok_iff h hshared).mpr (halone hshared)
            exact ⟨fun _ _ _ => hok, fun hne => absurd hok hne⟩
        · have hsame : ((s.handle i).lock .exclusive).1 ≠ .ok () →
              (s.step (.lock i .exclusive)).state = s.state :=
            state_of_refused fun hboth => hshared hboth.2
          constructor
          · rintro ⟨hgrant, -⟩
            refine ⟨fun hs => absurd hs hshared, fun hr halone => ?_⟩
            have hok := hgrant rfl (.inr hr) halone
            rw [lock_exclusive_refused h hr] at hok
            cases hok
          · rintro ⟨-, halone⟩
            exact ⟨fun _ hor hal => absurd hal (halone (hor.resolve_left hshared)), hsame⟩
      · have hfits : s.Fits (.lock i level) := by
          cases level with
          | exclusive => exact absurd rfl hx
          | _ => trivial
        exact iff_of_true ⟨fun heq => absurd heq hx, state_of_refused fun hboth => hx hboth.1⟩ hfits

/--
Every request of a run is answered as it should be exactly when no reader asks
for `EXCLUSIVE` beside another lock and no writer asks for it while it is alone.
-/
theorem answers_throughout_iff (calls : List (LockCall ι))
    (hcalls : AllSteps step Issued calls (idle ι)) (hroom : AllSteps step Roomy calls (idle ι)) :
    AllSteps step Answers calls (idle ι) ↔ AllSteps step Fits calls (idle ι) :=
  allSteps_iff (fun s c h hR hfits => consistent_step s c h hR.1 (hR.2.unimpeded hfits))
    (fun _ c h _ => answers_iff_fits h c) consistent_idle (hcalls.and hroom)

/-- A lone reader takes the file. -/
theorem answers_throughout_lone_reader :
    AllSteps step Answers [.lock 0 .shared, .lock 0 .exclusive, .unlock 0 .unlocked]
      (idle (Fin 2)) :=
  (answers_throughout_iff _ (by decide) (by decide)).mpr (by decide)

/-- A lone writer is refused. -/
theorem reserved_refused_exclusive :
    AllSteps step Issued [.lock 0 .shared, .lock 0 .reserved, .lock 0 .exclusive]
        (idle (Fin 2)) ∧
      ¬AllSteps step Answers [.lock 0 .shared, .lock 0 .reserved, .lock 0 .exclusive]
        (idle (Fin 2)) := by
  refine ⟨by decide, ?_⟩
  rintro ⟨-, -, ⟨hgrant, -⟩, -⟩
  have hok := hgrant rfl (.inr (by decide)) (by unfold AloneAt; decide)
  exact absurd hok (by decide)

end Rustqlite.Vfs.LockTable
