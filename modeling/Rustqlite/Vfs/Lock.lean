import Mathlib.Data.Fintype.Card
import Mathlib.Data.Fintype.Basic
import Rustqlite.Foundation.Run
import Rustqlite.Types.Error

/-!
# File locks

All handles on one path share a `LockState`; each keeps its own level.  The
calls of different connections interleave in any order.
-/

namespace Rustqlite.Vfs

open Foundation

inductive LockLevel where
  | unlocked
  | shared
  | reserved
  | pending
  | exclusive
  deriving DecidableEq, Repr

namespace LockLevel

def asU8 : LockLevel → UInt8
  | unlocked => 0
  | shared => 1
  | reserved => 2
  | pending => 3
  | exclusive => 4

instance : LE LockLevel := ⟨fun a b => a.asU8 ≤ b.asU8⟩

instance : LT LockLevel := ⟨fun a b => a.asU8 < b.asU8⟩

instance (a b : LockLevel) : Decidable (a ≤ b) := inferInstanceAs (Decidable (a.asU8 ≤ b.asU8))

instance (a b : LockLevel) : Decidable (a < b) := inferInstanceAs (Decidable (a.asU8 < b.asU8))

end LockLevel

structure LockState where
  nShared : UInt32
  writer : Option LockLevel
  deriving DecidableEq, Repr

def lockedError : Error := .busy "database is locked"

def saturatingPred (n : UInt32) : UInt32 := if n = 0 then 0 else n - 1

namespace LockState

def applyLock (self : LockState) (current target : LockLevel) : Result Unit × LockState :=
  if target ≤ current then (.ok (), self)
  else
    match current, target with
    | .unlocked, .shared =>
        if self.writer = some .pending ∨ self.writer = some .exclusive then
          (.error lockedError, self)
        else (.ok (), { self with nShared := self.nShared + 1 })
    | .shared, .reserved =>
        if self.writer.isSome then (.error lockedError, self)
        else (.ok (), { nShared := saturatingPred self.nShared, writer := some .reserved })
    | current, .exclusive =>
        let self :=
          if current = .shared then { self with nShared := saturatingPred self.nShared } else self
        if 0 < self.nShared ∨ self.writer.isSome then (.error lockedError, self)
        else (.ok (), { self with writer := some .exclusive })
    | _, _ => (.ok (), self)

def applyUnlock (self : LockState) (current target : LockLevel) : LockState :=
  if .shared < current then
    { nShared := if target = .shared then self.nShared + 1 else self.nShared, writer := none }
  else if current = .shared ∧ target = .unlocked then
    { self with nShared := saturatingPred self.nShared }
  else self

theorem applyLock_unlocked_shared (self : LockState) :
    self.applyLock .unlocked .shared =
      if self.writer = some .pending ∨ self.writer = some .exclusive then
        (.error lockedError, self)
      else (.ok (), { self with nShared := self.nShared + 1 }) :=
  if_neg (by decide)

theorem applyLock_shared_reserved (self : LockState) :
    self.applyLock .shared .reserved =
      if self.writer.isSome then (.error lockedError, self)
      else (.ok (), { nShared := saturatingPred self.nShared, writer := some .reserved }) :=
  if_neg (by decide)

theorem applyLock_shared_exclusive (self : LockState) :
    self.applyLock .shared .exclusive =
      if 0 < saturatingPred self.nShared ∨ self.writer.isSome then
        (.error lockedError, { self with nShared := saturatingPred self.nShared })
      else
        (.ok (), { nShared := saturatingPred self.nShared, writer := some .exclusive }) :=
  if_neg (by decide)

theorem applyLock_exclusive (self : LockState) {current : LockLevel} (hs : current ≠ .shared)
    (hx : current ≠ .exclusive) :
    self.applyLock current .exclusive =
      if 0 < self.nShared ∨ self.writer.isSome then (.error lockedError, self)
      else (.ok (), { self with writer := some .exclusive }) := by
  cases current with
  | shared => exact absurd rfl hs
  | exclusive => exact absurd rfl hx
  | _ => exact if_neg (by decide)

end LockState

/-- The part of a handle that its locks use; a private file has no shared state. -/
structure MemFile where
  lockLevel : LockLevel
  lockState : Option LockState

namespace MemFile

def lock (self : MemFile) (level : LockLevel) : Result Unit × MemFile :=
  if level ≤ self.lockLevel then (.ok (), self)
  else
    match self.lockState with
    | none => (.ok (), { self with lockLevel := level })
    | some state =>
        match state.applyLock self.lockLevel level with
        | (.error e, state) => (.error e, { self with lockState := some state })
        | (.ok (), state) => (.ok (), ⟨level, some state⟩)

def unlock (self : MemFile) (level : LockLevel) : MemFile :=
  if self.lockLevel ≤ level then self
  else ⟨level, self.lockState.map (·.applyUnlock self.lockLevel level)⟩

end MemFile

/-! ## The handles of one path -/

structure LockTable (ι : Type) where
  state : LockState
  level : ι → LockLevel

inductive LockCall (ι : Type) where
  | lock (handle : ι) (level : LockLevel)
  | unlock (handle : ι) (level : LockLevel)
  deriving DecidableEq

namespace LockTable

variable {ι : Type} [DecidableEq ι]

def idle (ι : Type) : LockTable ι := ⟨⟨0, none⟩, fun _ => .unlocked⟩

def handle (s : LockTable ι) (i : ι) : MemFile := ⟨s.level i, some s.state⟩

/-- What a call through one handle leaves in it and in the shared state. -/
def put (s : LockTable ι) (i : ι) (f : MemFile) : LockTable ι :=
  ⟨f.lockState.getD s.state, Function.update s.level i f.lockLevel⟩

def step (s : LockTable ι) : LockCall ι → LockTable ι
  | .lock i level => s.put i ((s.handle i).lock level).2
  | .unlock i level => s.put i ((s.handle i).unlock level)

/--
The calls of the pager: it asks for `RESERVED` only once it has `SHARED`, never
for `PENDING`, and it releases to `SHARED` or to nothing.
-/
def Issued (s : LockTable ι) : LockCall ι → Prop
  | .lock _ .unlocked => False
  | .lock _ .shared => True
  | .lock i .reserved => .shared ≤ s.level i
  | .lock _ .pending => False
  | .lock _ .exclusive => True
  | .unlock _ level => level ≤ .shared

instance (s : LockTable ι) : ∀ c, Decidable (s.Issued c)
  | .lock _ .unlocked => inferInstanceAs (Decidable False)
  | .lock _ .shared => inferInstanceAs (Decidable True)
  | .lock i .reserved => inferInstanceAs (Decidable (.shared ≤ s.level i))
  | .lock _ .pending => inferInstanceAs (Decidable False)
  | .lock _ .exclusive => inferInstanceAs (Decidable True)
  | .unlock _ level => inferInstanceAs (Decidable (level ≤ .shared))

variable [Fintype ι]

def sharedCount (s : LockTable ι) : ℕ := (Finset.univ.filter fun i => s.level i = .shared).card

structure MutualExclusion (s : LockTable ι) : Prop where
  alone : ∀ i, s.level i = .exclusive → ∀ j, j ≠ i → s.level j = .unlocked
  one_writer : ∀ i j, .reserved ≤ s.level i → .reserved ≤ s.level j → i = j
  counted : s.state.nShared.toNat = s.sharedCount

/--
A handle at `SHARED` asks for `EXCLUSIVE` only while every other handle is
unlocked, and the counter has room for one more reader.
-/
def Unimpeded (s : LockTable ι) : LockCall ι → Prop
  | .lock i .exclusive => s.level i = .shared → ∀ j, j ≠ i → s.level j = .unlocked
  | .lock i .shared => s.level i = .unlocked → s.sharedCount + 1 < 2 ^ 32
  | .unlock i .shared => .shared < s.level i → s.sharedCount + 1 < 2 ^ 32
  | _ => True

instance (s : LockTable ι) : ∀ c, Decidable (s.Unimpeded c)
  | .lock i .exclusive =>
      inferInstanceAs (Decidable (s.level i = .shared → ∀ j, j ≠ i → s.level j = .unlocked))
  | .lock i .shared =>
      inferInstanceAs (Decidable (s.level i = .unlocked → s.sharedCount + 1 < 2 ^ 32))
  | .unlock i .shared =>
      inferInstanceAs (Decidable (.shared < s.level i → s.sharedCount + 1 < 2 ^ 32))
  | .lock _ .unlocked | .lock _ .reserved | .lock _ .pending => inferInstanceAs (Decidable True)
  | .unlock _ .unlocked | .unlock _ .reserved | .unlock _ .pending | .unlock _ .exclusive =>
      inferInstanceAs (Decidable True)

structure Consistent (s : LockTable ι) : Prop extends MutualExclusion s where
  recorded : ∀ i, .reserved ≤ s.level i → s.state.writer = some (s.level i)
  held : s.state.writer.isSome → ∃ i, .reserved ≤ s.level i
  not_pending : ∀ i, s.level i ≠ .pending

omit [DecidableEq ι] in
theorem consistent_idle : (idle ι).Consistent := by
  constructor
  · constructor
    · intro i h
      exact absurd h (by simp [idle])
    · intro i j h
      exact absurd h (by simp [idle]; decide)
    · simp [idle, sharedCount]
  · intro i h
    exact absurd h (by simp [idle]; decide)
  · intro h
    exact absurd h (by simp [idle])
  · simp [idle]

theorem sharedCount_update (s : LockTable ι) (state : LockState) (i : ι) (l : LockLevel) :
    sharedCount ⟨state, Function.update s.level i l⟩ + (if s.level i = .shared then 1 else 0) =
      s.sharedCount + (if l = .shared then 1 else 0) := by
  have hsplit : ∀ f : ι → LockLevel, (Finset.univ.filter fun j => f j = .shared).card =
      ((Finset.univ.erase i).filter fun j => f j = .shared).card +
        (if f i = .shared then 1 else 0) := by
    intro f
    rw [← Finset.insert_erase (Finset.mem_univ i), Finset.filter_insert,
      Finset.erase_insert (Finset.notMem_erase i _)]
    split_ifs with h
    · rw [Finset.card_insert_of_notMem (by simp)]
    · rfl
  have hrest : ((Finset.univ.erase i).filter fun j => Function.update s.level i l j = .shared) =
      (Finset.univ.erase i).filter fun j => s.level j = .shared := by
    apply Finset.filter_congr
    intro j hj
    rw [Function.update_of_ne (Finset.ne_of_mem_erase hj)]
  simp only [sharedCount]
  rw [hsplit s.level, hsplit (Function.update s.level i l), hrest, Function.update_self]
  omega

theorem toNat_saturatingPred (n : UInt32) : (saturatingPred n).toNat = n.toNat - 1 := by
  rw [saturatingPred]
  split_ifs with h
  · simp [h]
  · rw [UInt32.toNat_sub_of_le]
    · simp
    · rw [UInt32.le_iff_toNat_le]
      have : n.toNat ≠ 0 := fun h0 => h (UInt32.toNat_inj.mp h0)
      simp
      omega

variable {n : UInt32} {s : LockTable ι} {i : ι} {l level : LockLevel} {state : LockState}

theorem toNat_add_one (h : n.toNat + 1 < 2 ^ 32) : (n + 1).toNat = n.toNat + 1 := by
  rw [UInt32.toNat_add, UInt32.toNat_one, Nat.mod_eq_of_lt h]

/-- The obligations of a call that moves one handle to `l`. -/
theorem Consistent.move (h : s.Consistent) (hl : l ≠ .pending)
    (halone : l = .exclusive → ∀ j, j ≠ i → s.level j = .unlocked)
    (hother : l ≠ .unlocked → ∀ j, j ≠ i → s.level j ≠ .exclusive)
    (hone : .reserved ≤ l → ∀ j, j ≠ i → ¬ .reserved ≤ s.level j)
    (hown : .reserved ≤ l → state.writer = some l)
    (hrest : ∀ j, j ≠ i → .reserved ≤ s.level j → state.writer = s.state.writer)
    (hheld : state.writer.isSome → .reserved ≤ l ∨ ∃ j, j ≠ i ∧ .reserved ≤ s.level j)
    (hcount : state.nShared.toNat + (if s.level i = .shared then 1 else 0) =
      s.sharedCount + (if l = .shared then 1 else 0)) :
    Consistent ⟨state, Function.update s.level i l⟩ := by
  constructor
  · constructor
    · intro a ha b hb
      dsimp only at ha ⊢
      rcases eq_or_ne a i with rfl | hai
      · rw [Function.update_self] at ha
        rw [Function.update_of_ne hb]
        exact halone ha b hb
      · rw [Function.update_of_ne hai] at ha
        rcases eq_or_ne b i with rfl | hbi
        · rw [Function.update_self]
          by_contra hl
          exact hother hl a hai ha
        · rw [Function.update_of_ne hbi]
          exact h.alone a ha b hb
    · intro a b ha hb
      dsimp only at ha hb
      rcases eq_or_ne a i with hai | hai <;> rcases eq_or_ne b i with hbi | hbi
      · rw [hai, hbi]
      · rw [hai, Function.update_self] at ha
        rw [Function.update_of_ne hbi] at hb
        exact absurd hb (hone ha b hbi)
      · rw [hbi, Function.update_self] at hb
        rw [Function.update_of_ne hai] at ha
        exact absurd ha (hone hb a hai)
      · rw [Function.update_of_ne hai] at ha
        rw [Function.update_of_ne hbi] at hb
        exact h.one_writer a b ha hb
    · have hu := sharedCount_update s state i l
      dsimp only
      omega
  · intro a ha
    dsimp only at ha ⊢
    rcases eq_or_ne a i with rfl | hai
    · rw [Function.update_self] at ha ⊢
      exact hown ha
    · rw [Function.update_of_ne hai] at ha ⊢
      rw [hrest a hai ha]
      exact h.recorded a ha
  · intro hsome
    rcases hheld hsome with hl | ⟨j, hji, hj⟩
    · exact ⟨i, by simpa using hl⟩
    · exact ⟨j, by simpa [Function.update_of_ne hji] using hj⟩
  · intro a
    dsimp only
    rcases eq_or_ne a i with rfl | hai
    · rwa [Function.update_self]
    · rw [Function.update_of_ne hai]
      exact h.not_pending a

omit [DecidableEq ι] in
theorem Consistent.no_writer (h : s.Consistent) (hw : s.state.writer = none) (j : ι) :
    ¬ .reserved ≤ s.level j := by
  intro hj
  have := h.recorded j hj
  simp [hw] at this

omit [DecidableEq ι] in
theorem Consistent.no_exclusive (h : s.Consistent) (hw : s.state.writer ≠ some .exclusive) (j : ι) :
    s.level j ≠ .exclusive := by
  intro hj
  have := h.recorded j (by rw [hj]; decide)
  rw [hj] at this
  exact hw this

theorem unlocked_of_no_lock (hs : l ≠ .shared) (hw : ¬ .reserved ≤ l) : l = .unlocked := by
  cases l with
  | unlocked => rfl
  | shared => exact absurd rfl hs
  | reserved => exact absurd (by decide) hw
  | pending => exact absurd (by decide) hw
  | exclusive => exact absurd (by decide) hw

/-! ## What a call does -/

omit [Fintype ι] in
theorem step_lock_of_le (s : LockTable ι) (h : level ≤ s.level i) : s.step (.lock i level) = s := by
  simp [step, handle, MemFile.lock, h, put]

omit [Fintype ι] in
theorem step_lock_granted (s : LockTable ι) (h : ¬ level ≤ s.level i)
    (hg : s.state.applyLock (s.level i) level = (.ok (), state)) :
    s.step (.lock i level) = ⟨state, Function.update s.level i level⟩ := by
  simp [step, handle, MemFile.lock, h, hg, put]

omit [Fintype ι] in
theorem step_lock_refused (s : LockTable ι) {e : Error} (h : ¬ level ≤ s.level i)
    (hg : s.state.applyLock (s.level i) level = (.error e, state)) :
    s.step (.lock i level) = ⟨state, s.level⟩ := by
  simp [step, handle, MemFile.lock, h, hg, put]

omit [Fintype ι] in
theorem step_unlock_of_le (s : LockTable ι) (h : s.level i ≤ level) :
    s.step (.unlock i level) = s := by
  simp [step, handle, MemFile.unlock, h, put]

omit [Fintype ι] in
theorem step_unlock_released (s : LockTable ι) (h : ¬ s.level i ≤ level) :
    s.step (.unlock i level) =
      ⟨s.state.applyUnlock (s.level i) level, Function.update s.level i level⟩ := by
  simp [step, handle, MemFile.unlock, h, put]

theorem LockLevel.eq_unlocked_of_not_shared_le (h : ¬ .shared ≤ l) : l = .unlocked := by
  cases l with
  | unlocked => rfl
  | _ => exact absurd (by decide) h

theorem consistent_lock_shared (h : s.Consistent) (i : ι)
    (hroom : s.level i = .unlocked → s.sharedCount + 1 < 2 ^ 32) :
    (s.step (.lock i .shared)).Consistent := by
  by_cases hle : .shared ≤ s.level i
  · rwa [step_lock_of_le s hle]
  have hi : s.level i = .unlocked := LockLevel.eq_unlocked_of_not_shared_le hle
  have hlock := s.state.applyLock_unlocked_shared
  rw [← hi] at hlock
  split_ifs at hlock with hw
  · rwa [step_lock_refused s hle hlock]
  · rw [step_lock_granted s hle hlock]
    have hroom := h.counted ▸ hroom hi
    apply h.move
    · simp
    · simp
    · exact fun _ j _ => h.no_exclusive (fun he => hw (.inr he)) j
    · exact fun hr => absurd hr (by decide)
    · exact fun hr => absurd hr (by decide)
    · exact fun _ _ _ => rfl
    · intro hsome
      obtain ⟨j, hj⟩ := h.held hsome
      exact .inr ⟨j, fun hji => by rw [hji, hi] at hj; exact absurd hj (by decide), hj⟩
    · simp [hi, toNat_add_one hroom, h.counted]

omit [DecidableEq ι] in
theorem one_le_sharedCount (hi : s.level i = .shared) : 1 ≤ s.sharedCount :=
  Finset.card_pos.mpr ⟨i, by simp [hi]⟩

theorem consistent_lock_reserved (h : s.Consistent) (i : ι) (hheld : .shared ≤ s.level i) :
    (s.step (.lock i .reserved)).Consistent := by
  by_cases hle : .reserved ≤ s.level i
  · rwa [step_lock_of_le s hle]
  have hi : s.level i = .shared := by
    by_contra hs
    rw [unlocked_of_no_lock hs hle] at hheld
    exact absurd hheld (by decide)
  have hlock := s.state.applyLock_shared_reserved
  rw [← hi] at hlock
  split_ifs at hlock with hw
  · rwa [step_lock_refused s hle hlock]
  · rw [step_lock_granted s hle hlock]
    have hnone : s.state.writer = none := by simpa using hw
    have hone := one_le_sharedCount hi
    apply h.move
    · simp
    · simp
    · exact fun _ j _ => h.no_exclusive (by simp [hnone]) j
    · exact fun _ j _ => h.no_writer hnone j
    · exact fun _ => rfl
    · exact fun j _ hj => absurd hj (h.no_writer hnone j)
    · exact fun _ => .inl (by decide)
    · simp [hi, toNat_saturatingPred, h.counted]
      omega

theorem Consistent.others_unlocked (h : s.Consistent) (hw : s.state.writer = none)
    (hc : s.sharedCount = if s.level i = .shared then 1 else 0) (j : ι) (hj : j ≠ i) :
    s.level j = .unlocked := by
  apply unlocked_of_no_lock _ (h.no_writer hw j)
  intro hs
  have hmove := sharedCount_update s s.state i .unlocked
  rw [hc] at hmove
  have hzero : sharedCount ⟨s.state, Function.update s.level i .unlocked⟩ = 0 := by simpa
      using hmove
  have := one_le_sharedCount (s := ⟨s.state, Function.update s.level i .unlocked⟩) (i := j)
    (by simpa [Function.update_of_ne hj] using hs)
  omega

theorem Consistent.moveExclusive (h : s.Consistent) (hw : s.state.writer = none)
    (hc : s.sharedCount = if s.level i = .shared then 1 else 0) :
    Consistent ⟨⟨0, some .exclusive⟩, Function.update s.level i .exclusive⟩ := by
  have halone := h.others_unlocked hw hc
  apply h.move
  · simp
  · exact fun _ => halone
  · exact fun _ j hj => by simp [halone j hj]
  · exact fun _ j _ => h.no_writer hw j
  · exact fun _ => rfl
  · exact fun j _ hj => absurd hj (h.no_writer hw j)
  · exact fun _ => .inl (by decide)
  · simp [hc]

theorem consistent_lock_exclusive (h : s.Consistent) (i : ι)
    (halone : s.level i = .shared → ∀ j, j ≠ i → s.level j = .unlocked) :
    (s.step (.lock i .exclusive)).Consistent := by
  by_cases hle : .exclusive ≤ s.level i
  · rwa [step_lock_of_le s hle]
  by_cases hi : s.level i = .shared
  · have hnone : s.state.writer = none := by
      by_contra hw
      obtain ⟨j, hj⟩ := h.held (Option.isSome_iff_ne_none.mpr hw)
      rcases eq_or_ne j i with rfl | hji
      · exact absurd hj (by rw [hi]; decide)
      · exact absurd hj (by rw [halone hi j hji]; decide)
    have hcount : s.sharedCount = 1 := by
      rw [sharedCount, Finset.card_eq_one]
      refine ⟨i, Finset.ext fun j => ?_⟩
      rw [Finset.mem_filter, Finset.mem_singleton]
      constructor
      · rintro ⟨-, hj⟩
        by_contra hji
        simp [halone hi j hji] at hj
      · rintro rfl
        exact ⟨Finset.mem_univ _, hi⟩
    have hzero : saturatingPred s.state.nShared = 0 := by
      rw [← UInt32.toNat_inj, toNat_saturatingPred, h.counted, hcount]
      rfl
    have hlock := s.state.applyLock_shared_exclusive
    rw [← hi, hzero, hnone, if_neg (by simp)] at hlock
    rw [step_lock_granted s hle hlock]
    exact h.moveExclusive hnone (by rw [if_pos hi, hcount])
  · have hlock := s.state.applyLock_exclusive hi (fun hx => hle (by rw [hx]; decide))
    split_ifs at hlock with hw
    · rwa [step_lock_refused s hle hlock]
    · rw [step_lock_granted s hle hlock]
      simp only [not_or, UInt32.not_lt, UInt32.le_zero_iff, Option.isSome_iff_ne_none,
        not_not] at hw
      have hcount : s.sharedCount = 0 := by rw [← h.counted, hw.1]; rfl
      have hmove := h.moveExclusive hw.2 (i := i) (by rw [if_neg hi, hcount])
      rwa [← hw.1] at hmove

theorem LockLevel.shared_lt_iff (l : LockLevel) : .shared < l ↔ .reserved ≤ l := by
  cases l <;> decide

theorem LockLevel.le_shared_iff (l : LockLevel) : l ≤ .shared ↔ l = .unlocked ∨ l = .shared := by
  cases l <;> decide

theorem consistent_unlock_writer (h : s.Consistent) (hlevel : level ≤ .shared)
    (hi : .reserved ≤ s.level i) (hroom : level = .shared → s.sharedCount + 1 < 2 ^ 32) :
    Consistent ⟨s.state.applyUnlock (s.level i) level, Function.update s.level i level⟩ := by
  have hother : ∀ j, j ≠ i → ¬ .reserved ≤ s.level j := fun j hji hj =>
    hji (h.one_writer j i hj hi)
  have hnot : s.level i ≠ .shared := fun hs => absurd hi (by rw [hs]; decide)
  have hstate : s.state.applyUnlock (s.level i) level =
      { nShared := if level = .shared then s.state.nShared + 1 else s.state.nShared
        writer := none } :=
    if_pos ((LockLevel.shared_lt_iff _).mpr hi)
  rw [hstate]
  apply h.move
  · rintro rfl
    exact absurd hlevel (by decide)
  · rintro rfl
    exact absurd hlevel (by decide)
  · exact fun _ j hji hj => hother j hji (by rw [hj]; decide)
  · exact fun _ => hother
  · rcases (LockLevel.le_shared_iff level).mp hlevel with rfl | rfl
    · exact fun hr => absurd hr (by decide)
    · exact fun hr => absurd hr (by decide)
  · exact fun j hji hj => absurd hj (hother j hji)
  · exact fun hsome => absurd hsome (by simp)
  · rw [if_neg hnot]
    split_ifs with hs
    · have hroom := h.counted ▸ hroom hs
      simp [toNat_add_one hroom, h.counted]
    · simp [h.counted]

theorem consistent_unlock_reader (h : s.Consistent) (hi : s.level i = .shared) :
    Consistent ⟨s.state.applyUnlock (s.level i) .unlocked,
      Function.update s.level i .unlocked⟩ := by
  have hstate : s.state.applyUnlock (s.level i) .unlocked =
      { s.state with nShared := saturatingPred s.state.nShared } := by
    rw [hi]
    exact (if_neg (by decide)).trans (if_pos (by decide))
  have hone := one_le_sharedCount hi
  rw [hstate]
  apply h.move
  · simp
  · simp
  · simp
  · exact fun hr => absurd hr (by decide)
  · exact fun hr => absurd hr (by decide)
  · exact fun _ _ _ => rfl
  · intro hsome
    obtain ⟨j, hj⟩ := h.held hsome
    exact .inr ⟨j, fun hji => by rw [hji, hi] at hj; exact absurd hj (by decide), hj⟩
  · simp [hi, toNat_saturatingPred, h.counted]
    omega

theorem consistent_unlock (h : s.Consistent) (i : ι) (hlevel : level ≤ .shared)
    (hroom : level = .shared → .shared < s.level i → s.sharedCount + 1 < 2 ^ 32) :
    (s.step (.unlock i level)).Consistent := by
  by_cases hle : s.level i ≤ level
  · rwa [step_unlock_of_le s hle]
  rw [step_unlock_released s hle]
  by_cases hi : .reserved ≤ s.level i
  · exact consistent_unlock_writer h hlevel hi fun hs =>
      hroom hs ((LockLevel.shared_lt_iff _).mpr hi)
  · have hshared : s.level i = .shared := by
      by_contra hs
      rw [unlocked_of_no_lock hs hi] at hle
      rcases (LockLevel.le_shared_iff level).mp hlevel with rfl | rfl
      · exact hle (by decide)
      · exact hle (by decide)
    rcases (LockLevel.le_shared_iff level).mp hlevel with rfl | rfl
    · exact consistent_unlock_reader h hshared
    · exact absurd (by rw [hshared]; decide) hle

theorem consistent_step (s : LockTable ι) (c : LockCall ι) (h : s.Consistent) (hc : s.Issued c)
    (hu : s.Unimpeded c) : (s.step c).Consistent := by
  cases c with
  | lock i level =>
      cases level with
      | unlocked => exact hc.elim
      | shared => exact consistent_lock_shared h i hu
      | reserved => exact consistent_lock_reserved h i hc
      | pending => exact hc.elim
      | exclusive => exact consistent_lock_exclusive h i hu
  | unlock i level =>
      apply consistent_unlock h i hc
      rintro rfl
      exact hu

/-! ## The calls that break the count -/

theorem not_counted_of_refused (h : s.Consistent) {j : ι} (hi : s.level i = .shared) (hji : j ≠ i)
    (hj : s.level j ≠ .unlocked) : ¬ MutualExclusion (s.step (.lock i .exclusive)) := by
  have hle : ¬ .exclusive ≤ s.level i := by rw [hi]; decide
  have hrefuse : 0 < saturatingPred s.state.nShared ∨ s.state.writer.isSome := by
    by_contra hg
    simp only [not_or, UInt32.not_lt, UInt32.le_zero_iff, Option.isSome_iff_ne_none,
      not_not] at hg
    have hcount : s.sharedCount = 1 := by
      have hone := one_le_sharedCount hi
      have hzero := congrArg UInt32.toNat hg.1
      rw [toNat_saturatingPred, h.counted] at hzero
      simp only [UInt32.toNat_zero] at hzero
      omega
    exact hj (h.others_unlocked hg.2 (by rw [if_pos hi, hcount]) j hji)
  have hlock := s.state.applyLock_shared_exclusive
  rw [← hi, if_pos hrefuse] at hlock
  rw [step_lock_refused s hle hlock]
  intro hm
  have hcounted := hm.counted
  have hone := one_le_sharedCount hi
  have hsame : sharedCount ⟨{ s.state with nShared := saturatingPred s.state.nShared }, s.level⟩ =
      s.sharedCount := rfl
  rw [hsame, toNat_saturatingPred, h.counted] at hcounted
  omega

theorem toNat_add_one_of_full (h : ¬ n.toNat + 1 < 2 ^ 32) : (n + 1).toNat = 0 := by
  have hn := n.toNat_lt
  have hfull : n.toNat + 1 = 2 ^ 32 := by omega
  rw [UInt32.toNat_add, UInt32.toNat_one, hfull, Nat.mod_self]

theorem not_counted_of_full (h : s.Consistent) (hfull : ¬ s.sharedCount + 1 < 2 ^ 32)
    (hi : s.level i ≠ .shared) (hstate : state.nShared = s.state.nShared + 1) :
    ¬ MutualExclusion ⟨state, Function.update s.level i .shared⟩ := by
  intro hm
  have hcounted := hm.counted
  have hmove := sharedCount_update s state i .shared
  have hzero := toNat_add_one_of_full (h.counted ▸ hfull)
  rw [if_neg hi] at hmove
  dsimp only at hcounted
  rw [hstate, hzero] at hcounted
  simp at hmove
  omega

omit [DecidableEq ι] in
theorem Consistent.no_reader (h : s.Consistent)
    (hw : s.state.writer = some .pending ∨ s.state.writer = some .exclusive) :
    s.sharedCount = 0 := by
  obtain ⟨i, hi⟩ := h.held (by rcases hw with hw | hw <;> simp [hw])
  have hrec := h.recorded i hi
  have hx : s.level i = .exclusive := by
    rcases hw with hw | hw
    · exact absurd (Option.some.inj (hrec.symm.trans hw)) (h.not_pending i)
    · exact Option.some.inj (hrec.symm.trans hw)
  rw [sharedCount, Finset.card_eq_zero, Finset.filter_eq_empty_iff]
  intro j _ hj
  rcases eq_or_ne j i with rfl | hji
  · simp [hx] at hj
  · simp [h.alone i hx j hji] at hj

theorem not_mutualExclusion_of_impeded (s : LockTable ι) (c : LockCall ι) (h : s.Consistent)
    (hu : ¬ s.Unimpeded c) : ¬ MutualExclusion (s.step c) := by
  cases c with
  | lock i level =>
      cases level with
      | shared =>
          simp only [Unimpeded, not_forall] at hu
          obtain ⟨hi, hfull⟩ := hu
          have hlock := s.state.applyLock_unlocked_shared
          have hopen : ¬ (s.state.writer = some .pending ∨ s.state.writer = some .exclusive) := by
            intro hw
            exact hfull (by rw [h.no_reader hw]; decide)
          rw [← hi, if_neg hopen] at hlock
          rw [step_lock_granted s (by rw [hi]; decide) hlock]
          exact not_counted_of_full h hfull (by simp [hi]) rfl
      | exclusive =>
          simp only [Unimpeded, not_forall] at hu
          obtain ⟨hi, j, hji, hj⟩ := hu
          exact not_counted_of_refused h hi hji hj
      | _ => exact absurd trivial hu
  | unlock i level =>
      cases level with
      | shared =>
          simp only [Unimpeded, not_forall] at hu
          obtain ⟨hi, hfull⟩ := hu
          have hle : ¬ s.level i ≤ .shared := by
            intro hle
            rcases (LockLevel.le_shared_iff _).mp hle with hl | hl
            · exact absurd hi (by rw [hl]; decide)
            · exact absurd hi (by rw [hl]; decide)
          rw [step_unlock_released s hle]
          apply not_counted_of_full h hfull
          · exact fun hs => hle (by rw [hs]; decide)
          · rw [LockState.applyUnlock, if_pos hi, if_pos rfl]
      | _ => exact absurd trivial hu

/--
Mutual exclusion holds in every state of a run exactly when no reader asks for
`EXCLUSIVE` beside another lock (and the reader count never overflows).
-/
theorem mutualExclusion_throughout_iff (calls : List (LockCall ι))
    (hcalls : AllSteps step Issued calls (idle ι)) :
    Throughout step MutualExclusion calls (idle ι) ↔ AllSteps step Unimpeded calls (idle ι) :=
  throughout_iff_allSteps (fun _ h => h.toMutualExclusion) consistent_step
    (fun s c h _ hu => not_mutualExclusion_of_impeded s c h hu) consistent_idle hcalls

/-- Two readers; one becomes a writer, steps back, and after the other has left takes the file. -/
theorem mutualExclusion_throughout_upgrade :
    Throughout step MutualExclusion
      [.lock 0 .shared, .lock 1 .shared, .lock 0 .reserved, .lock 1 .reserved, .unlock 0 .shared,
        .unlock 1 .unlocked, .lock 0 .exclusive, .lock 1 .shared]
      (idle (Fin 2)) :=
  (mutualExclusion_throughout_iff _ (by decide)).mpr (by decide)

/-- The refused request of one of two readers is granted when it is repeated. -/
theorem exclusive_granted_on_retry :
    let calls := [.lock 0 .shared, .lock 1 .shared, .lock 0 .exclusive, .lock 0 .exclusive]
    AllSteps step Issued calls (idle (Fin 2)) ∧
      (calls.foldl step (idle (Fin 2))).level 0 = .exclusive ∧
      (calls.foldl step (idle (Fin 2))).level 1 = .shared ∧
      ¬ Throughout step MutualExclusion calls (idle (Fin 2)) := by
  refine ⟨by decide, by decide, by decide, fun h => ?_⟩
  have hlevel := (h 4).alone 0 (by decide) 1 (by decide)
  exact absurd hlevel (by decide)

end LockTable

end Rustqlite.Vfs
