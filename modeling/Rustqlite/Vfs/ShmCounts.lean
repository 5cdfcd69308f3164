import Rustqlite.Vfs.ShmLock

/-!
# The wal-index lock array counts its holders

One slot is followed through a call as the calling connection sees it, beside
the number of other connections that hold it.
-/

namespace Rustqlite.Vfs

open Foundation ShmFlags

/-! ## One slot -/

structure SlotView where
  entry : Int32
  shared : Bool
  excl : Bool

namespace SlotView

def Sound (readers writers : ℕ) (v : SlotView) : Prop :=
  v.entry = -1 ∧ writers + v.excl.toNat = 1 ∧ readers + v.shared.toNat = 0 ∨
    writers + v.excl.toNat = 0 ∧ v.entry.toInt = (readers + v.shared.toNat : ℕ)

variable {readers writers : ℕ} {v : SlotView}

theorem Sound.of_shared (h : v.Sound readers writers) (hs : v.shared = true) :
    writers + v.excl.toNat = 0 ∧ v.entry.toInt = (readers + 1 : ℕ) := by
  rcases h with ⟨-, -, hr⟩ | ⟨hw, hr⟩
  · rw [hs, Bool.toNat_true] at hr
    omega
  · exact ⟨hw, by rw [hr, hs, Bool.toNat_true]⟩

theorem Sound.of_excl (h : v.Sound readers writers) (hx : v.excl = true) :
    v.entry = -1 ∧ writers = 0 ∧ readers = 0 ∧ v.shared = false := by
  rcases h with ⟨he, hw, hr⟩ | ⟨hw, -⟩
  · rw [hx, Bool.toNat_true] at hw
    refine ⟨he, by omega, by omega, ?_⟩
    cases hs : v.shared with
    | false => rfl
    | true => rw [hs, Bool.toNat_true] at hr; omega
  · rw [hx, Bool.toNat_true] at hw
    omega

theorem Sound.of_zero (h : v.Sound readers writers) (he : v.entry = 0) :
    writers + v.excl.toNat = 0 ∧ readers + v.shared.toNat = 0 := by
  rcases h with ⟨hone, -⟩ | ⟨hw, hr⟩
  · rw [he] at hone
    exact absurd hone (by decide)
  · rw [he, Int32.toInt_zero] at hr
    exact ⟨hw, by omega⟩

theorem Sound.of_nonneg (h : v.Sound readers writers) (he : ¬v.entry < 0) :
    writers + v.excl.toNat = 0 ∧ v.entry.toInt = (readers + v.shared.toNat : ℕ) := by
  rcases h with ⟨hone, -⟩ | h
  · rw [hone] at he
    exact absurd (by decide) he
  · exact h

variable {e : Int32}

theorem toInt_add_one (h : e ≠ Int32.maxValue) : (e + 1).toInt = e.toInt + 1 := by
  have hlt := e.toInt_lt
  have hle := e.le_toInt
  have hne : e.toInt ≠ 2147483647 := fun heq => h (Int32.toInt_inj.mp heq)
  rw [Int32.toInt_add, Int32.toInt_one]
  exact Int.bmod_eq_of_le (by omega) (by omega)

theorem toInt_sub_one (h : 0 < e) : (e - 1).toInt = e.toInt - 1 := by
  have hlt := e.toInt_lt
  have hpos := Int32.lt_iff_toInt_lt.mp h
  rw [Int32.toInt_zero] at hpos
  rw [Int32.toInt_sub, Int32.toInt_one]
  exact Int.bmod_eq_of_le (by omega) (by omega)

theorem toInt_release {n : ℕ} (h : e.toInt = (n + 1 : ℕ)) :
    (if 1 < e then e - 1 else 0).toInt = n := by
  by_cases hone : 1 < e
  · rw [if_pos hone, toInt_sub_one (Int32.lt_trans (by decide) hone)]
    omega
  · rw [Int32.lt_iff_toInt_lt, Int32.toInt_one] at hone
    rw [if_neg (by rwa [Int32.lt_iff_toInt_lt, Int32.toInt_one]), Int32.toInt_zero]
    omega

section

variable (h : v.Sound readers writers)

include h

theorem Sound.releaseShared (hs : v.shared = true) :
    Sound readers writers ⟨if 1 < v.entry then v.entry - 1 else 0, false, v.excl⟩ := by
  have hv := h.of_shared hs
  exact .inr ⟨hv.1, toInt_release hv.2⟩

theorem Sound.releaseExcl (hx : v.excl = true) : Sound readers writers ⟨0, v.shared, false⟩ := by
  rcases h.of_excl hx with ⟨-, hw, hr, hs⟩
  refine .inr ⟨?_, ?_⟩
  · rw [hw]
    rfl
  · rw [hr, hs]
    rfl

theorem Sound.acquireShared (hs : v.shared = false) (he : ¬v.entry < 0)
    (hmax : v.entry ≠ Int32.maxValue) : Sound readers writers ⟨v.entry + 1, true, v.excl⟩ := by
  have hv := h.of_nonneg he
  refine .inr ⟨hv.1, ?_⟩
  rw [toInt_add_one hmax, hv.2, hs]
  rfl

theorem Sound.acquireExcl (he : v.entry = 0) : Sound readers writers ⟨-1, v.shared, true⟩ := by
  have hv := h.of_zero he
  exact .inl ⟨rfl, by rw [Bool.toNat_true]; omega, hv.2⟩

theorem Sound.unmap :
    Sound readers writers
      ⟨if v.excl then 0 else if v.shared ∧ 0 < v.entry then v.entry - 1 else v.entry,
        false, false⟩ := by
  cases hx : v.excl with
  | true =>
      rcases h.of_excl hx with ⟨-, hw, hr, -⟩
      rw [hw, hr]
      exact .inr ⟨rfl, rfl⟩
  | false =>
      rw [if_neg (by decide)]
      cases hs : v.shared with
      | true =>
          have hv := h.of_shared hs
          have hpos : 0 < v.entry := by
            rw [Int32.lt_iff_toInt_lt, hv.2, Int32.toInt_zero]
            omega
          rw [if_pos ⟨rfl, hpos⟩]
          refine .inr ⟨?_, ?_⟩
          · simpa [hx] using hv.1
          · rw [toInt_sub_one hpos, hv.2]
            simp
      | false =>
          rw [if_neg fun hboth => absurd hboth.1 (by decide)]
          simpa [Sound, hx, hs] using h

end

end SlotView

/-! ## Masks -/

variable {ofst nSlots : ℕ}

theorem getLsbD_shmMask (h : ofst + nSlots ≤ sqliteShmNlock) (slot : ShmSlot) :
    (shmMask ofst nSlots).getLsbD slot = decide (Spans ofst nSlots slot) := by
  have hall : ∀ a b : Fin 9, a.val + b.val ≤ sqliteShmNlock → ∀ slot : ShmSlot,
      (shmMask a.val b.val).getLsbD slot = decide (Spans a.val b.val slot) := by decide
  have hsum : ofst + nSlots < 9 := Nat.lt_succ_of_le h
  exact hall ⟨ofst, by omega⟩ ⟨nSlots, by omega⟩ h slot

theorem and_shmMask_eq_zero_iff (h : ofst + nSlots ≤ sqliteShmNlock) (mask : BitVec 8) :
    mask &&& shmMask ofst nSlots = 0 ↔ ∀ slot, Spans ofst nSlots slot →
        mask.getLsbD slot = false := by
  constructor
  · intro hzero slot hspan
    have hbit := congrArg (fun m : BitVec 8 => m.getLsbD slot) hzero
    rwa [BitVec.getLsbD_and, getLsbD_shmMask h, decide_eq_true hspan, Bool.and_true,
      BitVec.ofNat_eq_ofNat, BitVec.getLsbD_zero] at hbit
  · intro hall
    apply BitVec.eq_of_getLsbD_eq
    intro i hi
    have hbit := getLsbD_shmMask h ⟨i, hi⟩
    by_cases hspan : Spans ofst nSlots ⟨i, hi⟩
    · simpa using fun hset => absurd (hset.symm.trans (hall _ hspan)) (by decide)
    · rw [decide_eq_false hspan] at hbit
      simp [hbit]

theorem spans_one {ofst slot : ShmSlot} : Spans ofst 1 slot ↔ slot = ofst := by
  unfold Spans
  rw [Fin.ext_iff]
  omega

theorem add_one_le (ofst : ShmSlot) : ofst + 1 ≤ sqliteShmNlock := ofst.isLt

theorem and_shmMask_one_eq_zero_iff (ofst : ShmSlot) (mask : BitVec 8) :
    mask &&& shmMask ofst 1 = 0 ↔ mask.getLsbD ofst = false := by
  rw [and_shmMask_eq_zero_iff (add_one_le ofst)]
  simp [spans_one]

theorem getLsbD_or_shmMask (h : ofst + nSlots ≤ sqliteShmNlock) (mask : BitVec 8) (slot : ShmSlot) :
    (mask ||| shmMask ofst nSlots).getLsbD slot =
      if Spans ofst nSlots slot then true else mask.getLsbD slot := by
  rw [BitVec.getLsbD_or, getLsbD_shmMask h]
  split <;> simp_all

theorem getLsbD_andNot_shmMask (h : ofst + nSlots ≤ sqliteShmNlock) (mask : BitVec 8)
    (slot : ShmSlot) :
    (mask &&& ~~~shmMask ofst nSlots).getLsbD slot =
      if Spans ofst nSlots slot then false else mask.getLsbD slot := by
  have hlt : slot.val < 8 := slot.isLt
  rw [BitVec.getLsbD_and, BitVec.getLsbD_not, getLsbD_shmMask h]
  split <;> simp_all

/-! ## What a call does to a slot -/

namespace ShmFile

def view (self : ShmFile) (slot : ShmSlot) : SlotView :=
  ⟨self.shmNode.aLock slot, self.shmSharedMask.getLsbD slot, self.shmExclMask.getLsbD slot⟩

variable {self : ShmFile} {ofst : ShmSlot} {nSlots : ℕ} {slot : ShmSlot}

theorem view_shmUnlockShared :
    (self.shmUnlockShared ofst nSlots).2.view slot =
      if nSlots = 1 ∧ slot = ofst ∧ (self.view slot).shared then
        ⟨if 1 < (self.view slot).entry then (self.view slot).entry - 1 else 0, false,
          (self.view slot).excl⟩
      else self.view slot := by
  unfold shmUnlockShared
  by_cases hn : nSlots = 1
  · subst hn
    simp only [ne_eq, not_true_eq_false, if_false, and_shmMask_one_eq_zero_iff]
    cases hs : self.shmSharedMask.getLsbD ofst with
    | false =>
        rw [if_pos rfl, if_neg]
        rintro ⟨-, rfl, hheld⟩
        exact absurd (hs.symm.trans hheld) (by decide)
    | true =>
        rw [if_neg (by decide)]
        have hbit := getLsbD_andNot_shmMask (add_one_le ofst) self.shmSharedMask slot
        by_cases hslot : slot = ofst
        · subst hslot
          unfold view
          dsimp only
          rw [hbit]
          simp [hs, spans_one]
        · unfold view
          dsimp only
          rw [hbit]
          simp [hslot, spans_one]
  · rw [if_pos hn, if_neg fun hboth => hn hboth.1]

theorem view_shmUnlockExclusive (h : ofst + nSlots ≤ sqliteShmNlock) :
    (self.shmUnlockExclusive ofst nSlots).2.view slot =
      if Spans ofst nSlots slot ∧ ∃ other, Spans ofst nSlots other ∧ (self.view other).excl then
        ⟨0, (self.view slot).shared, false⟩
      else self.view slot := by
  unfold shmUnlockExclusive
  by_cases hheld : ∃ other, Spans ofst nSlots other ∧ (self.view other).excl
  · have hmask : ¬self.shmExclMask &&& shmMask ofst nSlots = 0 := by
      rw [and_shmMask_eq_zero_iff h]
      rcases hheld with ⟨other, hspan, hx⟩
      exact fun hall => absurd (hx.symm.trans (hall other hspan)) (by decide)
    have hbit := getLsbD_andNot_shmMask h self.shmExclMask slot
    rw [if_neg hmask]
    by_cases hspan : Spans ofst nSlots slot
    · rw [if_pos ⟨hspan, hheld⟩]
      unfold view
      dsimp only
      rw [hbit]
      simp [hspan, setSlots]
    · rw [if_neg fun hboth => hspan hboth.1]
      unfold view
      dsimp only
      rw [hbit]
      simp [hspan, setSlots]
  · have hmask : self.shmExclMask &&& shmMask ofst nSlots = 0 := by
      rw [and_shmMask_eq_zero_iff h]
      intro other hspan
      exact Bool.eq_false_iff.mpr fun hx => hheld ⟨other, hspan, hx⟩
    rw [if_pos hmask, if_neg fun hboth => hheld hboth.2]

theorem view_shmLockShared :
    (self.shmLockShared ofst 1).2.view slot =
      if slot = ofst ∧ (self.view slot).shared = false ∧ ¬(self.view slot).entry < 0 then
        ⟨(self.view slot).entry + 1, true, (self.view slot).excl⟩
      else self.view slot := by
  unfold shmLockShared
  simp only [ne_eq, and_shmMask_one_eq_zero_iff]
  cases hs : self.shmSharedMask.getLsbD ofst with
  | true =>
      rw [if_pos (by decide), if_neg]
      rintro ⟨rfl, hnot, -⟩
      exact absurd (hs.symm.trans hnot) (by decide)
  | false =>
      rw [if_neg (by decide)]
      by_cases hentry : self.shmNode.aLock ofst < 0
      · rw [if_pos hentry, if_neg]
        rintro ⟨rfl, -, hnot⟩
        exact hnot hentry
      · rw [if_neg hentry]
        have hbit := getLsbD_or_shmMask (add_one_le ofst) self.shmSharedMask slot
        by_cases hslot : slot = ofst
        · subst hslot
          unfold view
          dsimp only
          rw [hbit, hs]
          simp [spans_one, hentry]
        · unfold view
          dsimp only
          rw [hbit]
          simp [hslot, spans_one]

theorem view_shmUnmap :
    self.shmUnmap.view slot =
      ⟨if (self.view slot).excl then 0
        else if (self.view slot).shared ∧ 0 < (self.view slot).entry then (self.view slot).entry - 1
        else (self.view slot).entry, false, false⟩ := by
  simp [view, shmUnmap, unmapSlot]

theorem view_shmLockExclusive (h : ofst + nSlots ≤ sqliteShmNlock)
    (hfree : ¬∃ other, Spans ofst nSlots other ∧ (self.view other).excl) :
    (self.shmLockExclusive ofst nSlots).1 ≠ .ok () ∧
        (self.shmLockExclusive ofst nSlots).2 = self ∨
      (∀ slot, Spans ofst nSlots slot → (self.view slot).entry = 0) ∧
        ∀ slot, (self.shmLockExclusive ofst nSlots).2.view slot =
          if Spans ofst nSlots slot then ⟨-1, (self.view slot).shared, true⟩
          else self.view slot := by
  have hmask : self.shmExclMask &&& shmMask ofst nSlots = 0 := by
    rw [and_shmMask_eq_zero_iff h]
    intro other hspan
    exact Bool.eq_false_iff.mpr fun hx => hfree ⟨other, hspan, hx⟩
  unfold shmLockExclusive
  rw [if_neg (not_not.mpr hmask)]
  split_ifs with hshared hbusy
  · exact .inl ⟨nofun, rfl⟩
  · exact .inl ⟨nofun, rfl⟩
  · refine .inr ⟨fun slot hspan => ?_, fun slot => ?_⟩
    · by_contra hne
      exact hbusy ⟨slot, hspan, hne⟩
    · have hbit := getLsbD_or_shmMask h self.shmExclMask slot
      unfold view
      dsimp only
      rw [hbit]
      by_cases hspan : Spans ofst nSlots slot
      · simp [hspan, setSlots]
      · simp [hspan, setSlots]

theorem shmLockExclusive_held (h : ofst + nSlots ≤ sqliteShmNlock)
    (hheld : ∃ other, Spans ofst nSlots other ∧ (self.view other).excl) :
    self.shmLockExclusive ofst nSlots = (.ok (), self) := by
  have hmask : ¬self.shmExclMask &&& shmMask ofst nSlots = 0 := by
    rw [and_shmMask_eq_zero_iff h]
    rcases hheld with ⟨other, hspan, hx⟩
    exact fun hall => absurd (hx.symm.trans (hall other hspan)) (by decide)
  unfold shmLockExclusive
  simp only [ne_eq, hmask, not_false_eq_true, if_true]

end ShmFile

/-! ## Every slot of the array -/

namespace ShmTable

variable {ι : Type} [DecidableEq ι] [Fintype ι]

def others (f : ι → Bool) (i : ι) : ℕ := ((Finset.univ.erase i).filter fun j => f j).card

theorem card_filter_eq (f : ι → Bool) (i : ι) :
    (Finset.univ.filter fun j => f j).card = others f i + (f i).toNat := by
  have huniv : (Finset.univ : Finset ι) = insert i (Finset.univ.erase i) :=
    (Finset.insert_erase (Finset.mem_univ i)).symm
  unfold others
  rw [huniv, Finset.filter_insert, Finset.erase_insert_eq_erase, Finset.erase_idem]
  cases f i with
  | false => rfl
  | true =>
      rw [if_pos rfl]
      apply Finset.card_insert_of_notMem
      simp

theorem others_congr {f g : ι → Bool} {i : ι} (h : ∀ j, j ≠ i → f j = g j) :
    others f i = others g i := by
  unfold others
  congr 1
  apply Finset.filter_congr
  intro j hj
  rw [h j (Finset.ne_of_mem_erase hj)]

def Sound (s : ShmTable ι) (slot : ShmSlot) : Prop :=
  s.node.aLock slot = -1 ∧ s.writers slot = 1 ∧ s.readers slot = 0 ∨
    s.writers slot = 0 ∧ (s.node.aLock slot).toInt = s.readers slot

variable {s : ShmTable ι} {i : ι} {slot : ShmSlot}

theorem readers_put (f : ShmFile) :
    (s.put i f).readers slot = others (s.holdsShared slot) i + (f.view slot).shared.toNat := by
  have hothers : others ((s.put i f).holdsShared slot) i = others (s.holdsShared slot) i := by
    apply others_congr
    intro j hj
    simp [put, holdsShared, hj]
  unfold readers
  rw [card_filter_eq _ i, hothers]
  simp [put, holdsShared, ShmFile.view]

theorem writers_put (f : ShmFile) :
    (s.put i f).writers slot = others (s.holdsExcl slot) i + (f.view slot).excl.toNat := by
  have hothers : others ((s.put i f).holdsExcl slot) i = others (s.holdsExcl slot) i := by
    apply others_congr
    intro j hj
    simp [put, holdsExcl, hj]
  unfold writers
  rw [card_filter_eq _ i, hothers]
  simp [put, holdsExcl, ShmFile.view]

omit [Fintype ι] in
theorem put_file : s.put i (s.file i) = s := by simp [put, file]

variable {f : ShmFile}

theorem sound_put :
    (s.put i f).Sound slot ↔
      (f.view slot).Sound (others (s.holdsShared slot) i) (others (s.holdsExcl slot) i) := by
  unfold Sound
  rw [readers_put, writers_put]
  rfl

theorem sound_iff (i : ι) :
    s.Sound slot ↔ ((s.file i).view slot).Sound (others (s.holdsShared slot) i)
      (others (s.holdsExcl slot) i) := by
  rw [← sound_put, put_file]

omit [DecidableEq ι] in
theorem Sound.counts (h : s.Sound slot) : s.Counts slot := by
  rcases h with ⟨he, hone⟩ | ⟨hw, hr⟩
  · exact ⟨iff_of_true he hone, fun hnot => absurd hone hnot⟩
  · have hne : ¬(s.writers slot = 1 ∧ s.readers slot = 0) := fun hone => by omega
    refine ⟨iff_of_false (fun he => ?_) hne, fun _ => hr⟩
    rw [he] at hr
    exact absurd hr (by simp)

omit [DecidableEq ι] in
theorem sound_idle : ∀ slot, (idle ι).Sound slot := by
  intro slot
  refine .inr ⟨?_, ?_⟩
  · simp [writers, holdsExcl, idle]
  · simp [readers, holdsShared, idle]

theorem sound_of_view (h : ∀ slot, s.Sound slot)
    (hview : ∀ slot readers writers, ((s.file i).view slot).Sound readers writers →
      (f.view slot).Sound readers writers) : ∀ slot, (s.put i f).Sound slot := by
  intro slot
  exact (sound_put).mpr (hview slot _ _ ((sound_iff i).mp (h slot)))

omit [DecidableEq ι] [Fintype ι] in
theorem shmLock_of_requested {flags : UInt32} (hpos : 0 < nSlots)
    (hrange : ofst + nSlots ≤ sqliteShmNlock) :
    f.shmLock ofst nSlots flags =
      if unlocking flags then
        if shared flags then f.shmUnlockShared ⟨ofst, by omega⟩ nSlots
        else f.shmUnlockExclusive ⟨ofst, by omega⟩ nSlots
      else if shared flags then f.shmLockShared ⟨ofst, by omega⟩ nSlots
      else if exclusive flags then f.shmLockExclusive ⟨ofst, by omega⟩ nSlots
      else (.error (.ioErr "xShmLock: invalid flags (neither LOCK nor UNLOCK)"), f) := by
  unfold ShmFile.shmLock
  rw [dif_neg (by omega)]

/-! ## The four requests -/

section
variable {ofst : ShmSlot} {nSlots : ℕ}

theorem sound_unlockShared (h : ∀ slot, s.Sound slot) :
    ∀ slot, (s.put i ((s.file i).shmUnlockShared ofst nSlots).2).Sound slot := by
  apply sound_of_view h
  intro slot readers writers hv
  rw [ShmFile.view_shmUnlockShared]
  split
  next hcond => exact hv.releaseShared hcond.2.2
  · exact hv

theorem sound_unlockExclusive (h : ∀ slot, s.Sound slot) (hrange : ofst + nSlots ≤ sqliteShmNlock)
    (hfits : (∃ slot, Spans ofst nSlots slot ∧ s.holdsExcl slot i) →
      ∀ slot, Spans ofst nSlots slot → ¬s.holdsExcl slot i → s.node.aLock slot = 0) :
    ∀ slot, (s.put i ((s.file i).shmUnlockExclusive ofst nSlots).2).Sound slot := by
  apply sound_of_view h
  intro slot readers writers hv
  rw [ShmFile.view_shmUnlockExclusive hrange]
  split_ifs with hcond
  · by_cases hx : ((s.file i).view slot).excl
    · exact hv.releaseExcl hx
    · have hzero : ((s.file i).view slot).entry = 0 := hfits hcond.2 slot hcond.1 hx
      rw [Bool.not_eq_true] at hx
      rw [← hzero, ← hx]
      exact hv
  · exact hv

theorem sound_lockShared (h : ∀ slot, s.Sound slot)
    (hfits : ¬s.holdsShared ofst i → s.node.aLock ofst ≠ Int32.maxValue) :
    ∀ slot, (s.put i ((s.file i).shmLockShared ofst 1).2).Sound slot := by
  apply sound_of_view h
  intro slot readers writers hv
  rw [ShmFile.view_shmLockShared]
  split_ifs with hcond
  · rcases hcond with ⟨rfl, hs, he⟩
    exact hv.acquireShared hs he (hfits (Bool.eq_false_iff.mp hs))
  · exact hv

theorem sound_lockExclusive (h : ∀ slot, s.Sound slot) (hrange : ofst + nSlots ≤ sqliteShmNlock) :
    ∀ slot, (s.put i ((s.file i).shmLockExclusive ofst nSlots).2).Sound slot := by
  apply sound_of_view h
  intro slot readers writers hv
  by_cases hheld : ∃ other, Spans ofst nSlots other ∧ ((s.file i).view other).excl
  · rw [ShmFile.shmLockExclusive_held hrange hheld]
    exact hv
  · rcases ShmFile.view_shmLockExclusive hrange hheld with ⟨-, hsame⟩ | ⟨hzero, hview⟩
    · rw [hsame]
      exact hv
    · rw [hview slot]
      split_ifs with hspan
      · exact hv.acquireExcl (hzero slot hspan)
      · exact hv

omit [DecidableEq ι] [Fintype ι] in
theorem takes_lockExclusive (hrange : ofst + nSlots ≤ sqliteShmNlock)
    (hfits : (∃ slot, Spans ofst nSlots slot ∧ s.holdsExcl slot i) →
      ∀ slot, Spans ofst nSlots slot → s.holdsExcl slot i)
    (hok : ((s.file i).shmLockExclusive ofst nSlots).1 = .ok ()) (hspan : Spans ofst nSlots slot) :
    (((s.file i).shmLockExclusive ofst nSlots).2.view slot).excl = true := by
  by_cases hheld : ∃ other, Spans ofst nSlots other ∧ ((s.file i).view other).excl
  · rw [ShmFile.shmLockExclusive_held hrange hheld]
    exact hfits hheld slot hspan
  · rcases ShmFile.view_shmLockExclusive hrange hheld with ⟨hne, -⟩ | ⟨-, hview⟩
    · exact absurd hok hne
    · rw [hview slot, if_pos hspan]

end

theorem sound_unmap (h : ∀ slot, s.Sound slot) :
    ∀ slot, (s.put i (s.file i).shmUnmap).Sound slot := by
  apply sound_of_view h
  intro slot readers writers hv
  rw [ShmFile.view_shmUnmap]
  exact hv.unmap

omit [Fintype ι] in
theorem holdsExcl_put : (s.put i f).holdsExcl slot i = (f.view slot).excl := by
  simp [put, holdsExcl, ShmFile.view]

theorem step_of_fits (s : ShmTable ι) (c : ShmCall ι) (h : ∀ slot, s.Sound slot)
    (hreq : s.Requested c) (hfits : s.Fits c) :
    (∀ slot, (s.step c).Sound slot) ∧ s.Takes c := by
  cases c with
  | unmap i => exact ⟨sound_unmap h, trivial⟩
  | lock i ofst nSlots flags =>
      rcases hreq with ⟨hpos, hrange, hone⟩
      have hlock : (s.file i).shmLock ofst nSlots flags = _ := shmLock_of_requested hpos hrange
      dsimp only [Fits, Takes, step] at hfits ⊢
      rw [hlock]
      split_ifs at hfits ⊢ with hunlock hshared hshared hexcl
      · exact ⟨sound_unlockShared h, fun hnot => absurd hunlock hnot⟩
      · exact ⟨sound_unlockExclusive h hrange (hfits hshared), fun hnot => absurd hunlock hnot⟩
      · obtain rfl := hone hshared hunlock
        refine ⟨sound_lockShared h fun hnot => ?_, fun _ hnot => absurd hshared hnot⟩
        exact hfits ⟨ofst, hrange⟩ ⟨Nat.le_refl ofst, Nat.lt_succ_self ofst⟩ hnot
      · refine ⟨sound_lockExclusive h hrange, fun _ _ _ hok slot hspan => ?_⟩
        rw [holdsExcl_put]
        exact takes_lockExclusive hrange (hfits hexcl) hok hspan
      · refine ⟨?_, fun _ _ hx => absurd hx hexcl⟩
        rw [put_file]
        exact h

/-! ## A request that breaks the array -/

section
variable {ofst : ShmSlot} {nSlots : ℕ}

theorem entry_eq_zero_of_counts (h : s.Sound slot) (hrange : ofst + nSlots ≤ sqliteShmNlock)
    (hheld : ∃ slot, Spans ofst nSlots slot ∧ s.holdsExcl slot i)
    (hnext : (s.put i ((s.file i).shmUnlockExclusive ofst nSlots).2).Counts slot)
    (hspan : Spans ofst nSlots slot) (hx : ¬s.holdsExcl slot i) : s.node.aLock slot = 0 := by
  have hview : ((s.file i).shmUnlockExclusive ofst nSlots).2.view slot = _ :=
    ShmFile.view_shmUnlockExclusive hrange
  rw [if_pos ⟨hspan, hheld⟩] at hview
  have hfalse : ((s.file i).view slot).excl = false := Bool.eq_false_iff.mpr hx
  have hreaders : (s.put i ((s.file i).shmUnlockExclusive ofst nSlots).2).readers slot = _ :=
    readers_put _
  have hwriters : (s.put i ((s.file i).shmUnlockExclusive ofst nSlots).2).writers slot = _ :=
    writers_put _
  rw [hview] at hreaders hwriters
  have hentry : (s.put i ((s.file i).shmUnlockExclusive ofst nSlots).2).node.aLock slot = 0 :=
    congrArg SlotView.entry hview
  rcases (sound_iff i).mp h with ⟨-, hw, hr⟩ | ⟨hw, hr⟩
  · rw [hfalse] at hw
    rw [hr] at hreaders
    rw [hw] at hwriters
    have hminus := hnext.writer.mpr ⟨hwriters, hreaders⟩
    rw [hentry] at hminus
    exact absurd hminus (by decide)
  · rw [hfalse] at hw
    rw [hw] at hwriters
    have hzero := hnext.reader (by omega)
    rw [hentry, Int32.toInt_zero, hreaders] at hzero
    rw [← Int32.toInt_inj, Int32.toInt_zero]
    exact hr.trans hzero.symm

theorem entry_ne_max_of_counts (h : s.Sound ofst) (hs : ¬s.holdsShared ofst i)
    (hnext : (s.put i ((s.file i).shmLockShared ofst 1).2).Counts ofst) :
    s.node.aLock ofst ≠ Int32.maxValue := by
  intro hmax
  have hview : ((s.file i).shmLockShared ofst 1).2.view ofst = _ := ShmFile.view_shmLockShared
  have hentry : ((s.file i).view ofst).entry = Int32.maxValue := hmax
  have hfalse : ((s.file i).view ofst).shared = false := Bool.eq_false_iff.mpr hs
  rw [if_pos ⟨rfl, hfalse, by rw [hentry]; decide⟩, hentry] at hview
  have hwriters : (s.put i ((s.file i).shmLockShared ofst 1).2).writers ofst = _ := writers_put _
  rw [hview] at hwriters
  have hv := ((sound_iff i).mp h).of_nonneg (by rw [hentry]; decide)
  have hcount := hnext.reader (by
    rw [hwriters]
    dsimp only
    omega)
  have hwrapped : (s.put i ((s.file i).shmLockShared ofst 1).2).node.aLock ofst =
      Int32.maxValue + 1 := congrArg SlotView.entry hview
  rw [hwrapped] at hcount
  have hneg : (Int32.maxValue + 1).toInt < 0 := by decide
  omega

end

theorem fits_of_step (s : ShmTable ι) (c : ShmCall ι) (h : ∀ slot, s.Sound slot)
    (hreq : s.Requested c) (hnext : (s.step c).Consistent) (htakes : s.Takes c) : s.Fits c := by
  cases c with
  | unmap i => trivial
  | lock i ofst nSlots flags =>
      rcases hreq with ⟨hpos, hrange, hone⟩
      have hlock : (s.file i).shmLock ofst nSlots flags = _ := shmLock_of_requested hpos hrange
      dsimp only [Fits, Takes, step] at hnext htakes ⊢
      rw [hlock] at hnext htakes
      split_ifs at hnext htakes ⊢ with hunlock hshared hshared hexcl
      · exact fun hnot => absurd hshared hnot
      · exact fun _ hheld slot hspan hx =>
          entry_eq_zero_of_counts (h slot) hrange hheld (hnext slot) hspan hx
      · obtain rfl := hone hshared hunlock
        intro slot hspan hs
        obtain rfl := (spans_one).mp (show Spans (⟨ofst, hrange⟩ : ShmSlot) 1 slot from hspan)
        exact entry_ne_max_of_counts (h _) hs (hnext _)
      · intro _ hheld slot hspan
        have hsame : (s.file i).shmLockExclusive ⟨ofst, by omega⟩ nSlots = _ :=
          ShmFile.shmLockExclusive_held hrange hheld
        have hx := htakes hunlock hshared hexcl (by rw [hsame]) slot hspan
        rwa [hsame, put_file] at hx
      · exact fun hx => absurd hx hexcl

/--
The array counts its holders throughout a run and every exclusive request that
is granted takes all its slots, exactly when no call spans a slot its caller has
beside one that it does not have: free ones in a release, any in a request.
-/
theorem consistent_throughout_iff (calls : List (ShmCall ι))
    (hcalls : AllSteps step Requested calls (idle ι)) :
    Throughout step Consistent calls (idle ι) ∧ AllSteps step Takes calls (idle ι) ↔
      AllSteps step Fits calls (idle ι) :=
  throughout_and_iff_allSteps (I := fun s => ∀ slot, s.Sound slot)
    (fun _ h slot => (h slot).counts) step_of_fits fits_of_step sound_idle hcalls

/-- Two readers of one slot and a writer of three others, which is then unmapped. -/
theorem consistent_throughout_unmap :
    Throughout step Consistent
        [.lock 0 3 1 6, .lock 1 3 1 6, .lock 0 0 3 10, .lock 1 2 2 10, .lock 1 3 1 5, .unmap 0]
        (idle (Fin 2)) ∧
      AllSteps step Takes
        [.lock 0 3 1 6, .lock 1 3 1 6, .lock 0 0 3 10, .lock 1 2 2 10, .lock 1 3 1 5, .unmap 0]
        (idle (Fin 2)) :=
  (consistent_throughout_iff _ (by decide)).mpr (by decide)

/-- The request is granted for the slot that its caller has, and the other one is not taken. -/
theorem overlap_granted_not_taken :
    AllSteps step Requested [.lock 0 0 1 10, .lock 1 1 1 10, .lock 0 0 2 10] (idle (Fin 2)) ∧
      ¬AllSteps step Takes [.lock 0 0 1 10, .lock 1 1 1 10, .lock 0 0 2 10] (idle (Fin 2)) := by
  refine ⟨by decide, ?_⟩
  rintro ⟨-, -, htakes, -⟩
  have hheld := htakes (by decide) (by decide) (by decide) (by decide) 1 (by decide)
  exact absurd hheld (by decide)

end ShmTable

end Rustqlite.Vfs
