import Mathlib.Data.Fintype.Card
import Mathlib.Data.Fintype.Basic
import Rustqlite.Foundation.Run
import Rustqlite.Types.Error

/-!
# Wal-index locks

All connections to one path share the lock array of its wal-index; each keeps
two masks of the slots that it holds itself.
-/

namespace Rustqlite.Vfs

open Foundation

abbrev sqliteShmNlock : ℕ := 8

abbrev ShmSlot := Fin sqliteShmNlock

namespace ShmFlags

def shmUnlock : UInt32 := 1
def shmLock : UInt32 := 2
def shmShared : UInt32 := 4
def shmExclusive : UInt32 := 8

end ShmFlags

open ShmFlags

def ShmFlags.unlocking (flags : UInt32) : Prop := flags &&& shmUnlock ≠ 0
def ShmFlags.exclusive (flags : UInt32) : Prop := flags &&& shmExclusive ≠ 0
def ShmFlags.shared (flags : UInt32) : Prop := flags &&& shmShared ≠ 0

instance (flags : UInt32) : Decidable (unlocking flags) :=
  inferInstanceAs (Decidable (flags &&& shmUnlock ≠ 0))

instance (flags : UInt32) : Decidable (exclusive flags) :=
  inferInstanceAs (Decidable (flags &&& shmExclusive ≠ 0))

instance (flags : UInt32) : Decidable (shared flags) :=
  inferInstanceAs (Decidable (flags &&& shmShared ≠ 0))

def shmMask (ofst nSlots : ℕ) : BitVec 8 :=
  (((1#16 <<< (ofst + nSlots)) - (1#16 <<< ofst)) &&& 0xff#16).setWidth 8

def Spans (ofst nSlots : ℕ) (slot : ShmSlot) : Prop := ofst ≤ slot ∧ slot < ofst + nSlots

instance (ofst nSlots : ℕ) (slot : ShmSlot) : Decidable (Spans ofst nSlots slot) :=
  inferInstanceAs (Decidable (ofst ≤ slot ∧ slot < ofst + nSlots))

/-- A zero entry is free, a positive one counts the readers, a negative one has a writer. -/
structure ShmNode where
  aLock : ShmSlot → Int32

structure ShmFile where
  shmNode : ShmNode
  shmSharedMask : BitVec 8
  shmExclMask : BitVec 8

namespace ShmFile

def setSlots (aLock : ShmSlot → Int32) (ofst nSlots : ℕ) (entry : Int32) : ShmSlot → Int32 :=
  fun slot => if Spans ofst nSlots slot then entry else aLock slot

def shmUnlockShared (self : ShmFile) (ofst : ShmSlot) (nSlots : ℕ) : Result Unit × ShmFile :=
  let mask := shmMask ofst nSlots
  if nSlots ≠ 1 then (.error (.ioErr "xShmLock: SHARED unlock must have n==1"), self)
  else if self.shmSharedMask &&& mask = 0 then (.ok (), self)
  else
    let entry := self.shmNode.aLock ofst
    (.ok (),
      { self with
        shmNode.aLock :=
          Function.update self.shmNode.aLock ofst (if 1 < entry then entry - 1 else 0)
        shmSharedMask := self.shmSharedMask &&& ~~~mask })

def shmUnlockExclusive (self : ShmFile) (ofst : ShmSlot) (nSlots : ℕ) : Result Unit × ShmFile :=
  let mask := shmMask ofst nSlots
  if self.shmExclMask &&& mask = 0 then (.ok (), self)
  else
    (.ok (),
      { self with
        shmNode.aLock := setSlots self.shmNode.aLock ofst nSlots 0
        shmExclMask := self.shmExclMask &&& ~~~mask })

def shmLockShared (self : ShmFile) (ofst : ShmSlot) (nSlots : ℕ) : Result Unit × ShmFile :=
  let mask := shmMask ofst nSlots
  if self.shmSharedMask &&& mask ≠ 0 then (.ok (), self)
  else if self.shmNode.aLock ofst < 0 then (.error (.busy "wal-index lock busy"), self)
  else
    (.ok (),
      { self with
        shmNode.aLock := Function.update self.shmNode.aLock ofst (self.shmNode.aLock ofst + 1)
        shmSharedMask := self.shmSharedMask ||| mask })

/-- One slot in common with what the file holds already is enough for the first `Ok`. -/
def shmLockExclusive (self : ShmFile) (ofst : ShmSlot) (nSlots : ℕ) : Result Unit × ShmFile :=
  let mask := shmMask ofst nSlots
  if self.shmExclMask &&& mask ≠ 0 then (.ok (), self)
  else if self.shmSharedMask &&& mask ≠ 0 then
    (.error (.ioErr "xShmLock: cannot upgrade SHARED to EXCLUSIVE"), self)
  else if ∃ slot, Spans ofst nSlots slot ∧ self.shmNode.aLock slot ≠ 0 then
    (.error (.busy "wal-index lock busy"), self)
  else
    (.ok (),
      { self with
        shmNode.aLock := setSlots self.shmNode.aLock ofst nSlots (-1)
        shmExclMask := self.shmExclMask ||| mask })

def shmLock (self : ShmFile) (ofst nSlots : ℕ) (flags : UInt32) : Result Unit × ShmFile :=
  if h : sqliteShmNlock < ofst + nSlots ∨ nSlots = 0 then
    (.error (.ioErr "invalid xShmLock range"), self)
  else
    let slot : ShmSlot := ⟨ofst, by omega⟩
    if unlocking flags then
      if shared flags then self.shmUnlockShared slot nSlots
      else self.shmUnlockExclusive slot nSlots
    else if shared flags then self.shmLockShared slot nSlots
    else if exclusive flags then self.shmLockExclusive slot nSlots
    else (.error (.ioErr "xShmLock: invalid flags (neither LOCK nor UNLOCK)"), self)

def unmapSlot (self : ShmFile) (slot : ShmSlot) : Int32 :=
  let entry := self.shmNode.aLock slot
  let entry := if self.shmSharedMask.getLsbD slot ∧ 0 < entry then entry - 1 else entry
  if self.shmExclMask.getLsbD slot then 0 else entry

def shmUnmap (self : ShmFile) : ShmFile := ⟨⟨self.unmapSlot⟩, 0, 0⟩

end ShmFile

/-! ## The connections of one path -/

structure ShmTable (ι : Type) where
  node : ShmNode
  sharedMask : ι → BitVec 8
  exclMask : ι → BitVec 8

inductive ShmCall (ι : Type) where
  | lock (conn : ι) (ofst nSlots : ℕ) (flags : UInt32)
  | unmap (conn : ι)
  deriving DecidableEq

namespace ShmTable

variable {ι : Type} [DecidableEq ι]

def idle (ι : Type) : ShmTable ι := ⟨⟨fun _ => 0⟩, fun _ => 0, fun _ => 0⟩

def file (s : ShmTable ι) (i : ι) : ShmFile := ⟨s.node, s.sharedMask i, s.exclMask i⟩

/-- What a call through one connection leaves in it and in the shared array. -/
def put (s : ShmTable ι) (i : ι) (f : ShmFile) : ShmTable ι :=
  ⟨f.shmNode, Function.update s.sharedMask i f.shmSharedMask,
    Function.update s.exclMask i f.shmExclMask⟩

def step (s : ShmTable ι) : ShmCall ι → ShmTable ι
  | .lock i ofst nSlots flags => s.put i ((s.file i).shmLock ofst nSlots flags).2
  | .unmap i => s.put i (s.file i).shmUnmap

def holdsShared (s : ShmTable ι) (slot : ShmSlot) (i : ι) : Bool := (s.sharedMask i).getLsbD slot

def holdsExcl (s : ShmTable ι) (slot : ShmSlot) (i : ι) : Bool := (s.exclMask i).getLsbD slot

def Requested : ShmTable ι → ShmCall ι → Prop
  | _, .lock _ ofst nSlots flags =>
      0 < nSlots ∧ ofst + nSlots ≤ sqliteShmNlock ∧
        (shared flags → ¬unlocking flags → nSlots = 1)
  | _, .unmap _ => True

instance (s : ShmTable ι) : ∀ c, Decidable (s.Requested c)
  | .lock _ ofst nSlots flags => inferInstanceAs (Decidable
      (0 < nSlots ∧ ofst + nSlots ≤ sqliteShmNlock ∧
        (shared flags → ¬unlocking flags → nSlots = 1)))
  | .unmap _ => inferInstanceAs (Decidable True)

def Takes (s : ShmTable ι) : ShmCall ι → Prop
  | .lock i ofst nSlots flags =>
      ¬unlocking flags → ¬shared flags → exclusive flags →
        ((s.file i).shmLock ofst nSlots flags).1 = .ok () →
          ∀ slot, Spans ofst nSlots slot → (s.step (.lock i ofst nSlots flags)).holdsExcl slot i
  | .unmap _ => True

/--
An exclusive request for slots some of which the caller has asks for no other;
a release of slots some of which the caller has names no other that is in use.
-/
def Fits (s : ShmTable ι) : ShmCall ι → Prop
  | .lock i ofst nSlots flags =>
      if unlocking flags then
        ¬shared flags → (∃ slot, Spans ofst nSlots slot ∧ s.holdsExcl slot i) →
          ∀ slot, Spans ofst nSlots slot → ¬s.holdsExcl slot i → s.node.aLock slot = 0
      else if shared flags then
        ∀ slot, Spans ofst nSlots slot → ¬s.holdsShared slot i →
          s.node.aLock slot ≠ Int32.maxValue
      else
        exclusive flags → (∃ slot, Spans ofst nSlots slot ∧ s.holdsExcl slot i) →
          ∀ slot, Spans ofst nSlots slot → s.holdsExcl slot i
  | .unmap _ => True

instance (s : ShmTable ι) : ∀ c, Decidable (s.Fits c)
  | .lock i ofst nSlots flags => inferInstanceAs (Decidable
      (if unlocking flags then
        ¬shared flags → (∃ slot, Spans ofst nSlots slot ∧ s.holdsExcl slot i) →
          ∀ slot, Spans ofst nSlots slot → ¬s.holdsExcl slot i → s.node.aLock slot = 0
      else if shared flags then
        ∀ slot, Spans ofst nSlots slot → ¬s.holdsShared slot i →
          s.node.aLock slot ≠ Int32.maxValue
      else
        exclusive flags → (∃ slot, Spans ofst nSlots slot ∧ s.holdsExcl slot i) →
          ∀ slot, Spans ofst nSlots slot → s.holdsExcl slot i))
  | .unmap _ => inferInstanceAs (Decidable True)

variable [Fintype ι]

def readers (s : ShmTable ι) (slot : ShmSlot) : ℕ :=
  (Finset.univ.filter fun i => s.holdsShared slot i).card

def writers (s : ShmTable ι) (slot : ShmSlot) : ℕ :=
  (Finset.univ.filter fun i => s.holdsExcl slot i).card

/--
The entry is `-1` for the one writer of a slot nobody reads, and counts the
readers otherwise.
-/
structure Counts (s : ShmTable ι) (slot : ShmSlot) : Prop where
  writer : s.node.aLock slot = -1 ↔ s.writers slot = 1 ∧ s.readers slot = 0
  reader : ¬(s.writers slot = 1 ∧ s.readers slot = 0) →
    (s.node.aLock slot).toInt = s.readers slot

def Consistent (s : ShmTable ι) : Prop := ∀ slot, s.Counts slot

end ShmTable

end Rustqlite.Vfs
