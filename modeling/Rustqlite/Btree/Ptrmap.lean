import Rustqlite.Btree.Page
import Rustqlite.Pager.Pages

/-!
# Pointer-map pages

In an auto-vacuum database every page but the first and the pointer-map pages
themselves has an entry of five bytes that names its kind and its parent.
-/

namespace Rustqlite.Btree

open Foundation Format Pager FileM

def ptrmapEntrySize : Nat := 5

inductive PtrMapType where
  | rootPage
  | freePage
  | overflow1
  | overflow2
  | btree
  deriving DecidableEq

namespace PtrMapType

def code : PtrMapType → UInt8
  | rootPage => 1
  | freePage => 2
  | overflow1 => 3
  | overflow2 => 4
  | btree => 5

def fromCode (c : UInt8) : Result PtrMapType :=
  if c = 1 then .ok rootPage
  else if c = 2 then .ok freePage
  else if c = 3 then .ok overflow1
  else if c = 4 then .ok overflow2
  else if c = 5 then .ok btree
  else .error (.corrupt s!"invalid ptrmap type {c}")

end PtrMapType

/-- The page of byte `0x40000000` in a file with pages of 4096 bytes. -/
def pendingBytePage : Nat := 262145

def isPendingBytePage (pgno : Nat) : Bool := pgno == pendingBytePage

def pagesPerMapPage (usable : Nat) : Nat := usable / ptrmapEntrySize + 1

def ptrmapPageno (usable pgno : Nat) : Nat :=
  if pgno < 2 then 0
  else
    let ret := (pgno - 2) / pagesPerMapPage usable * pagesPerMapPage usable + 2
    if ret = pendingBytePage then ret + 1 else ret

def isPtrmapPage (usable pgno : Nat) : Bool := 2 ≤ pgno && ptrmapPageno usable pgno == pgno

def isReservedPage (usable pgno : Nat) : Bool :=
  isPtrmapPage usable pgno || isPendingBytePage pgno

def liftResult {α : Type} : Result α → PagerM α
  | .ok a => pure a
  | .error e => throw e

/-- The offset of an entry; a page in front of its pointer-map page has none. -/
def ptrmapOffset (ptrmapPgno pgno : Nat) : PagerM Nat :=
  if pgno ≤ ptrmapPgno then throw (.panic "attempt to subtract with overflow")
  else pure (ptrmapEntrySize * (pgno - ptrmapPgno - 1))

def ptrmapGet (pgno : UInt32) : PagerM (PtrMapType × UInt32) := do
  let usable := (← getState).geometry.usableSize
  let pm := ptrmapPageno usable pgno.toNat
  if pm = 0 then throw (.corrupt s!"ptrmap_get: page {pgno} has no ptrmap")
  let page ← getPage (UInt32.ofNat pm)
  let off ← ptrmapOffset pm pgno.toNat
  if usable < off + ptrmapEntrySize then
    throw (.corrupt s!"ptrmap_get: offset {off} out of range")
  let ty ← liftResult (PtrMapType.fromCode (page.getD off 0))
  return (ty, readBe32 (page.drop (off + 1)))

def ptrmapDiffers (usable pm : Nat) (pgno : UInt32) (ty : PtrMapType) (parent : UInt32)
    (page : Bytes) : PagerM Bool := do
  let off ← ptrmapOffset pm pgno.toNat
  if usable < off + ptrmapEntrySize then
    throw (.corrupt s!"ptrmap_put: offset {off} out of range")
  return page.getD off 0 != ty.code || readBe32 (page.drop (off + 1)) != parent

def ptrmapWrite (pm : Nat) (pgno : UInt32) (ty : PtrMapType) (parent : UInt32) :
    PagerM Unit := do
  let page ← readPageForWrite (UInt32.ofNat pm)
  let off ← ptrmapOffset pm pgno.toNat
  writePage (UInt32.ofNat pm) (splice page off (ty.code :: be32 parent))

def ptrmapPut (pgno : UInt32) (ty : PtrMapType) (parent : UInt32) : PagerM Unit := do
  let usable := (← getState).geometry.usableSize
  let pm := ptrmapPageno usable pgno.toNat
  if pm = 0 then throw (.corrupt s!"ptrmap_put: page {pgno} has no ptrmap")
  match ← tryResult (getPage (UInt32.ofNat pm)) with
  | .ok page =>
      if ← ptrmapDiffers usable pm pgno ty parent page then ptrmapWrite pm pgno ty parent
  | .error _ => ptrmapWrite pm pgno ty parent

/-!
## Where the entries are

Every page that holds data has its own five bytes on a pointer-map page.  The
source calculates with 32 and 64 bits; nothing is lost, because a pointer-map
page is in front of the pages it describes.
-/

/-! ## In 32 bits -/

def pagesPerMapPage32 (usable : Nat) : UInt32 := UInt32.ofNat usable / 5 + 1

def ptrmapPageno32 (usable : Nat) (pgno : UInt32) : UInt32 :=
  if pgno < 2 then 0
  else
    let npp := (pagesPerMapPage32 usable).toUInt64
    let i := ((pgno.toUInt64 - 2) / npp).toUInt32
    let ret := (i.toUInt64 * npp).toUInt32 + 2
    if ret = 262145 then ret + 1 else ret

def isPtrmapPage32 (usable : Nat) (pgno : UInt32) : Bool :=
  2 ≤ pgno && ptrmapPageno32 usable pgno == pgno

def isReservedPage32 (usable : Nat) (pgno : UInt32) : Bool :=
  isPtrmapPage32 usable pgno || pgno == 262145

/-- The offset, unless the calculation leaves its 32 bits. -/
def ptrmapOffset32 (ptrmapPgno pgno : UInt32) : Result Nat :=
  if pgno.toNat < ptrmapPgno.toNat + 1 then .error (.panic "attempt to subtract with overflow")
  else if 2 ^ 32 ≤ 5 * (pgno - ptrmapPgno - 1).toNat then
    .error (.panic "attempt to multiply with overflow")
  else .ok (5 * (pgno - ptrmapPgno - 1)).toNat

theorem toNat_pagesPerMapPage32 (usable : Nat) :
    (pagesPerMapPage32 usable).toNat = pagesPerMapPage (usable % 2 ^ 32) := by
  rw [pagesPerMapPage32, pagesPerMapPage, ptrmapEntrySize, UInt32.toNat_add, UInt32.toNat_div,
    UInt32.toNat_ofNat']
  simp only [UInt32.reduceToNat]
  omega

theorem toNat_ptrmapPageno32 (usable : Nat) (pgno : UInt32) :
    (ptrmapPageno32 usable pgno).toNat = ptrmapPageno (usable % 2 ^ 32) pgno.toNat := by
  have hlt := pgno.toNat_lt
  have hnpp := toNat_pagesPerMapPage32 usable
  have hnpplt := (pagesPerMapPage32 usable).toNat_lt
  rw [ptrmapPageno32, ptrmapPageno]
  by_cases htwo : pgno.toNat < 2
  · rw [if_pos (UInt32.lt_iff_toNat_lt.mpr htwo), if_pos htwo]
    rfl
  rw [if_neg (fun h => htwo (UInt32.lt_iff_toNat_lt.mp h)), if_neg htwo]
  set npp := pagesPerMapPage (usable % 2 ^ 32) with hdef
  have hquot := Nat.div_le_self (pgno.toNat - 2) npp
  have hmul := Nat.div_mul_le_self (pgno.toNat - 2) npp
  have hsub : (pgno.toUInt64 - 2).toNat = pgno.toNat - 2 := by
    rw [UInt64.toNat_sub_of_le]
    · simp
    · rw [UInt64.le_iff_toNat_le]
      simp
      omega
  have hi : ((pgno.toUInt64 - 2) / (pagesPerMapPage32 usable).toUInt64).toUInt32.toNat =
      (pgno.toNat - 2) / npp := by
    rw [UInt64.toNat_toUInt32, UInt64.toNat_div, hsub, UInt32.toNat_toUInt64, hnpp]
    exact Nat.mod_eq_of_lt (by omega)
  have hret : ((((pgno.toUInt64 - 2) / (pagesPerMapPage32 usable).toUInt64).toUInt32.toUInt64 *
      (pagesPerMapPage32 usable).toUInt64).toUInt32 + 2).toNat =
      (pgno.toNat - 2) / npp * npp + 2 := by
    rw [UInt32.toNat_add, UInt64.toNat_toUInt32, UInt64.toNat_mul, UInt32.toNat_toUInt64, hi,
      UInt32.toNat_toUInt64, hnpp]
    simp only [UInt32.reduceToNat]
    omega
  dsimp only
  have htest : (((((pgno.toUInt64 - 2) / (pagesPerMapPage32 usable).toUInt64).toUInt32.toUInt64 *
      (pagesPerMapPage32 usable).toUInt64).toUInt32 + 2 = 262145) : Prop) ↔
      (pgno.toNat - 2) / npp * npp + 2 = pendingBytePage := by
    rw [← UInt32.toNat_inj, hret]
    rfl
  simp only [htest]
  split_ifs with hpending
  · rw [UInt32.toNat_add, hret, hpending]
    rfl
  · exact hret

theorem isPtrmapPage32_eq (usable : Nat) (pgno : UInt32) :
    isPtrmapPage32 usable pgno = isPtrmapPage (usable % 2 ^ 32) pgno.toNat := by
  rw [Bool.eq_iff_iff, isPtrmapPage32, isPtrmapPage]
  simp only [Bool.and_eq_true, decide_eq_true_eq, beq_iff_eq, ← toNat_ptrmapPageno32,
    UInt32.toNat_inj]
  rw [UInt32.le_iff_toNat_le]
  rfl

theorem isReservedPage32_eq (usable : Nat) (pgno : UInt32) :
    isReservedPage32 usable pgno = isReservedPage (usable % 2 ^ 32) pgno.toNat := by
  rw [isReservedPage32, isReservedPage, isPtrmapPage32_eq, Bool.eq_iff_iff, Bool.or_eq_true,
    Bool.or_eq_true, beq_iff_eq, isPendingBytePage, beq_iff_eq, ← UInt32.toNat_inj]
  rfl

/-! ## The place of an entry -/

/--
The group of a page is the run of pages that one pointer-map page describes.  In
the one group that would begin with the lock-byte page, the pointer-map page is
the one behind it.
-/
theorem ptrmap_place (usable : Nat) {pgno : Nat} (h : 3 ≤ pgno)
    (hres : isReservedPage usable pgno = false) :
    ptrmapPageno usable pgno < pgno ∧ isPtrmapPage usable (ptrmapPageno usable pgno) = true ∧
      ptrmapEntrySize * (pgno - ptrmapPageno usable pgno - 1) + ptrmapEntrySize ≤ usable := by
  set npp := pagesPerMapPage usable with hnpp
  set i := (pgno - 2) / npp with hi
  have hpos : 0 < npp := Nat.succ_pos _
  have hlo : i * npp ≤ pgno - 2 := Nat.div_mul_le_self _ _
  have hhi : pgno - 2 < (i + 1) * npp := Nat.lt_mul_of_div_lt (Nat.lt_succ_self _) hpos
  rw [Nat.succ_mul] at hhi
  have hsize : ptrmapEntrySize * (npp - 1) ≤ usable := by
    rw [hnpp, pagesPerMapPage, Nat.add_sub_cancel]
    exact Nat.mul_div_le _ _
  have hpage : ∀ m, i * npp + 2 ≤ m → m < i * npp + 2 + npp →
      ptrmapPageno usable m = if i * npp + 2 = pendingBytePage then i * npp + 3
        else i * npp + 2 := by
    intro m hm hm'
    have hgroup : (m - 2) / npp = i := Nat.div_eq_of_lt_le (by omega) (by rw [Nat.succ_mul]; omega)
    rw [ptrmapPageno, if_neg (by omega), ← hnpp, hgroup]
  have hown := hpage pgno (by omega) (by omega)
  simp only [isReservedPage, isPtrmapPage, isPendingBytePage, Bool.or_eq_false_iff,
    Bool.and_eq_false_iff, decide_eq_false_iff_not, beq_eq_false_iff_ne, hown] at hres
  obtain ⟨hmap, hpending⟩ := hres
  replace hmap := hmap.resolve_left (by omega)
  rw [hown]
  simp only [isPtrmapPage, Bool.and_eq_true, decide_eq_true_eq, beq_iff_eq]
  by_cases hlock : i * npp + 2 = pendingBytePage
  · rw [if_pos hlock] at hmap ⊢
    refine ⟨by omega, ⟨by omega, ?_⟩, ?_⟩
    · rw [hpage _ (by omega) (by omega), if_pos hlock]
    · simp only [ptrmapEntrySize] at hsize ⊢
      omega
  · rw [if_neg hlock] at hmap ⊢
    refine ⟨by omega, ⟨by omega, ?_⟩, ?_⟩
    · rw [hpage _ (by omega) (by omega), if_neg hlock]
    · simp only [ptrmapEntrySize] at hsize ⊢
      omega

/-- An entry is in the usable area of a pointer-map page, and is there alone. -/
theorem ptrmap_entries_apart (usable : Nat) {p q : UInt32} (hp : 3 ≤ p) (hq : 3 ≤ q)
    (hpres : isReservedPage32 usable p = false) (hqres : isReservedPage32 usable q = false) :
    ∃ off off', ptrmapOffset32 (ptrmapPageno32 usable p) p = .ok off ∧
      ptrmapOffset32 (ptrmapPageno32 usable q) q = .ok off' ∧
      off + ptrmapEntrySize ≤ usable ∧
      isPtrmapPage32 usable (ptrmapPageno32 usable p) = true ∧
      isReservedPage32 usable (ptrmapPageno32 usable p) = true ∧
      ((ptrmapPageno32 usable p, off) = (ptrmapPageno32 usable q, off') → p = q) := by
  -- one page: its offset as a number
  have hplace : ∀ {r : UInt32}, 3 ≤ r → isReservedPage32 usable r = false →
      (ptrmapPageno32 usable r).toNat < r.toNat ∧
        isPtrmapPage32 usable (ptrmapPageno32 usable r) = true ∧
        5 * (r.toNat - (ptrmapPageno32 usable r).toNat - 1) + 5 ≤ usable % 2 ^ 32 ∧
        ptrmapOffset32 (ptrmapPageno32 usable r) r =
          .ok (5 * (r.toNat - (ptrmapPageno32 usable r).toNat - 1)) := by
    intro r hr hres
    rw [isReservedPage32_eq] at hres
    obtain ⟨hlt, hmap, hroom⟩ := ptrmap_place (usable % 2 ^ 32) (UInt32.le_iff_toNat_le.mp hr) hres
    rw [← toNat_ptrmapPageno32] at hlt hmap hroom
    have hmod : usable % 2 ^ 32 < 2 ^ 32 := Nat.mod_lt _ (by norm_num)
    have hrlt := r.toNat_lt
    simp only [ptrmapEntrySize] at hroom
    have hsub : (r - ptrmapPageno32 usable r).toNat = r.toNat - (ptrmapPageno32 usable r).toNat :=
      UInt32.toNat_sub_of_le _ _ (UInt32.le_iff_toNat_le.mpr hlt.le)
    have hdiff : (r - ptrmapPageno32 usable r - 1).toNat =
        r.toNat - (ptrmapPageno32 usable r).toNat - 1 := by
      rw [UInt32.toNat_sub_of_le, hsub]
      · rfl
      · rw [UInt32.le_iff_toNat_le, hsub]
        change 1 ≤ _
        omega
    have hmul : (5 * (r - ptrmapPageno32 usable r - 1)).toNat =
        5 * (r.toNat - (ptrmapPageno32 usable r).toNat - 1) := by
      rw [UInt32.toNat_mul, hdiff]
      exact Nat.mod_eq_of_lt (by simp only [UInt32.reduceToNat]; omega)
    refine ⟨hlt, by rwa [isPtrmapPage32_eq], hroom, ?_⟩
    rw [ptrmapOffset32, if_neg (by omega), hdiff, if_neg (by omega), hmul]
  obtain ⟨hplt, hpmap, hproom, hpoff⟩ := hplace hp hpres
  obtain ⟨hqlt, -, -, hqoff⟩ := hplace hq hqres
  refine ⟨_, _, hpoff, hqoff, ?_, hpmap, by rw [isReservedPage32, hpmap, Bool.true_or],
      fun heq => ?_⟩
  · have := Nat.mod_le usable (2 ^ 32)
    simp only [ptrmapEntrySize]
    omega
  · obtain ⟨hmap, hoff⟩ := Prod.mk.inj heq
    rw [hmap] at hoff hplt
    apply UInt32.toNat_inj.mp
    omega

theorem ptrmap_entries_apart_512 :
    ∃ off off', ptrmapOffset32 (ptrmapPageno32 512 3) 3 = .ok off ∧
      ptrmapOffset32 (ptrmapPageno32 512 4) 4 = .ok off' ∧ off + ptrmapEntrySize ≤ 512 ∧
      isPtrmapPage32 512 (ptrmapPageno32 512 3) = true ∧
      isReservedPage32 512 (ptrmapPageno32 512 3) = true ∧
      ((ptrmapPageno32 512 3, off) = (ptrmapPageno32 512 4, off') → (3 : UInt32) = 4) :=
  ptrmap_entries_apart 512 (by decide) (by decide) (by decide) (by decide)

end Rustqlite.Btree
