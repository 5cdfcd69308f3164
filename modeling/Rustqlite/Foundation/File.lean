import Rustqlite.Foundation.Bytes

/-!
# File contents

A file is a byte string.  Writing past its end fills the gap with zeros, and so
does growing it; reading past its end gives fewer bytes than asked for.
-/

namespace Rustqlite.Foundation

def zeroExtend (file : Bytes) (size : Nat) : Bytes :=
  file ++ List.replicate (size - file.length) 0

def writeAt (file : Bytes) (off : Nat) (src : Bytes) : Bytes :=
  splice (zeroExtend file (off + src.length)) off src

def resize (file : Bytes) (size : Nat) : Bytes :=
  (zeroExtend file size).take size

/-- Read into a zeroed buffer: bytes past the end of the file stay zero. -/
def readPadded (file : Bytes) (off len : Nat) : Bytes :=
  (List.range len).map fun i => file.getD (off + i) 0

@[simp] theorem length_zeroExtend (file : Bytes) (size : Nat) :
    (zeroExtend file size).length = max file.length size := by
  simp [zeroExtend]
  omega

@[simp] theorem length_writeAt (file : Bytes) (off : Nat) (src : Bytes) :
    (writeAt file off src).length = max file.length (off + src.length) := by
  rw [writeAt, length_splice (by simp), length_zeroExtend]

@[simp] theorem length_resize (file : Bytes) (size : Nat) :
    (resize file size).length = size := by
  simp [resize]

@[simp] theorem length_readPadded (file : Bytes) (off len : Nat) :
    (readPadded file off len).length = len := by
  simp [readPadded]

variable {file src : Bytes} {size i off len : Nat}

theorem getElem?_zeroExtend_of_lt (h : i < file.length) : (zeroExtend file size)[i]? = file[i]? :=
  List.getElem?_append_left h

/-- A write that starts at the end of `pre` replaces what follows there. -/
theorem writeAt_append (pre tail src : Bytes) :
    writeAt (pre ++ tail) pre.length src = pre ++ src ++ tail.drop src.length := by
  have hpre : (zeroExtend (pre ++ tail) (pre.length + src.length)).take pre.length = pre := by
    rw [zeroExtend, List.append_assoc, List.take_left]
  have hpost : (zeroExtend (pre ++ tail) (pre.length + src.length)).drop
      (pre.length + src.length) = tail.drop src.length := by
    rw [zeroExtend, List.append_assoc, ← List.drop_drop, List.drop_left, List.drop_append]
    simp
    omega
  rw [writeAt, splice, hpre, hpost]

theorem writeAt_zero (file src : Bytes) : writeAt file 0 src = src ++ file.drop src.length := by
  simpa using writeAt_append [] file src

theorem getD_writeAt (file : Bytes) (off : Nat) (src : Bytes) (i : Nat) :
    (writeAt file off src).getD i 0 =
      if off ≤ i ∧ i < off + src.length then src.getD (i - off) 0 else file.getD i 0 := by
  rw [List.getD_eq_getElem?_getD, writeAt, getElem?_splice (by simp)]
  have hext : ((zeroExtend file (off + src.length))[i]?).getD 0 = (file[i]?).getD 0 := by
    by_cases h : i < file.length
    · rw [getElem?_zeroExtend_of_lt h]
    · rw [zeroExtend, List.getElem?_append_right (by omega), List.getElem?_replicate,
        List.getElem?_eq_none (by omega : file.length ≤ i)]
      split <;> rfl
  split_ifs <;> first | omega | simp [List.getD_eq_getElem?_getD, hext]

theorem getD_resize (file : Bytes) (size i : Nat) (h : i < size) :
    (resize file size).getD i 0 = file.getD i 0 := by
  rw [List.getD_eq_getElem?_getD, List.getD_eq_getElem?_getD, resize,
    List.getElem?_take_of_lt h]
  by_cases hi : i < file.length
  · rw [getElem?_zeroExtend_of_lt hi]
  · rw [zeroExtend, List.getElem?_append_right (by omega), List.getElem?_replicate,
      List.getElem?_eq_none (by omega : file.length ≤ i)]
    split <;> rfl

theorem readPadded_congr {a b : Bytes}
    (h : ∀ i, off ≤ i → i < off + len → a.getD i 0 = b.getD i 0) :
    readPadded a off len = readPadded b off len := by
  apply List.map_congr_left
  intro i hi
  exact h (off + i) (by omega) (by have := List.mem_range.mp hi; omega)

theorem readPadded_writeAt_same (file : Bytes) (off : Nat) (src : Bytes) :
    readPadded (writeAt file off src) off src.length = src := by
  apply List.ext_getElem (by simp)
  intro i hi hi'
  simp only [readPadded, List.getElem_map, List.getElem_range, getD_writeAt]
  rw [if_pos ⟨by omega, by omega⟩, Nat.add_sub_cancel_left, List.getD_eq_getElem?_getD,
    List.getElem?_eq_getElem hi', Option.getD_some]

theorem readPadded_writeAt_of_disjoint (file : Bytes) {off' : Nat}
    (hd : off' + len ≤ off ∨ off + src.length ≤ off') :
    readPadded (writeAt file off src) off' len = readPadded file off' len := by
  apply readPadded_congr
  intro i hi hi'
  rw [getD_writeAt, if_neg (by omega)]

theorem readPadded_resize (file : Bytes) (h : off + len ≤ size) :
    readPadded (resize file size) off len = readPadded file off len := by
  apply readPadded_congr
  intro i _ hi
  exact getD_resize file size i (by omega)

theorem readPadded_eq_slice (h : off + len ≤ file.length) :
    readPadded file off len = slice file off len := by
  apply List.ext_getElem (by simp; omega)
  intro i hi hi'
  simp only [length_readPadded] at hi
  have hs := getElem?_slice file off len i
  rw [if_pos hi, List.getElem?_eq_getElem (by simpa using hi')] at hs
  simp only [readPadded, List.getElem_map, List.getElem_range, List.getD_eq_getElem?_getD, ← hs,
    Option.getD_some]

/-- Pages of `n` bytes, numbered from 1, do not overlap. -/
theorem page_disjoint {a b : UInt32} (ha : a ≠ 0) (hb : b ≠ 0) (hab : a ≠ b) (n : Nat) :
    (a.toNat - 1) * n + n ≤ (b.toNat - 1) * n ∨ (b.toNat - 1) * n + n ≤ (a.toNat - 1) * n := by
  have hpos : ∀ {x : UInt32}, x ≠ 0 → 0 < x.toNat := by
    intro x hx
    have : x.toNat ≠ 0 := fun h0 => hx (UInt32.toNat_inj.mp h0)
    omega
  have ha' := hpos ha
  have hb' := hpos hb
  have hne : a.toNat ≠ b.toNat := fun h => hab (UInt32.toNat_inj.mp h)
  rw [← Nat.succ_mul, ← Nat.succ_mul]
  rcases Nat.lt_or_gt_of_ne hne with h | h
  · exact .inl (Nat.mul_le_mul_right n (by omega))
  · exact .inr (Nat.mul_le_mul_right n (by omega))

end Rustqlite.Foundation
