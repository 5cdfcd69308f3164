import Mathlib

/-!
# Byte strings

Byte strings are lists of `UInt8`.  This file has the big-endian codec used by
every on-disk structure, the sub-slice `slice`, and the in-place overwrite
`splice` (the effect of `copy_from_slice` on a sub-range).  All of them are
characterised by the byte found at each index, so that a later proof about a
layout is a comparison of indices.
-/

namespace Rustqlite.Foundation

abbrev Bytes := List UInt8

/-! ## Big-endian integers -/

/-- The `width` low-order bytes of `n`, most significant first. -/
def beBytes : Nat → Nat → Bytes
  | 0, _ => []
  | width + 1, n => UInt8.ofNat (n / 256 ^ width) :: beBytes width n

def beNat : Bytes → Nat
  | [] => 0
  | b :: bs => b.toNat * 256 ^ bs.length + beNat bs

example : beNat (beBytes 2 300) = 300 := by simp [beBytes, beNat]

@[simp] theorem length_beBytes (width n : Nat) :
    (beBytes width n).length = width := by
  induction width with
  | zero => rfl
  | succ width ih => simp [beBytes, ih]

theorem beNat_beBytes (width n : Nat) :
    beNat (beBytes width n) = n % 256 ^ width := by
  induction width with
  | zero => simp [beBytes, beNat, Nat.mod_one]
  | succ width ih =>
      have hsplit : n % 256 ^ (width + 1) =
          n % 256 ^ width + 256 ^ width * (n / 256 ^ width % 256) := by
        rw [pow_succ, Nat.mod_mul]
      have htop : (UInt8.ofNat (n / 256 ^ width)).toNat = n / 256 ^ width % 256 :=
        UInt8.toNat_ofNat'
      rw [beBytes, beNat, length_beBytes, ih, htop, hsplit]
      ring

variable {n off len off' : Nat} {data src : Bytes}

theorem beNat_beBytes_of_lt {width : Nat} (h : n < 256 ^ width) : beNat (beBytes width n) = n := by
  rw [beNat_beBytes, Nat.mod_eq_of_lt h]

theorem beBytes_mod (width n : Nat) :
    beBytes width (n % 256 ^ width) = beBytes width n := by
  suffices h : ∀ k ≤ width, beBytes k (n % 256 ^ width) = beBytes k n from h width le_rfl
  intro k
  induction k with
  | zero => simp [beBytes]
  | succ k ih =>
      intro hk
      simp only [beBytes, ih (by omega)]
      congr 1
      have hsplit : (256 : Nat) ^ width = 256 ^ k * 256 ^ (width - k) := by
        rw [← pow_add]; congr 1; omega
      rw [hsplit, Nat.mod_mul_right_div_self]
      apply UInt8.toNat_inj.mp
      simp only [UInt8.toNat_ofNat']
      have hdvd : 256 ∣ 256 ^ (width - k) := dvd_pow_self 256 (by omega)
      exact Nat.mod_mod_of_dvd _ hdvd

theorem drop_beBytes (width n k : Nat) :
    (beBytes width n).drop k = beBytes (width - k) n := by
  induction width generalizing k with
  | zero => simp [beBytes]
  | succ width ih =>
      cases k with
      | zero => rfl
      | succ k => simp [beBytes, ih]

def be16 (x : UInt16) : Bytes := beBytes 2 x.toNat

def be32 (x : UInt32) : Bytes := beBytes 4 x.toNat

def be64 (x : UInt64) : Bytes := beBytes 8 x.toNat

/-- Read a big-endian `u16` from the front of `b`. -/
def readBe16 (b : Bytes) : UInt16 := UInt16.ofNat (beNat (b.take 2))

/-- Read a big-endian `u32` from the front of `b`. -/
def readBe32 (b : Bytes) : UInt32 := UInt32.ofNat (beNat (b.take 4))

/-- Read a big-endian `u64` from the front of `b`. -/
def readBe64 (b : Bytes) : UInt64 := UInt64.ofNat (beNat (b.take 8))

@[simp] theorem length_be16 (x : UInt16) : (be16 x).length = 2 := length_beBytes _ _

@[simp] theorem length_be32 (x : UInt32) : (be32 x).length = 4 := length_beBytes _ _

@[simp] theorem length_be64 (x : UInt64) : (be64 x).length = 8 := length_beBytes _ _

@[simp] theorem readBe16_be16_append (x : UInt16) (rest : Bytes) :
    readBe16 (be16 x ++ rest) = x := by
  have hx : x.toNat < 256 ^ 2 := x.toNat_lt
  rw [readBe16, List.take_left' (length_be16 x), be16, beNat_beBytes_of_lt hx]
  simp

@[simp] theorem readBe32_be32_append (x : UInt32) (rest : Bytes) :
    readBe32 (be32 x ++ rest) = x := by
  have hx : x.toNat < 256 ^ 4 := x.toNat_lt
  rw [readBe32, List.take_left' (length_be32 x), be32, beNat_beBytes_of_lt hx]
  simp

@[simp] theorem readBe64_be64_append (x : UInt64) (rest : Bytes) :
    readBe64 (be64 x ++ rest) = x := by
  have hx : x.toNat < 256 ^ 8 := x.toNat_lt
  rw [readBe64, List.take_left' (length_be64 x), be64, beNat_beBytes_of_lt hx]
  simp

@[simp] theorem readBe32_be32 (x : UInt32) : readBe32 (be32 x) = x := by
  simpa using readBe32_be32_append x []

@[simp] theorem readBe64_be64 (x : UInt64) : readBe64 (be64 x) = x := by
  simpa using readBe64_be64_append x []

@[simp] theorem drop_be16_of_le (x : UInt16) (h : 2 ≤ n) : (be16 x).drop n = [] :=
  List.drop_eq_nil_of_le (by simpa using h)

@[simp] theorem drop_be32_of_le (x : UInt32) (h : 4 ≤ n) : (be32 x).drop n = [] :=
  List.drop_eq_nil_of_le (by simpa using h)

/-! ## Slices -/

def slice (data : Bytes) (off len : Nat) : Bytes := (data.drop off).take len

@[simp] theorem length_slice (data : Bytes) (off len : Nat) :
    (slice data off len).length = min len (data.length - off) := by
  simp [slice]

theorem getElem?_slice (data : Bytes) (off len i : Nat) :
    (slice data off len)[i]? = if i < len then data[off + i]? else none := by
  simp [slice, List.getElem?_take, List.getElem?_drop]

theorem slice_eq_of_getElem? {a b : Bytes} (h : ∀ i, off ≤ i → i < off + len → a[i]? = b[i]?) :
    slice a off len = slice b off len := by
  apply List.ext_getElem?
  intro i
  simp only [getElem?_slice]
  by_cases hi : i < len
  · simp only [hi, if_true]
    exact h (off + i) (by omega) (by omega)
  · simp [hi]

theorem slice_append_left (a b : Bytes) (h : off + len ≤ a.length) :
    slice (a ++ b) off len = slice a off len := by
  apply slice_eq_of_getElem?
  intro i _ hi
  exact List.getElem?_append_left (by omega)

theorem slice_append_right (a b : Bytes) (h : a.length ≤ off) :
    slice (a ++ b) off len = slice b (off - a.length) len := by
  rw [slice, slice, List.drop_append, List.drop_of_length_le h, List.nil_append]

theorem slice_zero_of_length (h : data.length = len) : slice data 0 len = data := by
  simp [slice, ← h]

theorem slice_slice (data : Bytes) {len' : Nat} (h : off' + len' ≤ len) :
    slice (slice data off len) off' len' = slice data (off + off') len' := by
  apply List.ext_getElem?
  intro i
  simp only [getElem?_slice]
  by_cases hi : i < len'
  · simp [hi, show off' + i < len by omega, Nat.add_assoc]
  · simp [hi]

/-! ## Overwriting a sub-range -/

def splice (data : Bytes) (off : Nat) (src : Bytes) : Bytes :=
  data.take off ++ src ++ data.drop (off + src.length)

theorem getElem?_splice (h : off ≤ data.length) (i : Nat) :
    (splice data off src)[i]? =
      if i < off then data[i]?
      else if i < off + src.length then src[i - off]?
      else data[i]? := by
  have htake : (data.take off).length = off := by simp [h]
  unfold splice
  by_cases h1 : i < off
  · simp [h1, List.getElem?_append, h]
  · by_cases h2 : i < off + src.length
    · rw [List.getElem?_append_left (by simp [htake]; omega),
        List.getElem?_append_right (by omega), htake]
      simp [h1, h2]
    · rw [List.getElem?_append_right (by simp [htake]; omega), List.getElem?_drop]
      simp only [h1, h2, if_false]
      congr 1
      simp [htake]
      omega

theorem length_splice (h : off + src.length ≤ data.length) :
    (splice data off src).length = data.length := by
  simp [splice]
  omega

theorem slice_splice_same (h : off ≤ data.length) :
    slice (splice data off src) off src.length = src := by
  apply List.ext_getElem?
  intro i
  rw [getElem?_slice, getElem?_splice h]
  by_cases hi : i < src.length
  · simp [hi]
  · simp [hi]

theorem slice_splice_of_disjoint (h : off ≤ data.length)
    (hd : off' + len ≤ off ∨ off + src.length ≤ off') :
    slice (splice data off src) off' len = slice data off' len := by
  apply slice_eq_of_getElem?
  intro i hi hi'
  rw [getElem?_splice h]
  split
  · rfl
  · split
    · omega
    · rfl

end Rustqlite.Foundation
