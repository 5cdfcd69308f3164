import Rustqlite.Format.Varint
import Rustqlite.Types.Error
import Rustqlite.Types.Value

/-!
# Record serial types

A serial type is the code that stands in a record header for one value: it
names the storage class and the number of body bytes.  Integers take the
shortest of six widths, and the constants 0 and 1 take none.
-/

namespace Rustqlite.Format

open Foundation

inductive TextEncoding where
  | utf8
  | utf16le
  | utf16be
  deriving DecidableEq, Repr

inductive SerialType where
  | null
  | i8
  | i16
  | i24
  | i32
  | i48
  | i64
  | f64
  | const0
  | const1
  | reserved (code : UInt64)
  | blob (len : Nat)
  | text (len : Nat)
  deriving DecidableEq, Repr

/-- One round of `decode_be_int`: make room for a byte and set it. -/
def shiftInByte (v : Int64) (b : UInt8) : Int64 := v <<< 8 ||| b.toUInt64.toInt64

def decodeBeInt (bytes : Bytes) : Int64 :=
  bytes.foldl shiftInByte (if bytes.head?.any fun b => b &&& 0x80 ≠ 0 then -1 else 0)

def encodeInt (i : Int64) : SerialType × Bytes :=
  if i = 0 then (.const0, [])
  else if i = 1 then (.const1, [])
  else if -0x80 ≤ i.toInt ∧ i.toInt ≤ 0x7f then (.i8, [i.toUInt64.toUInt8])
  else if -0x8000 ≤ i.toInt ∧ i.toInt ≤ 0x7fff then (.i16, be16 i.toInt16.toUInt16)
  else if -0x800000 ≤ i.toInt ∧ i.toInt ≤ 0x7fffff then
    (.i24, (be32 i.toInt32.toUInt32).drop 1)
  else if -0x80000000 ≤ i.toInt ∧ i.toInt ≤ 0x7fffffff then (.i32, be32 i.toInt32.toUInt32)
  else if -0x800000000000 ≤ i.toInt ∧ i.toInt ≤ 0x7fffffffffff then
    (.i48, (be64 i.toUInt64).drop 2)
  else (.i64, be64 i.toUInt64)

/-- Pair up bytes as UTF-16 code units; an odd last byte is dropped. -/
def utf16Units (encoding : TextEncoding) : Bytes → List UInt16
  | first :: second :: rest =>
      (if encoding = .utf16be then readBe16 [first, second] else readBe16 [second, first]) ::
        utf16Units encoding rest
  | _ => []

def decodeText (bytes : Bytes) : TextEncoding → String
  | .utf8 => fromUtf8Lossy bytes
  | encoding => fromUtf16Lossy (utf16Units encoding bytes)

namespace SerialType

def fromCode (code : UInt64) : SerialType :=
  if code = 0 then .null
  else if code = 1 then .i8
  else if code = 2 then .i16
  else if code = 3 then .i24
  else if code = 4 then .i32
  else if code = 5 then .i48
  else if code = 6 then .i64
  else if code = 7 then .f64
  else if code = 8 then .const0
  else if code = 9 then .const1
  else if code = 10 ∨ code = 11 then .reserved code
  else if code % 2 = 0 then .blob ((code - 12) / 2).toNat
  else .text ((code - 13) / 2).toNat

def code : SerialType → UInt64
  | .null => 0
  | .i8 => 1
  | .i16 => 2
  | .i24 => 3
  | .i32 => 4
  | .i48 => 5
  | .i64 => 6
  | .f64 => 7
  | .const0 => 8
  | .const1 => 9
  | .reserved n => n
  | .blob len => 12 + UInt64.ofNat len * 2
  | .text len => 13 + UInt64.ofNat len * 2

def byteLen : SerialType → Nat
  | .null | .const0 | .const1 | .reserved _ => 0
  | .i8 => 1
  | .i16 => 2
  | .i24 => 3
  | .i32 => 4
  | .i48 => 6
  | .i64 | .f64 => 8
  | .blob len | .text len => len

def decode (st : SerialType) (bytes : Bytes) (encoding : TextEncoding) : Result Value :=
  match st with
  | .null => .ok .null
  | .const0 => .ok (.int 0)
  | .const1 => .ok (.int 1)
  | .i8 | .i16 | .i24 | .i32 | .i48 | .i64 => .ok (.int (decodeBeInt bytes))
  | .f64 => .ok (.real (readBe64 bytes))
  | .blob _ => .ok (.blob bytes)
  | .text _ => .ok (.text (decodeText bytes encoding))
  | .reserved n => .error (.corrupt s!"reserved serial type {n}")

def encode : Value → SerialType × Bytes
  | .null => (.null, [])
  | .int i => encodeInt i
  | .real bits => (.f64, be64 bits)
  | .text s => (.text (utf8Bytes s).length, utf8Bytes s)
  | .blob b => (.blob b.length, b)

end SerialType

/-! ## Integers come back with their sign -/

theorem toNat_shiftInByte (v : Int64) (b : UInt8) :
    (shiftInByte v b).toUInt64.toNat = (v.toUInt64.toNat * 256 + b.toNat) % 2 ^ 64 := by
  have hb : b.toNat < 2 ^ 8 := b.toNat_lt
  have hv : v.toUInt64.toNat < 2 ^ 64 := v.toUInt64.toNat_lt
  have hshift : (v.toUInt64 <<< 8).toNat = 2 ^ 8 * (v.toUInt64.toNat % 2 ^ 56) := by
    rw [UInt64.toNat_shiftLeft, Nat.shiftLeft_eq]
    simp only [UInt64.reduceToNat, Nat.reduceMod]
    omega
  have hcast : (shiftInByte v b).toUInt64 = v.toUInt64 <<< 8 ||| b.toUInt64 := rfl
  rw [hcast, UInt64.toNat_or, hshift, UInt8.toNat_toUInt64, ← Nat.two_pow_add_eq_or_of_lt hb]
  omega

theorem toNat_foldl_shiftInByte (bytes : Bytes) (v : Int64) :
    (bytes.foldl shiftInByte v).toUInt64.toNat =
      (v.toUInt64.toNat * 256 ^ bytes.length + beNat bytes) % 2 ^ 64 := by
  induction bytes generalizing v with
  | nil =>
      have hv : v.toUInt64.toNat < 2 ^ 64 := v.toUInt64.toNat_lt
      simp only [List.foldl_nil, List.length_nil, pow_zero, mul_one, beNat]
      omega
  | cons b bytes ih =>
      rw [List.foldl_cons, ih, toNat_shiftInByte, beNat, List.length_cons, pow_succ',
        Nat.add_mod, Nat.mod_mul_mod, ← Nat.add_mod]
      congr 1
      ring

theorem eq_of_toNat_toUInt64_eq {i j : Int64} (h : i.toUInt64.toNat = j.toUInt64.toNat) :
    i = j := by
  obtain ⟨u⟩ := i
  obtain ⟨w⟩ := j
  exact congrArg Int64.ofUInt64 (UInt64.toNat_inj.mp h)

theorem toInt_eq_toNat (i : Int64) :
    i.toInt = if i.toUInt64.toNat < 2 ^ 63 then (i.toUInt64.toNat : Int)
      else (i.toUInt64.toNat : Int) - 2 ^ 64 := by
  have h := BitVec.toInt_eq_toNat_cond i.toBitVec
  have hint : i.toInt = i.toBitVec.toInt := rfl
  have hnat : i.toUInt64.toNat = i.toBitVec.toNat := rfl
  rw [hint, h, hnat]
  split <;> split <;> omega

theorem decodeBeInt_beBytes (i : Int64) (width : Nat) (hw : width < 8)
    (hlo : -(128 * 256 ^ width : Nat) ≤ i.toInt) (hhi : i.toInt < (128 * 256 ^ width : Nat)) :
    decodeBeInt (beBytes (width + 1) i.toUInt64.toNat) = i := by
  have hint := toInt_eq_toNat i
  have hlt : i.toUInt64.toNat < 2 ^ 64 := i.toUInt64.toNat_lt
  generalize hu : i.toUInt64.toNat = u at hint hlt
  generalize hP : (256 : Nat) ^ width = P at hlo hhi
  have hQ : 256 * P * 256 ^ (7 - width) = 2 ^ 64 := by
    rw [← hP, ← pow_succ', ← pow_add, show width + 1 + (7 - width) = 8 by omega]
    norm_num
  generalize 256 ^ (7 - width) = Q at hQ
  have hPpos : 0 < P := hP ▸ Nat.pow_pos (by omega)
  have hvalue : beNat (beBytes (width + 1) u) = u % (256 * P) := by
    rw [beNat_beBytes, pow_succ', hP]
  have hhead : (UInt8.ofNat (u / P)).toNat = u % (256 * P) / P := by
    rw [mul_comm, Nat.mod_mul_right_div_self]
    exact UInt8.toNat_ofNat'
  have hlow : u % (256 * P) < 256 * P := Nat.mod_lt _ (by omega)
  -- the flag of the first byte is the sign
  have hflag : ((beBytes (width + 1) u).head?.any fun b => b &&& 0x80 ≠ 0) =
      decide (128 * P ≤ u % (256 * P)) := by
    simp only [beBytes, List.head?_cons, Option.any_some, hP]
    rw [decide_eq_decide, ne_eq, and_80_eq_zero_iff, hhead, not_lt,
      Nat.le_div_iff_mul_le hPpos]
  apply eq_of_toNat_toUInt64_eq
  rw [decodeBeInt, toNat_foldl_shiftInByte, hvalue, length_beBytes, pow_succ', hP, hflag, hu]
  by_cases hneg : i.toInt < 0
  · obtain ⟨a, ha⟩ : ∃ a : Nat, i.toInt = -(a : Int) := ⟨i.toInt.natAbs, by omega⟩
    have hua : u + a = 2 ^ 64 := by
      split at hint <;> omega
    have hmod : u % (256 * P) = 256 * P - a := by
      obtain ⟨q, rfl⟩ : ∃ q, Q = q + 1 := ⟨Q - 1, by
        have : Q ≠ 0 := by rintro rfl; omega
        omega⟩
      have hsplit : u = 256 * P - a + 256 * P * q := by
        rw [mul_add, mul_one] at hQ
        omega
      rw [hsplit, Nat.add_mul_mod_self_left, Nat.mod_eq_of_lt (by omega)]
    have hset : 128 * P ≤ u % (256 * P) := by omega
    rw [if_pos (decide_eq_true hset), hmod]
    rw [show ((-1 : Int64).toUInt64.toNat) = 2 ^ 64 - 1 by decide]
    have hsum : (2 ^ 64 - 1) * (256 * P) + (256 * P - a) = u + 2 ^ 64 * (256 * P - 1) := by
      zify [show a ≤ 256 * P by omega, show 1 ≤ 256 * P by omega, show (1 : Nat) ≤ 2 ^ 64 by omega]
      zify at hua
      linarith
    rw [hsum, Nat.add_mul_mod_self_left, Nat.mod_eq_of_lt hlt]
  · have hui : (u : Int) = i.toInt := by
      split at hint <;> omega
    have hmod : u % (256 * P) = u := Nat.mod_eq_of_lt (by omega)
    have hclear : ¬ 128 * P ≤ u % (256 * P) := by omega
    rw [if_neg (by simpa using hclear), hmod]
    rw [show ((0 : Int64).toUInt64.toNat) = 0 by decide, Nat.zero_mul, Nat.zero_add,
      Nat.mod_eq_of_lt hlt]

theorem toNat_toInt16_toUInt16 (i : Int64) :
    i.toInt16.toUInt16.toNat = i.toUInt64.toNat % 2 ^ 16 := by
  have h : i.toInt16.toUInt16.toBitVec = BitVec.signExtend 16 i.toBitVec :=
    Int64.toBitVec_toInt16 i
  rw [← UInt16.toNat_toBitVec, h, BitVec.signExtend_eq_setWidth_of_le _ (by omega),
    BitVec.toNat_setWidth]
  rfl

theorem toNat_toInt32_toUInt32 (i : Int64) :
    i.toInt32.toUInt32.toNat = i.toUInt64.toNat % 2 ^ 32 := by
  have h : i.toInt32.toUInt32.toBitVec = BitVec.signExtend 32 i.toBitVec :=
    Int64.toBitVec_toInt32 i
  rw [← UInt32.toNat_toBitVec, h, BitVec.signExtend_eq_setWidth_of_le _ (by omega),
    BitVec.toNat_setWidth]
  rfl

/-- Every width that `encode_int` picks holds the low bytes of the integer. -/
theorem encodeInt_body (i : Int64) :
    (encodeInt i).2 = beBytes (encodeInt i).1.byteLen i.toUInt64.toNat := by
  have h8 : [i.toUInt64.toUInt8] = beBytes 1 i.toUInt64.toNat := by
    simp only [beBytes, pow_zero, Nat.div_one, List.cons.injEq, and_true]
    apply UInt8.toNat_inj.mp
    simp
  have h16 : be16 i.toInt16.toUInt16 = beBytes 2 i.toUInt64.toNat := by
    rw [be16, toNat_toInt16_toUInt16]
    exact beBytes_mod 2 _
  have h32 : be32 i.toInt32.toUInt32 = beBytes 4 i.toUInt64.toNat := by
    rw [be32, toNat_toInt32_toUInt32]
    exact beBytes_mod 4 _
  unfold encodeInt
  split_ifs
  · rfl
  · rfl
  · exact h8
  · exact h16
  · simp only [h32, drop_beBytes, SerialType.byteLen]
  · exact h32
  · simp only [be64, drop_beBytes, SerialType.byteLen]
  · rfl

theorem decode_encodeInt (i : Int64) (encoding : TextEncoding) :
    (encodeInt i).1.decode (encodeInt i).2 encoding = .ok (.int i) := by
  have hbody := encodeInt_body i
  unfold encodeInt at hbody ⊢
  split_ifs at hbody ⊢ with h0 h1 h8 h16 h24 h32 h48
  · simp [SerialType.decode, h0]
  · simp [SerialType.decode, h1]
  all_goals
    simp only [SerialType.byteLen] at hbody
    simp only [SerialType.decode, hbody]
    rw [decodeBeInt_beBytes i _ (by omega)]
  all_goals
    have hint := toInt_eq_toNat i
    have hlt : i.toUInt64.toNat < 2 ^ 64 := i.toUInt64.toNat_lt
    norm_num
    split at hint <;> omega

/-! ## Values come back with their storage class -/

def FitsSerialCode (v : Value) : Prop := 2 * v.heapBytes + 13 < 2 ^ 64

theorem byteLen_encode (v : Value) :
    (SerialType.encode v).1.byteLen = (SerialType.encode v).2.length := by
  cases v with
  | null => rfl
  | int i => simp [SerialType.encode, encodeInt_body]
  | real bits => simp [SerialType.encode, SerialType.byteLen]
  | text s => rfl
  | blob b => rfl

private theorem toNat_lengthCode (k len : Nat) (hk : k = 12 ∨ k = 13)
    (h : 2 * len + 13 < 2 ^ 64) :
    (UInt64.ofNat k + UInt64.ofNat len * 2).toNat = k + 2 * len := by
  rw [UInt64.toNat_add, UInt64.toNat_mul, UInt64.toNat_ofNat', UInt64.toNat_ofNat']
  simp only [UInt64.reduceToNat]
  omega

private theorem fromCode_of_large {code : UInt64} (h : 12 ≤ code.toNat) :
    SerialType.fromCode code =
      if code.toNat % 2 = 0 then .blob ((code.toNat - 12) / 2)
      else .text ((code.toNat - 13) / 2) := by
  have hne : ∀ k : UInt64, k.toNat < 12 → code ≠ k := by
    rintro k hk rfl
    omega
  have hlt : code.toNat < 2 ^ 64 := code.toNat_lt
  have hmod : code % 2 = 0 ↔ code.toNat % 2 = 0 := by
    rw [← UInt64.toNat_inj, UInt64.toNat_mod]
    rfl
  unfold SerialType.fromCode
  rw [if_neg (hne 0 (by decide)), if_neg (hne 1 (by decide)), if_neg (hne 2 (by decide)),
    if_neg (hne 3 (by decide)), if_neg (hne 4 (by decide)), if_neg (hne 5 (by decide)),
    if_neg (hne 6 (by decide)), if_neg (hne 7 (by decide)), if_neg (hne 8 (by decide)),
    if_neg (hne 9 (by decide)), if_neg (not_or.mpr ⟨hne 10 (by decide), hne 11 (by decide)⟩)]
  by_cases heven : code.toNat % 2 = 0
  · rw [if_pos (hmod.mpr heven), if_pos heven, UInt64.toNat_div,
      UInt64.toNat_sub_of_le _ _ (UInt64.le_iff_toNat_le.mpr (by simpa using h))]
    rfl
  · rw [if_neg (mt hmod.mp heven), if_neg heven, UInt64.toNat_div,
      UInt64.toNat_sub_of_le _ _ (UInt64.le_iff_toNat_le.mpr (by
        simp only [UInt64.reduceToNat]
        omega))]
    rfl

theorem fromCode_code_encode {v : Value} (hv : FitsSerialCode v) :
    SerialType.fromCode (SerialType.encode v).1.code = (SerialType.encode v).1 := by
  unfold FitsSerialCode at hv
  cases v with
  | null => rfl
  | int i =>
      simp only [SerialType.encode, encodeInt]
      split_ifs <;> rfl
  | real bits => rfl
  | text s =>
      have hcode := toNat_lengthCode 13 (utf8Bytes s).length (.inr rfl) hv
      simp only [SerialType.encode, SerialType.code]
      change SerialType.fromCode (UInt64.ofNat 13 + _) = _
      rw [fromCode_of_large (by omega), hcode, if_neg (by omega)]
      congr 1
      omega
  | blob b =>
      have hcode := toNat_lengthCode 12 b.length (.inl rfl) hv
      simp only [SerialType.encode, SerialType.code]
      change SerialType.fromCode (UInt64.ofNat 12 + _) = _
      rw [fromCode_of_large (by omega), hcode, if_pos (by omega)]
      congr 1
      omega

def readBack (encoding : TextEncoding) : Value → Value
  | .text s => .text (decodeText (utf8Bytes s) encoding)
  | v => v

theorem readBack_utf8 (v : Value) : readBack .utf8 v = v := by
  cases v <;> simp [readBack, decodeText]

theorem decode_encode (v : Value) (encoding : TextEncoding) :
    (SerialType.encode v).1.decode (SerialType.encode v).2 encoding =
      .ok (readBack encoding v) := by
  cases v with
  | null => rfl
  | int i => exact decode_encodeInt i encoding
  | real bits => simp [SerialType.encode, SerialType.decode, readBack]
  | text s => rfl
  | blob b => rfl

end Rustqlite.Format
