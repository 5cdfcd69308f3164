import Rustqlite.Format.Record
import Rustqlite.Types.Checked

/-!
# Decoding any bytes

The decoder of records once more, with every slice, addition and assertion that
could panic.  None of them does, whatever the bytes are, and what comes out is
what comes out of the plain decoder.
-/

namespace Rustqlite.Format

open Foundation Checked

/-- A `&[u8]`, which is never longer than half of the address space. -/
structure ByteSlice where
  bytes : Bytes
  fits : bytes.length < 2 ^ 63

/-! ## Serial types -/

namespace SerialType

def fromCodeChecked (code : UInt64) : Result SerialType :=
  if code < 12 then .ok (fromCode code)
  else if code % 2 = 0 then do
    let n ← subU64 code 12
    return .blob (n / 2).toNat
  else do
    let n ← subU64 code 13
    return .text (n / 2).toNat

def lengthAssertion : Error := .panic "assertion failed: bytes.len() == self.byte_len()"

def copyMismatch : Error := .panic "source slice length does not match destination slice length"

def decodeChecked (st : SerialType) (bytes : Bytes) (encoding : TextEncoding) : Result Value :=
  if bytes.length ≠ st.byteLen then .error lengthAssertion
  else
    match st with
    | .f64 => if bytes.length ≠ 8 then .error copyMismatch else st.decode bytes encoding
    | _ => st.decode bytes encoding

theorem fromCode_of_le {code : UInt64} (h : 12 ≤ code) :
    fromCode code =
      if code % 2 = 0 then .blob ((code - 12) / 2).toNat else .text ((code - 13) / 2).toNat := by
  have hne : ∀ n < 12, code ≠ n := fun n hn heq => absurd hn (heq ▸ UInt64.not_lt.mpr h)
  unfold fromCode
  rw [if_neg (hne 0 (by decide)), if_neg (hne 1 (by decide)), if_neg (hne 2 (by decide)),
    if_neg (hne 3 (by decide)), if_neg (hne 4 (by decide)), if_neg (hne 5 (by decide)),
    if_neg (hne 6 (by decide)), if_neg (hne 7 (by decide)), if_neg (hne 8 (by decide)),
    if_neg (hne 9 (by decide)), if_neg (not_or.mpr ⟨hne 10 (by decide), hne 11 (by decide)⟩)]

/-- A length is taken off a code that is large enough. -/
theorem fromCodeChecked_eq (code : UInt64) : fromCodeChecked code = .ok (fromCode code) := by
  unfold fromCodeChecked
  split_ifs with hsmall heven
  · rfl
  · rw [fromCode_of_le (UInt64.not_lt.mp hsmall), if_pos heven,
      subU64_ok (UInt64.not_lt.mp hsmall)]
    rfl
  · have hle : 13 ≤ code := by
      rw [UInt64.not_lt, UInt64.le_iff_toNat_le] at hsmall
      rw [← UInt64.toNat_inj, UInt64.toNat_mod] at heven
      rw [UInt64.le_iff_toNat_le]
      simp only [UInt64.reduceToNat] at *
      omega
    rw [fromCode_of_le (UInt64.not_lt.mp hsmall), if_neg heven, subU64_ok hle]
    rfl

theorem decodeChecked_eq {st : SerialType} {bytes : Bytes} (h : bytes.length = st.byteLen)
    (encoding : TextEncoding) : st.decodeChecked bytes encoding = st.decode bytes encoding := by
  unfold decodeChecked
  rw [if_neg (not_not.mpr h)]
  cases st with
  | f64 => exact if_neg (not_not.mpr h)
  | _ => rfl

theorem noPanic_decode (st : SerialType) (bytes : Bytes) (encoding : TextEncoding) :
    (st.decode bytes encoding).NoPanic := by
  cases st with
  | reserved n => exact Result.noPanic_error (by simp [Error.corrupt])
  | _ => exact Result.noPanic_ok _

end SerialType

/-! ## Records -/

def endless : Error := .panic "the loop does not end"

def decodeColumnsChecked (payload : Bytes) (headerLen : Nat) (encoding : TextEncoding) :
    Nat → Nat → Nat → List Value → Result (List Value)
  | 0, headerPos, _, values => if headerPos < headerLen then .error endless else .ok values
  | fuel + 1, headerPos, bodyPos, values =>
      if headerPos < headerLen then do
        let rest ← sliceFrom payload headerPos
        match readVarint rest with
        | none => .error (.corrupt "record serial-type varint")
        | some (code, k) =>
            let headerPos ← addUsize headerPos k
            let st ← SerialType.fromCodeChecked code
            let stop := bodyPos + st.byteLen
            if 2 ^ 64 ≤ stop then .error (.corrupt "record body overflow")
            else if payload.length < stop then
              .error (.corrupt "record body shorter than serial types imply")
            else
              let body ← sliceRange payload bodyPos stop
              let v ← st.decodeChecked body encoding
              decodeColumnsChecked payload headerLen encoding fuel headerPos stop (values ++ [v])
      else .ok values

def decodeRecordChecked (payload : Bytes) (encoding : TextEncoding) : Result (List Value) :=
  match readVarint payload with
  | none => .error (.corrupt "record header length varint")
  | some (headerLen, n0) =>
      let headerLen := headerLen.toNat
      if payload.length < headerLen ∨ headerLen < n0 then
        .error (.corrupt "record header length out of range")
      else decodeColumnsChecked payload headerLen encoding headerLen n0 headerLen []

theorem readVarintFrom_length {buf : Bytes} {left : Nat} {result code : UInt64} {k : Nat}
    (h : readVarintFrom buf left result = some (code, k)) (hleft : left ≤ 8) :
    1 ≤ k ∧ k ≤ buf.length := by
  induction left generalizing result with
  | zero =>
      unfold readVarintFrom at h
      split at h
      · cases h
      · next hat =>
          cases h
          have := (List.getElem?_eq_some_iff.mp hat).1
          omega
  | succ left ih =>
      unfold readVarintFrom at h
      split at h
      · cases h
      · next hat =>
          dsimp only at h
          split_ifs at h
          · cases h
            have := (List.getElem?_eq_some_iff.mp hat).1
            omega
          · exact ih h (by omega)

theorem readVarint_length {buf : Bytes} {code : UInt64} {k : Nat}
    (h : readVarint buf = some (code, k)) : 1 ≤ k ∧ k ≤ buf.length :=
  readVarintFrom_length h (le_refl 8)

/--
The loop does not panic, and does what the plain one does: the header is read
in front of its end, the body behind it, and both within the payload.
-/
theorem decodeColumnsChecked_spec {payload : Bytes} (hpayload : payload.length < 2 ^ 63)
    {headerLen : Nat} (hheader : headerLen ≤ payload.length) (encoding : TextEncoding) :
    ∀ fuel headerPos bodyPos values, headerLen ≤ headerPos + fuel → bodyPos ≤ payload.length →
      (decodeColumnsChecked payload headerLen encoding fuel headerPos bodyPos values).NoPanic ∧
      decodeColumnsChecked payload headerLen encoding fuel headerPos bodyPos values =
        decodeColumns payload headerLen encoding fuel headerPos bodyPos values := by
  intro fuel
  induction fuel with
  | zero =>
      intro headerPos bodyPos values hfuel _
      unfold decodeColumnsChecked decodeColumns
      rw [if_neg (by omega)]
      exact ⟨Result.noPanic_ok values, rfl⟩
  | succ fuel ih =>
      intro headerPos bodyPos values hfuel hbody
      unfold decodeColumnsChecked decodeColumns
      split_ifs with hpos
      · rw [sliceFrom_ok (by omega), Result.ok_bind]
        cases hread : readVarint (payload.drop headerPos) with
        | none => exact ⟨Result.noPanic_error (by decide), rfl⟩
        | some found =>
            obtain ⟨code, k⟩ := found
            obtain ⟨hk, hle⟩ := readVarint_length hread
            rw [List.length_drop] at hle
            dsimp only
            rw [addUsize_ok (by omega), Result.ok_bind, SerialType.fromCodeChecked_eq,
              Result.ok_bind]
            split_ifs with hover hshort
            · exact ⟨Result.noPanic_error (by decide), rfl⟩
            · exact ⟨Result.noPanic_error (by decide), rfl⟩
            · have hstop : bodyPos ≤ bodyPos + (SerialType.fromCode code).byteLen := by omega
              have hslice : (slice payload bodyPos (SerialType.fromCode code).byteLen).length =
                  (SerialType.fromCode code).byteLen := by
                rw [length_slice]
                omega
              rw [sliceRange_ok hstop (by omega), Result.ok_bind, Nat.add_sub_cancel_left,
                SerialType.decodeChecked_eq hslice]
              have hvalue := (SerialType.fromCode code).noPanic_decode
                (slice payload bodyPos (SerialType.fromCode code).byteLen) encoding
              cases hv : (SerialType.fromCode code).decode
                  (slice payload bodyPos (SerialType.fromCode code).byteLen) encoding with
              | error e => exact ⟨Result.noPanic_error (hvalue e hv), rfl⟩
              | ok v => exact ih _ _ _ (by omega) (by omega)
      · exact ⟨Result.noPanic_ok values, rfl⟩

theorem decodeRecordChecked_spec (payload : ByteSlice) (encoding : TextEncoding) :
    (decodeRecordChecked payload.bytes encoding).NoPanic ∧
      decodeRecordChecked payload.bytes encoding = decodeRecord payload.bytes encoding := by
  unfold decodeRecordChecked decodeRecord
  cases readVarint payload.bytes with
  | none => exact ⟨Result.noPanic_error (by decide), rfl⟩
  | some found =>
      dsimp only
      split_ifs with hrange
      · exact ⟨Result.noPanic_error (by decide), rfl⟩
      · have hheader : found.1.toNat ≤ payload.bytes.length := by omega
        exact decodeColumnsChecked_spec payload.fits hheader encoding _ _ _ _ (by omega) hheader

end Rustqlite.Format
