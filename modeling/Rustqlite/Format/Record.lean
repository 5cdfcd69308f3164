import Rustqlite.Format.SerialType

/-!
# The record format

A record is a header followed by a body.  The header starts with a varint that
holds the length of the whole header, that varint included, and goes on with
one serial-type code a value; the body holds the values back to back.
-/

namespace Rustqlite.Format

open Foundation

/--
The column loop of `decode_record`.  Each round reads at least one header byte,
so `fuel` starts at the header length.
-/
def decodeColumns (payload : Bytes) (headerLen : Nat) (encoding : TextEncoding) :
    Nat → Nat → Nat → List Value → Result (List Value)
  | 0, _, _, values => .ok values
  | fuel + 1, headerPos, bodyPos, values =>
      if headerPos < headerLen then
        match readVarint (payload.drop headerPos) with
        | none => .error (.corrupt "record serial-type varint")
        | some (code, k) =>
            let st := SerialType.fromCode code
            let stop := bodyPos + st.byteLen
            if 2 ^ 64 ≤ stop then .error (.corrupt "record body overflow")
            else if payload.length < stop then
              .error (.corrupt "record body shorter than serial types imply")
            else
              match st.decode (slice payload bodyPos st.byteLen) encoding with
              | .error e => .error e
              | .ok v =>
                  decodeColumns payload headerLen encoding fuel (headerPos + k) stop
                    (values ++ [v])
      else .ok values

def decodeRecord (payload : Bytes) (encoding : TextEncoding) : Result (List Value) :=
  match readVarint payload with
  | none => .error (.corrupt "record header length varint")
  | some (headerLen, n0) =>
      let headerLen := headerLen.toNat
      if payload.length < headerLen ∨ headerLen < n0 then
        .error (.corrupt "record header length out of range")
      else decodeColumns payload headerLen encoding headerLen n0 headerLen []

def serialBytes (values : List Value) : Nat :=
  (values.map fun v => varintLen (SerialType.encode v).1.code).sum

/--
Widen the header-length varint until it holds a length that counts it.  No
varint is wider than nine bytes, so eight rounds from width one are enough.
-/
def growHeaderVarint (serial : Nat) : Nat → Nat → Nat
  | 0, hv => hv
  | fuel + 1, hv =>
      if hv < varintLen (UInt64.ofNat (serial + hv)) then
        growHeaderVarint serial fuel (hv + 1)
      else hv

def recordHeaderLen (values : List Value) : Nat :=
  serialBytes values + growHeaderVarint (serialBytes values) 8 1

def encodeRecord (values : List Value) : Bytes :=
  let columns := values.map SerialType.encode
  writeVarint (UInt64.ofNat (recordHeaderLen values)) ++
    columns.flatMap (fun (st, _) => writeVarint st.code) ++
    columns.flatMap (fun (_, body) => body)

example : encodeRecord [.int 7, .null] = [0x03, 0x01, 0x00, 0x07] := by decide

/-! ## The header length counts itself -/

/--
The loop stops at a width that holds the length it stands for and that one
byte less would not have held.
-/
theorem growHeaderVarint_spec (serial : Nat) (hserial : serial + 9 < 2 ^ 64) :
    ∀ fuel hv, fuel + hv = 9 → hv ≤ varintLen (UInt64.ofNat (serial + hv)) →
      varintLen (UInt64.ofNat (serial + growHeaderVarint serial fuel hv)) =
        growHeaderVarint serial fuel hv := by
  intro fuel
  induction fuel with
  | zero =>
      intro hv hfuel hle
      obtain rfl : hv = 9 := by omega
      exact le_antisymm (varintLen_le_nine _) hle
  | succ fuel ih =>
      intro hv hfuel hle
      unfold growHeaderVarint
      split_ifs with hlt
      · refine ih (hv + 1) (by omega) (hlt.trans_le (varintLen_mono ?_))
        rw [UInt64.toNat_ofNat', UInt64.toNat_ofNat']
        omega
      · exact le_antisymm (not_lt.mp hlt) hle

theorem serialBytes_le (values : List Value) : serialBytes values ≤ 9 * values.length := by
  induction values with
  | nil => simp [serialBytes]
  | cons v values ih =>
      have := varintLen_le_nine (SerialType.encode v).1.code
      simp only [serialBytes, List.map_cons, List.sum_cons, List.length_cons] at ih ⊢
      omega

theorem length_writeVarint_codes (values : List Value) :
    ((values.map SerialType.encode).flatMap fun (st, _) => writeVarint st.code).length =
      serialBytes values := by
  induction values with
  | nil => rfl
  | cons v values ih =>
      simp only [List.map_cons, List.flatMap_cons, List.length_append, length_writeVarint,
        serialBytes, List.sum_cons] at ih ⊢
      rw [ih]

theorem length_bodies (values : List Value) :
    ((values.map SerialType.encode).flatMap fun (_, body) => body).length =
      (values.map fun v => (SerialType.encode v).1.byteLen).sum := by
  induction values with
  | nil => rfl
  | cons v values ih =>
      simp only [List.map_cons, List.flatMap_cons, List.length_append, List.sum_cons] at ih ⊢
      rw [ih, byteLen_encode]

theorem byteLen_encode_le (v : Value) : (SerialType.encode v).1.byteLen ≤ 8 + v.heapBytes := by
  cases v with
  | int i =>
      simp only [SerialType.encode, encodeInt, Value.heapBytes]
      split_ifs <;> simp [SerialType.byteLen]
  | _ => simp [SerialType.encode, SerialType.byteLen, Value.heapBytes]

theorem sum_byteLen_le (values : List Value) :
    (values.map fun v => (SerialType.encode v).1.byteLen).sum ≤
      8 * values.length + (values.map Value.heapBytes).sum := by
  induction values with
  | nil => simp
  | cons v values ih =>
      have := byteLen_encode_le v
      simp only [List.map_cons, List.sum_cons, List.length_cons]
      omega

theorem varintLen_recordHeaderLen (vs : ValueSlice) :
    varintLen (UInt64.ofNat (recordHeaderLen vs.values)) =
      growHeaderVarint (serialBytes vs.values) 8 1 := by
  have hlen := vs.length_bound
  have hserial := serialBytes_le vs.values
  exact growHeaderVarint_spec _ (by omega) 8 1 rfl (varintLen_pos _)

theorem toNat_recordHeaderLen (vs : ValueSlice) :
    (UInt64.ofNat (recordHeaderLen vs.values)).toNat = recordHeaderLen vs.values := by
  have hlen := vs.length_bound
  have hserial := serialBytes_le vs.values
  have hwidth := varintLen_recordHeaderLen vs
  have hnine := varintLen_le_nine (UInt64.ofNat (recordHeaderLen vs.values))
  rw [UInt64.toNat_ofNat']
  simp only [recordHeaderLen] at *
  omega

/-! ## Decoding what was encoded -/

/--
The decoder's loop invariant: the codes that are still to be read start at
`headerPos` and their bodies at `bodyPos`.
-/
theorem decodeColumns_encode (encoding : TextEncoding) (payload : Bytes) (headerLen : Nat)
    (hsize : payload.length < 2 ^ 64) (rest : List Value) (hfit : ∀ v ∈ rest, FitsSerialCode v) :
    ∀ fuel headerPos bodyPos done tail,
      payload.drop headerPos =
        ((rest.map SerialType.encode).flatMap fun (st, _) => writeVarint st.code) ++ tail →
      payload.drop bodyPos = ((rest.map SerialType.encode).flatMap fun (_, body) => body) →
      headerPos + serialBytes rest = headerLen → bodyPos ≤ payload.length →
      headerLen ≤ headerPos + fuel →
      decodeColumns payload headerLen encoding fuel headerPos bodyPos done =
        .ok (done ++ rest.map (readBack encoding)) := by
  induction rest with
  | nil =>
      intro fuel headerPos bodyPos done tail _ _ hend _ _
      have hstop : ¬ headerPos < headerLen := by
        simp only [serialBytes, List.map_nil, List.sum_nil] at hend
        omega
      cases fuel with
      | zero => simp [decodeColumns]
      | succ fuel => simp [decodeColumns, hstop]
  | cons v rest ih =>
      intro fuel headerPos bodyPos done tail hcodes hbodies hend hbound hfuel
      have hpos := varintLen_pos (SerialType.encode v).1.code
      have hsplit : serialBytes (v :: rest) =
          varintLen (SerialType.encode v).1.code + serialBytes rest := by
        simp [serialBytes]
      obtain ⟨fuel, rfl⟩ : ∃ n, fuel = n + 1 := ⟨fuel - 1, by omega⟩
      simp only [List.map_cons, List.flatMap_cons, List.append_assoc] at hcodes hbodies
      have hread : readVarint (payload.drop headerPos) =
          some ((SerialType.encode v).1.code, varintLen (SerialType.encode v).1.code) := by
        rw [hcodes, readVarint_writeVarint_append, length_writeVarint]
      have hlen : payload.length - bodyPos = (SerialType.encode v).2.length +
          ((rest.map SerialType.encode).flatMap fun (_, body) => body).length := by
        rw [← List.length_drop, hbodies, List.length_append]
      have hbody : slice payload bodyPos (SerialType.encode v).1.byteLen =
          (SerialType.encode v).2 := by
        rw [slice, hbodies, byteLen_encode, List.take_left]
      have hstop : bodyPos + (SerialType.encode v).1.byteLen ≤ payload.length := by
        rw [byteLen_encode]
        omega
      have hdecoded := decode_encode v encoding
      rw [decodeColumns, if_pos (by omega), hread]
      simp only [fromCode_code_encode (hfit v List.mem_cons_self)]
      rw [if_neg (by omega), if_neg (by omega), hbody, hdecoded]
      have hnext := ih (fun w hw => hfit w (List.mem_cons_of_mem v hw)) fuel
        (headerPos + varintLen (SerialType.encode v).1.code)
        (bodyPos + (SerialType.encode v).1.byteLen) (done ++ [readBack encoding v]) tail
        ?_ ?_ (by omega) hstop (by omega)
      · simpa using hnext
      · rw [← List.drop_drop, hcodes, ← length_writeVarint, List.drop_left]
      · rw [← List.drop_drop, hbodies, byteLen_encode, List.drop_left]

theorem encodeRecord_layout (vs : ValueSlice) :
    ∃ codes, encodeRecord vs.values =
        writeVarint (UInt64.ofNat (recordHeaderLen vs.values)) ++ codes ++
          ((vs.values.map SerialType.encode).flatMap fun (_, body) => body) ∧
      codes = ((vs.values.map SerialType.encode).flatMap fun (st, _) => writeVarint st.code) ∧
      (writeVarint (UInt64.ofNat (recordHeaderLen vs.values)) ++ codes).length =
        recordHeaderLen vs.values := by
  refine ⟨_, rfl, rfl, ?_⟩
  rw [List.length_append, length_writeVarint, varintLen_recordHeaderLen, length_writeVarint_codes,
    recordHeaderLen, Nat.add_comm]

theorem length_encodeRecord_lt (vs : ValueSlice) : (encodeRecord vs.values).length < 2 ^ 64 := by
  obtain ⟨codes, hrecord, -, hheader⟩ := encodeRecord_layout vs
  have hmem := vs.inMemory
  have hserial := serialBytes_le vs.values
  have hbody := sum_byteLen_le vs.values
  have hwidth := varintLen_recordHeaderLen vs
  have hnine := varintLen_le_nine (UInt64.ofNat (recordHeaderLen vs.values))
  rw [hrecord, List.length_append, hheader, length_bodies]
  simp only [recordHeaderLen, valueSize] at *
  omega

theorem readVarint_encodeRecord (vs : ValueSlice) :
    readVarint (encodeRecord vs.values) =
      some (UInt64.ofNat (recordHeaderLen vs.values),
        varintLen (UInt64.ofNat (recordHeaderLen vs.values))) := by
  obtain ⟨codes, hrecord, -, -⟩ := encodeRecord_layout vs
  rw [hrecord, List.append_assoc, readVarint_writeVarint_append, length_writeVarint]

theorem drop_recordHeaderLen (vs : ValueSlice) :
    recordHeaderLen vs.values ≤ (encodeRecord vs.values).length ∧
      (encodeRecord vs.values).drop (recordHeaderLen vs.values) =
        (vs.values.map SerialType.encode).flatMap fun (_, body) => body := by
  obtain ⟨codes, hrecord, -, hheader⟩ := encodeRecord_layout vs
  constructor
  · rw [hrecord, List.length_append, hheader]
    exact Nat.le_add_right _ _
  · rw [hrecord]
    exact List.drop_left' hheader

theorem decodeRecord_readBack (vs : ValueSlice) (encoding : TextEncoding) :
    decodeRecord (encodeRecord vs.values) encoding =
      .ok (vs.values.map (readBack encoding)) := by
  obtain ⟨codes, hrecord, hcodes, hheader⟩ := encodeRecord_layout vs
  obtain ⟨hle, hdrop⟩ := drop_recordHeaderLen vs
  have hlt := length_encodeRecord_lt vs
  have hnat := toNat_recordHeaderLen vs
  have hwidth := varintLen_recordHeaderLen vs
  have hfit : ∀ v ∈ vs.values, FitsSerialCode v := by
    intro v hv
    have := vs.heapBytes_bound hv
    unfold FitsSerialCode
    omega
  rw [decodeRecord, readVarint_encodeRecord]
  simp only
  rw [hnat, if_neg (by rw [hwidth, recordHeaderLen] at *; omega)]
  refine decodeColumns_encode encoding _ _ hlt vs.values hfit _ _ _ []
    ((vs.values.map SerialType.encode).flatMap fun (_, body) => body) ?_ hdrop ?_ hle ?_
  · rw [hrecord, ← hcodes, List.append_assoc, ← length_writeVarint, List.drop_left]
  · rw [hwidth, recordHeaderLen, Nat.add_comm]
  · omega

/--
Every slice of values comes back from its record; the header-length varint
names the offset at which the bodies start, and they take as many bytes as the
serial types say.
-/
theorem decodeRecord_encodeRecord (vs : ValueSlice) :
    decodeRecord (encodeRecord vs.values) .utf8 = .ok vs.values ∧
      ∃ headerLen width, readVarint (encodeRecord vs.values) = some (headerLen, width) ∧
        (encodeRecord vs.values).drop headerLen.toNat =
          (vs.values.flatMap fun v => (SerialType.encode v).2) ∧
        headerLen.toNat ≤ (encodeRecord vs.values).length ∧
        ((encodeRecord vs.values).drop headerLen.toNat).length =
          (vs.values.map fun v => (SerialType.encode v).1.byteLen).sum := by
  obtain ⟨hle, hdrop⟩ := drop_recordHeaderLen vs
  constructor
  · rw [decodeRecord_readBack, List.map_congr_left fun v _ => readBack_utf8 v, List.map_id']
  · refine ⟨_, _, readVarint_encodeRecord vs, ?_⟩
    rw [toNat_recordHeaderLen, hdrop, List.flatMap_map]
    refine ⟨rfl, hle, ?_⟩
    rw [← length_bodies, List.flatMap_map]

end Rustqlite.Format
