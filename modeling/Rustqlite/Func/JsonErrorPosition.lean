import Rustqlite.Func.JsonStops

/-!
# The position of an error

`json_error_position` counts the characters before the place where the parser
stopped.  Where that place is inside a character the slice before it does not
exist, and the call panics.
-/

namespace Rustqlite.Func.Json

open Foundation

/-! ## The function -/

/-- The offset of the first error.  Extra text after the value is reported at its start. -/
def firstErrorOffset (bytes : Bytes) : Option Nat :=
  match parseValue jsonMaxDepth (skipWs bytes) with
  | .ok (_, rest) => if skipWs rest = [] then none else some 0
  | .error f => some (bytes.length - f.rest.length)

def sliceTo : Nat → List Char → Option (List Char)
  | 0, _ => some []
  | _ + 1, [] => none
  | n + 1, c :: cs =>
      if c.utf8Size ≤ n + 1 then (sliceTo (n + 1 - c.utf8Size) cs).map (c :: ·) else none

def jsonErrorPosition : Value → Result Value
  | .null => .ok .null
  | .int _ => .ok (.int 0)
  | .real _ => .ok (.int 0)
  | .text s =>
      match parse s with
      | .ok _ => .ok (.int 0)
      | .error _ =>
          let len := (utf8Bytes s).length
          let byteOff := (firstErrorOffset (utf8Bytes s)).getD len
          match sliceTo (min byteOff len) s.toList with
          | some front => .ok (.int (Int64.ofNat (front.length + 1)))
          | none => .error (.panic "byte index is not a char boundary")
  | .blob _ => .ok (.int 1)

/-! ## Slices -/

theorem sliceTo_encode (front tail : List Char) :
    sliceTo (encode front).length (front ++ tail) = some front := by
  induction front with
  | nil => rw [encode_nil, List.length_nil, sliceTo]
  | cons c front ih =>
      have hpos := c.utf8Size_pos
      have hlen : (encode (c :: front)).length =
          (c.utf8Size - 1 + (encode front).length) + 1 := by
        rw [encode_cons, List.length_append, String.length_utf8EncodeChar]
        omega
      have hrest : c.utf8Size - 1 + (encode front).length + 1 - c.utf8Size =
          (encode front).length := by omega
      rw [hlen, List.cons_append, sliceTo, if_pos (by omega), hrest, ih]
      rfl

theorem sliceTo_inside (front : List Char) {c : Char} {k : Nat} (hpos : 0 < k)
    (hlt : k < c.utf8Size) (tail : List Char) :
    sliceTo ((encode front).length + k) (front ++ c :: tail) = none := by
  induction front with
  | nil =>
      obtain ⟨k, rfl⟩ : ∃ n, k = n + 1 := ⟨k - 1, by omega⟩
      rw [encode_nil, List.length_nil, Nat.zero_add, List.nil_append, sliceTo,
        if_neg (Nat.not_le_of_lt hlt)]
  | cons d front ih =>
      have hsize := d.utf8Size_pos
      have hlen : (encode (d :: front)).length + k =
          (d.utf8Size - 1 + ((encode front).length + k)) + 1 := by
        rw [encode_cons, List.length_append, String.length_utf8EncodeChar]
        omega
      have hrest : d.utf8Size - 1 + ((encode front).length + k) + 1 - d.utf8Size =
          (encode front).length + k := by omega
      rw [hlen, List.cons_append, sliceTo, if_pos (by omega), hrest, ih]
      rfl

/-! ## Where the position is told -/

def ValidJson (s : String) : Prop := ∃ node, JsonText jsonMaxDepth s.toList node

/-- There is an answer, and it is 0 or the number of a character of the text or of its end. -/
def PositionTold (s : String) : Prop :=
  ∃ k, jsonErrorPosition (.text s) = .ok (.int (Int64.ofNat k)) ∧ (k = 0 ↔ ValidJson s) ∧
    (¬ ValidJson s → 1 ≤ k ∧ k ≤ s.length + 1)

/-- What is left of a value is an escape that is broken, and all before it is well-formed. -/
def BrokenText (cs : List Char) : Prop :=
  ∃ w rest, cs = w ++ rest ∧ Spaces w ∧ BrokenValue jsonMaxDepth rest

theorem validJson_iff (s : String) : ValidJson s ↔ ∃ node,
    parseBytes (encode s.toList) = .ok node :=
  exists_congr fun _ => ⟨parseBytes_of_jsonText, jsonText_of_parseBytes⟩

variable {s : String}

theorem jsonErrorPosition_invalid {n : Nat} (h : ¬ ValidJson s)
    (hoffset : firstErrorOffset (encode s.toList) = some n) (hle : n ≤ (encode s.toList).length) :
    jsonErrorPosition (.text s) =
      match sliceTo n s.toList with
      | some front => .ok (.int (Int64.ofNat (front.length + 1)))
      | none => .error (.panic "byte index is not a char boundary") := by
  unfold jsonErrorPosition
  dsimp only
  cases hparse : parse s with
  | ok node => exact absurd ⟨node, (parse_eq_ok_iff s node).mp hparse⟩ h
  | error e =>
      dsimp only
      rw [utf8Bytes_eq_encode, hoffset, Option.getD_some, min_eq_left hle]

theorem length_sub_length_encode (front tail : List Char) :
    (encode (front ++ tail)).length - (encode tail).length = (encode front).length := by
  rw [encode_append, List.length_append, Nat.add_sub_cancel]

theorem positionTold_of_boundary {front tail : List Char} (h : ¬ ValidJson s)
    (hs : s.toList = front ++ tail)
    (hoffset : firstErrorOffset (encode s.toList) = some (encode front).length) :
    PositionTold s := by
  have hle : (encode front).length ≤ (encode s.toList).length := by
    rw [hs, encode_append, List.length_append]
    exact Nat.le_add_right _ _
  have hlen : s.length = front.length + tail.length := by
    rw [← String.length_toList, hs, List.length_append]
  refine ⟨front.length + 1, ?_, ?_, fun _ => ?_⟩
  · rw [jsonErrorPosition_invalid h hoffset hle, hs, sliceTo_encode]
  · simp [h]
  · omega

theorem not_validJson_of_broken (h : BrokenText s.toList) : ¬ ValidJson s := by
  intro hvalid
  obtain ⟨node, hnode⟩ := (validJson_iff s).mp hvalid
  obtain ⟨w, rest, hs, hw, hrest⟩ := h
  obtain ⟨f, hf, -⟩ := (stops_parseValue jsonMaxDepth).inside rest hrest
  have htight := (brokenBefore_value jsonMaxDepth (.inl rfl)).tight hrest
  rw [hs, parseBytes, skipWs_append hw htight, hf] at hnode
  cases hnode

theorem panics_of_broken (h : BrokenText s.toList) :
    jsonErrorPosition (.text s) = .error (.panic "byte index is not a char boundary") := by
  have hinvalid := not_validJson_of_broken h
  obtain ⟨w, rest, hs, hw, hrest⟩ := h
  obtain ⟨f, hf, hstop⟩ := (stops_parseValue jsonMaxDepth).inside rest hrest
  have htight := (brokenBefore_value jsonMaxDepth (.inl rfl)).tight hrest
  obtain ⟨front, c, tail, k, hcs, hpos, hlt, hleft⟩ := hstop.append w
  rw [hcs] at hs
  have hlen : (encode (c :: tail)).length = c.utf8Size + (encode tail).length := by
    rw [encode_cons, List.length_append, String.length_utf8EncodeChar]
  have hcount : (encode s.toList).length - f.rest.length = (encode front).length + k := by
    rw [hs, hleft, encode_append, List.length_append, List.length_drop]
    omega
  have hoffset : firstErrorOffset (encode s.toList) = some ((encode front).length + k) := by
    rw [← hcount, firstErrorOffset, hs, ← hcs, skipWs_append hw htight, hf]
  have hle : (encode front).length + k ≤ (encode s.toList).length := by
    rw [hs, encode_append, List.length_append]
    omega
  rw [jsonErrorPosition_invalid hinvalid hoffset hle, hs, sliceTo_inside front hpos hlt]

theorem exists_firstErrorOffset (hvalid : ¬ ValidJson s) (h : ¬ BrokenText s.toList) :
    ∃ front tail, s.toList = front ++ tail ∧
      firstErrorOffset (encode s.toList) = some (encode front).length := by
  obtain ⟨w, cs, hs, hw, hskip⟩ := exists_skipWs s.toList
  unfold firstErrorOffset
  rw [hskip]
  cases hread : parseValue jsonMaxDepth (encode cs) with
  | error f =>
      have hbroken : ¬ BrokenValue jsonMaxDepth cs := fun hcs => h ⟨w, cs, hs, hw, hcs⟩
      have hstop := (stops_parseValue jsonMaxDepth).boundary cs f hread hbroken
      obtain ⟨front, tail, hsplit, hrest⟩ := hstop.append w
      refine ⟨front, tail, hs.trans hsplit, ?_⟩
      dsimp only
      rw [hs, hsplit, hrest, length_sub_length_encode]
  | ok p =>
      refine ⟨[], s.toList, rfl, ?_⟩
      have hextra : skipWs p.2 ≠ [] := by
        intro hnil
        refine hvalid ((validJson_iff s).mpr ⟨p.1, ?_⟩)
        rw [parseBytes, hskip, hread, ok_bind]
        dsimp only
        rw [hnil]
      exact if_neg hextra

theorem jsonErrorPosition_valid (h : ValidJson s) : jsonErrorPosition (.text s) = .ok (.int 0) := by
  obtain ⟨node, hnode⟩ := h
  have hparse := (parse_eq_ok_iff s node).mpr hnode
  unfold jsonErrorPosition
  dsimp only
  rw [hparse]

/-- The position is told unless an escape of the text is broken. -/
theorem positionTold_iff (s : String) : PositionTold s ↔ ¬ BrokenText s.toList := by
  constructor
  · rintro ⟨k, hk, -⟩ hbroken
    rw [panics_of_broken hbroken] at hk
    cases hk
  · intro hbroken
    by_cases hvalid : ValidJson s
    · exact ⟨0, jsonErrorPosition_valid hvalid, by simp [hvalid], fun h => absurd hvalid h⟩
    · obtain ⟨front, tail, hs, hoffset⟩ := exists_firstErrorOffset hvalid hbroken
      exact positionTold_of_boundary hvalid hs hoffset

/-- The parser stops after the first byte of the character that follows the backslash. -/
theorem not_positionTold_accent : ¬ PositionTold "\"\\é" := by
  rintro ⟨k, hk, -⟩
  have hpanic : jsonErrorPosition (.text "\"\\é") =
      .error (.panic "byte index is not a char boundary") := by decide
  rw [hpanic] at hk
  cases hk

end Rustqlite.Func.Json
