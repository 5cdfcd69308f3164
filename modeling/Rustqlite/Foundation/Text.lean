import Rustqlite.Foundation.Bytes

/-!
# Text as bytes

UTF-8 text and the two lossy decoders of the Rust standard library,
`String::from_utf8_lossy` and `String::from_utf16_lossy`.  An ill-formed
sequence becomes one replacement character for each maximal ill-formed part,
and well-formed text is decoded to itself.
-/

namespace Rustqlite.Foundation

def utf8Bytes (s : String) : Bytes := s.toList.flatMap String.utf8EncodeChar

def eqIgnoreAsciiCase (a b : String) : Bool :=
  a.toList.map Char.toLower == b.toList.map Char.toLower

def replacementChar : Char := Char.ofNat 0xfffd

def isAscii (c : Char) : Bool := c.toNat < 0x80

def isContinuation (b : UInt8) : Bool := b &&& 0xc0 == 0x80

def secondByteOk (lead second : UInt8) : Bool :=
  if lead == 0xe0 then 0xa0 ≤ second && second ≤ 0xbf
  else if lead == 0xed then 0x80 ≤ second && second ≤ 0x9f
  else if lead == 0xf0 then 0x90 ≤ second && second ≤ 0xbf
  else if lead == 0xf4 then 0x80 ≤ second && second ≤ 0x8f
  else isContinuation second

/-- Length of the maximal ill-formed part at the front of `bytes`. -/
def illFormedLen (bytes : Bytes) : Nat :=
  let lead := bytes.getD 0 0
  if 0xe0 ≤ lead ∧ lead ≤ 0xf4 then
    if secondByteOk lead (bytes.getD 1 0) then
      if 0xf0 ≤ lead ∧ isContinuation (bytes.getD 2 0) then 3 else 2
    else 1
  else 1

/-- The character at the front of `bytes`, if it is well formed. -/
def decodeUtf8Char? (bytes : Bytes) : Option Char :=
  bytes.toByteArray.utf8DecodeChar? 0

def decodeUtf8Lossy : Nat → Bytes → List Char
  | 0, _ => []
  | _, [] => []
  | fuel + 1, bytes =>
      match decodeUtf8Char? bytes with
      | some c => c :: decodeUtf8Lossy fuel (bytes.drop c.utf8Size)
      | none => replacementChar :: decodeUtf8Lossy fuel (bytes.drop (illFormedLen bytes))

def fromUtf8Lossy (bytes : Bytes) : String :=
  String.ofList (decodeUtf8Lossy bytes.length bytes)

theorem decodeUtf8Char?_utf8EncodeChar_append (c : Char) (rest : Bytes) :
    decodeUtf8Char? (String.utf8EncodeChar c ++ rest) = some c := by
  rw [decodeUtf8Char?, List.toByteArray_append]
  exact ByteArray.utf8DecodeChar?_utf8EncodeChar_append

theorem decodeUtf8Lossy_flatMap (chars : List Char) (fuel : Nat)
    (h : chars.length ≤ fuel) :
    decodeUtf8Lossy fuel (chars.flatMap String.utf8EncodeChar) = chars := by
  induction chars generalizing fuel with
  | nil => cases fuel <;> simp [decodeUtf8Lossy]
  | cons c chars ih =>
      obtain ⟨fuel, rfl⟩ : ∃ n, fuel = n + 1 := ⟨fuel - 1, by simp at h; omega⟩
      have hlen : (String.utf8EncodeChar c).length = c.utf8Size := by simp
      have hpos : 0 < c.utf8Size := c.utf8Size_pos
      have hdecode := decodeUtf8Char?_utf8EncodeChar_append c
        (chars.flatMap String.utf8EncodeChar)
      rw [List.flatMap_cons]
      cases hbytes : String.utf8EncodeChar c ++ chars.flatMap String.utf8EncodeChar with
      | nil =>
          have := congrArg List.length hbytes
          simp at this
          omega
      | cons b rest =>
          rw [decodeUtf8Lossy, ← hbytes, hdecode]
          · simp only
            rw [← hlen, List.drop_left, ih fuel (by simp at h; omega)]
          · simp

@[simp] theorem fromUtf8Lossy_utf8Bytes (s : String) : fromUtf8Lossy (utf8Bytes s) = s := by
  have hlen : s.toList.length ≤ (utf8Bytes s).length := by
    simp only [utf8Bytes, List.length_flatMap]
    generalize s.toList = chars
    induction chars with
    | nil => simp
    | cons c chars ih =>
        have hpos : 0 < c.utf8Size := c.utf8Size_pos
        simp at ih ⊢
        omega
  have hdecode : decodeUtf8Lossy (utf8Bytes s).length (utf8Bytes s) = s.toList :=
    decodeUtf8Lossy_flatMap s.toList _ hlen
  rw [fromUtf8Lossy, hdecode, String.ofList_toList]

/-! ## UTF-16 -/

def decodeUtf16Lossy : List UInt16 → List Char
  | [] => []
  | [unit] =>
      [if 0xd800 ≤ unit ∧ unit ≤ 0xdfff then replacementChar else Char.ofNat unit.toNat]
  | unit :: next :: rest =>
      if unit < 0xd800 ∨ 0xdfff < unit then
        Char.ofNat unit.toNat :: decodeUtf16Lossy (next :: rest)
      else if 0xdc00 ≤ unit ∨ next < 0xdc00 ∨ 0xdfff < next then
        replacementChar :: decodeUtf16Lossy (next :: rest)
      else
        Char.ofNat ((unit.toNat - 0xd800) * 0x400 + (next.toNat - 0xdc00) + 0x10000) ::
          decodeUtf16Lossy rest

def fromUtf16Lossy (units : List UInt16) : String := String.ofList (decodeUtf16Lossy units)

/-!
## The bytes of a character

How UTF-8 spells a code point in one to four bytes, and what becomes of the
spelling when its last byte is raised.
-/

inductive Spells (v : Nat) : Bytes → Prop
  | one {a : UInt8} (ha : a.toNat = v) (hv : v < 0x80) : Spells v [a]
  | two {a b : UInt8} (hb : 0x80 ≤ b.toNat ∧ b.toNat < 0xc0) (hv : 0x80 ≤ v ∧ v < 0x800)
      (h : a.toNat * 64 + b.toNat = v + 0xc0 * 64 + 0x80) : Spells v [a, b]
  | three {a b c : UInt8} (hb : 0x80 ≤ b.toNat ∧ b.toNat < 0xc0)
      (hc : 0x80 ≤ c.toNat ∧ c.toNat < 0xc0) (hv : 0x800 ≤ v ∧ v < 0x10000)
      (h : a.toNat * 4096 + b.toNat * 64 + c.toNat = v + 0xe0 * 4096 + 0x80 * 64 + 0x80) :
      Spells v [a, b, c]
  | four {a b c d : UInt8} (hb : 0x80 ≤ b.toNat ∧ b.toNat < 0xc0)
      (hc : 0x80 ≤ c.toNat ∧ c.toNat < 0xc0) (hd : 0x80 ≤ d.toNat ∧ d.toNat < 0xc0)
      (hv : 0x10000 ≤ v ∧ v < 0x110000)
      (h : a.toNat * 262144 + b.toNat * 4096 + c.toNat * 64 + d.toNat =
        v + 0xf0 * 262144 + 0x80 * 4096 + 0x80 * 64 + 0x80) : Spells v [a, b, c, d]

theorem toNat_lt (c : Char) : c.toNat < 0x110000 := by
  rcases c.valid with h | ⟨-, h⟩
  · change c.toNat < 0xd800 at h
    omega
  · exact h

theorem spells (c : Char) : Spells c.toNat (String.utf8EncodeChar c) := by
  have hlt := toNat_lt c
  have hval : c.val.toNat = c.toNat := rfl
  unfold String.utf8EncodeChar
  rw [hval]
  generalize c.toNat = v at hlt
  dsimp only
  split_ifs with h1 h2 h3
  · exact .one (by rw [UInt8.toNat_ofNat']; omega) (by omega)
  · exact .two (by rw [UInt8.toNat_ofNat']; omega) (by omega)
      (by simp only [UInt8.toNat_ofNat']; omega)
  · exact .three (by rw [UInt8.toNat_ofNat']; omega) (by rw [UInt8.toNat_ofNat']; omega) (by omega)
      (by simp only [UInt8.toNat_ofNat']; omega)
  · exact .four (by rw [UInt8.toNat_ofNat']; omega) (by rw [UInt8.toNat_ofNat']; omega)
      (by rw [UInt8.toNat_ofNat']; omega) (by omega) (by simp only [UInt8.toNat_ofNat']; omega)

theorem Spells.unique {v : Nat} {x y : Bytes} (hx : Spells v x) (hy : Spells v y) : x = y := by
  cases hx <;> cases hy
  case one.one => exact congrArg (fun a => [a]) (UInt8.toNat_inj.mp (by omega))
  case two.two =>
      rw [List.cons.injEq, List.cons.injEq, ← UInt8.toNat_inj, ← UInt8.toNat_inj]
      exact ⟨by omega, by omega, rfl⟩
  case three.three =>
      rw [List.cons.injEq, List.cons.injEq, List.cons.injEq, ← UInt8.toNat_inj, ← UInt8.toNat_inj,
        ← UInt8.toNat_inj]
      exact ⟨by omega, by omega, by omega, rfl⟩
  case four.four =>
      rw [List.cons.injEq, List.cons.injEq, List.cons.injEq, List.cons.injEq, ← UInt8.toNat_inj,
        ← UInt8.toNat_inj, ← UInt8.toNat_inj, ← UInt8.toNat_inj]
      exact ⟨by omega, by omega, by omega, by omega, rfl⟩
  all_goals omega

theorem utf8EncodeChar_of_lt {c : Char} (h : c.toNat < 0x80) :
    String.utf8EncodeChar c = [UInt8.ofNat c.toNat] :=
  (spells c).unique (.one (by rw [UInt8.toNat_ofNat']; omega) h)

theorem utf8EncodeChar_of_le {c : Char} (h : 0x80 ≤ c.toNat) :
    ∃ a b rest, String.utf8EncodeChar c = a :: b :: rest ∧ 0xc0 < a.toNat ∧
      ∀ x ∈ String.utf8EncodeChar c, 0x80 ≤ x.toNat := by
  have hspells := spells c
  generalize String.utf8EncodeChar c = bytes at hspells
  cases hspells with
  | one ha hv => omega
  | two hb hv heq =>
      exact ⟨_, _, _, rfl, by omega, by simp only [List.forall_mem_cons]; simp; omega⟩
  | three hb hc hv heq =>
      exact ⟨_, _, _, rfl, by omega, by simp only [List.forall_mem_cons]; simp; omega⟩
  | four hb hc hd hv heq =>
      exact ⟨_, _, _, rfl, by omega, by simp only [List.forall_mem_cons]; simp; omega⟩

theorem exists_append_of_flatMap {cs front : List Char} {x : Bytes}
    (h : cs.flatMap String.utf8EncodeChar = front.flatMap String.utf8EncodeChar ++ x) :
    ∃ rest, cs = front ++ rest ∧ rest.flatMap String.utf8EncodeChar = x := by
  induction front generalizing cs with
  | nil => exact ⟨cs, rfl, h⟩
  | cons c front ih =>
      rw [List.flatMap_cons, List.append_assoc] at h
      have hdecode := decodeUtf8Char?_utf8EncodeChar_append c
        (front.flatMap String.utf8EncodeChar ++ x)
      cases cs with
      | nil =>
          have hlen := congrArg List.length h
          have hpos : 0 < c.utf8Size := c.utf8Size_pos
          simp at hlen
          omega
      | cons d cs =>
          rw [List.flatMap_cons] at h
          rw [← h, decodeUtf8Char?_utf8EncodeChar_append] at hdecode
          cases hdecode
          obtain ⟨rest, rfl, hrest⟩ := ih (List.append_cancel_left h)
          exact ⟨rest, rfl, hrest⟩

end Rustqlite.Foundation
