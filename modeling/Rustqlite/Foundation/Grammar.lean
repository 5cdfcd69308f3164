import Rustqlite.Foundation.Text

/-!
# Parsers and grammars

A parser reads the bytes of a text from the front.  A grammar says which
characters a phrase is spelled with and what the phrase means.  The parser is
sound if it takes nothing but phrases, and complete if it takes every phrase
that stands before what may follow one.
-/

namespace Rustqlite.Foundation

variable {α β : Type}

/--
What is left of the input where a parser fails, and why it does.  A parser that
comes through returns what it read and what is left.
-/
structure Failure where
  rest : Bytes
  message : String
  deriving DecidableEq

abbrev Parser (α : Type) := Bytes → Except Failure (α × Bytes)

abbrev Grammar (α : Type) := List Char → α → Prop

/-! ## The bytes of a text -/

def encode (cs : List Char) : Bytes := cs.flatMap String.utf8EncodeChar

@[simp] theorem encode_nil : encode [] = [] := rfl

theorem encode_cons (c : Char) (cs : List Char) :
    encode (c :: cs) = String.utf8EncodeChar c ++ encode cs := List.flatMap_cons

@[simp] theorem encode_append (xs ys : List Char) : encode (xs ++ ys) = encode xs ++ encode ys :=
  List.flatMap_append

theorem utf8Bytes_eq_encode (s : String) : utf8Bytes s = encode s.toList := rfl

variable {c : Char} {cs : List Char} {rest : Bytes}

theorem toNat_toUInt8 (h : isAscii c = true) : c.toUInt8.toNat = c.toNat := by
  have hlt : c.toNat < 0x80 := by simpa [isAscii] using h
  change c.val.toUInt8.toNat = c.val.toNat
  rw [UInt32.toNat_toUInt8]
  exact Nat.mod_eq_of_lt (hlt.trans (by norm_num))

theorem utf8EncodeChar_ascii (h : isAscii c = true) : String.utf8EncodeChar c = [c.toUInt8] := by
  have hlt : c.toNat < 0x80 := by simpa [isAscii] using h
  rw [utf8EncodeChar_of_lt hlt]
  rfl

theorem encode_cons_ascii (h : isAscii c = true) (cs : List Char) :
    encode (c :: cs) = c.toUInt8 :: encode cs := by
  rw [encode_cons, utf8EncodeChar_ascii h]
  rfl

theorem toUInt8_inj {d : Char} (hc : isAscii c = true) (hd : isAscii d = true)
    (h : c.toUInt8 = d.toUInt8) : c = d := by
  apply Char.toNat_inj.mp
  rw [← toNat_toUInt8 hc, ← toNat_toUInt8 hd, h]

theorem exists_cons_of_lt {b : UInt8} (hb : b.toNat < 0x80) (h : encode cs = b :: rest) :
    ∃ c cs', isAscii c = true ∧ c.toUInt8 = b ∧ cs = c :: cs' ∧ rest = encode cs' := by
  cases cs with
  | nil => cases h
  | cons c cs =>
      by_cases hc : isAscii c = true
      · rw [encode_cons_ascii hc, List.cons.injEq] at h
        exact ⟨c, cs, hc, h.1, rfl, h.2.symm⟩
      · obtain ⟨a, b', more, henc, hlead, -⟩ :=
          utf8EncodeChar_of_le (c := c) (by simpa [isAscii] using hc)
        rw [encode_cons, henc] at h
        have hhead := (List.cons.inj h).1
        rw [← hhead] at hb
        omega

theorem exists_cons_of_encode (hc : isAscii c = true) (h : encode cs = c.toUInt8 :: rest) :
    ∃ cs', cs = c :: cs' ∧ rest = encode cs' := by
  have hlt : c.toUInt8.toNat < 0x80 := by
    rw [toNat_toUInt8 hc]
    simpa [isAscii] using hc
  obtain ⟨d, cs', hd, hdc, rfl, hrest⟩ := exists_cons_of_lt hlt h
  exact ⟨cs', by rw [toUInt8_inj hd hc hdc], hrest⟩

theorem exists_append_of_encode {front : List Char} (hfront : ∀ c ∈ front, isAscii c = true)
    (h : encode cs = front.map Char.toUInt8 ++ rest) : ∃ cs', cs = front ++ cs' ∧
        rest = encode cs' := by
  induction front generalizing cs with
  | nil => exact ⟨cs, rfl, h.symm⟩
  | cons c front ih =>
      obtain ⟨cs', rfl, hrest⟩ := exists_cons_of_encode (hfront c List.mem_cons_self) h
      obtain ⟨cs'', rfl, hrest'⟩ := ih (fun d hd => hfront d (List.mem_cons_of_mem c hd)) hrest.symm
      exact ⟨cs'', rfl, hrest'⟩

theorem encode_ascii (h : ∀ c ∈ cs, isAscii c = true) : encode cs = cs.map Char.toUInt8 := by
  induction cs with
  | nil => rfl
  | cons c cs ih =>
      rw [encode_cons_ascii (h c List.mem_cons_self), ih fun d hd =>
          h d (List.mem_cons_of_mem c hd)]
      rfl

/-! ## The front of a text -/

theorem takeWhile_encode (p : UInt8 → Bool) (q : Char → Bool)
    (hall : ∀ c, q c = true → ∀ b ∈ String.utf8EncodeChar c, p b = true)
    (hnone : ∀ c, q c = false → ∀ b rest, String.utf8EncodeChar c = b :: rest → p b = false)
    (cs : List Char) : (encode cs).takeWhile p = encode (cs.takeWhile q) ∧
      (encode cs).dropWhile p = encode (cs.dropWhile q) := by
  induction cs with
  | nil => exact ⟨rfl, rfl⟩
  | cons c cs ih =>
      rw [encode_cons, List.takeWhile_cons, List.dropWhile_cons]
      cases hq : q c with
      | true =>
          rw [List.takeWhile_append_of_pos (hall c hq), List.dropWhile_append_of_pos (hall c hq),
            ih.1, ih.2]
          exact ⟨(encode_cons c _).symm, rfl⟩
      | false =>
          have hlen : 0 < (String.utf8EncodeChar c).length := by
            rw [String.length_utf8EncodeChar]
            exact c.utf8Size_pos
          cases henc : String.utf8EncodeChar c with
          | nil =>
              rw [henc] at hlen
              cases hlen
          | cons b rest =>
              have hb := hnone c hq b rest henc
              simp [hb, encode_cons, henc]

/-! ## Well-formed UTF-8 -/

def decodeUtf8 : Nat → Bytes → Option (List Char)
  | _, [] => some []
  | 0, _ => none
  | fuel + 1, bytes => do
      let c ← decodeUtf8Char? bytes
      let cs ← decodeUtf8 fuel (bytes.drop c.utf8Size)
      return c :: cs

/-- `std::str::from_utf8` -/
def fromUtf8 (bytes : Bytes) : Option (List Char) := decodeUtf8 bytes.length bytes

theorem decodeUtf8_encode (cs : List Char) (fuel : Nat) (h : cs.length ≤ fuel) :
    decodeUtf8 fuel (encode cs) = some cs := by
  induction cs generalizing fuel with
  | nil => cases fuel <;> rfl
  | cons c cs ih =>
      obtain ⟨fuel, rfl⟩ : ∃ n, fuel = n + 1 := ⟨fuel - 1, by simp at h; omega⟩
      have hlen : (String.utf8EncodeChar c).length = c.utf8Size := by simp
      have hpos : 0 < c.utf8Size := c.utf8Size_pos
      have hdecode := decodeUtf8Char?_utf8EncodeChar_append c (encode cs)
      rw [encode_cons]
      cases hbytes : String.utf8EncodeChar c ++ encode cs with
      | nil =>
          have := congrArg List.length hbytes
          simp at this
          omega
      | cons b rest =>
          rw [decodeUtf8, ← hbytes, hdecode]
          · simp only [Option.bind_eq_bind, Option.bind_some]
            rw [← hlen, List.drop_left, ih fuel (by simp at h; omega)]
            rfl
          · simp

theorem length_le_length_encode (cs : List Char) : cs.length ≤ (encode cs).length := by
  induction cs with
  | nil => rfl
  | cons c cs ih =>
      have hpos : 0 < c.utf8Size := c.utf8Size_pos
      rw [encode_cons]
      simp
      omega

@[simp] theorem fromUtf8_encode (cs : List Char) : fromUtf8 (encode cs) = some cs :=
  decodeUtf8_encode cs _ (length_le_length_encode cs)

/-! ## Sound and complete parsers -/

def Sound (p : Parser α) (g : Grammar α) : Prop :=
  ∀ cs a rest, p (encode cs) = .ok (a, rest) →
    ∃ front tail, cs = front ++ tail ∧ rest = encode tail ∧ g front a

def Complete (p : Parser α) (g : Grammar α) (follow : List Char → Prop) : Prop :=
  ∀ front a tail, g front a → follow tail → p (encode (front ++ tail)) = .ok (a, encode tail)

end Rustqlite.Foundation
