import Rustqlite.Codegen.LikeBounds
import Rustqlite.Types.TextOrder

/-!
# Raising the last byte

Raising the last byte of a text gives the text with its last character raised,
unless that character is the last one of its length, or the one before the
surrogates.
-/

namespace Rustqlite.Codegen

open Foundation

/-- The next code point is a character that is spelled with as many bytes. -/
def HasNext (c : Char) : Prop := c.toNat ∉ [0x7f, 0x7ff, 0xd7ff, 0xffff, 0x10ffff]

instance (c : Char) : Decidable (HasNext c) := inferInstanceAs (Decidable (_ ∉ _))

def nextChar (c : Char) : Char := Char.ofNat (c.toNat + 1)

theorem toNat_ofNat {n : Nat} (h : n < 0xd800 ∨ 0xdfff < n ∧ n < 0x110000) :
    (Char.ofNat n).toNat = n := by
  unfold Char.ofNat
  rw [dif_pos h]
  rfl

variable {c : Char} {front : List Char}

theorem toNat_nextChar (h : HasNext c) : (nextChar c).toNat = c.toNat + 1 := by
  refine toNat_ofNat ?_
  have hvalid := c.valid
  simp only [HasNext, List.mem_cons, List.not_mem_nil, or_false, not_or] at h
  change c.toNat < 0xd800 ∨ 0xdfff < c.toNat ∧ c.toNat < 0x110000 at hvalid
  omega

theorem raiseLast_append {x : Bytes} {a : UInt8} (front : Bytes) (hbf : a ≠ 0xbf) (hff : a ≠ 0xff) :
    raiseLast (x ++ a :: front) = (raiseLast (x ++ [a])).map (· ++ front) := by
  induction x with
  | nil =>
      cases front with
      | nil => simp [raiseLast, hff]
      | cons b front => simp [raiseLast, hbf, hff]
  | cons b x ih =>
      have hcons (rest : Bytes) (hne : rest ≠ []) : raiseLast (b :: rest) =
          if b = 0xbf then (raiseLast rest).map (0x80 :: ·)
          else if b = 0xff then none else some ((b + 1) :: rest) := by
        obtain ⟨d, rest, rfl⟩ := List.exists_cons_of_ne_nil hne
        rfl
      rw [List.cons_append, List.cons_append, hcons _ (by simp), hcons _ (by simp), ih]
      split_ifs
      · rw [Option.map_map, Option.map_map]
        rfl
      · rfl
      · simp

theorem raiseLast_reverse (front : Bytes) (c : Char) :
    raiseLast (front ++ String.utf8EncodeChar c).reverse =
      (raiseLast (String.utf8EncodeChar c).reverse).map (· ++ front.reverse) := by
  rw [List.reverse_append]
  have hspells := spells c
  generalize String.utf8EncodeChar c = bytes at hspells
  have hne {a k : UInt8} (h : a.toNat ≠ k.toNat) : a ≠ k := fun heq => h (congrArg _ heq)
  cases hspells with
  | @one a ha hv =>
      exact raiseLast_append (x := []) _ (hne (by change _ ≠ 0xbf; omega))
        (hne (by change _ ≠ 0xff; omega))
  | @two a b hb hv h =>
      exact raiseLast_append (x := [b]) _ (hne (by change _ ≠ 0xbf; omega))
        (hne (by change _ ≠ 0xff; omega))
  | @three a b c hb hc hv h =>
      exact raiseLast_append (x := [c, b]) _ (hne (by change _ ≠ 0xbf; omega))
        (hne (by change _ ≠ 0xff; omega))
  | @four a b c d hb hc hd hv h =>
      exact raiseLast_append (x := [d, c, b]) _ (hne (by change _ ≠ 0xbf; omega))
        (hne (by change _ ≠ 0xff; omega))

theorem raiseLast_of_hasNext {c : Char} (h : HasNext c) :
    raiseLast (String.utf8EncodeChar c).reverse =
      some (String.utf8EncodeChar (nextChar c)).reverse := by
  have hspells := spells c
  have hnext := spells (nextChar c)
  rw [toNat_nextChar h] at hnext
  simp only [HasNext, List.mem_cons, List.not_mem_nil, or_false, not_or] at h
  generalize String.utf8EncodeChar c = x at hspells
  generalize String.utf8EncodeChar (nextChar c) = y at hnext
  have heq {b k : UInt8} : b = k ↔ b.toNat = k.toNat := UInt8.toNat_inj.symm
  have hsucc (b : UInt8) : (b + 1).toNat = (b.toNat + 1) % 256 := UInt8.toNat_add b 1
  have hbf : (0xbf : UInt8).toNat = 0xbf := rfl
  have hff : (0xff : UInt8).toNat = 0xff := rfl
  have h80 : (0x80 : UInt8).toNat = 0x80 := rfl
  cases hspells <;> cases hnext
  case one.one =>
      simp only [List.reverse_cons, List.reverse_nil, List.nil_append, raiseLast, heq, hff]
      rw [if_neg (by omega), Option.some_inj, List.cons.injEq, heq, hsucc]
      exact ⟨by omega, rfl⟩
  case two.two | three.three | four.four =>
      simp only [List.reverse_cons, List.reverse_nil, List.nil_append, List.cons_append, raiseLast,
        heq, hbf, hff]
      split_ifs
      all_goals first
        | omega
        | simp only [Option.map_some, Option.some_inj, List.cons.injEq, heq, hsucc, h80, and_true]
          omega
  all_goals omega

theorem fromUtf8?_flatMap (cs : List Char) :
    fromUtf8? (cs.flatMap String.utf8EncodeChar) = some (String.ofList cs) := by
  have hbytes : cs.flatMap String.utf8EncodeChar = utf8Bytes (String.ofList cs) := by
    rw [utf8Bytes, String.toList_ofList]
  unfold fromUtf8?
  rw [hbytes, fromUtf8Lossy_utf8Bytes]
  exact if_pos rfl

theorem incrementLastUtf8Byte_of_hasNext (h : HasNext c) :
    incrementLastUtf8Byte ((front ++ [c]).flatMap String.utf8EncodeChar) =
      some (String.ofList (front ++ [nextChar c])) := by
  have hflat (d : Char) : (front ++ [d]).flatMap String.utf8EncodeChar =
      front.flatMap String.utf8EncodeChar ++ String.utf8EncodeChar d := by simp
  unfold incrementLastUtf8Byte
  rw [hflat, raiseLast_reverse, raiseLast_of_hasNext h, Option.map_some, Option.map_some,
    List.reverse_append, List.reverse_reverse, List.reverse_reverse, ← hflat, fromUtf8?_flatMap]
  rfl

structure RaisedLast (c : Char) (raised : Bytes) : Prop where
  nonempty : raised ≠ []
  high : ∀ b ∈ raised, 0x80 ≤ b.toNat
  ascii : c.toNat = 0x7f → raised = [0x80]

theorem exists_raisedLast (h : ¬HasNext c) : ∃ raised, RaisedLast c raised ∧
    raiseLast (String.utf8EncodeChar c).reverse = some raised.reverse ∧
      decodeUtf8Char? raised = none := by
  have hchar {n : Nat} (hc : c.toNat = n) : c = Char.ofNat n := by rw [← hc, Char.ofNat_toNat]
  unfold HasNext at h
  rw [not_not] at h
  simp only [List.mem_cons, List.not_mem_nil, or_false] at h
  obtain h | h | h | h | h := h <;> cases hchar h
  · exact ⟨[0x80], ⟨by decide, by simp, fun _ => rfl⟩, by decide, by decide⟩
  · exact ⟨[0xe0, 0x80], ⟨by decide, by simp, fun h => absurd h (by decide)⟩, by decide, by decide⟩
  · exact ⟨[0xed, 0xa0, 0x80], ⟨by decide, by simp, fun h => absurd h (by decide)⟩, by decide,
      by decide⟩
  · exact ⟨[0xf0, 0x80, 0x80], ⟨by decide, by simp, fun h => absurd h (by decide)⟩, by decide,
      by decide⟩
  · exact ⟨[0xf4, 0x90, 0x80, 0x80], ⟨by decide, by simp, fun h => absurd h (by decide)⟩,
      by decide, by decide⟩

theorem fromUtf8?_of_decode_none {raised : Bytes} (hne : raised ≠ [])
    (h : decodeUtf8Char? raised = none) :
    fromUtf8? (front.flatMap String.utf8EncodeChar ++ raised) = none := by
  unfold fromUtf8?
  refine if_neg fun heq => ?_
  obtain ⟨rest, -, hrest⟩ := exists_append_of_flatMap heq
  cases rest with
  | nil => exact hne hrest.symm
  | cons c rest =>
      rw [← hrest, List.flatMap_cons, decodeUtf8Char?_utf8EncodeChar_append] at h
      cases h

theorem incrementLastUtf8Byte_of_last (front : List Char) (h : ¬HasNext c) :
    ∃ raised, RaisedLast c raised ∧
      incrementLastUtf8Byte ((front ++ [c]).flatMap String.utf8EncodeChar) =
        some (latin1 (front.flatMap String.utf8EncodeChar ++ raised)) := by
  obtain ⟨raised, hraised, heq, hnone⟩ := exists_raisedLast h
  refine ⟨raised, hraised, ?_⟩
  have hflat : (front ++ [c]).flatMap String.utf8EncodeChar =
      front.flatMap String.utf8EncodeChar ++ String.utf8EncodeChar c := by simp
  unfold incrementLastUtf8Byte
  rw [hflat, raiseLast_reverse, heq, Option.map_some, Option.map_some, List.reverse_append,
    List.reverse_reverse, List.reverse_reverse, fromUtf8?_of_decode_none hraised.nonempty hnone]
  rfl

/-! ## Bytes taken as characters -/

def latin1Chars (bytes : Bytes) : List Char := bytes.map fun b => Char.ofNat b.toNat

theorem toNat_latin1 (b : UInt8) : (Char.ofNat b.toNat).toNat = b.toNat :=
  toNat_ofNat (.inl (by have := b.toNat_lt; omega))

theorem latin1Chars_high {bytes : Bytes} (h : ∀ b ∈ bytes, 0x80 ≤ b.toNat) :
    ∀ x ∈ latin1Chars bytes, 0x80 ≤ x.toNat ∧ x.toNat < 0x100 := by
  intro x hx
  obtain ⟨b, hb, rfl⟩ := List.mem_map.mp hx
  rw [toNat_latin1]
  exact ⟨h b hb, b.toNat_lt⟩

@[simp] theorem latin1Chars_append (x y : Bytes) :
    latin1Chars (x ++ y) = latin1Chars x ++ latin1Chars y := List.map_append

theorem latin1Chars_of_ascii (h : c.toNat < 0x80) :
    latin1Chars (String.utf8EncodeChar c) = [c] := by
  rw [utf8EncodeChar_of_lt h]
  refine congrArg (fun d => [d]) (char_ext ?_)
  rw [toNat_latin1, UInt8.toNat_ofNat']
  omega

/-- Texts in two families that compare in one way, which is not a tie, whatever the members. -/
def ToldApart (f g : List Char → List Char) : Prop :=
  ∃ o, o ≠ .eq ∧ ∀ t z, compareChars (f t) (g z) = o

theorem toldApart_cons {f g : List Char → List Char} (e x : Char) (h : e = x → ToldApart f g) :
    ToldApart (fun t => e :: f t) (fun z => x :: g z) := by
  rcases eq_or_ne e x with rfl | hne
  · obtain ⟨o, ho, heq⟩ := h rfl
    refine ⟨o, ho, fun t z => ?_⟩
    rw [compareChars_cons, compareChar_self, Ordering.eq_then, heq]
  · have hcmp : compareChar e x ≠ .eq := fun heq => hne (char_ext (compare_eq_iff_eq.mp heq))
    refine ⟨compareChar e x, hcmp, fun t z => ?_⟩
    rw [compareChars_cons]
    cases h : compareChar e x with
    | eq => exact absurd h hcmp
    | lt | gt => rfl

/--
A text is told apart from its own bytes, taken as characters, by the time it
comes to a character that is none of them.
-/
theorem toldApart_queue (front queue : List Char) (hne : queue ≠ [])
    (hqueue : ∀ x ∈ queue, 0x80 ≤ x.toNat ∧ x.toNat < 0x100)
    (hc : c.toNat < 0x80 ∨ 0x100 ≤ c.toNat) :
    ToldApart (fun t => front ++ c :: t)
      (fun z => queue ++ (latin1Chars (front.flatMap String.utf8EncodeChar) ++ z)) := by
  induction front generalizing queue with
  | nil =>
      obtain ⟨x, queue, rfl⟩ := List.exists_cons_of_ne_nil hne
      have hx := hqueue x (List.mem_cons_self ..)
      exact toldApart_cons (f := id) (g := fun z => queue ++ z) c x (by rintro rfl; omega)
  | cons e front ih =>
      obtain ⟨x, queue, rfl⟩ := List.exists_cons_of_ne_nil hne
      rw [List.forall_mem_cons] at hqueue
      refine toldApart_cons e x ?_
      rintro rfl
      obtain ⟨a, b, rest, hbytes, -, hhigh⟩ := utf8EncodeChar_of_le hqueue.1.1
      have hlatin : latin1Chars (String.utf8EncodeChar e) ≠ [] := by simp [latin1Chars, hbytes]
      have hqueue' : ∀ x ∈ queue ++ latin1Chars (String.utf8EncodeChar e),
          0x80 ≤ x.toNat ∧ x.toNat < 0x100 := by
        intro x hx
        obtain hx | hx := List.mem_append.mp hx
        · exact hqueue.2 x hx
        · exact latin1Chars_high hhigh x hx
      simpa using ih (queue ++ latin1Chars (String.utf8EncodeChar e)) (by simp [hlatin])
        hqueue'

theorem toldApart_latin1 (hfront : ∃ d ∈ front, 0x80 ≤ d.toNat)
    (hc : c.toNat < 0x80 ∨ 0x100 ≤ c.toNat) :
    ToldApart (fun t => front ++ c :: t)
      (fun z => latin1Chars (front.flatMap String.utf8EncodeChar) ++ z) := by
  induction front with
  | nil => simp at hfront
  | cons d front ih =>
      rcases lt_or_ge d.toNat 0x80 with hlt | hge
      · have hrest : ∃ d ∈ front, 0x80 ≤ d.toNat := by
          obtain ⟨e, he, hhigh⟩ := hfront
          obtain rfl | he := List.mem_cons.mp he
          · omega
          · exact ⟨e, he, hhigh⟩
        simpa [latin1Chars_of_ascii hlt] using toldApart_cons d d fun _ => ih hrest
      · obtain ⟨a, b, rest, hbytes, -, hhigh⟩ := utf8EncodeChar_of_le hge
        rw [hbytes, List.forall_mem_cons] at hhigh
        have hqueue := toldApart_queue front (latin1Chars (b :: rest))
          (by simp [latin1Chars]) (latin1Chars_high hhigh.2) hc
        simpa [hbytes, latin1Chars] using
          toldApart_cons d (Char.ofNat a.toNat) fun _ => hqueue

theorem latin1Chars_flatMap_of_ascii {cs : List Char} (h : ∀ c ∈ cs, c.toNat < 0x80) :
    latin1Chars (cs.flatMap String.utf8EncodeChar) = cs := by
  induction cs with
  | nil => rfl
  | cons c cs ih =>
      rw [List.forall_mem_cons] at h
      rw [List.flatMap_cons, latin1Chars_append, latin1Chars_of_ascii h.1, ih h.2,
        List.singleton_append]

end Rustqlite.Codegen
