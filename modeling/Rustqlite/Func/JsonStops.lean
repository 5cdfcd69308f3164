import Rustqlite.Func.JsonParse

/-!
# Where the parser stops

A parser that fails stops between two characters of the text, or inside one.
The second happens in an escape only: a byte after a backslash is passed over
before it is looked at, and so are the four after a `\u`.
-/

namespace Rustqlite.Func.Json

open Foundation

/-! ## Places in a text -/

def OnBoundary (cs : List Char) (rest : Bytes) : Prop :=
  ∃ front tail, cs = front ++ tail ∧ rest = encode tail

def InsideChar (cs : List Char) (rest : Bytes) : Prop :=
  ∃ front c tail k, cs = front ++ c :: tail ∧ 0 < k ∧ k < c.utf8Size ∧
    rest = (encode (c :: tail)).drop k

theorem onBoundary_self (cs : List Char) : OnBoundary cs (encode cs) := ⟨[], cs, rfl, rfl⟩

variable {cs : List Char} {rest : Bytes} {c close : Char} {f : Failure} {b : UInt8} {msg : String}
  {fuel : Nat}

theorem OnBoundary.append (h : OnBoundary cs rest) (front : List Char) :
    OnBoundary (front ++ cs) rest := by
  obtain ⟨f, tail, rfl, rfl⟩ := h
  exact ⟨front ++ f, tail, by simp, rfl⟩

theorem InsideChar.append (h : InsideChar cs rest) (front : List Char) :
    InsideChar (front ++ cs) rest := by
  obtain ⟨f, c, tail, k, rfl, hpos, hlt, rfl⟩ := h
  exact ⟨front ++ f, c, tail, k, by simp, hpos, hlt, rfl⟩

theorem onBoundary_cons (h : OnBoundary cs rest) :
    OnBoundary (c :: cs) rest := h.append [c]

theorem insideChar_cons (h : InsideChar cs rest) :
    InsideChar (c :: cs) rest := h.append [c]

structure Stops {α : Type} (p : Parser α) (broken : List Char → Prop) : Prop where
  boundary : ∀ cs f, p (encode cs) = .error f → ¬ broken cs → OnBoundary cs f.rest
  inside : ∀ cs, broken cs → ∃ f, p (encode cs) = .error f ∧ InsideChar cs f.rest

theorem bind_eq_error {α β : Type} {x : Except Failure α} {k : α → Except Failure β} :
    (x >>= k) = .error f ↔ x = .error f ∨ ∃ a, x = .ok a ∧ k a = .error f := by
  cases x with
  | error e => simp [bind, Except.bind]
  | ok a => simp [bind, Except.bind]

/-! ## Broken texts -/

def Straddles (cs : List Char) : Prop :=
  ∃ front c tail, cs = front ++ c :: tail ∧ (encode front).length < 4 ∧
    4 < (encode front).length + c.utf8Size

def BrokenLow (cs : List Char) : Prop := ∃ t, cs = '\\' :: 'u' :: t ∧ Straddles t

inductive BrokenEscape : List Char → Prop
  | high {c : Char} {cs : List Char} (hc : isAscii c = false) : BrokenEscape (c :: cs)
  | digits {cs : List Char} (h : Straddles cs) : BrokenEscape ('u' :: cs)
  | pair {a b c d : Char} {cs : List Char} {hi : Nat} (hu : codeUnit a b c d = some hi)
      (hhigh : isHighSurrogate hi = true) (h : BrokenLow cs) :
      BrokenEscape ('u' :: a :: b :: c :: d :: cs)

inductive BrokenChars : List Char → Prop
  | mk {cs ds rest : List Char} (h : CharsText cs ds) (hrest : BrokenEscape rest) :
      BrokenChars (cs ++ '\\' :: rest)

inductive BrokenString : List Char → Prop
  | mk {cs : List Char} (h : BrokenChars cs) : BrokenString ('"' :: cs)

section

variable {α : Type}

inductive BrokenParts (part : Grammar α) (broken : List Char → Prop) : List Char → Prop
  | here {w cs : List Char} (hw : Spaces w) (h : broken cs) : BrokenParts part broken (w ++ cs)
  | later {w cs w' rest : List Char} {a : α} (hw : Spaces w) (hpart : part cs a) (hw' : Spaces w')
      (hrest : BrokenParts part broken rest) :
      BrokenParts part broken (w ++ (cs ++ (w' ++ ',' :: rest)))

end

inductive BrokenEntry (broken : List Char → Prop) : List Char → Prop
  | key {cs : List Char} (h : BrokenString cs) : BrokenEntry broken cs
  | value {k w w' cs : List Char} {key : String} (hkey : StringText k key) (hw : Spaces w)
      (hw' : Spaces w') (h : broken cs) : BrokenEntry broken (k ++ (w ++ ':' :: (w' ++ cs)))

inductive BrokenLevel (inner : Grammar JsonNode) (broken : List Char → Prop) : List Char → Prop
  | string {cs : List Char} (h : BrokenString cs) : BrokenLevel inner broken cs
  | array {cs : List Char} (h : BrokenParts inner broken cs) : BrokenLevel inner broken ('[' :: cs)
  | object {cs : List Char} (h : BrokenParts (EntryText inner) (BrokenEntry broken) cs) :
      BrokenLevel inner broken ('{' :: cs)

/-- A value of at most that many levels, as far as an escape that is broken. -/
def BrokenValue : Nat → List Char → Prop
  | 0 => fun _ => False
  | levels + 1 => BrokenLevel (ValueText levels) (BrokenValue levels)

/-! ## Four digits -/

/-- A number of bytes ends with a character, or inside one, unless the text is shorter. -/
theorem cut_cases (cs : List Char) (n : Nat) :
    (∃ front tail, cs = front ++ tail ∧ (encode front).length = n) ∨ (encode cs).length < n ∨
      ∃ front c tail, cs = front ++ c :: tail ∧ (encode front).length < n ∧
        n < (encode front).length + c.utf8Size := by
  induction cs generalizing n with
  | nil =>
      rcases Nat.eq_zero_or_pos n with rfl | hn
      · exact .inl ⟨[], [], rfl, rfl⟩
      · exact .inr (.inl hn)
  | cons c cs ih =>
      have hlen : ∀ front, (encode (c :: front)).length = c.utf8Size + (encode front).length := by
        intro front
        rw [encode_cons, List.length_append, String.length_utf8EncodeChar]
      rcases Nat.lt_or_ge n c.utf8Size with hlt | hge
      · rcases Nat.eq_zero_or_pos n with rfl | hn
        · exact .inl ⟨[], c :: cs, rfl, rfl⟩
        · exact .inr (.inr ⟨[], c, cs, rfl, hn, by simpa using hlt⟩)
      · rcases ih (n - c.utf8Size) with ⟨front, tail, rfl, hf⟩ | hshort | ⟨front, d, tail,
            rfl, hf, hd⟩
        · exact .inl ⟨c :: front, tail, rfl, by rw [hlen]; omega⟩
        · exact .inr (.inl (by rw [hlen]; omega))
        · exact .inr (.inr ⟨c :: front, d, tail, rfl, by rw [hlen]; omega, by rw [hlen]; omega⟩)

theorem drop_encode_append (front tail : List Char) :
    (encode (front ++ tail)).drop (encode front).length = encode tail := by
  rw [encode_append, List.drop_left]

theorem isAscii_eq_false (h : 1 < c.utf8Size) : isAscii c = false := by
  by_contra hc
  have hascii : isAscii c = true := by simpa using hc
  have hlen := String.length_utf8EncodeChar c
  rw [utf8EncodeChar_ascii hascii] at hlen
  simp only [List.length_singleton] at hlen
  omega

theorem hexDigit_of_le (h : 0x80 ≤ b.toNat) : hexDigit b = none := by
  by_contra hsome
  obtain ⟨v, hv⟩ := Option.ne_none_iff_exists'.mp hsome
  exact Nat.not_le_of_lt (lt_of_hexDigit hv) h

theorem high_of_not_isAscii (hc : isAscii c = false) (hb : b ∈ String.utf8EncodeChar c) :
    0x80 ≤ b.toNat := by
  obtain ⟨-, -, -, -, -, hall⟩ := utf8EncodeChar_of_le (c := c) (by simpa [isAscii] using hc)
  exact hall b hb

theorem stops_parse4Hex : Stops parse4Hex Straddles where
  boundary cs f h hbroken := by
    unfold parse4Hex at h
    split at h
    · rename_i a b c d rest hcs
      have hrest : f.rest = (encode cs).drop 4 := by
        rw [hcs]
        split at h
        · cases h
        · cases h
          rfl
      rcases cut_cases cs 4 with ⟨front, tail, rfl, hf⟩ | hshort | hsplit
      · exact ⟨front, tail, rfl, by rw [hrest, ← hf, drop_encode_append]⟩
      · rw [hcs] at hshort
        simp at hshort
        omega
      · exact absurd hsplit hbroken
    · cases h
      exact onBoundary_self cs
  inside cs h := by
    obtain ⟨front, c, tail, rfl, hf, hc⟩ := h
    have hlen := String.length_utf8EncodeChar c
    have hbytes : encode (front ++ c :: tail) =
        encode front ++ (String.utf8EncodeChar c ++ encode tail) := by
      rw [encode_append, encode_cons]
    have hrest : (encode (front ++ c :: tail)).drop 4 =
        (encode (c :: tail)).drop (4 - (encode front).length) := by
      rw [encode_append, List.drop_append, List.drop_eq_nil_of_le (by omega), List.nil_append]
    have hfourth : (encode (front ++ c :: tail))[3]? =
        (String.utf8EncodeChar c)[3 - (encode front).length]? := by
      rw [hbytes, List.getElem?_append_right (by omega), List.getElem?_append_left (by omega)]
    have hstop : InsideChar (front ++ c :: tail) ((encode (front ++ c :: tail)).drop 4) :=
      ⟨front, c, tail, _, rfl, by omega, by omega, hrest⟩
    have hsize := congrArg List.length hbytes
    simp only [List.length_append] at hsize
    generalize encode (front ++ c :: tail) = bytes at hfourth hstop hsize
    match bytes with
    | a :: b :: x :: d :: rest =>
        have hd : hexDigit d = none := by
          have hhigh : isAscii c = false := isAscii_eq_false (by omega)
          exact hexDigit_of_le (high_of_not_isAscii hhigh (List.mem_of_getElem? hfourth.symm))
        refine ⟨⟨rest, "malformed JSON: invalid hex digit in \\u escape"⟩, ?_, hstop⟩
        unfold parse4Hex
        dsimp only
        split
        · rename_i hsome
          rw [hd] at hsome
          cases hsome
        · rfl
    | [] | [_] | [_, _] | [_, _, _] =>
        simp only [List.length_cons, List.length_nil] at hsize
        omega

theorem onBoundary_expect (h : expect c (encode cs) = .error f) : OnBoundary cs f.rest := by
  unfold expect at h
  split at h
  · cases h
  · cases h
    exact onBoundary_self cs

/-! ## Escapes -/

theorem not_broken_escape_nil : ¬ BrokenEscape [] := by
  intro h
  cases h

theorem stops_parseLowSurrogate : Stops parseLowSurrogate BrokenLow where
  boundary cs f h hbroken := by
    unfold parseLowSurrogate at h
    split at h
    · cases h
      exact onBoundary_self cs
    · rename_i rest hslash
      obtain ⟨cs₁, rfl, rfl⟩ := next?_eq_some rfl hslash
      refine onBoundary_cons ?_
      split at h
      · cases h
        exact onBoundary_self cs₁
      · rename_i rest₂ hu
        obtain ⟨cs₂, rfl, rfl⟩ := next?_eq_some rfl hu
        refine onBoundary_cons ?_
        rcases (bind_eq_error).mp h with h | ⟨⟨lo, rest₃⟩, hhex, h⟩
        · exact (stops_parse4Hex).boundary cs₂ f h fun hs => hbroken ⟨cs₂, rfl, hs⟩
        · obtain ⟨a, b, c, d, tail, rfl, rfl, -⟩ := parse4Hex_eq_ok hhex
          dsimp only at h
          split_ifs at h
          cases h
          exact ⟨[a, b, c, d], tail, rfl, rfl⟩
  inside cs h := by
    obtain ⟨t, rfl, ht⟩ := h
    obtain ⟨f, hf, hstop⟩ := (stops_parse4Hex).inside t ht
    refine ⟨f, ?_, insideChar_cons (insideChar_cons hstop)⟩
    unfold parseLowSurrogate
    rw [next?_encode_cons rfl]
    dsimp only
    rw [next?_encode_cons rfl]
    dsimp only
    rw [hf]
    rfl

theorem onBoundary_pushCodePoint {cp : Nat} (h : pushCodePoint cp msg (encode cs) = .error f) :
    OnBoundary cs f.rest := by
  unfold pushCodePoint at h
  split at h <;> cases h
  exact onBoundary_self cs

theorem stops_parseUnit (u : Nat) :
    Stops (parseUnit u) fun cs => isHighSurrogate u = true ∧ BrokenLow cs where
  boundary cs f h hbroken := by
    unfold parseUnit at h
    split_ifs at h with hhigh hlow
    · rcases (bind_eq_error).mp h with h | ⟨⟨lo, rest⟩, hlo, h⟩
      · exact (stops_parseLowSurrogate).boundary cs f h fun hs => hbroken ⟨hhigh, hs⟩
      · obtain ⟨a, b, c, d, tail, rfl, rfl, -⟩ := parseLowSurrogate_eq_ok hlo
        exact (onBoundary_pushCodePoint h).append ['\\', 'u', a, b, c, d]
    · cases h
      exact onBoundary_self cs
    · exact onBoundary_pushCodePoint h
  inside cs h := by
    obtain ⟨f, hf, hstop⟩ := (stops_parseLowSurrogate).inside cs h.2
    refine ⟨f, ?_, hstop⟩
    unfold parseUnit
    rw [if_pos h.1, hf]
    rfl

theorem stops_parseUnicode : Stops parseUnicode fun cs => BrokenEscape ('u' :: cs) where
  boundary cs f h hbroken := by
    rcases (bind_eq_error).mp h with h | ⟨⟨u, rest⟩, hhex, h⟩
    · exact (stops_parse4Hex).boundary cs f h fun hs => hbroken (.digits hs)
    · obtain ⟨a, b, c, d, tail, rfl, rfl, hu⟩ := parse4Hex_eq_ok hhex
      have hrest := (stops_parseUnit u).boundary tail f h fun hs => hbroken (.pair hu hs.1 hs.2)
      exact hrest.append [a, b, c, d]
  inside cs h := by
    generalize hcs : 'u' :: cs = esc at h
    cases h with
    | high hc =>
        cases hcs
        cases hc
    | digits hs =>
        cases hcs
        obtain ⟨f, hf, hstop⟩ := (stops_parse4Hex).inside cs hs
        exact ⟨f, by rw [parseUnicode, hf]; rfl, hstop⟩
    | @pair a b c d tail hi hu hhigh hlow =>
        cases hcs
        obtain ⟨f, hf, hstop⟩ := (stops_parseUnit hi).inside tail ⟨hhigh, hlow⟩
        refine ⟨f, ?_, hstop.append [a, b, c, d]⟩
        rw [parseUnicode, parse4Hex_encode hu, ok_bind]
        exact hf

theorem find?_shortEscapes_of_le (h : 0x80 ≤ b.toNat) :
    (shortEscapes.find? fun e => e.1.toUInt8 = b) = none := by
  by_contra hsome
  obtain ⟨⟨e, c⟩, hfind⟩ := Option.ne_none_iff_exists'.mp hsome
  obtain ⟨hmem, rfl⟩ := find?_shortEscapes hfind
  have hascii := isAscii_of_mem_shortEscapes hmem
  rw [toNat_toUInt8 hascii] at h
  simp only [isAscii, decide_eq_true_eq] at hascii
  omega

theorem stops_parseEscape : Stops parseEscape BrokenEscape where
  boundary cs f h hbroken := by
    cases cs with
    | nil =>
        cases h
        exact onBoundary_self []
    | cons c cs =>
        have hc : isAscii c = true := by
          by_contra hc
          exact hbroken (.high (by simpa using hc))
        rw [encode_cons_ascii hc, parseEscape] at h
        refine onBoundary_cons ?_
        split at h
        · cases h
        · split_ifs at h with hu
          · obtain rfl := toUInt8_inj hc rfl hu
            exact (stops_parseUnicode).boundary cs f h hbroken
          · cases h
            exact onBoundary_self cs
  inside cs h := by
    cases cs with
    | nil => exact absurd h not_broken_escape_nil
    | cons c cs =>
        by_cases hc : isAscii c = true
        · have hu : c = 'u' := by
            cases h with
            | high hhigh => rw [hc] at hhigh; cases hhigh
            | digits _ => rfl
            | pair _ _ _ => rfl
          subst hu
          obtain ⟨f, hf, hstop⟩ := (stops_parseUnicode).inside cs h
          exact ⟨f, by rw [encode_cons_ascii rfl, parseEscape_u, hf], insideChar_cons hstop⟩
        · obtain ⟨a, b, rest, henc, -, hall⟩ :=
            utf8EncodeChar_of_le (c := c) (by simpa [isAscii] using hc)
          have ha : 0x80 ≤ a.toNat := hall a (by rw [henc]; exact List.mem_cons_self)
          have hlen := String.length_utf8EncodeChar c
          rw [henc] at hlen
          have hne : a ≠ 'u'.toUInt8 := by
            rintro rfl
            exact absurd ha (by decide)
          refine ⟨⟨b :: rest ++ encode cs, "malformed JSON: invalid escape character"⟩, ?_,
            [], c, cs, 1, rfl, by omega, by simp at hlen; omega, ?_⟩
          · rw [encode_cons, henc, List.cons_append, parseEscape, find?_shortEscapes_of_le ha]
            exact if_neg hne
          · rw [encode_cons, henc]
            rfl

/-! ## Strings -/

theorem BrokenChars.cons {cs unit : List Char} {c : Char} (hunit : CharText unit c)
    (h : BrokenChars cs) : BrokenChars (unit ++ cs) := by
  obtain ⟨hchars, hrest⟩ := h
  rw [← List.append_assoc]
  exact .mk (.cons hunit hchars) hrest

theorem BrokenChars.prepend {front : List Char} (hfront : ∀ c ∈ front, Plain c)
    (h : BrokenChars cs) :
    BrokenChars (front ++ cs) := by
  obtain ⟨hchars, hrest⟩ := h
  rw [← List.append_assoc]
  exact .mk (hchars.prepend hfront) hrest

theorem onBoundary_parseStringLoop {out : List Char}
    (h : parseStringLoop fuel out (encode cs) = .error f) (hbroken : ¬ BrokenChars cs) :
    OnBoundary cs f.rest := by
  induction fuel generalizing out cs with
  | zero =>
      rw [parseStringLoop] at h
      cases h
      exact onBoundary_self cs
  | succ fuel ih =>
      cases cs with
      | nil =>
          cases h
          exact onBoundary_self []
      | cons c cs =>
          by_cases hquote : c = '"'
          · subst hquote
            rw [parseStringLoop_quote] at h
            cases h
          by_cases hslash : c = '\\'
          · subst hslash
            rw [parseStringLoop_slash] at h
            refine onBoundary_cons ?_
            rcases (bind_eq_error).mp h with h | ⟨⟨ch, rest⟩, hesc, h⟩
            · exact (stops_parseEscape).boundary cs f h fun hs => hbroken (.mk .nil hs)
            · obtain ⟨esc, cs', rfl, rfl, htext⟩ := sound_parseEscape cs ch rest hesc
              exact (ih h fun hs => hbroken (hs.cons htext)).append esc
          by_cases hlow : c.toNat < 0x20
          · have hascii : isAscii c = true := decide_eq_true (hlow.trans (by norm_num))
            rw [encode_cons_ascii hascii, parseStringLoop,
              if_neg fun h => hquote (toUInt8_inj hascii rfl h),
              if_neg fun h => hslash (toUInt8_inj hascii rfl h),
              if_pos (toUInt8_lt_space hlow), ← encode_cons_ascii hascii] at h
            cases h
            exact onBoundary_self (c :: cs)
          · obtain ⟨chunk, cs', hsplit, -, hplain, hstep⟩ :=
              parseStringLoop_plain ⟨Nat.le_of_not_lt hlow, hquote, hslash⟩ fuel out cs
            rw [hstep] at h
            rw [hsplit] at hbroken ⊢
            exact (ih h fun hs => hbroken (hs.prepend hplain)).append chunk

theorem insideChar_parseStringLoop (out : List Char) (h : BrokenChars cs)
    (hfuel : cs.length < fuel) :
    ∃ f, parseStringLoop fuel out (encode cs) = .error f ∧ InsideChar cs f.rest := by
  induction fuel generalizing out cs with
  | zero => cases hfuel
  | succ fuel ih =>
      obtain @⟨_, _, rest, hchars, hrest⟩ := h
      cases hchars with
      | nil =>
          obtain ⟨f, hf, hstop⟩ := (stops_parseEscape).inside _ hrest
          refine ⟨f, ?_, insideChar_cons hstop⟩
          rw [List.nil_append, parseStringLoop_slash, hf]
          rfl
      | @cons cs ds unit c hunit hchars =>
          obtain ⟨rfl, hc⟩ | ⟨esc, rfl, htext⟩ := hunit.eq_or_escape
          · obtain ⟨chunk, cs', hsplit, hne, hplain, hstep⟩ :=
              parseStringLoop_plain hc fuel out (cs ++ '\\' :: rest)
            obtain ⟨front, ds', hchars', hfront, -, rfl⟩ :=
              (CharsText.cons hunit hchars).split not_plain_slash hplain hsplit
            have hpos := List.length_pos_of_ne_nil hne
            have hlen := congrArg List.length hsplit
            simp only [List.length_cons, List.length_append] at hlen hfuel
            obtain ⟨f, hf, hstop⟩ := ih (out ++ chunk) (.mk hchars' hrest) (by simp; omega)
            refine ⟨f, hstep.trans hf, ?_⟩
            change InsideChar (c :: (cs ++ _)) f.rest
            rw [hsplit]
            exact hstop.append chunk
          · simp only [List.length_cons, List.length_append] at hfuel
            obtain ⟨f, hf, hstop⟩ := ih (out ++ [c]) (.mk hchars hrest) (by simp; omega)
            have hesc := complete_parseEscape esc c (cs ++ '\\' :: rest) htext trivial
            rw [List.append_assoc]
            refine ⟨f, ?_, hstop.append ('\\' :: esc)⟩
            rw [List.cons_append, parseStringLoop_slash, hesc, ok_bind]
            exact hf

theorem stops_parseString : Stops parseString BrokenString where
  boundary cs f h hbroken := by
    rcases (bind_eq_error).mp h with h | ⟨⟨⟨⟩, rest⟩, hquote, h⟩
    · exact onBoundary_expect h
    · obtain ⟨cs', rfl, rfl⟩ := expect_eq_ok rfl hquote
      exact onBoundary_cons (onBoundary_parseStringLoop h fun hs => hbroken (.mk hs))
  inside cs h := by
    obtain ⟨hchars⟩ := h
    obtain ⟨f, hf, hstop⟩ := insideChar_parseStringLoop [] hchars
      (Nat.lt_succ_of_le (length_le_length_encode _))
    refine ⟨f, ?_, insideChar_cons hstop⟩
    rw [parseString, expect_encode_cons rfl, ok_bind]
    exact hf

/-! ## Numbers and literals -/

theorem onBoundary_parseDigits (h : parseDigits msg (encode cs) = .error f) :
    OnBoundary cs f.rest := by
  unfold parseDigits at h
  split at h
  · cases h
    exact onBoundary_self cs
  · cases h

theorem onBoundary_parseInteger (h : parseInteger (encode cs) = .error f) :
    OnBoundary cs f.rest := by
  cases hcs : encode cs with
  | nil =>
      rw [hcs] at h
      cases h
      exact ⟨cs, [], (List.append_nil cs).symm, rfl⟩
  | cons b after =>
      rw [hcs, parseInteger] at h
      cases hd : digit? b with
      | none =>
          rw [hd] at h
          cases h
          rw [← hcs]
          exact onBoundary_self cs
      | some d =>
          simp only [hd] at h
          split_ifs at h

theorem onBoundary_parseFraction (h : parseFraction (encode cs) = .error f) :
    OnBoundary cs f.rest := by
  unfold parseFraction at h
  split at h
  · cases h
  · rename_i rest hdot
    obtain ⟨cs', rfl, rfl⟩ := next?_eq_some rfl hdot
    rcases (bind_eq_error).mp h with h | ⟨_, _, h⟩
    · exact onBoundary_cons (onBoundary_parseDigits h)
    · cases h

theorem onBoundary_parseExponent (h : parseExponent (encode cs) = .error f) :
    OnBoundary cs f.rest := by
  unfold parseExponent at h
  split at h
  · cases h
  · rename_i rest hfound
    obtain ⟨mark, cs', -, rfl, rfl⟩ := exists_mark hfound
    obtain ⟨sign, tail, rfl, -, hrest⟩ := sound_sign cs'
    dsimp only at h
    rw [hrest] at h
    rcases (bind_eq_error).mp h with h | ⟨_, _, h⟩
    · exact (onBoundary_parseDigits h).append (mark :: sign)
    · cases h

theorem onBoundary_parseNumber (h : parseNumber (encode cs) = .error f) : OnBoundary cs f.rest := by
  obtain ⟨cs', hcs, hrest⟩ := sound_minus cs
  unfold parseNumber at h
  dsimp only at h
  rw [hrest] at h
  suffices hstop : OnBoundary cs' f.rest by
    rw [hcs]
    exact hstop.append _
  rcases (bind_eq_error).mp h with h | ⟨⟨int, rest₁⟩, hint, h⟩
  · exact onBoundary_parseInteger h
  obtain ⟨cs₁, rfl, rfl, -⟩ := sound_parseInteger hint
  refine OnBoundary.append ?_ (spellDigits int)
  rcases (bind_eq_error).mp h with h | ⟨⟨frac, rest₂⟩, hfrac, h⟩
  · exact onBoundary_parseFraction h
  obtain ⟨front, cs₂, rfl, rfl, -⟩ := sound_parseFraction _ _ _ hfrac
  refine OnBoundary.append ?_ front
  rcases (bind_eq_error).mp h with h | ⟨_, _, h⟩
  · exact onBoundary_parseExponent h
  · cases h

theorem onBoundary_parseLiteral {lit : String} {value : JsonNode}
    (h : parseLiteral lit value (encode cs) = .error f) : OnBoundary cs f.rest := by
  unfold parseLiteral at h
  split_ifs at h
  cases h
  exact onBoundary_self cs

/-! ## Arrays and objects -/

section

variable {α : Type} {g : Grammar α} {part : Parser α} {broken : List Char → Prop} {close : Char}

theorem BrokenParts.prepend {w : List Char} (hw : Spaces w) (h : BrokenParts g broken cs) :
    BrokenParts g broken (w ++ cs) := by
  cases h with
  | here hw' hpart =>
      rw [← List.append_assoc]
      exact .here (hw.append hw') hpart
  | later hw₁ hpart hw' hrest =>
      rw [← List.append_assoc]
      exact .later (hw.append hw₁) hpart hw' hrest

theorem onBoundary_parseParts (hsound : Sound part g) (hstops : Stops part broken) {parts : List α}
    (h : parseParts part close msg fuel parts (encode cs) = .error f)
    (hbroken : ¬ BrokenParts g broken cs) : OnBoundary cs f.rest := by
  induction fuel generalizing parts cs with
  | zero =>
      cases h
      exact onBoundary_self cs
  | succ fuel ih =>
      obtain ⟨w, cs₁, rfl, hw, hskip⟩ := exists_skipWs cs
      rw [parseParts, hskip] at h
      refine OnBoundary.append ?_ w
      rcases (bind_eq_error).mp h with h | ⟨⟨a, rest₁⟩, hread, h⟩
      · exact hstops.boundary cs₁ f h fun hs => hbroken (.here hw hs)
      obtain ⟨p, cs₂, rfl, rfl, hp⟩ := hsound _ _ _ hread
      obtain ⟨w', cs₃, rfl, hw', hskip'⟩ := exists_skipWs cs₂
      dsimp only at h
      rw [hskip'] at h
      refine (OnBoundary.append ?_ w').append p
      split at h
      · rename_i hcomma
        obtain ⟨cs₄, rfl, rfl⟩ := next?_eq_some rfl hcomma
        exact onBoundary_cons (ih h fun hs => hbroken (.later hw hp hw' hs))
      · cases h
      · cases h
        exact onBoundary_self cs₃

def BrokenBefore (broken : List Char → Prop) (close : Char) : Prop :=
  ∀ cs, broken cs → ∃ c cs', cs = c :: cs' ∧ isSpace c = false ∧ c ≠ close

theorem BrokenBefore.tight (h : BrokenBefore broken close) (hcs : broken cs) : Tight cs := by
  obtain ⟨c, cs', rfl, hc, -⟩ := h cs hcs
  exact tight_cons hc

variable {follow : List Char → Prop}

theorem insideChar_parseParts (hcomplete : Complete part g follow) (hstart : StartsBefore g close)
    (hfollow : FollowsBefore follow close) (hstops : Stops part broken)
    (hbefore : BrokenBefore broken close) (msg : String) (parts : List α)
    (h : BrokenParts g broken cs) (hfuel : cs.length < fuel) :
    ∃ f, parseParts part close msg fuel parts (encode cs) = .error f ∧ InsideChar cs f.rest := by
  induction h generalizing fuel parts with
  | @here w cs hw hcs =>
      obtain ⟨fuel, rfl⟩ : ∃ n, fuel = n + 1 := ⟨fuel - 1, by omega⟩
      obtain ⟨f, hf, hstop⟩ := hstops.inside cs hcs
      refine ⟨f, ?_, hstop.append w⟩
      rw [parseParts, skipWs_append hw (hbefore.tight hcs), hf]
      rfl
  | @later w cs w' rest a hw hp hw' _ ih =>
      obtain ⟨fuel, rfl⟩ : ∃ n, fuel = n + 1 := ⟨fuel - 1, by omega⟩
      simp only [List.length_append, List.length_cons] at hfuel
      have hrest : rest.length < fuel := by omega
      obtain ⟨f, hf, hstop⟩ := ih (parts ++ [a]) hrest
      refine ⟨f, ?_, (((insideChar_cons hstop).append w').append cs).append w⟩
      rw [parseParts, skipWs_append hw (hstart.tight hp _),
        hcomplete cs a _ hp (hfollow w' ',' rest hw' (.inl rfl)), ok_bind]
      dsimp only
      rw [skipWs_append hw' (tight_cons rfl), next?_encode_cons rfl]
      exact hf

theorem BrokenParts.strip (hstart : StartsBefore g close) (hbefore : BrokenBefore broken close)
    (h : BrokenParts g broken cs) : ∃ w cs', cs = w ++ cs' ∧ Spaces w ∧
      BrokenParts g broken cs' ∧ Tight cs' ∧ cs'.head? ≠ some close := by
  have hnil : Spaces [] := fun c hc => by cases hc
  cases h with
  | @here w cs hw hcs =>
      refine ⟨w, cs, rfl, hw, .here hnil hcs, ?_⟩
      obtain ⟨c, cs', rfl, hc, hne⟩ := hbefore cs hcs
      exact ⟨tight_cons hc, fun heq => hne (Option.some.inj heq)⟩
  | @later w cs w' rest a hw hp hw' hrest =>
      refine ⟨w, _, rfl, hw, .later hnil hp hw' hrest, ?_⟩
      obtain ⟨c, cs', rfl, hc, hne⟩ := hstart cs a hp
      exact ⟨tight_cons hc, fun heq => hne (Option.some.inj heq)⟩

theorem stops_parseBracketed {«open» : Char} (hsound : Sound part g)
    (hcomplete : Complete part g follow) (hstart : StartsBefore g close)
    (hfollow : FollowsBefore follow close) (hstops : Stops part broken)
    (hbefore : BrokenBefore broken close) (hopen : isAscii «open» = true)
    (hclose : isAscii close = true) (msg : String) :
    Stops (parseBracketed part «open» close msg) fun cs =>
      ∃ cs', cs = «open» :: cs' ∧ BrokenParts g broken cs' where
  boundary cs f h hbroken := by
    rcases (bind_eq_error).mp h with h | ⟨⟨⟨⟩, rest⟩, hexpect, h⟩
    · exact onBoundary_expect h
    obtain ⟨cs₁, rfl, rfl⟩ := expect_eq_ok hopen hexpect
    obtain ⟨w, cs₂, rfl, hw, hskip⟩ := exists_skipWs cs₁
    dsimp only at h
    rw [hskip] at h
    split at h
    · cases h
    · have hstop := onBoundary_parseParts hsound hstops h fun hs =>
        hbroken ⟨_, rfl, hs.prepend hw⟩
      exact onBoundary_cons (hstop.append w)
  inside cs h := by
    obtain ⟨_, rfl, h⟩ := h
    obtain ⟨w, cs, rfl, hw, hparts, htight, hne⟩ := h.strip hstart hbefore
    have hfuel : cs.length < (encode (w ++ cs)).length + 1 := by
      have hle := length_le_length_encode (w ++ cs)
      rw [List.length_append] at hle
      omega
    obtain ⟨f, hf, hstop⟩ :=
      insideChar_parseParts hcomplete hstart hfollow hstops hbefore msg [] hparts hfuel
    refine ⟨f, ?_, insideChar_cons (hstop.append w)⟩
    rw [parseBracketed, expect_encode_cons hopen, ok_bind]
    dsimp only
    rw [skipWs_append hw htight, next?_eq_none hclose hne]
    exact hf

end

theorem stops_parseEntry {value : Parser JsonNode} {broken : List Char → Prop}
    (hstops : Stops value broken) (hbefore : BrokenBefore broken close) :
    Stops (parseEntry value) (BrokenEntry broken) where
  boundary cs f h hbroken := by
    unfold parseEntry at h
    split_ifs at h
    · cases h
      exact onBoundary_self cs
    rcases (bind_eq_error).mp h with h | ⟨⟨key, rest₁⟩, hkey, h⟩
    · exact (stops_parseString).boundary cs f h fun hs => hbroken (.key hs)
    obtain ⟨k, cs₁, rfl, rfl, hk⟩ := sound_parseString _ _ _ hkey
    obtain ⟨w, cs₂, rfl, hw, hskip⟩ := exists_skipWs cs₁
    dsimp only at h
    rw [hskip] at h
    refine (OnBoundary.append ?_ w).append k
    split at h
    · cases h
      exact onBoundary_self cs₂
    · rename_i hcolon
      obtain ⟨cs₃, rfl, rfl⟩ := next?_eq_some rfl hcolon
      obtain ⟨w', cs₄, rfl, hw', hskip'⟩ := exists_skipWs cs₃
      rw [hskip'] at h
      refine onBoundary_cons (OnBoundary.append ?_ w')
      rcases (bind_eq_error).mp h with h | ⟨_, _, h⟩
      · exact hstops.boundary cs₄ f h fun hs => hbroken (.value hk hw hw' hs)
      · cases h
  inside cs h := by
    cases h with
    | key hs =>
        obtain ⟨f, hf, hstop⟩ := (stops_parseString).inside cs hs
        refine ⟨f, ?_, hstop⟩
        obtain ⟨hchars⟩ := hs
        unfold parseEntry
        rw [next?_encode_cons rfl, if_neg (by simp), hf]
        rfl
    | @value k w w' cs key hkey hw hw' hs =>
        obtain ⟨f, hf, hstop⟩ := hstops.inside cs hs
        refine ⟨f, ?_, ((insideChar_cons (hstop.append w')).append w).append k⟩
        have hquote : (next? '"' (encode (k ++ (w ++ ':' :: (w' ++ cs))))).isNone = false := by
          cases hkey with
          | mk _ =>
              rw [List.append_assoc, List.cons_append, next?_encode_cons rfl]
              rfl
        unfold parseEntry
        rw [hquote, if_neg (by simp), complete_parseString k key _ hkey trivial, ok_bind]
        dsimp only
        rw [skipWs_append hw (tight_cons rfl), next?_encode_cons rfl]
        dsimp only
        rw [skipWs_append hw' (hbefore.tight hs), hf]
        rfl

/-! ## Values -/

theorem brokenBefore_value (room : Nat) (h : close = ']' ∨ close = '}') :
    BrokenBefore (BrokenValue room) close := by
  have hne : ∀ c, c ≠ ']' → c ≠ '}' → c ≠ close := by
    rintro c hbracket hbrace rfl
    obtain rfl | rfl := h
    · exact hbracket rfl
    · exact hbrace rfl
  cases room with
  | zero => exact fun cs hs => hs.elim
  | succ room =>
      rintro cs (⟨⟨hs⟩⟩ | hs | hs)
      · exact ⟨'"', _, rfl, rfl, hne _ (by decide) (by decide)⟩
      · exact ⟨'[', _, rfl, rfl, hne _ (by decide) (by decide)⟩
      · exact ⟨'{', _, rfl, rfl, hne _ (by decide) (by decide)⟩

theorem brokenBefore_entry (broken : List Char → Prop) : BrokenBefore (BrokenEntry broken) '}' := by
  rintro cs (⟨⟨hs⟩⟩ | ⟨⟨hs⟩, hw, hw', hvalue⟩)
  · exact ⟨'"', _, rfl, rfl, by decide⟩
  · exact ⟨'"', _, rfl, rfl, by decide⟩

theorem stops_parseValue (room : Nat) : Stops (parseValue room) (BrokenValue room) := by
  induction room with
  | zero =>
      constructor
      · rintro cs f h -
        cases h
        exact onBoundary_self cs
      · exact fun cs h => h.elim
  | succ room ih =>
      have hsound := sound_parseValue room
      have hcomplete := complete_parseValue room
      have harray := stops_parseBracketed hsound hcomplete (startsBefore_value room (.inl rfl))
        (followsBefore_numberEnds (.inl rfl)) ih (brokenBefore_value room (.inl rfl))
        (rfl : isAscii '[' = true) rfl "expected ',' or ']' in array"
      have hobject := stops_parseBracketed (sound_parseEntry hsound)
        (complete_parseEntry hcomplete (startsBefore_value room (.inr rfl)))
        (startsBefore_entry _) (followsBefore_numberEnds (.inr rfl))
        (stops_parseEntry ih (brokenBefore_value room (.inr rfl)))
        (brokenBefore_entry _) (rfl : isAscii '{' = true) rfl "expected ',' or '\x7d' in object"
      constructor
      · intro cs f h hbroken
        cases hcs : encode cs with
        | nil =>
            rw [hcs] at h
            cases h
            exact ⟨cs, [], (List.append_nil cs).symm, rfl⟩
        | cons b after =>
            rw [hcs, parseValue] at h
            dsimp only at h
            rw [← hcs] at h
            split_ifs at h
            · rcases (bind_eq_error).mp h with h | ⟨_, _, h⟩
              · refine hobject.boundary cs f h ?_
                rintro ⟨cs, rfl, hs⟩
                exact hbroken (.object hs)
              · cases h
            · rcases (bind_eq_error).mp h with h | ⟨_, _, h⟩
              · refine harray.boundary cs f h ?_
                rintro ⟨cs, rfl, hs⟩
                exact hbroken (.array hs)
              · cases h
            · rcases (bind_eq_error).mp h with h | ⟨_, _, h⟩
              · exact (stops_parseString).boundary cs f h fun hs => hbroken (.string hs)
              · cases h
            · exact onBoundary_parseLiteral h
            · exact onBoundary_parseLiteral h
            · exact onBoundary_parseLiteral h
            · exact onBoundary_parseNumber h
            · cases h
              exact onBoundary_self cs
      · rintro cs (hs | ⟨hs⟩ | ⟨hs⟩)
        · obtain ⟨f, hf, hstop⟩ := (stops_parseString).inside cs hs
          refine ⟨f, ?_, hstop⟩
          obtain ⟨hchars⟩ := hs
          refine (parseValue_cons room (c := '"') rfl _).trans ?_
          exact (congrArg (· >>= _) hf).trans rfl
        · obtain ⟨f, hf, hstop⟩ := harray.inside _ ⟨_, rfl, hs⟩
          refine ⟨f, (parseValue_cons room (c := '[') rfl _).trans ?_, hstop⟩
          exact (congrArg (· >>= _) hf).trans rfl
        · obtain ⟨f, hf, hstop⟩ := hobject.inside _ ⟨_, rfl, hs⟩
          refine ⟨f, (parseValue_cons room (c := '{') rfl _).trans ?_, hstop⟩
          exact (congrArg (· >>= _) hf).trans rfl

end Rustqlite.Func.Json
