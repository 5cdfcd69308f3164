import Rustqlite.Func.Json
import Mathlib.Data.List.TakeWhile

/-!
# The parser takes strings

Space and strings are read as the grammar has them: every string at the front of
a text is taken, and nothing else is.
-/

namespace Rustqlite.Func.Json

open Foundation

variable {rest rest' : Bytes} {msg : String} {c d a ch e : Char} {cs w tail front ds : List Char}
  {b : UInt8} {v u lo cp : Nat}

@[simp] theorem malformed_ne_ok {α : Type} {a : α} : malformed rest msg ≠ .ok (a, rest') := by
  simp [malformed]

theorem bind_eq_ok {α β : Type} {x : Except Failure α} {f : α → Except Failure β} {b : β} :
    (x >>= f) = .ok b ↔ ∃ a, x = .ok a ∧ f a = .ok b := by
  cases x with
  | error e => simp [bind, Except.bind]
  | ok a => simp [bind, Except.bind]

@[simp] theorem ok_bind {α β : Type} (a : α) (f : α → Except Failure β) :
    ((.ok a : Except Failure α) >>= f) = f a := rfl

/-! ## The next character -/

@[simp] theorem next?_encode_cons (hc : isAscii c = true) (cs : List Char) :
    next? c (encode (c :: cs)) = some (encode cs) := by
  rw [encode_cons_ascii hc, next?, if_pos rfl]

theorem next?_eq_some (hc : isAscii c = true) (h : next? c (encode cs) = some rest) :
    ∃ cs', cs = c :: cs' ∧ rest = encode cs' := by
  cases hcs : encode cs with
  | nil =>
      rw [hcs] at h
      cases h
  | cons b after =>
      rw [hcs, next?] at h
      split_ifs at h with hb
      cases h
      rw [hb] at hcs
      exact exists_cons_of_encode hc hcs

theorem next?_eq_none (hc : isAscii c = true) (h : cs.head? ≠ some c) :
    next? c (encode cs) = none := by
  cases hnext : next? c (encode cs) with
  | none => rfl
  | some rest =>
      obtain ⟨cs', rfl, -⟩ := next?_eq_some hc hnext
      exact absurd rfl h

theorem expect_eq_ok (hc : isAscii c = true) (h : expect c (encode cs) = .ok ((), rest)) :
    ∃ cs', cs = c :: cs' ∧ rest = encode cs' := by
  unfold expect at h
  split at h
  next rest' hnext =>
    cases h
    exact next?_eq_some hc hnext
  next => cases h

@[simp] theorem expect_encode_cons (hc : isAscii c = true) (cs : List Char) :
    expect c (encode (c :: cs)) = .ok ((), encode cs) := by
  rw [expect, next?_encode_cons hc]

/-! ## Space -/

theorem isAscii_of_isSpace (h : isSpace c = true) : isAscii c = true := by
  simp only [isSpace, Bool.or_eq_true, decide_eq_true_eq] at h
  obtain ((rfl | rfl) | rfl) | rfl := h <;> rfl

theorem isWs_toUInt8 (hc : isAscii c = true) : isWs c.toUInt8 = isSpace c := by
  have hinj : ∀ d, isAscii d = true → (c.toUInt8 = d.toUInt8 ↔ c = d) := fun d hd =>
    ⟨toUInt8_inj hc hd, congrArg Char.toUInt8⟩
  simp only [isWs, isSpace, hinj ' ' rfl, hinj '\t' rfl, hinj '\n' rfl, hinj '\r' rfl]

theorem isWs_of_le (h : 0x80 ≤ b.toNat) : isWs b = false := by
  have hne : ∀ d : Char, isAscii d = true → b ≠ d.toUInt8 := by
    rintro d hd rfl
    rw [toNat_toUInt8 hd] at h
    simp only [isAscii, decide_eq_true_eq] at hd
    omega
  simp [isWs, hne ' ' rfl, hne '\t' rfl, hne '\n' rfl, hne '\r' rfl]

theorem skipWs_encode (cs : List Char) : skipWs (encode cs) = encode (cs.dropWhile isSpace) := by
  refine (takeWhile_encode isWs isSpace ?_ ?_ cs).2
  · intro c hc b hb
    have hascii := isAscii_of_isSpace hc
    rw [utf8EncodeChar_ascii hascii, List.mem_singleton] at hb
    rw [hb, isWs_toUInt8 hascii, hc]
  · intro c hc b rest henc
    by_cases hascii : isAscii c = true
    · rw [utf8EncodeChar_ascii hascii, List.cons.injEq] at henc
      rw [← henc.1, isWs_toUInt8 hascii, hc]
    · obtain ⟨a, b', rest', henc', hlead, -⟩ :=
        utf8EncodeChar_of_le (c := c) (by simpa [isAscii] using hascii)
      rw [henc, List.cons.injEq] at henc'
      rw [henc'.1]
      exact isWs_of_le (by omega)

theorem exists_skipWs (cs : List Char) :
    ∃ w tail, cs = w ++ tail ∧ Spaces w ∧ skipWs (encode cs) = encode tail :=
  ⟨cs.takeWhile isSpace, cs.dropWhile isSpace, (List.takeWhile_append_dropWhile).symm,
    fun _ hc => List.mem_takeWhile_imp hc, skipWs_encode cs⟩

def Tight (cs : List Char) : Prop := ∀ c, cs.head? = some c → isSpace c = false

theorem tight_cons (h : isSpace c = false) : Tight (c :: cs) := by
  rintro d hd
  cases hd
  exact h

theorem Spaces.append {w' : List Char} (h : Spaces w) (h' : Spaces w') : Spaces (w ++ w') := by
  intro c hc
  obtain hc | hc := List.mem_append.mp hc
  · exact h c hc
  · exact h' c hc

theorem skipWs_append (hw : Spaces w) (htail : Tight tail) :
    skipWs (encode (w ++ tail)) = encode tail := by
  rw [skipWs_encode, List.dropWhile_append_of_pos hw]
  cases tail with
  | nil => rfl
  | cons c tail => rw [List.dropWhile_cons_of_neg (by simp [htail c rfl])]

/-! ## Escapes -/

theorem charFromU32_eq_some {n : Nat} : charFromU32 n = some c ↔ c.toNat = n := by
  unfold charFromU32
  constructor
  · intro h
    split_ifs at h with hvalid
    cases h
    rfl
  · rintro rfl
    have hvalid : c.toNat.isValidChar := c.valid
    rw [dif_pos hvalid]
    rfl

theorem toUInt8_le_iff (hc : isAscii c = true) (hd : isAscii d = true) :
    c.toUInt8 ≤ d.toUInt8 ↔ c ≤ d := by
  rw [UInt8.le_iff_toNat_le, toNat_toUInt8 hc, toNat_toUInt8 hd]
  rfl

theorem hexDigit_toUInt8 (hc : isAscii c = true) : hexDigit c.toUInt8 = hexValue c := by
  simp only [hexDigit, hexValue, toUInt8_le_iff (c := '0') rfl hc, toUInt8_le_iff hc (d := '9') rfl,
    toUInt8_le_iff (c := 'a') rfl hc, toUInt8_le_iff hc (d := 'f') rfl,
    toUInt8_le_iff (c := 'A') rfl hc, toUInt8_le_iff hc (d := 'F') rfl, toNat_toUInt8 hc]

theorem isAscii_of_le (hd : isAscii d = true) (h : c ≤ d) : isAscii c = true := by
  have hle : c.toNat ≤ d.toNat := h
  simp only [isAscii, decide_eq_true_eq] at *
  omega

theorem isAscii_of_hexValue (h : hexValue c = some v) : isAscii c = true := by
  unfold hexValue at h
  split_ifs at h with h1 h2 h3
  · exact isAscii_of_le rfl h1.2
  · exact isAscii_of_le rfl h2.2
  · exact isAscii_of_le rfl h3.2

theorem lt_of_hexDigit (h : hexDigit b = some v) : b.toNat < 0x80 := by
  unfold hexDigit at h
  split_ifs at h with h1 h2 h3
  · exact (UInt8.le_iff_toNat_le.mp h1.2).trans_lt (by decide)
  · exact (UInt8.le_iff_toNat_le.mp h2.2).trans_lt (by decide)
  · exact (UInt8.le_iff_toNat_le.mp h3.2).trans_lt (by decide)

theorem exists_cons_of_hexDigit (hv : hexDigit b = some v) (h : encode cs = b :: rest) :
    ∃ c cs', hexValue c = some v ∧ cs = c :: cs' ∧ rest = encode cs' := by
  obtain ⟨c, cs', hc, rfl, rfl, hrest⟩ := exists_cons_of_lt (lt_of_hexDigit hv) h
  exact ⟨c, cs', hexDigit_toUInt8 hc ▸ hv, rfl, hrest⟩

theorem parse4Hex_eq_ok (h : parse4Hex (encode cs) = .ok (u, rest)) :
    ∃ a b c d tail, cs = a :: b :: c :: d :: tail ∧ rest = encode tail ∧
      codeUnit a b c d = some u := by
  unfold parse4Hex at h
  split at h
  next a b c d after hcs =>
    split at h
    next ha hb hc hd =>
      cases h
      obtain ⟨a', cs₁, ha', rfl, h₁⟩ := exists_cons_of_hexDigit ha hcs
      obtain ⟨b', cs₂, hb', rfl, h₂⟩ := exists_cons_of_hexDigit hb h₁.symm
      obtain ⟨c', cs₃, hc', rfl, h₃⟩ := exists_cons_of_hexDigit hc h₂.symm
      obtain ⟨d', cs₄, hd', rfl, h₄⟩ := exists_cons_of_hexDigit hd h₃.symm
      exact ⟨a', b', c', d', cs₄, rfl, h₄, by simp [codeUnit, ha', hb', hc', hd']⟩
    next => simp at h
  next => simp at h

theorem parse4Hex_encode {b : Char} (hu : codeUnit a b c d = some u) (tail : List Char) :
    parse4Hex (encode (a :: b :: c :: d :: tail)) = .ok (u, encode tail) := by
  simp only [codeUnit, Option.bind_eq_bind, Option.bind_eq_some_iff, Option.pure_def] at hu
  obtain ⟨va, ha, vb, hb, vc, hc, vd, hd, hu⟩ := hu
  cases hu
  have hca := isAscii_of_hexValue ha
  have hcb := isAscii_of_hexValue hb
  have hcc := isAscii_of_hexValue hc
  have hcd := isAscii_of_hexValue hd
  rw [encode_cons_ascii hca, encode_cons_ascii hcb, encode_cons_ascii hcc, encode_cons_ascii hcd,
    parse4Hex, hexDigit_toUInt8 hca, hexDigit_toUInt8 hcb, hexDigit_toUInt8 hcc,
    hexDigit_toUInt8 hcd, ha, hb, hc, hd]

theorem parseLowSurrogate_eq_ok (h : parseLowSurrogate (encode cs) = .ok (lo, rest)) :
    ∃ a b c d tail, cs = '\\' :: 'u' :: a :: b :: c :: d :: tail ∧ rest = encode tail ∧
      codeUnit a b c d = some lo ∧ isLowSurrogate lo = true := by
  unfold parseLowSurrogate at h
  split at h
  next => simp at h
  next rest₁ hslash =>
    obtain ⟨cs₁, rfl, rfl⟩ := next?_eq_some rfl hslash
    split at h
    next => simp at h
    next rest₂ hu =>
      obtain ⟨cs₂, rfl, rfl⟩ := next?_eq_some rfl hu
      obtain ⟨⟨u, rest₃⟩, hhex, h⟩ := (bind_eq_ok).mp h
      dsimp only at h
      split_ifs at h with hlow
      · cases h
        obtain ⟨a, b, c, d, tail, rfl, rfl, hunit⟩ := parse4Hex_eq_ok hhex
        exact ⟨a, b, c, d, tail, rfl, rfl, hunit, hlow⟩
      · simp at h

def EscapeText : Grammar Char := fun cs c => CharText ('\\' :: cs) c

theorem pushCodePoint_eq_ok (h : pushCodePoint cp msg rest = .ok (c, rest')) :
    c.toNat = cp ∧ rest' = rest := by
  unfold pushCodePoint at h
  split at h
  next c' hc =>
    cases h
    exact ⟨(charFromU32_eq_some).mp hc, rfl⟩
  next => simp at h

theorem pushCodePoint_toNat (h : c.toNat = cp) (msg : String) (rest : Bytes) :
    pushCodePoint cp msg rest = .ok (c, rest) := by
  rw [pushCodePoint, (charFromU32_eq_some).mpr h]

theorem sound_parseUnit {b : Char} (hu : codeUnit a b c d = some u)
    (h : parseUnit u (encode cs) = .ok (ch, rest)) :
    ∃ front tail, cs = front ++ tail ∧ rest = encode tail ∧
      EscapeText ('u' :: a :: b :: c :: d :: front) ch := by
  unfold parseUnit at h
  split_ifs at h with hhigh hlow
  · obtain ⟨⟨lo, rest₁⟩, hsecond, h⟩ := (bind_eq_ok).mp h
    obtain ⟨a', b', c', d', tail, rfl, rfl, hlo, hlow⟩ := parseLowSurrogate_eq_ok hsecond
    obtain ⟨hch, rfl⟩ := pushCodePoint_eq_ok h
    exact ⟨['\\', 'u', a', b', c', d'], tail, rfl, rfl, .pair hu hlo hhigh hlow hch⟩
  · simp at h
  · obtain ⟨hch, rfl⟩ := pushCodePoint_eq_ok h
    exact ⟨[], cs, rfl, rfl, .unicode hu (by simpa using hhigh) (by simpa using hlow) hch⟩

theorem sound_parseUnicode (h : parseUnicode (encode cs) = .ok (c, rest)) :
    ∃ front tail, cs = front ++ tail ∧ rest = encode tail ∧ EscapeText ('u' :: front) c := by
  obtain ⟨⟨u, rest₁⟩, hhex, h⟩ := (bind_eq_ok).mp h
  obtain ⟨x₁, x₂, x₃, x₄, tail, rfl, rfl, hu⟩ := parse4Hex_eq_ok hhex
  obtain ⟨front, tail, rfl, hrest, htext⟩ := sound_parseUnit hu h
  exact ⟨x₁ :: x₂ :: x₃ :: x₄ :: front, tail, rfl, hrest, htext⟩

theorem find?_shortEscapes (h : (shortEscapes.find? fun e => e.1.toUInt8 = b) = some (e, c)) :
    (e, c) ∈ shortEscapes ∧ e.toUInt8 = b :=
  ⟨List.mem_of_find?_eq_some h, by simpa using List.find?_some h⟩

theorem isAscii_of_mem_shortEscapes (h : (e, c) ∈ shortEscapes) : isAscii e = true := by
  simp only [shortEscapes, List.mem_cons, List.not_mem_nil, Prod.mk.injEq, or_false] at h
  obtain ⟨rfl, -⟩ | ⟨rfl, -⟩ | ⟨rfl, -⟩ | ⟨rfl, -⟩ | ⟨rfl, -⟩ | ⟨rfl, -⟩ | ⟨rfl, -⟩ |
      ⟨rfl, -⟩ := h <;>
    rfl

theorem find?_of_mem_shortEscapes (h : (e, c) ∈ shortEscapes) :
    (shortEscapes.find? fun e' => e'.1.toUInt8 = e.toUInt8) = some (e, c) := by
  simp only [shortEscapes, List.mem_cons, List.not_mem_nil, Prod.mk.injEq, or_false] at h
  obtain ⟨rfl, rfl⟩ | ⟨rfl, rfl⟩ | ⟨rfl, rfl⟩ | ⟨rfl, rfl⟩ | ⟨rfl, rfl⟩ | ⟨rfl, rfl⟩ | ⟨rfl, rfl⟩ |
    ⟨rfl, rfl⟩ := h <;> rfl

theorem sound_parseEscape : Sound parseEscape EscapeText := by
  intro cs c rest h
  cases hcs : encode cs with
  | nil =>
      rw [hcs] at h
      simp [parseEscape] at h
  | cons b after =>
      rw [hcs, parseEscape] at h
      split at h
      next e c' hfind =>
        cases h
        obtain ⟨hmem, rfl⟩ := find?_shortEscapes hfind
        obtain ⟨cs', rfl, rfl⟩ := exists_cons_of_encode (isAscii_of_mem_shortEscapes hmem) hcs
        exact ⟨[e], cs', rfl, rfl, .short hmem⟩
      next =>
        split_ifs at h with hu
        · rw [hu] at hcs
          obtain ⟨cs', rfl, rfl⟩ := exists_cons_of_encode rfl hcs
          obtain ⟨front, tail, rfl, rfl, htext⟩ := sound_parseUnicode h
          exact ⟨'u' :: front, tail, rfl, rfl, htext⟩
        · simp at h

theorem parseLowSurrogate_encode {b : Char} (hlo : codeUnit a b c d = some lo)
    (hlow : isLowSurrogate lo = true) (tail : List Char) :
    parseLowSurrogate (encode ('\\' :: 'u' :: a :: b :: c :: d :: tail)) =
      .ok (lo, encode tail) := by
  unfold parseLowSurrogate
  rw [next?_encode_cons rfl]
  dsimp only
  rw [next?_encode_cons rfl]
  dsimp only
  rw [parse4Hex_encode hlo, ok_bind]
  exact if_pos hlow

theorem parseUnit_scalar (hhigh : isHighSurrogate u = false) (hlow : isLowSurrogate u = false)
    (hch : ch.toNat = u) (rest : Bytes) : parseUnit u rest = .ok (ch, rest) := by
  unfold parseUnit
  rw [if_neg (by simp [hhigh]), if_neg (by simp [hlow]), pushCodePoint_toNat hch]

theorem parseUnit_pair {b : Char} {hi : Nat} (hhigh : isHighSurrogate hi = true)
    (hlo : codeUnit a b c d = some lo) (hlow : isLowSurrogate lo = true)
    (hch : ch.toNat = combined hi lo) (tail : List Char) :
    parseUnit hi (encode ('\\' :: 'u' :: a :: b :: c :: d :: tail)) = .ok (ch, encode tail) := by
  unfold parseUnit
  rw [if_pos hhigh, parseLowSurrogate_encode hlo hlow, ok_bind]
  exact pushCodePoint_toNat hch _ _

theorem parseEscape_u (rest : Bytes) : parseEscape ('u'.toUInt8 :: rest) = parseUnicode rest := rfl

theorem complete_parseEscape : Complete parseEscape EscapeText fun _ => True := by
  intro front ch tail h _
  unfold EscapeText at h
  generalize hfront : '\\' :: front = unit at h
  cases h with
  | unescaped _ _ hslash =>
      cases hfront
      exact absurd rfl hslash
  | @short e c hmem =>
      cases hfront
      rw [List.cons_append, List.nil_append, encode_cons_ascii (isAscii_of_mem_shortEscapes hmem),
        parseEscape, find?_of_mem_shortEscapes hmem]
  | unicode hu hhigh hlow hch =>
      cases hfront
      simp only [List.cons_append, List.nil_append]
      rw [encode_cons_ascii rfl, parseEscape_u, parseUnicode, parse4Hex_encode hu, ok_bind]
      exact parseUnit_scalar hhigh hlow hch _
  | pair hhi hlo hhigh hlow hch =>
      cases hfront
      simp only [List.cons_append, List.nil_append]
      rw [encode_cons_ascii rfl, parseEscape_u, parseUnicode, parse4Hex_encode hhi, ok_bind]
      exact parseUnit_pair hhigh hlo hlow hch tail

/-! ## Strings -/

def Plain (c : Char) : Prop := 0x20 ≤ c.toNat ∧ c ≠ '"' ∧ c ≠ '\\'

theorem plain_of_not_isAscii (h : isAscii c = false) : Plain c := by
  have hle : 0x80 ≤ c.toNat := by simpa [isAscii] using h
  refine ⟨by omega, ?_, ?_⟩
  · rintro rfl
    cases h
  · rintro rfl
    cases h

theorem CharText.eq_or_escape {unit : List Char} (h : CharText unit c) :
    (unit = [c] ∧ Plain c) ∨ ∃ front, unit = '\\' :: front ∧ EscapeText front c := by
  cases h with
  | unescaped hlow hquote hslash => exact .inl ⟨rfl, hlow, hquote, hslash⟩
  | short hmem => exact .inr ⟨_, rfl, .short hmem⟩
  | unicode hu hhigh hlow hch => exact .inr ⟨_, rfl, .unicode hu hhigh hlow hch⟩
  | pair hhi hlo hhigh hlow hch => exact .inr ⟨_, rfl, .pair hhi hlo hhigh hlow hch⟩

theorem CharsText.prepend (hfront : ∀ c ∈ front, Plain c) (h : CharsText cs ds) :
    CharsText (front ++ cs) (front ++ ds) := by
  induction front with
  | nil => exact h
  | cons c front ih =>
      obtain ⟨hlow, hquote, hslash⟩ := hfront c List.mem_cons_self
      have hrest := ih fun d hd => hfront d (List.mem_cons_of_mem c hd)
      have hunit : CharText [c] c := .unescaped hlow hquote hslash
      simpa using hrest.cons hunit

theorem CharsText.split {rest : List Char} {q : Char} (hq : ¬ Plain q)
    (hfront : ∀ c ∈ front, Plain c) (h : CharsText cs ds) (heq : cs ++ q :: tail = front ++ rest) :
    ∃ cs' ds', CharsText cs' ds' ∧ cs = front ++ cs' ∧ ds = front ++ ds' ∧
      rest = cs' ++ q :: tail := by
  induction front generalizing cs ds with
  | nil => exact ⟨cs, ds, h, rfl, rfl, heq.symm⟩
  | cons c front ih =>
      have hc := hfront c List.mem_cons_self
      cases h with
      | nil => exact absurd ((List.cons.inj heq).1 ▸ hc) hq
      | @cons cs ds unit d hunit hrest =>
          obtain ⟨rfl, -⟩ | ⟨esc, rfl, -⟩ := hunit.eq_or_escape
          · obtain ⟨rfl, hrest'⟩ := List.cons.inj heq
            obtain ⟨cs', ds', h', rfl, rfl, rfl⟩ :=
              ih (fun d hd => hfront d (List.mem_cons_of_mem _ hd)) hrest hrest'
            exact ⟨cs', ds', h', rfl, rfl, rfl⟩
          · exact absurd (List.cons.inj heq).1.symm hc.2.2

theorem not_plain_quote : ¬ Plain '"' := fun h => h.2.1 rfl

theorem not_plain_slash : ¬ Plain '\\' := fun h => h.2.2 rfl

theorem takeWhile_high (cs : List Char) :
    (encode cs).takeWhile (fun b => 0x80 ≤ b) = encode (cs.takeWhile fun c => !isAscii c) := by
  refine (takeWhile_encode _ _ ?_ ?_ cs).1
  · intro c hc b hb
    obtain ⟨-, -, -, -, -, hall⟩ := utf8EncodeChar_of_le (c := c) (by simpa [isAscii] using hc)
    exact decide_eq_true (UInt8.le_iff_toNat_le.mpr (hall b hb))
  · intro c hc b rest henc
    have hascii : isAscii c = true := by simpa using hc
    rw [utf8EncodeChar_ascii hascii, List.cons.injEq] at henc
    rw [← henc.1]
    have hlt : c.toNat < 0x80 := by simpa [isAscii] using hascii
    apply decide_eq_false
    rw [UInt8.le_iff_toNat_le, toNat_toUInt8 hascii]
    exact Nat.not_le_of_lt hlt

theorem exists_chunk (c : Char) (cs : List Char) :
    ∃ front tail, c :: cs = front ++ tail ∧ front ≠ [] ∧ (∀ d ∈ front, d = c ∨ isAscii d = false) ∧
      (encode (c :: cs)).take (chunkLen (encode (c :: cs))) = encode front ∧
      (encode (c :: cs)).drop (chunkLen (encode (c :: cs))) = encode tail := by
  by_cases hc : isAscii c = true
  · have hlen : chunkLen (encode (c :: cs)) = 1 := by
      rw [chunkLen, takeWhile_high, List.takeWhile_cons_of_neg (by simp [hc])]
      rfl
    rw [hlen, encode_cons_ascii hc]
    exact ⟨[c], cs, rfl, List.cons_ne_nil _ _, by simp, by rw [encode_cons_ascii hc]; rfl, rfl⟩
  · have htake : (c :: cs).takeWhile (fun c => !isAscii c) =
        c :: cs.takeWhile (fun c => !isAscii c) := List.takeWhile_cons_of_pos (by simp [hc])
    have hsplit : c :: cs = (c :: cs).takeWhile (fun c => !isAscii c) ++
        (c :: cs).dropWhile (fun c => !isAscii c) := List.takeWhile_append_dropWhile.symm
    have hpos : 1 ≤ (encode ((c :: cs).takeWhile fun c => !isAscii c)).length := by
      refine le_trans ?_ (length_le_length_encode _)
      rw [htake]
      exact Nat.le_add_left 1 _
    have hlen : chunkLen (encode (c :: cs)) =
        (encode ((c :: cs).takeWhile fun c => !isAscii c)).length := by
      rw [chunkLen, takeWhile_high, max_eq_right hpos]
    have henc : encode (c :: cs) = encode ((c :: cs).takeWhile fun c => !isAscii c) ++
        encode ((c :: cs).dropWhile fun c => !isAscii c) := by
      rw [← encode_append, ← hsplit]
    refine ⟨_, _, hsplit, by rw [htake]; exact List.cons_ne_nil _ _, ?_, ?_, ?_⟩
    · intro d hd
      exact .inr (by simpa using List.mem_takeWhile_imp hd)
    · rw [hlen, henc, List.take_left' rfl]
    · rw [hlen, henc, List.drop_left' rfl]

section

attribute [local simp] parseStringLoop

theorem parseStringLoop_quote (fuel : Nat) (out cs : List Char) :
    parseStringLoop (fuel + 1) out (encode ('"' :: cs)) = .ok (String.ofList out, encode cs) := by
  rw [encode_cons_ascii rfl, parseStringLoop, if_pos rfl]

theorem parseStringLoop_slash (fuel : Nat) (out cs : List Char) :
    parseStringLoop (fuel + 1) out (encode ('\\' :: cs)) =
      parseEscape (encode cs) >>= fun p => parseStringLoop fuel (out ++ [p.1]) p.2 := by
  rw [encode_cons_ascii rfl, parseStringLoop, if_neg (by decide), if_pos rfl]

end

theorem parseStringLoop_plain (hc : Plain c) (fuel : Nat) (out cs : List Char) :
    ∃ front tail, c :: cs = front ++ tail ∧ front ≠ [] ∧ (∀ d ∈ front, Plain d) ∧
      parseStringLoop (fuel + 1) out (encode (c :: cs)) =
        parseStringLoop fuel (out ++ front) (encode tail) := by
  obtain ⟨front, tail, hsplit, hne, hall, htake, hdrop⟩ := exists_chunk c cs
  refine ⟨front, tail, hsplit, hne, ?_, ?_⟩
  · intro d hd
    obtain rfl | hd := hall d hd
    · exact hc
    · exact plain_of_not_isAscii hd
  · cases henc : encode (c :: cs) with
    | nil =>
        have hlen := length_le_length_encode (c :: cs)
        rw [henc] at hlen
        cases hlen
    | cons b after =>
        rw [henc] at htake hdrop
        have hb : b ≠ '"'.toUInt8 ∧ b ≠ '\\'.toUInt8 ∧ ¬b < 0x20 := by
          by_cases hlt : b.toNat < 0x80
          · obtain ⟨d, cs', hd, rfl, heq, -⟩ := exists_cons_of_lt hlt henc
            cases heq
            refine ⟨fun h => hc.2.1 (toUInt8_inj hd rfl h), fun h =>
                hc.2.2 (toUInt8_inj hd rfl h), ?_⟩
            rw [UInt8.lt_iff_toNat_lt, toNat_toUInt8 hd]
            exact Nat.not_lt_of_le hc.1
          · refine ⟨fun h => hlt (h ▸ by decide), fun h => hlt (h ▸ by decide), ?_⟩
            rw [UInt8.lt_iff_toNat_lt]
            exact fun h => hlt (h.trans (by decide))
        rw [parseStringLoop, if_neg hb.1, if_neg hb.2.1, if_neg hb.2.2]
        simp only [htake, hdrop, fromUtf8_encode]

theorem toUInt8_lt_space (h : c.toNat < 0x20) : c.toUInt8 < 0x20 := by
  have hascii : isAscii c = true := decide_eq_true (h.trans (by norm_num))
  rw [UInt8.lt_iff_toNat_lt, toNat_toUInt8 hascii]
  exact h

theorem sound_parseStringLoop (fuel : Nat) (out cs : List Char) {s : String}
    (h : parseStringLoop fuel out (encode cs) = .ok (s, rest)) :
    ∃ front ds tail, cs = front ++ '"' :: tail ∧ rest = encode tail ∧ CharsText front ds ∧
      s = String.ofList (out ++ ds) := by
  induction fuel generalizing out cs with
  | zero => simp [parseStringLoop] at h
  | succ fuel ih =>
      cases cs with
      | nil => simp [parseStringLoop] at h
      | cons c cs =>
          by_cases hquote : c = '"'
          · subst hquote
            rw [parseStringLoop_quote] at h
            cases h
            exact ⟨[], [], cs, rfl, rfl, .nil, by rw [List.append_nil]⟩
          by_cases hslash : c = '\\'
          · subst hslash
            rw [parseStringLoop_slash] at h
            obtain ⟨⟨ch, rest₁⟩, hesc, h⟩ := (bind_eq_ok).mp h
            obtain ⟨esc, cs', rfl, rfl, htext⟩ := sound_parseEscape cs ch rest₁ hesc
            obtain ⟨front, ds, tail, rfl, hrest, hchars, rfl⟩ := ih _ cs' h
            refine ⟨('\\' :: esc) ++ front, ch :: ds, tail, ?_, hrest, .cons htext hchars, ?_⟩
            · simp
            · rw [List.append_assoc]
              rfl
          by_cases hlow : c.toNat < 0x20
          · have hascii : isAscii c = true := decide_eq_true (hlow.trans (by norm_num))
            rw [encode_cons_ascii hascii, parseStringLoop,
              if_neg fun h => hquote (toUInt8_inj hascii rfl h),
              if_neg fun h => hslash (toUInt8_inj hascii rfl h),
              if_pos (toUInt8_lt_space hlow)] at h
            simp at h
          · obtain ⟨chunk, cs', hsplit, -, hplain, hstep⟩ :=
              parseStringLoop_plain ⟨Nat.le_of_not_lt hlow, hquote, hslash⟩ fuel out cs
            rw [hstep] at h
            obtain ⟨front, ds, tail, rfl, hrest, hchars, rfl⟩ := ih _ cs' h
            refine ⟨chunk ++ front, chunk ++ ds, tail, ?_, hrest, hchars.prepend hplain, ?_⟩
            · rw [hsplit, List.append_assoc]
            · rw [List.append_assoc]

theorem complete_parseStringLoop (fuel : Nat) (out : List Char) (tail : List Char)
    (h : CharsText front ds) (hfuel : front.length < fuel) :
    parseStringLoop fuel out (encode (front ++ '"' :: tail)) =
      .ok (String.ofList (out ++ ds), encode tail) := by
  induction fuel generalizing out front ds with
  | zero => cases hfuel
  | succ fuel ih =>
      cases h with
      | nil => rw [List.nil_append, parseStringLoop_quote, List.append_nil]
      | @cons cs ds unit c hunit hrest =>
          obtain ⟨rfl, hc⟩ | ⟨esc, rfl, htext⟩ := hunit.eq_or_escape
          · obtain ⟨chunk, cs', hsplit, hne, hplain, hstep⟩ :=
              parseStringLoop_plain hc fuel out (cs ++ '"' :: tail)
            obtain ⟨front', ds', hchars, hfront, hds, rfl⟩ :=
              (CharsText.cons hunit hrest).split not_plain_quote hplain hsplit
            have hlen : front'.length < fuel := by
              have hpos := List.length_pos_of_ne_nil hne
              rw [hfront, List.length_append] at hfuel
              omega
            change parseStringLoop (fuel + 1) out (encode (c :: (cs ++ '"' :: tail))) = _
            rw [hstep, ih _ hchars hlen, List.append_assoc, ← hds]
          · have hlen : cs.length < fuel := by
              simp only [List.length_append, List.length_cons] at hfuel
              omega
            have hesc := complete_parseEscape esc c (cs ++ '"' :: tail) htext trivial
            rw [List.append_assoc, List.cons_append, parseStringLoop_slash, hesc, ok_bind,
              ih _ hrest hlen, List.append_assoc]
            rfl

theorem sound_parseString : Sound parseString StringText := by
  intro cs s rest h
  obtain ⟨⟨⟨⟩, rest₁⟩, hquote, h⟩ := (bind_eq_ok).mp h
  obtain ⟨cs', rfl, rfl⟩ := expect_eq_ok rfl hquote
  obtain ⟨front, ds, tail, rfl, rfl, hchars, rfl⟩ := sound_parseStringLoop _ _ _ h
  exact ⟨'"' :: front ++ ['"'], tail, by simp, rfl, .mk hchars⟩

theorem complete_parseString : Complete parseString StringText fun _ => True := by
  intro front s tail h _
  cases h with
  | @mk cs ds hchars =>
      have hlen : cs.length < (encode (cs ++ '"' :: tail)).length + 1 := by
        have hle := length_le_length_encode (cs ++ '"' :: tail)
        rw [List.length_append] at hle
        omega
      have heq : '"' :: cs ++ ['"'] ++ tail = '"' :: (cs ++ '"' :: tail) := by simp
      rw [heq, parseString, expect_encode_cons rfl, ok_bind]
      exact complete_parseStringLoop _ [] tail hchars hlen

end Rustqlite.Func.Json
