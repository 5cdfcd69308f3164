import Rustqlite.Format.Record

/-!
# Text under the encoding of the database

A record is written with UTF-8 text, whatever the header says, and read in the
encoding of the header.  The two agree for UTF-8; for UTF-16 they agree on two
texts only, which are counted out here byte by byte.
-/

namespace Rustqlite.Foundation

/-! ## UTF-8 bytes as numbers -/

variable {c : Char} {units : List UInt16} {chars : List Char}

theorem toNat_mem_utf8EncodeChar {b : UInt8} (hb : b ∈ String.utf8EncodeChar c) :
    b.toNat < 0x80 ∧ c.toNat < 0x80 ∨
      0x80 ≤ b.toNat ∧ 0x80 ≤ c.toNat ∧
        (0xc0 ≤ b.toNat → 0x800 ≤ c.toNat → 0xe0 ≤ b.toNat) := by
  have hval : c.val.toNat = c.toNat := rfl
  simp only [String.utf8EncodeChar, hval] at hb
  split_ifs at hb with h1 h2 h3
  all_goals
    simp only [List.mem_cons, List.not_mem_nil, or_false] at hb
  · subst hb
    simp only [UInt8.toNat_ofNat']
    omega
  · rcases hb with rfl | rfl <;> simp only [UInt8.toNat_ofNat'] <;> omega
  · rcases hb with rfl | rfl | rfl <;> simp only [UInt8.toNat_ofNat'] <;> omega
  · rcases hb with rfl | rfl | rfl | rfl <;> simp only [UInt8.toNat_ofNat'] <;> omega

def isAsciiByte (b : UInt8) : Bool := b.toNat < 0x80

theorem countP_utf8EncodeChar (c : Char) :
    (String.utf8EncodeChar c).countP isAsciiByte = if isAscii c then 1 else 0 := by
  cases hc : isAscii c with
  | true =>
      have hlt : c.toNat < 0x80 := by simpa [isAscii] using hc
      have hval : c.val.toNat = c.toNat := rfl
      have hbyte : isAsciiByte (UInt8.ofNat c.toNat) = true := by
        simp only [isAsciiByte, UInt8.toNat_ofNat', decide_eq_true_eq]
        omega
      rw [String.utf8EncodeChar, hval, if_pos (by omega), List.countP_singleton, hbyte]
  | false =>
      rw [if_neg (by simp), List.countP_eq_zero]
      intro b hb
      have hge : ¬ c.toNat < 0x80 := by simpa [isAscii] using hc
      have := toNat_mem_utf8EncodeChar hb
      simp only [isAsciiByte, decide_eq_true_eq]
      omega

theorem countP_utf8Bytes (chars : List Char) :
    (chars.flatMap String.utf8EncodeChar).countP isAsciiByte = chars.countP isAscii := by
  induction chars with
  | nil => rfl
  | cons c chars ih =>
      rw [List.flatMap_cons, List.countP_append, countP_utf8EncodeChar, ih, List.countP_cons]
      exact Nat.add_comm _ _

/-! ## What a UTF-16 decoder reads -/

inductive Utf16Text : List UInt16 → List Char → Prop
  | nil : Utf16Text [] []
  | unit {u : UInt16} {units : List UInt16} {chars : List Char}
      (hu : u.toNat < 0xd800 ∨ 0xdfff < u.toNat) (rest : Utf16Text units chars) :
      Utf16Text (u :: units) (Char.ofNat u.toNat :: chars)
  | unpaired {u : UInt16} {units : List UInt16} {chars : List Char}
      (hu : 0xd800 ≤ u.toNat ∧ u.toNat ≤ 0xdfff) (rest : Utf16Text units chars) :
      Utf16Text (u :: units) (replacementChar :: chars)
  | pair {high low : UInt16} {units : List UInt16} {chars : List Char}
      (hhigh : 0xd800 ≤ high.toNat ∧ high.toNat < 0xdc00)
      (hlow : 0xdc00 ≤ low.toNat ∧ low.toNat ≤ 0xdfff) (rest : Utf16Text units chars) :
      Utf16Text (high :: low :: units)
        (Char.ofNat ((high.toNat - 0xd800) * 0x400 + (low.toNat - 0xdc00) + 0x10000) :: chars)

theorem utf16Text_decodeUtf16Lossy (units : List UInt16) :
    Utf16Text units (decodeUtf16Lossy units) := by
  induction units using decodeUtf16Lossy.induct with
  | case1 => exact .nil
  | case2 u =>
      rw [decodeUtf16Lossy]
      split_ifs with hu
      · exact .unpaired (by simpa [UInt16.le_iff_toNat_le] using hu) .nil
      · refine .unit ?_ .nil
        simp only [UInt16.le_iff_toNat_le, UInt16.reduceToNat] at hu
        omega
  | case3 u next rest hu ih =>
      rw [decodeUtf16Lossy, if_pos hu]
      refine .unit ?_ ih
      simpa [UInt16.lt_iff_toNat_lt] using hu
  | case4 u next rest hu hpair ih =>
      rw [decodeUtf16Lossy, if_neg hu, if_pos hpair]
      refine .unpaired ?_ ih
      simp only [UInt16.lt_iff_toNat_lt, UInt16.reduceToNat] at hu
      omega
  | case5 u next rest hu hpair ih =>
      rw [decodeUtf16Lossy, if_neg hu, if_neg hpair]
      simp only [UInt16.lt_iff_toNat_lt, UInt16.le_iff_toNat_le, UInt16.reduceToNat] at hu hpair
      exact .pair (by omega) (by omega) ih

def utf16Size (c : Char) : Nat := if c.toNat < 0x10000 then 1 else 2

theorem toNat_ofNat_unit {n : Nat} (h : n < 0xd800 ∨ 0xdfff < n ∧ n < 0x110000) :
    (Char.ofNat n).toNat = n := by
  have hvalid : n.isValidChar := h
  simp only [Char.ofNat, hvalid, dif_pos, Char.ofNatAux, Char.toNat, UInt32.toNat]
  rfl

theorem toNat_ofNat_single {u : UInt16} (hu : u.toNat < 0xd800 ∨ 0xdfff < u.toNat) :
    (Char.ofNat u.toNat).toNat = u.toNat := by
  have hlt : u.toNat < 2 ^ 16 := u.toNat_lt
  exact toNat_ofNat_unit (by omega)

theorem toNat_ofNat_pair {high low : UInt16} (hhigh : 0xd800 ≤ high.toNat ∧ high.toNat < 0xdc00)
    (hlow : 0xdc00 ≤ low.toNat ∧ low.toNat ≤ 0xdfff) :
    (Char.ofNat ((high.toNat - 0xd800) * 0x400 + (low.toNat - 0xdc00) + 0x10000)).toNat =
      (high.toNat - 0xd800) * 0x400 + (low.toNat - 0xdc00) + 0x10000 :=
  toNat_ofNat_unit (by omega)

theorem Utf16Text.length_eq (h : Utf16Text units chars) :
    units.length = (chars.map utf16Size).sum := by
  induction h with
  | nil => rfl
  | @unit u units chars hu _ ih =>
      have hlt : u.toNat < 2 ^ 16 := u.toNat_lt
      simp only [List.length_cons, List.map_cons, List.sum_cons, utf16Size, toNat_ofNat_single hu,
        ih]
      rw [if_pos (by omega), Nat.add_comm]
  | unpaired _ _ ih =>
      simp only [List.length_cons, List.map_cons, List.sum_cons, ih]
      rw [show utf16Size replacementChar = 1 by decide, Nat.add_comm]
  | pair hhigh hlow _ ih =>
      simp only [List.length_cons, List.map_cons, List.sum_cons, utf16Size,
        toNat_ofNat_pair hhigh hlow, ih]
      rw [if_neg (by omega)]
      omega

theorem Utf16Text.singleton {u : UInt16} (h : Utf16Text [u] [c]) :
    c.toNat = u.toNat ∨ c.toNat = 0xfffd ∧ 0xd800 ≤ u.toNat ∧ u.toNat ≤ 0xdfff := by
  cases h with
  | unit hu _ => exact .inl (toNat_ofNat_single hu)
  | unpaired hu _ => exact .inr ⟨by decide, hu⟩

def asciiHalves (u : UInt16) : Nat :=
  (if u.toNat / 256 < 0x80 then 1 else 0) + if u.toNat % 256 < 0x80 then 1 else 0

theorem Utf16Text.countP_isAscii_le (h : Utf16Text units chars) :
    2 * chars.countP isAscii ≤ (units.map asciiHalves).sum := by
  induction h with
  | nil => simp
  | @unit u units chars hu _ ih =>
      have hlt : u.toNat < 2 ^ 16 := u.toNat_lt
      simp only [List.countP_cons, List.map_cons, List.sum_cons, isAscii, toNat_ofNat_single hu,
        asciiHalves, decide_eq_true_eq] at ih ⊢
      split_ifs <;> omega
  | unpaired _ _ ih =>
      rw [List.countP_cons, if_neg (by decide), List.map_cons, List.sum_cons]
      omega
  | pair hhigh hlow _ ih =>
      rw [List.countP_cons, if_neg (by simp [isAscii, toNat_ofNat_pair hhigh hlow])]
      simp only [List.map_cons, List.sum_cons]
      omega

/-- A character is a unit, the replacement of one or beyond them all, and then of a pair. -/
theorem Utf16Text.mem_cases (h : Utf16Text units chars) : ∀ c ∈ chars,
    (∃ u ∈ units, c.toNat = u.toNat) ∨ c = replacementChar ∨
      0x10000 ≤ c.toNat ∧ ∃ u ∈ units, 0xd800 ≤ u.toNat ∧ u.toNat < 0xdc00 := by
  induction h with
  | nil => simp
  | unit hu _ ih =>
      refine List.forall_mem_cons.mpr ⟨.inl ⟨_, List.mem_cons_self, toNat_ofNat_single hu⟩, ?_⟩
      grind
  | unpaired _ _ ih => grind
  | pair hhigh hlow _ ih =>
      refine List.forall_mem_cons.mpr ⟨.inr (.inr ⟨?_, _, List.mem_cons_self, hhigh⟩), ?_⟩
      · rw [toNat_ofNat_pair hhigh hlow]
        omega
      · grind

theorem Utf16Text.le_toNat (h : Utf16Text units chars) (hunits : ∀ u ∈ units, 0x8080 ≤ u.toNat) :
    ∀ c ∈ chars, 0x8080 ≤ c.toNat := by
  intro c hc
  rcases h.mem_cases c hc with ⟨u, hu, hunit⟩ | rfl | ⟨hlarge, -⟩
  · exact hunit ▸ hunits u hu
  · decide
  · omega

theorem Utf16Text.toNat_lt (h : Utf16Text units chars)
    (hunits : ∀ u ∈ units, ¬ (0xd800 ≤ u.toNat ∧ u.toNat < 0xdc00)) :
    ∀ c ∈ chars, c.toNat < 0x10000 := by
  intro c hc
  rcases h.mem_cases c hc with ⟨u, -, hunit⟩ | rfl | ⟨-, u, hu, hhigh⟩
  · have hlt : u.toNat < 2 ^ 16 := u.toNat_lt
    omega
  · decide
  · exact absurd hhigh (hunits u hu)

end Rustqlite.Foundation

namespace Rustqlite.Format

open Foundation

/-! ## UTF-8 bytes read as UTF-16 -/

theorem toNat_readBe16_pair (high low : UInt8) :
    (readBe16 [high, low]).toNat = high.toNat * 256 + low.toNat := by
  have hhigh : high.toNat < 256 := high.toNat_lt
  have hlow : low.toNat < 256 := low.toNat_lt
  simp only [readBe16, List.take_succ_cons, List.take_nil, beNat, List.length_cons,
    List.length_nil, UInt16.toNat_ofNat']
  omega

theorem utf16Units_cons_cons (encoding : TextEncoding) (first second : UInt8) (rest : Bytes) :
    ∃ u, utf16Units encoding (first :: second :: rest) = u :: utf16Units encoding rest ∧
      (u.toNat = first.toNat * 256 + second.toNat ∨
        u.toNat = second.toNat * 256 + first.toNat) := by
  refine ⟨_, utf16Units.eq_1 encoding first second rest, ?_⟩
  split_ifs
  · exact .inl (toNat_readBe16_pair first second)
  · exact .inr (toNat_readBe16_pair second first)

theorem length_utf16Units (encoding : TextEncoding) (bytes : Bytes) :
    (utf16Units encoding bytes).length = bytes.length / 2 := by
  match bytes with
  | [] => rfl
  | [_] => exact (show 0 = 1 / 2 by decide)
  | first :: second :: rest =>
      obtain ⟨u, hunits, -⟩ := utf16Units_cons_cons encoding first second rest
      rw [hunits, List.length_cons, length_utf16Units encoding rest]
      simp only [List.length_cons]
      omega

theorem sum_asciiHalves_le (encoding : TextEncoding) (bytes : Bytes) :
    ((utf16Units encoding bytes).map asciiHalves).sum ≤ bytes.countP isAsciiByte := by
  match bytes with
  | [] => exact Nat.zero_le _
  | [_] => exact Nat.zero_le _
  | first :: second :: rest =>
      obtain ⟨u, hunits, hu⟩ := utf16Units_cons_cons encoding first second rest
      have ih := sum_asciiHalves_le encoding rest
      have hfirst : first.toNat < 256 := first.toNat_lt
      have hsecond : second.toNat < 256 := second.toNat_lt
      rw [hunits]
      simp only [List.map_cons, List.sum_cons, List.countP_cons, asciiHalves, isAsciiByte,
        decide_eq_true_eq]
      split_ifs <;> omega

theorem mem_utf16Units {encoding : TextEncoding} {bytes : Bytes} {u : UInt16}
    (hu : u ∈ utf16Units encoding bytes) :
    ∃ high ∈ bytes, ∃ low ∈ bytes, u.toNat = high.toNat * 256 + low.toNat := by
  match bytes with
  | [] => exact absurd hu List.not_mem_nil
  | [_] => exact absurd hu List.not_mem_nil
  | first :: second :: rest =>
      obtain ⟨unit, hunits, hunit⟩ := utf16Units_cons_cons encoding first second rest
      rw [hunits] at hu
      rcases List.mem_cons.mp hu with rfl | hu
      · rcases hunit with hunit | hunit
        · exact ⟨first, by simp, second, by simp, hunit⟩
        · exact ⟨second, by simp, first, by simp, hunit⟩
      · obtain ⟨high, hhigh, low, hlow, heq⟩ := mem_utf16Units hu
        exact ⟨high, by simp [hhigh], low, by simp [hlow], heq⟩

/-- The one character whose UTF-8 bytes start with its own UTF-16 unit. -/
def selfCoded : TextEncoding → String
  | .utf8 => ""
  | .utf16le => String.singleton (Char.ofNat 0xbfeb)
  | .utf16be => String.singleton (Char.ofNat 0xeeba)

section Utf16

variable {encoding : TextEncoding} {chars : List Char}

section

variable (h : Utf16Text (utf16Units encoding (chars.flatMap String.utf8EncodeChar)) chars)

include h

theorem not_isAscii_of_utf16Text : ∀ c ∈ chars, 0x80 ≤ c.toNat := by
  have hneeded := h.countP_isAscii_le
  have hpresent := sum_asciiHalves_le encoding (chars.flatMap String.utf8EncodeChar)
  rw [countP_utf8Bytes] at hpresent
  have hnone : chars.countP isAscii = 0 := by omega
  intro c hc
  have hclear := List.countP_eq_zero.mp hnone c hc
  simpa [isAscii] using hclear

theorem three_bytes_of_utf16Text : ∀ c ∈ chars, 0x800 ≤ c.toNat ∧ c.toNat < 0x10000 := by
  have hascii := not_isAscii_of_utf16Text h
  have hbytes : ∀ b ∈ chars.flatMap String.utf8EncodeChar, 0x80 ≤ b.toNat := by
    intro b hb
    obtain ⟨c, hc, hbc⟩ := List.mem_flatMap.mp hb
    have := toNat_mem_utf8EncodeChar hbc
    have := hascii c hc
    omega
  have hlarge : ∀ c ∈ chars, 0x8080 ≤ c.toNat := by
    refine h.le_toNat fun u hu => ?_
    obtain ⟨high, hhigh, low, hlow, hunit⟩ := mem_utf16Units hu
    have := hbytes high hhigh
    have := hbytes low hlow
    omega
  -- the lead byte of a leading surrogate is the lead byte of a two-byte character
  have hshort : ∀ c ∈ chars, c.toNat < 0x10000 := by
    refine h.toNat_lt fun u hu => ?_
    obtain ⟨high, hhigh, low, hlow, hunit⟩ := mem_utf16Units hu
    obtain ⟨c, hc, hbc⟩ := List.mem_flatMap.mp hhigh
    have := toNat_mem_utf8EncodeChar hbc
    have := hlarge c hc
    have hlow : low.toNat < 256 := low.toNat_lt
    omega
  intro c hc
  have := hlarge c hc
  exact ⟨by omega, hshort c hc⟩

theorem length_le_one_of_utf16Text : chars.length ≤ 1 := by
  have hthree := three_bytes_of_utf16Text h
  have hunits := h.length_eq
  have hsize : ∀ c ∈ chars, (String.utf8EncodeChar c).length = 3 := by
    intro c hc
    obtain ⟨hlo, hhi⟩ := hthree c hc
    rw [String.length_utf8EncodeChar, Char.utf8Size_eq_three_iff, UInt32.lt_iff_toNat_lt,
      UInt32.le_iff_toNat_le]
    have hval : c.val.toNat = c.toNat := rfl
    simp only [UInt32.reduceToNat]
    omega
  have hbytes : (chars.flatMap String.utf8EncodeChar).length = 3 * chars.length := by
    rw [List.length_flatMap, List.map_congr_left hsize, List.map_const', List.sum_replicate]
    simp [Nat.mul_comm]
  have hone : (chars.map utf16Size).sum = chars.length := by
    have heach : ∀ c ∈ chars, utf16Size c = 1 := fun c hc => if_pos (hthree c hc).2
    rw [List.map_congr_left heach, List.map_const', List.sum_replicate]
    simp
  rw [length_utf16Units, hbytes, hone] at hunits
  omega

end

end Utf16

variable {n : Nat} {encoding : TextEncoding}

theorem code_of_leading_unit (h : n = (n / 4096 + 224) * 256 + (n / 64 % 64 + 128)) :
    n = 0xeeba := by
  have htop : n / 4096 = 14 := by omega
  omega

theorem code_of_trailing_unit (hn : n < 0x10000)
    (h : n = (n / 64 % 64 + 128) * 256 + (n / 4096 + 224)) : n = 0xbfeb := by
  have htop : n / 4096 = 8 ∨ n / 4096 = 9 ∨ n / 4096 = 10 ∨ n / 4096 = 11 := by omega
  rcases htop with htop | htop | htop | htop <;> omega

theorem toList_selfCoded (henc : encoding ≠ .utf8) :
    ∃ c, (selfCoded encoding).toList = [c] ∧
      c.toNat = if encoding = .utf16be then 0xeeba else 0xbfeb := by
  cases encoding with
  | utf8 => exact absurd rfl henc
  | utf16le => exact ⟨Char.ofNat 0xbfeb, by decide, by decide⟩
  | utf16be => exact ⟨Char.ofNat 0xeeba, by decide, by decide⟩

theorem toList_eq_of_self_reading (henc : encoding ≠ .utf8) {c : Char}
    (h : Utf16Text (utf16Units encoding (String.utf8EncodeChar c)) [c]) :
    [c] = (selfCoded encoding).toList := by
  have hflat : Utf16Text (utf16Units encoding ([c].flatMap String.utf8EncodeChar)) [c] := by
    simpa using h
  have hthree := three_bytes_of_utf16Text hflat c (by simp)
  have hval : c.val.toNat = c.toNat := rfl
  simp only [String.utf8EncodeChar, hval] at h
  rw [if_neg (by omega), if_neg (by omega), if_pos (by omega)] at h
  obtain ⟨d, hd, hdnat⟩ := toList_selfCoded henc
  suffices hcode : c.toNat = if encoding = .utf16be then 0xeeba else 0xbfeb by
    rw [hd, Char.toNat_inj.mp (hcode.trans hdnat.symm)]
  have hbe := toNat_readBe16_pair (UInt8.ofNat (c.toNat / 4096 % 16 + 224))
    (UInt8.ofNat (c.toNat / 64 % 64 + 128))
  have hle := toNat_readBe16_pair (UInt8.ofNat (c.toNat / 64 % 64 + 128))
    (UInt8.ofNat (c.toNat / 4096 % 16 + 224))
  have hlead : (c.toNat / 4096 % 16 + 224) % 2 ^ 8 = c.toNat / 4096 + 224 := by omega
  have hsecond : (c.toNat / 64 % 64 + 128) % 2 ^ 8 = c.toNat / 64 % 64 + 128 := by omega
  simp only [UInt8.toNat_ofNat', hlead, hsecond] at hbe hle
  have hnil : utf16Units encoding [UInt8.ofNat (c.toNat % 64 + 128)] = [] := by simp [utf16Units]
  rw [utf16Units.eq_1, hnil] at h
  have hread := h.singleton
  have hbound : c.toNat ≠ 0xfffd := by
    intro hrepl
    split_ifs at hread <;> omega
  cases encoding with
  | utf8 => exact absurd rfl henc
  | utf16le =>
      have hunit := hread.resolve_right fun h => hbound h.1
      simp only [reduceCtorEq, if_false] at hunit ⊢
      exact code_of_trailing_unit hthree.2 (hunit.trans hle)
  | utf16be =>
      have hunit := hread.resolve_right fun h => hbound h.1
      simp only [if_true] at hunit ⊢
      exact code_of_leading_unit (hunit.trans hbe)

theorem decodeText_utf8Bytes_iff (henc : encoding ≠ .utf8) (s : String) :
    decodeText (utf8Bytes s) encoding = s ↔ s = "" ∨ s = selfCoded encoding := by
  have hdecode : decodeText (utf8Bytes s) encoding =
      fromUtf16Lossy (utf16Units encoding (utf8Bytes s)) := by
    cases encoding with
    | utf8 => exact absurd rfl henc
    | utf16le => rfl
    | utf16be => rfl
  rw [hdecode, fromUtf16Lossy]
  constructor
  · intro h
    have hchars : decodeUtf16Lossy (utf16Units encoding (utf8Bytes s)) = s.toList := by
      rw [← String.toList_ofList (l := decodeUtf16Lossy _), h]
    have htext : Utf16Text (utf16Units encoding (utf8Bytes s)) s.toList :=
      hchars ▸ utf16Text_decodeUtf16Lossy _
    have hlen := length_le_one_of_utf16Text htext
    match hs : s.toList with
    | [] => exact .inl (String.toList_eq_nil_iff.mp hs)
    | [c] =>
        rw [hs, utf8Bytes, hs, List.flatMap_singleton] at htext
        exact .inr (String.toList_inj.mp (hs.trans (toList_eq_of_self_reading henc htext)))
    | _ :: _ :: _ => simp [hs] at hlen
  · rintro (rfl | rfl)
    · simp [utf8Bytes, utf16Units, decodeUtf16Lossy]
    · cases encoding with
      | utf8 => exact absurd rfl henc
      | utf16le => decide
      | utf16be => decide

/-! ## Rows under the encoding of the database -/

theorem readBack_eq_self_iff (encoding : TextEncoding) (v : Value) :
    readBack encoding v = v ↔
      encoding = .utf8 ∨ ∀ s, v = .text s → s = "" ∨ s = selfCoded encoding := by
  by_cases hutf8 : encoding = .utf8
  · simp [hutf8, readBack_utf8]
  · cases v with
    | text s => simp [readBack, decodeText_utf8Bytes_iff hutf8, hutf8]
    | _ => simp [readBack]

/--
A row that is written and read again comes back exactly when the database is in
UTF-8 or none of its texts can be told from its own misreading.
-/
theorem row_survives_iff (encoding : TextEncoding) (row : ValueSlice) :
    decodeRecord (encodeRecord row.values) encoding = .ok row.values ↔
      encoding = .utf8 ∨
        ∀ s, Value.text s ∈ row.values → s = "" ∨ s = selfCoded encoding := by
  have hself : row.values.map (readBack encoding) = row.values ↔
      ∀ v ∈ row.values, readBack encoding v = v := by
    have hmap := List.map_inj_left (l := row.values) (f := readBack encoding) (g := id)
    rwa [List.map_id] at hmap
  rw [decodeRecord_readBack, Except.ok.injEq, hself]
  constructor
  · intro h
    by_cases hutf8 : encoding = .utf8
    · exact .inl hutf8
    · exact .inr fun s hs =>
        ((readBack_eq_self_iff encoding _).mp (h _ hs)).resolve_left hutf8 s rfl
  · rintro (hutf8 | htexts) v hv
    · exact (readBack_eq_self_iff encoding v).mpr (.inl hutf8)
    · refine (readBack_eq_self_iff encoding v).mpr (.inr ?_)
      rintro s rfl
      exact htexts s hv

/-- One letter in a UTF-16 database: its only byte is dropped. -/
theorem utf16_row_loses_text :
    ¬ ∀ (encoding : TextEncoding) (row : ValueSlice),
      decodeRecord (encodeRecord row.values) encoding = .ok row.values := by
  intro h
  have hread := h .utf16le ⟨[.text "a"], by decide⟩
  have hlost : decodeRecord (encodeRecord [.text "a"]) .utf16le = .ok [.text ""] := by decide
  rw [hlost] at hread
  simp at hread

end Rustqlite.Format
