import Rustqlite.Func.JsonStrings

/-!
# The parser takes the grammar

Each function of the parser is sound for its rule, and complete before what may
follow.  Only a number can be made longer by what follows it.
-/

namespace Rustqlite.Func.Json

open Foundation

/-! ## Digits -/

theorem isAscii_digitChar (d : Digit) : isAscii (digitChar d) = true := by
  revert d
  decide

theorem toNat_digitChar (d : Digit) : (digitChar d).toUInt8.toNat = '0'.toNat + d := by
  revert d
  decide

@[simp] theorem digit?_digitChar (d : Digit) : digit? (digitChar d).toUInt8 = some d := by
  revert d
  decide

variable {d : Digit} {tail cs front w : List Char} {msg : String} {ds : List Digit} {rest : Bytes}
  {c close : Char} {node : JsonNode} {n : NumberText} {value : Parser JsonNode}
  {g : Grammar JsonNode}

theorem eq_digitChar_of_digit? {b : UInt8} (h : digit? b = some d) : b = (digitChar d).toUInt8 := by
  unfold digit? at h
  split_ifs at h with hb
  cases h
  apply UInt8.toNat_inj.mp
  rw [toNat_digitChar]
  exact (Nat.add_sub_cancel' hb.1).symm

def NoDigit (cs : List Char) : Prop := ∀ d, cs.head? ≠ some (digitChar d)

theorem sound_scanDigits (cs : List Char) :
    ∃ tail, cs = spellDigits (scanDigits (encode cs)).1 ++ tail ∧
      (scanDigits (encode cs)).2 = encode tail := by
  generalize hbytes : encode cs = bytes
  induction bytes generalizing cs with
  | nil => exact ⟨cs, rfl, by rw [scanDigits, hbytes]⟩
  | cons b rest ih =>
      cases hd : digit? b with
      | none =>
          simp only [scanDigits, hd]
          exact ⟨cs, rfl, hbytes.symm⟩
      | some d =>
          rw [eq_digitChar_of_digit? hd] at hbytes
          obtain ⟨cs', rfl, rfl⟩ := exists_cons_of_encode (isAscii_digitChar d) hbytes
          obtain ⟨tail, htail, hrest⟩ := ih cs' rfl
          simp only [scanDigits, hd]
          exact ⟨tail, by rw [spellDigits, List.map_cons, List.cons_append]; exact congrArg _ htail,
            hrest⟩

theorem scanDigits_of_noDigit (htail : NoDigit tail) :
    scanDigits (encode tail) = ([], encode tail) := by
  cases hbytes : encode tail with
  | nil => rfl
  | cons b rest =>
      cases hd : digit? b with
      | none => simp only [scanDigits, hd]
      | some d =>
          rw [eq_digitChar_of_digit? hd] at hbytes
          obtain ⟨cs', rfl, -⟩ := exists_cons_of_encode (isAscii_digitChar d) hbytes
          exact absurd rfl (htail d)

theorem scanDigits_append (ds : List Digit) (htail : NoDigit tail) :
    scanDigits (encode (spellDigits ds ++ tail)) = (ds, encode tail) := by
  induction ds with
  | nil => exact scanDigits_of_noDigit htail
  | cons d ds ih =>
      rw [spellDigits, List.map_cons, List.cons_append, encode_cons_ascii (isAscii_digitChar d),
        scanDigits, digit?_digitChar]
      simp only
      rw [← spellDigits, ih]

/-! ## Numbers -/

def NumberEnds (cs : List Char) : Prop :=
  NoDigit cs ∧ cs.head? ≠ some '.' ∧ cs.head? ≠ some 'e' ∧ cs.head? ≠ some 'E'

theorem sound_parseDigits (h : parseDigits msg (encode cs) = .ok (ds, rest)) :
    ∃ tail, cs = spellDigits ds ++ tail ∧ rest = encode tail ∧ ds ≠ [] := by
  unfold parseDigits at h
  obtain ⟨tail, hcs, hrest⟩ := sound_scanDigits cs
  split at h
  next => simp at h
  next ds' rest' hne heq =>
    cases h
    rw [heq] at hcs hrest
    exact ⟨tail, hcs, hrest, hne⟩

theorem parseDigits_append (msg : String) (hne : ds ≠ []) (htail : NoDigit tail) :
    parseDigits msg (encode (spellDigits ds ++ tail)) = .ok (ds, encode tail) := by
  unfold parseDigits
  rw [scanDigits_append ds htail]
  cases ds with
  | nil => exact absurd rfl hne
  | cons d ds => rfl

theorem sound_parseInteger (h : parseInteger (encode cs) = .ok (ds, rest)) :
    ∃ tail, cs = spellDigits ds ++ tail ∧ rest = encode tail ∧ Canonical ds := by
  cases hcs : encode cs with
  | nil =>
      rw [hcs] at h
      simp [parseInteger] at h
  | cons b after =>
      rw [hcs, parseInteger] at h
      cases hd : digit? b with
      | none => simp [hd] at h
      | some d =>
          rw [eq_digitChar_of_digit? hd] at hcs
          obtain ⟨cs', rfl, rfl⟩ := exists_cons_of_encode (isAscii_digitChar d) hcs
          simp only [hd] at h
          split_ifs at h with hzero
          · cases h
            exact ⟨cs', by rw [hzero]; rfl, rfl, .inl rfl⟩
          · cases h
            obtain ⟨tail, hcs', hrest⟩ := sound_scanDigits cs'
            exact ⟨tail, congrArg _ hcs', hrest, .inr ⟨d, _, rfl, hzero⟩⟩

theorem parseInteger_append (hds : Canonical ds) (htail : NoDigit tail) :
    parseInteger (encode (spellDigits ds ++ tail)) = .ok (ds, encode tail) := by
  obtain rfl | ⟨d, rest, rfl, hd⟩ := hds
  · change parseInteger (encode (digitChar 0 :: tail)) = _
    rw [encode_cons_ascii (isAscii_digitChar 0), parseInteger, digit?_digitChar]
    rfl
  · change parseInteger (encode (digitChar d :: (spellDigits rest ++ tail))) = _
    rw [encode_cons_ascii (isAscii_digitChar d), parseInteger, digit?_digitChar]
    simp only [if_neg hd, scanDigits_append rest htail]

theorem sound_parseFraction : Sound parseFraction FractionText := by
  intro cs frac rest h
  unfold parseFraction at h
  split at h
  next =>
    cases h
    exact ⟨[], cs, rfl, rfl, .none⟩
  next rest₁ hdot =>
    obtain ⟨cs', rfl, rfl⟩ := next?_eq_some rfl hdot
    obtain ⟨⟨ds, rest₂⟩, hdigits, h⟩ := bind_eq_ok.mp h
    cases h
    obtain ⟨tail, rfl, rfl, hne⟩ := sound_parseDigits hdigits
    exact ⟨'.' :: spellDigits ds, tail, rfl, rfl, .some hne⟩

theorem complete_parseFraction :
    Complete parseFraction FractionText fun tail => NoDigit tail ∧ tail.head? ≠ some '.' := by
  intro front frac tail h htail
  unfold parseFraction
  cases h with
  | none =>
      rw [List.nil_append, next?_eq_none rfl htail.2]
  | some hne =>
      rw [List.cons_append, next?_encode_cons rfl]
      dsimp only
      rw [parseDigits_append _ hne htail.1]
      rfl

theorem digitChar_ne (h : (digit? c.toUInt8).isNone = true) : digitChar d ≠ c := by
  rintro rfl
  rw [digit?_digitChar] at h
  cases h

theorem head?_spellDigits_ne (hne : ds ≠ []) (h : (digit? c.toUInt8).isNone = true) :
    (spellDigits ds ++ tail).head? ≠ some c := by
  cases ds with
  | nil => exact absurd rfl hne
  | cons d ds => exact fun heq => digitChar_ne h (Option.some.inj heq)

theorem sound_sign (cs : List Char) : ∃ sign tail, cs = sign ++ tail ∧
    SignText sign (next? '-' (encode cs)).isSome ∧
      ((next? '+' (encode cs)).or (next? '-' (encode cs))).getD (encode cs) = encode tail := by
  cases hplus : next? '+' (encode cs) with
  | some rest =>
      obtain ⟨cs', rfl, rfl⟩ := next?_eq_some rfl hplus
      rw [next?_eq_none (c := '-') rfl (by simp)]
      exact ⟨['+'], cs', rfl, .plus, rfl⟩
  | none =>
      cases hminus : next? '-' (encode cs) with
      | some rest =>
          obtain ⟨cs', rfl, rfl⟩ := next?_eq_some rfl hminus
          exact ⟨['-'], cs', rfl, .minus, rfl⟩
      | none => exact ⟨[], cs, rfl, .none, rfl⟩

theorem complete_sign {sign : List Char} {negative : Bool} (tail : List Char)
    (h : SignText sign negative) (hplus : tail.head? ≠ some '+') (hminus : tail.head? ≠ some '-') :
    (next? '-' (encode (sign ++ tail))).isSome = negative ∧
      ((next? '+' (encode (sign ++ tail))).or (next? '-' (encode (sign ++ tail)))).getD
        (encode (sign ++ tail)) = encode tail := by
  cases h with
  | none =>
      rw [List.nil_append, next?_eq_none rfl hplus, next?_eq_none rfl hminus]
      exact ⟨rfl, rfl⟩
  | plus =>
      change _ ∧ ((next? '+' (encode ('+' :: tail))).or _).getD _ = _
      rw [next?_encode_cons rfl, List.singleton_append, next?_eq_none (c := '-') rfl (by simp)]
      exact ⟨rfl, rfl⟩
  | minus =>
      rw [List.singleton_append, next?_encode_cons rfl, next?_eq_none (c := '+') rfl (by simp)]
      exact ⟨rfl, rfl⟩

theorem exists_mark (h : (next? 'e' (encode cs)).or (next? 'E' (encode cs)) = some rest) :
    ∃ mark cs', (mark = 'e' ∨ mark = 'E') ∧ cs = mark :: cs' ∧ rest = encode cs' := by
  obtain h | ⟨-, h⟩ := Option.or_eq_some_iff.mp h
  · obtain ⟨cs', rfl, rfl⟩ := next?_eq_some rfl h
    exact ⟨'e', cs', .inl rfl, rfl, rfl⟩
  · obtain ⟨cs', rfl, rfl⟩ := next?_eq_some rfl h
    exact ⟨'E', cs', .inr rfl, rfl, rfl⟩

theorem sound_parseExponent : Sound parseExponent ExponentText := by
  intro cs exp rest h
  unfold parseExponent at h
  split at h
  next =>
    cases h
    exact ⟨[], cs, rfl, rfl, .none⟩
  next rest₁ hfound =>
    obtain ⟨mark, cs', hmark, rfl, rfl⟩ := exists_mark hfound
    obtain ⟨sign, tail, rfl, hsign, hrest⟩ := sound_sign cs'
    dsimp only at h
    rw [hrest] at h
    obtain ⟨⟨ds, rest₂⟩, hdigits, h⟩ := bind_eq_ok.mp h
    cases h
    obtain ⟨tail, rfl, rfl, hne⟩ := sound_parseDigits hdigits
    exact ⟨mark :: sign ++ spellDigits ds, tail, by simp, rfl, .some hmark hsign hne⟩

theorem complete_parseExponent : Complete parseExponent ExponentText fun tail =>
    NoDigit tail ∧ tail.head? ≠ some 'e' ∧ tail.head? ≠ some 'E' := by
  intro front exp tail h htail
  unfold parseExponent
  cases h with
  | none =>
      rw [List.nil_append, next?_eq_none rfl htail.2.1, next?_eq_none rfl htail.2.2]
      rfl
  | @some mark sign negative ds hmark hsign hne =>
      have hfound : (next? 'e' (encode (mark :: sign ++ spellDigits ds ++ tail))).or
          (next? 'E' (encode (mark :: sign ++ spellDigits ds ++ tail))) =
            some (encode (sign ++ (spellDigits ds ++ tail))) := by
        rw [List.cons_append, List.cons_append, List.append_assoc]
        obtain rfl | rfl := hmark
        · rw [next?_encode_cons rfl]
          rfl
        · rw [next?_encode_cons rfl, next?_eq_none (c := 'e') rfl (by simp)]
          rfl
      obtain ⟨hneg, hrest⟩ := complete_sign (spellDigits ds ++ tail) hsign
        (head?_spellDigits_ne hne rfl) (head?_spellDigits_ne hne rfl)
      rw [hfound]
      dsimp only
      rw [hneg, hrest, parseDigits_append _ hne htail.1]
      rfl

theorem sound_minus (cs : List Char) :
    ∃ cs', cs = minusText (next? '-' (encode cs)).isSome ++ cs' ∧
      (next? '-' (encode cs)).getD (encode cs) = encode cs' := by
  cases hnext : next? '-' (encode cs) with
  | none => exact ⟨cs, rfl, rfl⟩
  | some rest =>
      obtain ⟨cs', rfl, rfl⟩ := next?_eq_some rfl hnext
      exact ⟨cs', rfl, rfl⟩

theorem complete_minus (negative : Bool) (cs : List Char) (h : cs.head? ≠ some '-') :
    (next? '-' (encode (minusText negative ++ cs))).isSome = negative ∧
      (next? '-' (encode (minusText negative ++ cs))).getD (encode (minusText negative ++ cs)) =
        encode cs := by
  cases negative with
  | true =>
      change (next? '-' (encode ('-' :: cs))).isSome = _ ∧
          (next? '-' (encode ('-' :: cs))).getD _ = _
      rw [next?_encode_cons rfl]
      exact ⟨rfl, rfl⟩
  | false =>
      change (next? '-' (encode cs)).isSome = _ ∧ (next? '-' (encode cs)).getD _ = _
      rw [next?_eq_none rfl h]
      exact ⟨rfl, rfl⟩

theorem sound_parseNumber (h : parseNumber (encode cs) = .ok (node, rest)) :
    ∃ front tail n, cs = front ++ tail ∧ rest = encode tail ∧ NumberSpelled front n ∧
      node = n.node := by
  obtain ⟨cs', hcs, hrest⟩ := sound_minus cs
  unfold parseNumber at h
  dsimp only at h
  rw [hrest] at h
  obtain ⟨⟨int, rest₁⟩, hint, h⟩ := bind_eq_ok.mp h
  obtain ⟨cs₁, rfl, rfl, hcanonical⟩ := sound_parseInteger hint
  obtain ⟨⟨frac, rest₂⟩, hfrac, h⟩ := bind_eq_ok.mp h
  obtain ⟨f, cs₂, rfl, rfl, hfracText⟩ := sound_parseFraction _ _ _ hfrac
  obtain ⟨⟨exp, rest₃⟩, hexp, h⟩ := bind_eq_ok.mp h
  obtain ⟨e, tail, rfl, rfl, hexpText⟩ := sound_parseExponent _ _ _ hexp
  cases h
  refine ⟨_, tail, _, ?_, rfl, .mk hcanonical hfracText hexpText, rfl⟩
  conv_lhs => rw [hcs]
  simp only [List.append_assoc]

theorem noDigit_exponent {e : List Char} {exp : Option (Bool × List Digit)} (h : ExponentText e exp)
    (htail : NumberEnds tail) : NoDigit (e ++ tail) ∧ (e ++ tail).head? ≠ some '.' := by
  cases h with
  | none => exact ⟨htail.1, htail.2.1⟩
  | some hmark =>
      obtain rfl | rfl := hmark
      · exact ⟨fun d heq => digitChar_ne rfl (Option.some.inj heq).symm, by simp⟩
      · exact ⟨fun d heq => digitChar_ne rfl (Option.some.inj heq).symm, by simp⟩

theorem noDigit_fraction {f : List Char} {frac : Option (List Digit)} (h : FractionText f frac)
    (htail : NoDigit tail) : NoDigit (f ++ tail) := by
  cases h with
  | none => exact htail
  | some _ => exact fun d heq => digitChar_ne rfl (Option.some.inj heq).symm

theorem ne_nil_of_canonical (h : Canonical ds) : ds ≠ [] := by
  obtain rfl | ⟨d, rest, rfl, -⟩ := h <;> simp

theorem complete_parseNumber (h : NumberSpelled front n) (htail : NumberEnds tail) :
    parseNumber (encode (front ++ tail)) = .ok (n.node, encode tail) := by
  cases h with
  | @mk negative int frac exp f e hint hfrac hexp =>
      have hafter := noDigit_exponent hexp htail
      have hstart := noDigit_fraction hfrac hafter.1
      have hminus := complete_minus negative (spellDigits int ++ (f ++ (e ++ tail)))
        (head?_spellDigits_ne (ne_nil_of_canonical hint) rfl)
      have hint' := parseInteger_append hint hstart
      have hfrac' := complete_parseFraction f frac (e ++ tail) hfrac hafter
      have hexp' := complete_parseExponent e exp tail hexp ⟨htail.1, htail.2.2⟩
      have hassoc : minusText negative ++ (spellDigits int ++ (f ++ e)) ++ tail =
          minusText negative ++ (spellDigits int ++ (f ++ (e ++ tail))) := by
        simp only [List.append_assoc]
      unfold parseNumber
      dsimp only
      rw [hassoc, hminus.1, hminus.2, hint', ok_bind]
      dsimp only
      rw [hfrac', ok_bind]
      dsimp only
      rw [hexp']
      rfl

/-! ## Arrays and objects -/

section

variable {α : Type} {g : Grammar α}

variable {as : List α} {part : Parser α} {fuel : Nat} {follow : List Char → Prop} {«open» : Char}

theorem PartsText.prepend (hw : Spaces w) (h : PartsText g cs as) : PartsText g (w ++ cs) as := by
  cases h with
  | one hw₁ hpart hw' =>
      rw [← List.append_assoc]
      exact .one (hw.append hw₁) hpart hw'
  | cons hw₁ hpart hw' hrest =>
      rw [← List.append_assoc]
      exact .cons (hw.append hw₁) hpart hw' hrest

theorem PartsText.length_le (h : PartsText g cs as) : as.length ≤ cs.length + 1 := by
  induction h with
  | one _ _ _ => simp
  | cons _ _ _ _ ih =>
      simp only [List.length_append, List.length_cons]
      omega

def StartsBefore (g : Grammar α) (close : Char) : Prop :=
  ∀ cs a, g cs a → ∃ c cs', cs = c :: cs' ∧ isSpace c = false ∧ c ≠ close

def FollowsBefore (follow : List Char → Prop) (close : Char) : Prop :=
  ∀ w c tail, Spaces w → c = ',' ∨ c = close → follow (w ++ c :: tail)

theorem StartsBefore.tight (h : StartsBefore g close) {a : α} (hcs : g cs a) (tail : List Char) :
    Tight (cs ++ tail) := by
  obtain ⟨c, cs', rfl, hc, -⟩ := h cs a hcs
  exact tight_cons hc

theorem PartsText.strip (hstart : StartsBefore g close) (h : PartsText g cs as) :
    ∃ w cs', cs = w ++ cs' ∧ Spaces w ∧
      PartsText g cs' as ∧ ∀ tail, Tight (cs' ++ tail) ∧ (cs' ++ tail).head? ≠ some close := by
  have hnil : Spaces [] := fun c hc => by cases hc
  have hhead : ∀ {p : List Char} {a : α}, g p a → ∀ rest tail, Tight (p ++ rest ++ tail) ∧
      (p ++ rest ++ tail).head? ≠ some close := by
    intro p a hp rest tail
    obtain ⟨c, p', rfl, hc, hne⟩ := hstart p a hp
    exact ⟨fun d hd => by cases hd; exact hc, fun heq => hne (Option.some.inj heq)⟩
  cases h with
  | @one w p w' a hw hpart hw' =>
      exact ⟨w, p ++ w', rfl, hw, .one hnil hpart hw', hhead hpart w'⟩
  | @cons w p w' rest a as hw hpart hw' hrest =>
      exact ⟨w, _, rfl, hw, .cons hnil hpart hw' hrest, hhead hpart (w' ++ ',' :: rest)⟩

theorem sound_parseParts (hpart : Sound part g) (hclose : isAscii close = true)
    {parts parts' : List α}
    (h : parseParts part close msg fuel parts (encode cs) = .ok (parts', rest)) :
    ∃ front as tail, cs = front ++ close :: tail ∧ rest = encode tail ∧ PartsText g front as ∧
      parts' = parts ++ as := by
  induction fuel generalizing parts cs with
  | zero => simp [parseParts] at h
  | succ fuel ih =>
      obtain ⟨w, cs₁, rfl, hw, hskip⟩ := exists_skipWs cs
      rw [parseParts, hskip] at h
      obtain ⟨⟨a, rest₁⟩, hread, h⟩ := bind_eq_ok.mp h
      obtain ⟨p, cs₂, rfl, rfl, hp⟩ := hpart _ _ _ hread
      obtain ⟨w', cs₃, rfl, hw', hskip'⟩ := exists_skipWs cs₂
      dsimp only at h
      rw [hskip'] at h
      split at h
      next rest₂ _ hcomma =>
        obtain ⟨cs₄, rfl, rfl⟩ := next?_eq_some rfl hcomma
        obtain ⟨front, as, tail, rfl, hrest, hparts, rfl⟩ := ih h
        refine ⟨_, a :: as, tail, ?_, hrest, .cons hw hp hw' hparts, by simp⟩
        simp
      next rest₂ _ hend =>
        cases h
        obtain ⟨tail, rfl, rfl⟩ := next?_eq_some hclose hend
        refine ⟨_, [a], tail, ?_, rfl, .one hw hp hw', rfl⟩
        simp
      next => simp at h

theorem complete_parseParts (hpart : Complete part g follow) (hstart : StartsBefore g close)
    (hfollow : FollowsBefore follow close) (hascii : isAscii close = true)
    (hspace : isSpace close = false) (hcomma : close ≠ ',') (msg : String) (parts : List α)
    (tail : List Char) (h : PartsText g front as) (hfuel : as.length ≤ fuel) :
    parseParts part close msg fuel parts (encode (front ++ close :: tail)) =
      .ok (parts ++ as, encode tail) := by
  induction h generalizing fuel parts with
  | @one w cs w' a hw hp hw' =>
      obtain ⟨fuel, rfl⟩ : ∃ n, fuel = n + 1 := ⟨fuel - 1, by simp at hfuel; omega⟩
      have heq : w ++ (cs ++ w') ++ close :: tail = w ++ (cs ++ (w' ++ close :: tail)) := by simp
      have hhead : (close :: tail).head? ≠ some ',' := fun heq => hcomma (Option.some.inj heq)
      rw [heq, parseParts, skipWs_append hw (hstart.tight hp _),
        hpart cs a _ hp (hfollow w' close tail hw' (.inr rfl)), ok_bind]
      dsimp only
      rw [skipWs_append hw' (tight_cons hspace), next?_eq_none rfl hhead,
        next?_encode_cons hascii]
  | @cons w cs w' rest a as hw hp hw' hrest ih =>
      obtain ⟨fuel, rfl⟩ : ∃ n, fuel = n + 1 := ⟨fuel - 1, by simp at hfuel; omega⟩
      have heq : w ++ (cs ++ (w' ++ ',' :: rest)) ++ close :: tail =
          w ++ (cs ++ (w' ++ ',' :: (rest ++ close :: tail))) := by simp
      rw [heq, parseParts, skipWs_append hw (hstart.tight hp _),
        hpart cs a _ hp (hfollow w' ',' _ hw' (.inl rfl)), ok_bind]
      dsimp only
      rw [skipWs_append hw' (tight_cons rfl), next?_encode_cons rfl]
      dsimp only
      rw [ih (parts ++ [a]) (Nat.le_of_succ_le_succ hfuel), List.append_assoc]
      rfl

theorem sound_parseBracketed (hpart : Sound part g) (hopen : isAscii «open» = true)
    (hclose : isAscii close = true) (msg : String) :
    Sound (parseBracketed part «open» close msg) (BracketedText g «open» close) := by
  intro cs as rest h
  obtain ⟨⟨⟨⟩, rest₁⟩, hexpect, h⟩ := bind_eq_ok.mp h
  obtain ⟨cs₁, rfl, rfl⟩ := expect_eq_ok hopen hexpect
  obtain ⟨w, cs₂, rfl, hw, hskip⟩ := exists_skipWs cs₁
  dsimp only at h
  rw [hskip] at h
  split at h
  next rest₂ hend =>
    cases h
    obtain ⟨tail, rfl, rfl⟩ := next?_eq_some hclose hend
    exact ⟨«open» :: w ++ [close], tail, by simp, rfl, .empty hw⟩
  next =>
    obtain ⟨front, as', tail, rfl, rfl, hparts, rfl⟩ := sound_parseParts hpart hclose h
    exact ⟨«open» :: (w ++ front) ++ [close], tail, by simp, rfl, .parts (hparts.prepend hw)⟩

theorem complete_parseBracketed (hpart : Complete part g follow) (hstart : StartsBefore g close)
    (hfollow : FollowsBefore follow close) (hopen : isAscii «open» = true)
    (hascii : isAscii close = true) (hspace : isSpace close = false) (hcomma : close ≠ ',')
    (msg : String) :
    Complete (parseBracketed part «open» close msg) (BracketedText g «open» close) fun _ =>
        True := by
  intro front as tail h _
  cases h with
  | @empty w hw =>
      have heq : «open» :: w ++ [close] ++ tail = «open» :: (w ++ close :: tail) := by simp
      rw [heq, parseBracketed, expect_encode_cons hopen, ok_bind]
      dsimp only
      rw [skipWs_append hw (tight_cons hspace), next?_encode_cons hascii]
  | @parts cs _ hparts =>
      have heq : «open» :: cs ++ [close] ++ tail = «open» :: (cs ++ close :: tail) := by simp
      have hfuel : as.length ≤ (encode (cs ++ close :: tail)).length + 1 := by
        have hle := length_le_length_encode (cs ++ close :: tail)
        have hparts := hparts.length_le
        rw [List.length_append] at hle
        omega
      obtain ⟨w, cs', rfl, hw, hparts', hhead⟩ := hparts.strip hstart
      obtain ⟨htight, hne⟩ := hhead (close :: tail)
      rw [heq, parseBracketed, expect_encode_cons hopen, ok_bind]
      dsimp only
      rw [List.append_assoc] at hfuel ⊢
      rw [skipWs_append hw htight, next?_eq_none hascii hne]
      exact complete_parseParts hpart hstart hfollow hascii hspace hcomma msg [] tail hparts' hfuel

end

/-! ## Values -/

theorem numberEnds_of_head (hdigit : (digit? c.toUInt8).isNone = true) (hdot : c ≠ '.')
    (he : c ≠ 'e') (hE : c ≠ 'E') : NumberEnds (c :: tail) :=
  ⟨fun _ heq => digitChar_ne hdigit (Option.some.inj heq).symm, fun heq =>
      hdot (Option.some.inj heq),
    fun heq => he (Option.some.inj heq), fun heq => hE (Option.some.inj heq)⟩

theorem numberEnds_nil : NumberEnds [] := ⟨fun _ h => (by cases h), by simp, by simp, by simp⟩

theorem numberEnds_append (hw : Spaces w) (h : NumberEnds tail) : NumberEnds (w ++ tail) := by
  cases w with
  | nil => exact h
  | cons c w =>
      have hc := hw c List.mem_cons_self
      simp only [isSpace, Bool.or_eq_true, decide_eq_true_eq] at hc
      obtain ((rfl | rfl) | rfl) | rfl := hc <;>
        exact numberEnds_of_head rfl (by decide) (by decide) (by decide)

theorem followsBefore_numberEnds (h : close = ']' ∨ close = '}') :
    FollowsBefore NumberEnds close := by
  rintro w c tail hw (rfl | rfl)
  · exact numberEnds_append hw (numberEnds_of_head rfl (by decide) (by decide) (by decide))
  · obtain rfl | rfl := h
    · exact numberEnds_append hw (numberEnds_of_head rfl (by decide) (by decide) (by decide))
    · exact numberEnds_append hw (numberEnds_of_head rfl (by decide) (by decide) (by decide))

theorem sound_parseLiteral {lit : String} (hlit : ∀ c ∈ lit.toList, isAscii c = true)
    {value : JsonNode} (h : parseLiteral lit value (encode cs) = .ok (node, rest)) :
    ∃ tail, cs = lit.toList ++ tail ∧ rest = encode tail ∧ node = value := by
  unfold parseLiteral at h
  split_ifs at h with hprefix
  · cases h
    obtain ⟨r, hr⟩ := hprefix
    rw [utf8Bytes_eq_encode, encode_ascii hlit] at hr
    obtain ⟨tail, rfl, htail⟩ := exists_append_of_encode hlit hr.symm
    exact ⟨tail, rfl, by rw [encode_append, utf8Bytes_eq_encode, List.drop_left], rfl⟩
  · simp at h

theorem parseLiteral_append (lit : String) (value : JsonNode) (tail : List Char) :
    parseLiteral lit value (encode (lit.toList ++ tail)) = .ok (value, encode tail) := by
  unfold parseLiteral
  rw [encode_append, ← utf8Bytes_eq_encode, if_pos (List.prefix_append _ _), List.drop_left]

theorem sound_parseEntry (hvalue : Sound value g) : Sound (parseEntry value) (EntryText g) := by
  intro cs entry rest h
  unfold parseEntry at h
  split_ifs at h
  · simp at h
  · obtain ⟨⟨key, rest₁⟩, hkey, h⟩ := bind_eq_ok.mp h
    obtain ⟨k, cs₁, rfl, rfl, hk⟩ := sound_parseString _ _ _ hkey
    obtain ⟨w, cs₂, rfl, hw, hskip⟩ := exists_skipWs cs₁
    dsimp only at h
    rw [hskip] at h
    split at h
    next => simp at h
    next rest₂ hcolon =>
      obtain ⟨cs₃, rfl, rfl⟩ := next?_eq_some rfl hcolon
      obtain ⟨w', cs₄, rfl, hw', hskip'⟩ := exists_skipWs cs₃
      rw [hskip'] at h
      obtain ⟨⟨node, rest₃⟩, hread, h⟩ := bind_eq_ok.mp h
      obtain ⟨v, tail, rfl, rfl, hv⟩ := hvalue _ _ _ hread
      cases h
      exact ⟨_, tail, by simp, rfl, .mk hk hw hw' hv⟩

theorem complete_parseEntry (hvalue : Complete value g NumberEnds) (hstart : StartsBefore g close) :
    Complete (parseEntry value) (EntryText g) NumberEnds := by
  intro front entry tail h htail
  cases h with
  | @mk k w w' cs key node hkey hw hw' hv =>
      have heq : k ++ (w ++ ':' :: (w' ++ cs)) ++ tail = k ++
          (w ++ ':' :: (w' ++ (cs ++ tail))) := by
        simp
      have hquote :
          ((next? '"' (encode (k ++ (w ++ ':' :: (w' ++ (cs ++ tail)))))).isNone) = false := by
        cases hkey with
        | mk _ =>
            rw [List.append_assoc, List.cons_append, next?_encode_cons rfl]
            rfl
      rw [heq]
      unfold parseEntry
      rw [hquote, if_neg (by simp), complete_parseString k key _ hkey trivial, ok_bind]
      dsimp only
      rw [skipWs_append hw (tight_cons rfl), next?_encode_cons rfl]
      dsimp only
      rw [skipWs_append hw' (hstart.tight hv tail), hvalue cs node tail hv htail]
      rfl

theorem sound_parseValue (room : Nat) : Sound (parseValue room) (ValueText room) := by
  induction room with
  | zero =>
      intro cs node rest h
      simp [parseValue] at h
  | succ room ih =>
      intro cs node rest h
      cases hcs : encode cs with
      | nil =>
          rw [hcs] at h
          simp [parseValue] at h
      | cons b after =>
          rw [hcs, parseValue] at h
          dsimp only at h
          rw [← hcs] at h
          split_ifs at h
          · obtain ⟨⟨entries, rest₁⟩, hread, h⟩ := bind_eq_ok.mp h
            cases h
            obtain ⟨front, tail, rfl, rfl, htext⟩ :=
              sound_parseBracketed (sound_parseEntry ih) rfl rfl _ _ _ _ hread
            exact ⟨front, tail, rfl, rfl, .object htext⟩
          · obtain ⟨⟨items, rest₁⟩, hread, h⟩ := bind_eq_ok.mp h
            cases h
            obtain ⟨front, tail, rfl, rfl, htext⟩ :=
              sound_parseBracketed ih rfl rfl _ _ _ _ hread
            exact ⟨front, tail, rfl, rfl, .array htext⟩
          · obtain ⟨⟨s, rest₁⟩, hread, h⟩ := bind_eq_ok.mp h
            cases h
            obtain ⟨front, tail, rfl, rfl, htext⟩ := sound_parseString _ _ _ hread
            exact ⟨front, tail, rfl, rfl, .string htext⟩
          · obtain ⟨tail, rfl, rfl, rfl⟩ := sound_parseLiteral (List.all_eq_true.mp (by decide)) h
            exact ⟨_, tail, rfl, rfl, .true⟩
          · obtain ⟨tail, rfl, rfl, rfl⟩ := sound_parseLiteral (List.all_eq_true.mp (by decide)) h
            exact ⟨_, tail, rfl, rfl, .false⟩
          · obtain ⟨tail, rfl, rfl, rfl⟩ := sound_parseLiteral (List.all_eq_true.mp (by decide)) h
            exact ⟨_, tail, rfl, rfl, .null⟩
          · obtain ⟨front, tail, n, rfl, rfl, htext, rfl⟩ := sound_parseNumber h
            exact ⟨front, tail, rfl, rfl, .number htext⟩
          · simp at h

/-! ## Complete values -/

theorem parseValue_cons (room : Nat) (hc : isAscii c = true) (cs : List Char) :
    parseValue (room + 1) (encode (c :: cs)) =
      if c.toUInt8 = '{'.toUInt8 then parseObject (parseValue room) (encode (c :: cs))
      else if c.toUInt8 = '['.toUInt8 then parseArray (parseValue room) (encode (c :: cs))
      else if c.toUInt8 = '"'.toUInt8 then do
        let (s, rest) ← parseString (encode (c :: cs))
        return (.string s, rest)
      else if c.toUInt8 = 't'.toUInt8 then parseLiteral "true" (.bool true) (encode (c :: cs))
      else if c.toUInt8 = 'f'.toUInt8 then parseLiteral "false" (.bool false) (encode (c :: cs))
      else if c.toUInt8 = 'n'.toUInt8 then parseLiteral "null" .null (encode (c :: cs))
      else if c.toUInt8 = '-'.toUInt8 ∨ (digit? c.toUInt8).isSome then
        parseNumber (encode (c :: cs))
      else malformed (encode (c :: cs)) ("unexpected character " ++ debugChar c.toUInt8) := by
  rw [encode_cons_ascii hc, parseValue]

theorem NumberSpelled.exists_cons (h : NumberSpelled cs n) :
    ∃ c cs', cs = c :: cs' ∧ (c = '-' ∨ ∃ d, c = digitChar d) := by
  cases h with
  | @mk negative int frac exp f e hint hfrac hexp =>
      cases negative with
      | true => exact ⟨'-', _, rfl, .inl rfl⟩
      | false =>
          obtain rfl | ⟨d, rest, rfl, -⟩ := hint
          · exact ⟨_, _, rfl, .inr ⟨0, rfl⟩⟩
          · exact ⟨_, _, rfl, .inr ⟨d, rfl⟩⟩

theorem startsBefore_level (h : close = ']' ∨ close = '}') : StartsBefore (LevelText g) close := by
  have hne : ∀ c, c ≠ ']' → c ≠ '}' → c ≠ close := by
    rintro c hbracket hbrace rfl
    obtain rfl | rfl := h
    · exact hbracket rfl
    · exact hbrace rfl
  intro cs node htext
  cases htext with
  | null => exact ⟨'n', _, rfl, rfl, hne _ (by decide) (by decide)⟩
  | true => exact ⟨'t', _, rfl, rfl, hne _ (by decide) (by decide)⟩
  | false => exact ⟨'f', _, rfl, rfl, hne _ (by decide) (by decide)⟩
  | number hnumber =>
      obtain ⟨c, cs', rfl, rfl | ⟨d, rfl⟩⟩ := hnumber.exists_cons
      · exact ⟨_, cs', rfl, rfl, hne _ (by decide) (by decide)⟩
      · refine ⟨_, cs', rfl, ?_, hne _ (digitChar_ne rfl) (digitChar_ne rfl)⟩
        simp only [isSpace, digitChar_ne (c := ' ') rfl, digitChar_ne (c := '\t') rfl,
          digitChar_ne (c := '\n') rfl, digitChar_ne (c := '\r') rfl, decide_false, Bool.or_self]
  | string hstring =>
      cases hstring with
      | mk _ => exact ⟨'"', _, rfl, rfl, hne _ (by decide) (by decide)⟩
  | array harray =>
      cases harray with
      | empty _ => exact ⟨'[', _, rfl, rfl, hne _ (by decide) (by decide)⟩
      | parts _ => exact ⟨'[', _, rfl, rfl, hne _ (by decide) (by decide)⟩
  | object hobject =>
      cases hobject with
      | empty _ => exact ⟨'{', _, rfl, rfl, hne _ (by decide) (by decide)⟩
      | parts _ => exact ⟨'{', _, rfl, rfl, hne _ (by decide) (by decide)⟩

theorem startsBefore_value (room : Nat) (h : close = ']' ∨ close = '}') :
    StartsBefore (ValueText room) close := by
  cases room with
  | zero => exact fun cs node htext => htext.elim
  | succ room => exact startsBefore_level h

theorem startsBefore_entry (g : Grammar JsonNode) : StartsBefore (EntryText g) '}' := by
  intro cs entry h
  cases h with
  | mk hkey _ _ _ =>
      cases hkey with
      | mk _ => exact ⟨'"', _, rfl, rfl, by decide⟩

theorem complete_parseValue (room : Nat) :
    Complete (parseValue room) (ValueText room) NumberEnds := by
  induction room with
  | zero => exact fun _ _ _ h => h.elim
  | succ room ih =>
      intro front node tail h htail
      have harray := complete_parseBracketed ih (startsBefore_value room (.inl rfl))
        (followsBefore_numberEnds (.inl rfl)) (rfl : isAscii '[' = true) rfl rfl (by decide)
        "expected ',' or ']' in array"
      have hobject := complete_parseBracketed
        (complete_parseEntry ih (startsBefore_value room (.inr rfl))) (startsBefore_entry _)
        (followsBefore_numberEnds (.inr rfl)) (rfl : isAscii '{' = true) rfl rfl (by decide)
        "expected ',' or '\x7d' in object"
      change LevelText (ValueText room) front node at h
      cases h with
      | null =>
          refine (parseValue_cons room (c := 'n') rfl _).trans ?_
          exact parseLiteral_append "null" .null tail
      | true =>
          refine (parseValue_cons room (c := 't') rfl _).trans ?_
          exact parseLiteral_append "true" (.bool true) tail
      | false =>
          refine (parseValue_cons room (c := 'f') rfl _).trans ?_
          exact parseLiteral_append "false" (.bool false) tail
      | @number _ n hnumber =>
          have hread := complete_parseNumber hnumber htail
          obtain ⟨c, cs', rfl, rfl | ⟨d, rfl⟩⟩ := hnumber.exists_cons
          · exact (parseValue_cons room rfl _).trans hread
          · have hne : ∀ c : Char, isAscii c = true → (digit? c.toUInt8).isNone = true →
                ¬(digitChar d).toUInt8 = c.toUInt8 := fun c hc hdigit heq =>
              digitChar_ne hdigit (toUInt8_inj (isAscii_digitChar d) hc heq)
            refine (parseValue_cons room (isAscii_digitChar d) _).trans ?_
            rw [if_neg (hne '{' rfl rfl), if_neg (hne '[' rfl rfl), if_neg (hne '"' rfl rfl),
              if_neg (hne 't' rfl rfl), if_neg (hne 'f' rfl rfl), if_neg (hne 'n' rfl rfl),
              if_pos (.inr (by rw [digit?_digitChar]; rfl))]
            exact hread
      | @string _ s hstring =>
          have hread := complete_parseString front s tail hstring trivial
          cases hstring with
          | mk _ =>
              refine (parseValue_cons room (c := '"') rfl _).trans ?_
              exact (congrArg (· >>= _) hread).trans rfl
      | @array _ items hitems =>
          have hread := harray front items tail hitems trivial
          have hall : parseArray (parseValue room) (encode (front ++ tail)) =
              .ok (.array items, encode tail) := by
            rw [parseArray, hread]
            rfl
          cases hitems with
          | empty _ => exact (parseValue_cons room (c := '[') rfl _).trans hall
          | parts _ => exact (parseValue_cons room (c := '[') rfl _).trans hall
      | @object _ entries hentries =>
          have hread := hobject front entries tail hentries trivial
          have hall : parseObject (parseValue room) (encode (front ++ tail)) =
              .ok (.object entries, encode tail) := by
            rw [parseObject, hread]
            rfl
          cases hentries with
          | empty _ => exact (parseValue_cons room (c := '{') rfl _).trans hall
          | parts _ => exact (parseValue_cons room (c := '{') rfl _).trans hall

/-! ## Texts -/

theorem parseBytes_of_jsonText (h : JsonText jsonMaxDepth cs node) :
    parseBytes (encode cs) = .ok node := by
  cases h with
  | @mk w v w' node hw hv hw' =>
      have hstart := startsBefore_value jsonMaxDepth (.inl rfl)
      have hends : NumberEnds w' := by
        have hends := numberEnds_append hw' numberEnds_nil
        rwa [List.append_nil] at hends
      have hskip : skipWs (encode w') = [] := by
        have hnil : Tight [] := fun c hc => by cases hc
        have hskip := skipWs_append hw' hnil
        rwa [List.append_nil] at hskip
      rw [parseBytes, skipWs_append hw (hstart.tight hv w'),
        complete_parseValue jsonMaxDepth v node w' hv hends, ok_bind]
      dsimp only
      rw [hskip]

theorem jsonText_of_parseBytes (h : parseBytes (encode cs) = .ok node) :
    JsonText jsonMaxDepth cs node := by
  obtain ⟨w, cs₁, rfl, hw, hskip⟩ := exists_skipWs cs
  rw [parseBytes, hskip] at h
  obtain ⟨⟨node', rest⟩, hread, h⟩ := bind_eq_ok.mp h
  obtain ⟨v, cs₂, rfl, rfl, hv⟩ := sound_parseValue _ _ _ _ hread
  obtain ⟨w', cs₃, rfl, hw', hskip'⟩ := exists_skipWs cs₂
  dsimp only at h
  rw [hskip'] at h
  split at h
  next hnil =>
    cases h
    have hlen := length_le_length_encode cs₃
    rw [hnil, List.length_nil, Nat.le_zero, List.length_eq_zero_iff] at hlen
    rw [hlen, List.append_nil]
    exact .mk hw hv hw'
  next => cases h

theorem parse_eq_ok_iff (input : String) (node : JsonNode) :
    parse input = .ok node ↔ JsonText jsonMaxDepth input.toList node := by
  have hbytes : parse input = .ok node ↔ parseBytes (encode input.toList) = .ok node := by
    rw [parse, utf8Bytes_eq_encode]
    cases parseBytes (encode input.toList) with
    | error f => simp [Except.mapError]
    | ok node' => simp [Except.mapError]
  rw [hbytes]
  exact ⟨jsonText_of_parseBytes, parseBytes_of_jsonText⟩

/-- A text is taken exactly when it is JSON of so many levels, with its surrogates in pairs. -/
theorem parse_ok_iff_jsonText (input : String) :
    (∃ node, parse input = .ok node) ↔ ∃ node, JsonText jsonMaxDepth input.toList node := by
  simp only [parse_eq_ok_iff]

end Rustqlite.Func.Json
