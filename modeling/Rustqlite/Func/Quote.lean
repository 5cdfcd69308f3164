import Rustqlite.Parser.Literal
import Rustqlite.Types.Compare
import Rustqlite.Util.Fp

/-!
# Values as literals

`quote(X)` writes a value the way a statement writes it, and the parser reads it
back.
-/

namespace Rustqlite.Func

open Foundation Rustqlite.Parser Parser.Rule Util

def quoteMark : Char := Char.ofNat 39

def quoteReal (r : UInt64) : String :=
  if Double.isInfinite r then
    if Double.value r < 0 then "-9.0e+999" else "9.0e+999"
  else fpToText r

def doubled (text : List Char) : List Char :=
  text.flatMap fun c => if isQuote c then [quoteMark, c] else [c]

def hexUp (n : UInt8) : Char := "0123456789ABCDEF".toList.getD n.toNat '0'

def hexText (b : Bytes) : List Char :=
  b.flatMap fun byte : UInt8 => [hexUp (byte >>> 4), hexUp (byte &&& 0xf)]

def quoteText : Value → String
  | .null => "NULL"
  | .int i => toString i
  | .real r => quoteReal r
  | .text s => String.ofList (quoteMark :: doubled s.toList ++ [quoteMark])
  | .blob b => String.ofList ('X' :: quoteMark :: hexText b ++ [quoteMark])

def quote (x : Value) : Value := .text (quoteText x)

/-! ## The number that is written -/

def intDigits (i : Int64) : List Char :=
  (if i.toInt < 0 then ['-'] else []) ++ (toDigits i.toInt.natAbs).map digitChar

theorem toList_toString (i : Int64) : (toString i).toList = intDigits i := by
  change (Int.repr i.toInt).toList = _
  rw [intDigits, ← toDigits_eq_map, Int.repr_eq_if]
  by_cases hneg : i.toInt < 0
  · have habs : (-i.toInt).toNat = i.toInt.natAbs := by omega
    rw [if_neg (by omega), if_pos hneg, habs, String.toList_append]
    simp [Nat.repr]
  · have habs : i.toInt.toNat = i.toInt.natAbs := by omega
    rw [if_pos (by omega), if_neg hneg, habs]
    simp [Nat.repr]

theorem floatOrInt_digits {ds : List Digit} (hds : ds ≠ []) :
    floatOrInt (ds.map digitChar) = some (ds.map digitChar, []) := by
  have hne : ds.map digitChar ≠ [] := by simpa using hds
  have hfront : some1 Char.isDigit (ds.map digitChar) = some (ds.map digitChar, []) := by
    rw [some1, many, (takeWhile_digits ds).1, (takeWhile_digits ds).2, if_neg hne]
  rw [floatOrInt, alt, seq, hfront]
  simp [seq, opt, one, exponent]

variable {text : List Char} {p : Char → Bool} {c : Char}

theorem seq_eq_none {r s : Rule} (h : r text = none) : seq r s text = none := by
  rw [seq, h]
  rfl

theorem hexInt_eq_none (h : ∀ c ∈ text, c ≠ 'x' ∧ c ≠ 'X') : hexInt text = none := by
  cases text with
  | nil => rfl
  | cons c rest =>
      have hsecond : one (fun c => c = 'x' || c = 'X') rest = none := by
        cases rest with
        | nil => rfl
        | cons d rest =>
            have hd := h d (by simp)
            simp [one, hd.1, hd.2]
      by_cases hc : c = '0'
      · have hfirst : one (fun c => c = '0') (c :: rest) = some ([c], rest) := by simp [one, hc]
        rw [hexInt, seq, hfirst]
        simp only [Option.bind_some, seq_eq_none hsecond, Option.map_none]
      · exact seq_eq_none (by simp [one, hc])

theorem intDigits_no_x (i : Int64) : ∀ c ∈ intDigits i, c ≠ 'x' ∧ c ≠ 'X' := by
  intro c hc
  rw [intDigits, List.mem_append] at hc
  cases hc with
  | inl hsign =>
      by_cases hneg : i.toInt < 0
      · rw [if_pos hneg, List.mem_singleton] at hsign
        subst hsign
        decide
      · rw [if_neg hneg] at hsign
        cases hsign
  | inr hdigit =>
      obtain ⟨d, -, rfl⟩ := List.mem_map.mp hdigit
      exact ⟨digitChar_ne_of_not_isDigit rfl d, digitChar_ne_of_not_isDigit rfl d⟩

theorem number_intDigits (i : Int64) : number (intDigits i) = some (intDigits i, []) := by
  have hds := toDigits_ne_nil i.toInt.natAbs
  obtain ⟨d, ds, hcons⟩ := List.exists_cons_of_ne_nil hds
  have hhex : hexInt (intDigits i) = none := hexInt_eq_none (intDigits_no_x i)
  have hsigned : signedFloatOrInt (intDigits i) = some (intDigits i, []) := by
    have hfloat := floatOrInt_digits hds
    by_cases hneg : i.toInt < 0
    · have hsign : opt (one isSign) (intDigits i) =
          some (['-'], (toDigits i.toInt.natAbs).map digitChar) := by
        simp [opt, one, isSign, intDigits, hneg]
      rw [signedFloatOrInt, seq, hsign]
      simp [hfloat, intDigits, hneg]
    · have hsign : opt (one isSign) (intDigits i) = some ([], intDigits i) := by
        have hplus := digitChar_ne_of_not_isDigit (c := '+') rfl d
        have hminus := digitChar_ne_of_not_isDigit (c := '-') rfl d
        simp [opt, one, isSign, intDigits, hneg, hcons, hplus, hminus]
      rw [signedFloatOrInt, seq, hsign]
      simp [hfloat, intDigits, hneg]
  rw [number, alt, hhex, hsigned]
  rfl

theorem parseU64_digits {n : Nat} (hn : n < 2 ^ 64) :
    parseU64 ((toDigits n).map digitChar) = some n := by
  rw [parseU64, allDigits_map (toDigits_ne_nil n), ofDigits_toDigits]
  simpa using hn

theorem drop_sign_intDigits (i : Int64) :
    (intDigits i).drop (signLength (intDigits i)) = (toDigits i.toInt.natAbs).map digitChar := by
  obtain ⟨d, ds, hcons⟩ := List.exists_cons_of_ne_nil (toDigits_ne_nil i.toInt.natAbs)
  by_cases hneg : i.toInt < 0
  · simp [intDigits, hneg, signLength]
  · have hplus := digitChar_ne_of_not_isDigit (c := '+') rfl d
    have hminus := digitChar_ne_of_not_isDigit (c := '-') rfl d
    have hlen : signLength (intDigits i) = 0 := by
      simp only [intDigits, if_neg hneg, hcons, List.map_cons, List.nil_append]
      unfold signLength
      split <;> simp_all
    rw [hlen, intDigits, if_neg hneg]
    rfl

theorem head?_intDigits (i : Int64) : (intDigits i).head? = some '-' ↔ i.toInt < 0 := by
  obtain ⟨d, ds, hcons⟩ := List.exists_cons_of_ne_nil (toDigits_ne_nil i.toInt.natAbs)
  have hminus := digitChar_ne_of_not_isDigit (c := '-') rfl d
  by_cases hneg : i.toInt < 0
  · simp [intDigits, hneg]
  · simp [intDigits, hneg, hcons, hminus]

theorem buildNumber_intDigits (i : Int64) : buildNumber (intDigits i) = .integer i := by
  have hlower := i.le_toInt
  have hupper := i.toInt_lt
  have hprefix : ¬((intDigits i).take 2 = ['0', 'x'] ∨ (intDigits i).take 2 = ['0', 'X']) := by
    rintro (htake | htake)
    · have hmem : 'x' ∈ (intDigits i).take 2 := by simp [htake]
      exact (intDigits_no_x i 'x' (List.mem_of_mem_take hmem)).1 rfl
    · have hmem : 'X' ∈ (intDigits i).take 2 := by simp [htake]
      exact (intDigits_no_x i 'X' (List.mem_of_mem_take hmem)).2 rfl
  have hwhole : (((toDigits i.toInt.natAbs).map digitChar).any
      fun c => c = '.' || c = 'e' || c = 'E') = false := by
    have hstop (d : Digit) : digitChar d ≠ '.' ∧ digitChar d ≠ 'e' ∧ digitChar d ≠ 'E' :=
      ⟨digitChar_ne_point d, digitChar_ne_of_not_isDigit rfl d, digitChar_ne_of_not_isDigit rfl d⟩
    simp [hstop]
  rw [buildNumber, if_neg hprefix]
  simp only [drop_sign_intDigits, hwhole, Bool.false_eq_true, if_false,
    parseU64_digits (n := i.toInt.natAbs) (by omega), decide_eq_true_eq, head?_intDigits]
  by_cases hmin : i.toInt < 0 ∧ i.toInt.natAbs = 2 ^ 63
  · have heq : i = Int64.minValue := by
      apply Int64.toInt_inj.mp
      rw [Int64.toInt_minValue]
      omega
    rw [if_pos hmin, heq]
  · have hsmall : i.toInt.natAbs < 2 ^ 63 := by omega
    have hvalue : (if i.toInt < 0 then -1 else 1) * Int64.ofNat i.toInt.natAbs = i := by
      by_cases hneg : i.toInt < 0
      · have habs : -1 * (i.toInt.natAbs : Int) = i.toInt := by omega
        calc (if i.toInt < 0 then -1 else 1) * Int64.ofNat i.toInt.natAbs
            = Int64.ofInt (-1) * Int64.ofInt i.toInt.natAbs := by rw [if_pos hneg]; rfl
          _ = i := by rw [← Int64.ofInt_mul, habs, Int64.ofInt_toInt]
      · have habs : (i.toInt.natAbs : Int) = i.toInt := by omega
        calc (if i.toInt < 0 then -1 else 1) * Int64.ofNat i.toInt.natAbs
            = Int64.ofInt i.toInt.natAbs := by rw [if_neg hneg, Int64.one_mul]; rfl
          _ = i := by rw [habs, Int64.ofInt_toInt]
    rw [if_neg hmin, if_pos hsmall, hvalue]

/-! ## What stands between quotes -/

theorem isQuote_iff (c : Char) : isQuote c = true ↔ c = quoteMark := by
  rw [isQuote, decide_eq_true_eq, ← Char.toNat_inj]
  rfl

theorem stringBody_doubled (text : List Char) :
    stringBody (doubled text ++ [quoteMark]) = (doubled text, [quoteMark]) := by
  induction text with
  | nil => rfl
  | cons c text ih =>
      by_cases hc : isQuote c = true
      · have hd : doubled (c :: text) = quoteMark :: c :: doubled text := by
          simp [doubled, hc]
        have hq : isQuote quoteMark = true := rfl
        rw [hd, List.cons_append, List.cons_append, stringBody, if_pos hq, if_pos hc, ih]
      · have hd : doubled (c :: text) = c :: doubled text := by simp [doubled, hc]
        rw [hd, List.cons_append]
        cases hrest : doubled text ++ [quoteMark] with
        | nil => simp at hrest
        | cons d rest => rw [stringBody, if_neg hc, ← hrest, ih]

theorem undouble_doubled (text : List Char) : undouble (doubled text) = text := by
  induction text with
  | nil => rfl
  | cons c text ih =>
      by_cases hc : isQuote c = true
      · have hd : doubled (c :: text) = c :: c :: doubled text := by
          simp only [doubled, List.flatMap_cons, if_pos hc]
          rw [← (isQuote_iff c).mp hc, List.cons_append, List.cons_append, List.nil_append]
        rw [hd, undouble, if_pos (by rw [hc]; rfl), ih]
      · have hd : doubled (c :: text) = c :: doubled text := by simp [doubled, hc]
        rw [hd]
        cases hrest : doubled text with
        | nil => rw [undouble, ← ih, hrest]; rfl
        | cons d rest => rw [undouble, if_neg (by simp [hc]), ← hrest, ih]

theorem hexVal_hexUp (b : UInt8) :
    hexVal (hexUp (b >>> 4)) <<< 4 ||| hexVal (hexUp (b &&& 0xf)) = b ∧
      isHexDigit (hexUp (b >>> 4)) = true ∧ isHexDigit (hexUp (b &&& 0xf)) = true := by
  have hall : ∀ n : Fin 256, hexVal (hexUp (UInt8.ofNat n >>> 4)) <<< 4 |||
      hexVal (hexUp (UInt8.ofNat n &&& 0xf)) = UInt8.ofNat n ∧
      isHexDigit (hexUp (UInt8.ofNat n >>> 4)) = true ∧
      isHexDigit (hexUp (UInt8.ofNat n &&& 0xf)) = true := by decide +kernel
  have hb := hall ⟨b.toNat, b.toNat_lt⟩
  simpa only [UInt8.ofNat_toNat] using hb

theorem isHexDigit_quoteMark : isHexDigit quoteMark = false := by decide

theorem hexPairs_hexText (b : Bytes) : hexPairs (hexText b) = b := by
  induction b with
  | nil => rfl
  | cons byte b ih =>
      have htext : hexText (byte :: b) =
          hexUp (byte >>> 4) :: hexUp (byte &&& 0xf) :: hexText b := by
        simp [hexText]
      rw [htext, hexPairs, ih, (hexVal_hexUp byte).1]

theorem isHexDigit_hexText (b : Bytes) : ∀ c ∈ hexText b, isHexDigit c = true := by
  intro c hc
  obtain ⟨byte, -, hbyte⟩ := List.mem_flatMap.mp hc
  have hdigits := (hexVal_hexUp byte).2
  simp only [List.mem_cons, List.not_mem_nil, or_false] at hbyte
  cases hbyte with
  | inl h => rw [h]; exact hdigits.1
  | inr h => rw [h]; exact hdigits.2

/-! ## Every literal is read back -/

variable {S W : Type}

theorem readLiteral_null :
    readLiteral (quoteText .null) = some (.literal .null : Expr S W) := rfl

theorem literal_number {m : List Char × List Char} (h : number text = some m) :
    literal text = some (.number, m.1, m.2) := by
  simp only [literal, literalRules, List.findSome?_cons, h, Option.map_some]

theorem readLiteral_int (i : Int64) :
    readLiteral (quoteText (.int i)) = some (.literal (.integer i) : Expr S W) := by
  rw [readLiteral, quoteText, toList_toString, literal_number (number_intDigits i)]
  simp only [buildLiteralExpr, buildNumber_intDigits]

theorem one_eq_none (hc : p c = false) (rest : List Char) : one p (c :: rest) = none := by
  rw [one, hc]
  rfl

theorem number_eq_none (hsign : isSign c = false) (hdigit : c.isDigit = false) (hpoint : c ≠ '.')
    (rest : List Char) : number (c :: rest) = none := by
  have hzero : c ≠ '0' := by
    rintro rfl
    cases hdigit
  have hhex : hexInt (c :: rest) = none := seq_eq_none (one_eq_none (by simpa using hzero) rest)
  have hopt : opt (one isSign) (c :: rest) = some ([], c :: rest) := by
    rw [opt, one_eq_none hsign]
    rfl
  have hwhole : some1 Char.isDigit (c :: rest) = none := by simp [some1, hdigit]
  have hfraction : one (fun c => c = '.') (c :: rest) = none :=
    one_eq_none (by simpa using hpoint) rest
  have hfloat : floatOrInt (c :: rest) = none := by
    rw [floatOrInt, alt, seq_eq_none hwhole, seq_eq_none hfraction]
    rfl
  rw [number, alt, hhex, signedFloatOrInt, seq, hopt]
  simp only [Option.bind_some, hfloat, Option.map_none, Option.or_none]

theorem one_cons (hc : p c = true) (rest : List Char) : one p (c :: rest) = some ([c], rest) := by
  rw [one, if_pos hc]

theorem readLiteral_text (s : String) :
    readLiteral (quoteText (.text s)) = some (.literal (.text s) : Expr S W) := by
  have hnumber := number_eq_none (c := quoteMark) rfl rfl (by decide)
    (doubled s.toList ++ [quoteMark])
  have hstring : string (quoteMark :: (doubled s.toList ++ [quoteMark])) =
      some (quoteMark :: (doubled s.toList ++ [quoteMark]), []) := by
    rw [string, seq, one_cons rfl]
    simp [seq, stringBody_doubled, one_cons (p := isQuote) (c := quoteMark) rfl]
  have hliteral : literal (quoteMark :: (doubled s.toList ++ [quoteMark])) =
      some (.string, quoteMark :: (doubled s.toList ++ [quoteMark]), []) := by
    simp only [literal, literalRules, List.findSome?_cons, hnumber, Option.map_none, hstring,
      Option.map_some]
  rw [readLiteral, quoteText, String.toList_ofList, List.cons_append, hliteral]
  simp [buildLiteralExpr, unquoteString, undouble_doubled]

theorem readLiteral_blob (b : Bytes) :
    readLiteral (quoteText (.blob b)) = some (.literal (.blob b) : Expr S W) := by
  have hnumber := number_eq_none (c := 'X') rfl rfl (by decide)
    (quoteMark :: (hexText b ++ [quoteMark]))
  have hstring : string ('X' :: quoteMark :: (hexText b ++ [quoteMark])) = none :=
    seq_eq_none (one_eq_none rfl _)
  have hmany : many isHexDigit (hexText b ++ [quoteMark]) = some (hexText b, [quoteMark]) := by
    rw [many, List.takeWhile_append_of_pos (isHexDigit_hexText b),
      List.dropWhile_append_of_pos (isHexDigit_hexText b)]
    simp [isHexDigit_quoteMark]
  have hblob : blob ('X' :: quoteMark :: (hexText b ++ [quoteMark])) =
      some ('X' :: quoteMark :: (hexText b ++ [quoteMark]), []) := by
    rw [blob, seq, one_cons rfl]
    simp [seq, hmany, one_cons (p := isQuote) (c := quoteMark) rfl]
  have hliteral : literal ('X' :: quoteMark :: (hexText b ++ [quoteMark])) =
      some (.blob, 'X' :: quoteMark :: (hexText b ++ [quoteMark]), []) := by
    simp only [literal, literalRules, List.findSome?_cons, hnumber, Option.map_none, hstring,
      hblob, Option.map_some]
  rw [readLiteral, quoteText, String.toList_ofList, List.cons_append, List.cons_append, hliteral]
  simp [buildLiteralExpr, parseBlob, hexPairs_hexText]

def ReadsAs (x : Value) (l : Literal) : Prop :=
  ∃ text, quote x = .text text ∧ ∀ S W : Type, readLiteral text = some (.literal l : Expr S W)

theorem quote_readsAs : ReadsAs .null .null ∧ (∀ i, ReadsAs (.int i) (.integer i)) ∧
    (∀ s, ReadsAs (.text s) (.text s)) ∧ ∀ b, ReadsAs (.blob b) (.blob b) :=
  ⟨⟨_, rfl, fun _ _ => readLiteral_null⟩, fun i => ⟨_, rfl, fun _ _ => readLiteral_int i⟩,
    fun s => ⟨_, rfl, fun _ _ => readLiteral_text s⟩,
    fun b => ⟨_, rfl, fun _ _ => readLiteral_blob b⟩⟩

end Rustqlite.Func
