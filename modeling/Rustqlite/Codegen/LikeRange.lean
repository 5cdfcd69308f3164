import Rustqlite.Codegen.LikeLiteral

/-!
# The range of a pattern and its matches

What the bounds of a LIKE or GLOB pattern have to do with the texts that match
it, under the collation that the column must have.
-/

namespace Rustqlite.Codegen

open Foundation Func

structure LikePattern where
  kind : LikeKind
  escape : UInt8
  text : String
  escapeAscii : escape < 0x80
  globEscape : kind = .glob → escape = 0

def foldChar (noCase : Bool) (c : Char) : Char := if noCase then c.toLower else c

/-- The collation that the column of a term must have. -/
def requiredCollation (noCase : Bool) : Collation := if noCase then .noCase else .binary

namespace LikeKind

def noCase (kind : LikeKind) : Bool := kind = .like

def compareInfo : LikeKind → CompareInfo
  | .like => likeInfo
  | .glob => globInfo

def matchOther (kind : LikeKind) (escape : UInt8) : Char :=
  match kind with
  | .like => byteChar escape
  | .glob => '['

end LikeKind

namespace LikePattern

variable (p : LikePattern)

def isMatch (s : String) : Bool :=
  patternCompare p.text.toList s.toList p.kind.compareInfo (p.kind.matchOther p.escape)

def literal : List Char := (literalChars p.kind (byteChar p.escape) p.text.toList).1

def rest : List Char := (literalChars p.kind (byteChar p.escape) p.text.toList).2

end LikePattern

def LikeBounds.Contains (b : LikeBounds) (coll : Collation) (s : String) : Prop :=
  coll.compare b.lower s ≠ .gt ∧ ∀ u ∈ b.upper, coll.compare s u = .lt

/-! ## A match starts as the pattern does -/

variable {c : Char} {noCase : Bool}

section Matching

variable {kind : LikeKind} {escape : UInt8}

variable {d : Char} {string literal : List Char} {next : List Char → Outcome}

theorem sameChar_iff (c d : Char) :
    sameChar kind.compareInfo c d = true ↔ foldChar kind.noCase c = foldChar kind.noCase d := by
  cases kind with
  | glob => simp [sameChar, LikeKind.compareInfo, globInfo, foldChar, LikeKind.noCase]
  | like =>
      simp only [sameChar, LikeKind.compareInfo, likeInfo, foldChar, LikeKind.noCase, isAscii,
        Bool.or_eq_true, Bool.and_eq_true, decide_eq_true_eq, true_and, decide_true, if_true]
      constructor
      · rintro (rfl | ⟨⟨h, -⟩, -⟩)
        · rfl
        · exact h
      · intro h
        rcases eq_or_ne c d with rfl | hne
        · exact .inl rfl
        · obtain ⟨hc, hd⟩ := toLower_ascii h hne
          exact .inr ⟨⟨h, hc⟩, hd⟩

theorem foldChar_eq_nul : foldChar noCase c = nul ↔ c = nul := by
  refine ⟨fun h => char_ext ?_, fun h => by rw [h]; cases noCase <;> rfl⟩
  have hnul : nul.toNat = 0 := rfl
  have hnat := congrArg Char.toNat h
  unfold foldChar at hnat
  split_ifs at hnat
  · rw [toNat_toLower] at hnat
    split_ifs at hnat <;> omega
  · exact hnat

theorem stops_cases (h : kind.stops c = false) :
    c ≠ nul ∧ c ≠ kind.compareInfo.matchAll ∧ c ≠ kind.compareInfo.matchOne ∧
      (kind = .glob → c ≠ '[') := by
  simp only [LikeKind.stops, Bool.or_eq_false_iff, Bool.and_eq_false_iff,
      decide_eq_false_iff_not] at h
  obtain ⟨⟨⟨hnul, hall⟩, hone⟩, hset⟩ := h
  cases kind with
  | like =>
      refine ⟨hnul, hall, hone, fun h => ?_⟩
      cases h
  | glob => exact ⟨hnul, hall, hone, fun _ heq => hset.elim (fun hne => hne heq)
        (fun hne => hne rfl)⟩

theorem compare_plain (fuel : Nat) (pattern string : List Char) (hglob : kind = .glob → escape = 0)
    (hstop : kind.stops c = false) (hesc : ¬(byteChar escape ≠ nul ∧ c = byteChar escape)) :
    compare kind.compareInfo (kind.matchOther escape) (fuel + 1) (c :: pattern) string =
      if sameChar kind.compareInfo c (read string).1 then
        compare kind.compareInfo (kind.matchOther escape) fuel pattern (read string).2
      else .noMatch := by
  obtain ⟨hnul, hall, hone, hset⟩ := stops_cases hstop
  have hother : c ≠ kind.matchOther escape := by
    cases kind with
    | like =>
        intro heq
        have hc : c = byteChar escape := heq
        exact hesc ⟨by rw [← hc]; exact hnul, hc⟩
    | glob => exact hset rfl
  rw [Func.compare]
  simp only [if_neg hnul, if_neg hall, hother, false_and, if_false, hone, or_false]

theorem compare_escaped (fuel : Nat) (pattern string : List Char)
    (hglob : kind = .glob → escape = 0) (hstop : kind.stops (byteChar escape) = false)
    (hesc : byteChar escape ≠ nul) :
    compare kind.compareInfo (kind.matchOther escape) (fuel + 1) (byteChar escape :: d :: pattern)
        string =
      if d = nul then .noMatch
      else if sameChar kind.compareInfo d (read string).1 then
        compare kind.compareInfo (kind.matchOther escape) fuel pattern (read string).2
      else .noMatch := by
  obtain ⟨hnul, hall, hone, hset⟩ := stops_cases hstop
  cases kind with
  | glob =>
      refine absurd ?_ hesc
      rw [hglob rfl]
      rfl
  | like =>
      have hmatchSet : LikeKind.like.compareInfo.matchSet = false := rfl
      have hother : LikeKind.like.matchOther escape = byteChar escape := rfl
      rw [Func.compare, hother]
      simp only [if_neg hnul, if_neg hall, hmatchSet, Bool.false_eq_true, and_false, if_false,
        if_true]
      rfl

theorem cons_of_sameChar (hc : c ≠ nul) (h : sameChar kind.compareInfo c (read string).1 = true) :
    ∃ d ds, string = d :: ds ∧ foldChar kind.noCase c = foldChar kind.noCase d := by
  rw [sameChar_iff] at h
  cases string with
  | nil =>
      have hnul : foldChar kind.noCase nul = nul := (foldChar_eq_nul).mpr rfl
      exact absurd ((foldChar_eq_nul).mp (h.trans hnul)) hc
  | cons d ds => exact ⟨d, ds, rfl, h⟩

theorem exists_of_step (hc : c ≠ nul) (ih : ∀ string, next string = .matched → nul ∉ literal ∧
      ∃ t, string.map (foldChar kind.noCase) = literal.map (foldChar kind.noCase) ++ t)
    (h : (if sameChar kind.compareInfo c (read string).1 then next (read string).2
      else .noMatch) = .matched) :
    nul ∉ c :: literal ∧ ∃ t, string.map (foldChar kind.noCase) =
      (c :: literal).map (foldChar kind.noCase) ++ t := by
  split_ifs at h with hsame
  obtain ⟨d, ds, rfl, hfold⟩ := cons_of_sameChar hc hsame
  obtain ⟨hnul, t, ht⟩ := ih ds h
  constructor
  · rw [List.mem_cons, not_or]
    exact ⟨Ne.symm hc, hnul⟩
  · exact ⟨t, by rw [List.map_cons, List.map_cons, ht, hfold]; rfl⟩

theorem exists_of_matched (hglob : kind = .glob → escape = 0) (pattern string : List Char)
    (fuel : Nat)
    (h : compare kind.compareInfo (kind.matchOther escape) fuel pattern string = .matched) :
    nul ∉ (literalChars kind (byteChar escape) pattern).1 ∧ ∃ t, string.map (foldChar kind.noCase) =
      (literalChars kind (byteChar escape) pattern).1.map (foldChar kind.noCase) ++ t := by
  fun_induction literalChars kind (byteChar escape) pattern generalizing string fuel with
  | case1 => exact ⟨List.not_mem_nil, _, rfl⟩
  | case2 c hstop => exact ⟨List.not_mem_nil, _, rfl⟩
  | case3 c hstop =>
      rw [not_or, not_or, Bool.not_eq_true] at hstop
      cases fuel with
      | zero => cases h
      | succ fuel =>
          rw [compare_plain fuel _ _ hglob hstop.1 hstop.2.2] at h
          exact exists_of_step (stops_cases hstop.1).1 (fun string _ =>
              ⟨List.not_mem_nil, _, rfl⟩) h
  | case4 c d rest hstop => exact ⟨List.not_mem_nil, _, rfl⟩
  | case5 c rest hstop hesc => exact ⟨List.not_mem_nil, _, rfl⟩
  | case6 c d rest hstop hesc hd ih =>
      rw [not_or, Bool.not_eq_true] at hstop
      cases fuel with
      | zero => cases h
      | succ fuel =>
          rw [hesc.2] at h hstop
          rw [compare_escaped fuel _ _ hglob hstop.1 hesc.1] at h
          rcases eq_or_ne d nul with hnul | hnul
          · rw [if_pos hnul] at h
            cases h
          · rw [if_neg hnul] at h
            exact exists_of_step hnul (fun string => ih string fuel) h
  | case7 c d rest hstop hesc ih =>
      rw [not_or, Bool.not_eq_true] at hstop
      cases fuel with
      | zero => cases h
      | succ fuel =>
          rw [compare_plain fuel _ _ hglob hstop.1 hesc] at h
          exact exists_of_step (stops_cases hstop.1).1 (fun string => ih string fuel) h

theorem compare_open {pattern : List Char} (h : kind.isOpen pattern = true) (fuel : Nat)
    (string : List Char) :
    compare kind.compareInfo (kind.matchOther escape) (fuel + 1) pattern string = .matched := by
  cases pattern with
  | nil => cases h
  | cons c rest =>
      obtain ⟨rfl, hrest⟩ := LikeKind.isOpen_cons.mp h
      have hnul : byteChar kind.wcAll ≠ nul := by cases kind <;> decide
      have hall : byteChar kind.wcAll = kind.compareInfo.matchAll := by cases kind <;> rfl
      have hskip : skipRun kind.compareInfo rest string = some (rest, string) := by
        cases rest with
        | nil => rfl
        | cons d rest =>
            have hd : d = nul := hrest
            rw [hd, skipRun, if_neg (by cases kind <;> decide), if_neg (by cases kind <;> decide)]
      rw [Func.compare, if_neg hnul, if_pos hall, hskip]
      exact if_pos hrest

theorem matched_step {t : List Char} (ih : ∀ string, string.map (foldChar kind.noCase) =
      literal.map (foldChar kind.noCase) ++ t → next string = .matched)
    (h : string.map (foldChar kind.noCase) = (c :: literal).map (foldChar kind.noCase) ++ t) :
    (if sameChar kind.compareInfo c (read string).1 then next (read string).2
      else .noMatch) = .matched := by
  cases string with
  | nil => cases h
  | cons d ds =>
      rw [List.map_cons, List.map_cons, List.cons_append, List.cons.injEq] at h
      exact (if_pos (sameChar_iff c d |>.mpr h.1.symm)).trans (ih ds h.2)

theorem matched_of_isOpen (hglob : kind = .glob → escape = 0) (pattern string t : List Char)
    (fuel : Nat) (hfuel : pattern.length < fuel)
    (hopen : kind.isOpen (literalChars kind (byteChar escape) pattern).2 = true)
    (hnul : nul ∉ (literalChars kind (byteChar escape) pattern).1)
    (h : string.map (foldChar kind.noCase) =
      (literalChars kind (byteChar escape) pattern).1.map (foldChar kind.noCase) ++ t) :
    compare kind.compareInfo (kind.matchOther escape) fuel pattern string = .matched := by
  obtain ⟨fuel, rfl⟩ : ∃ n, fuel = n + 1 := ⟨fuel - 1, by omega⟩
  fun_induction literalChars kind (byteChar escape) pattern generalizing string fuel with
  | case1 => cases hopen
  | case2 c hstop => exact compare_open hopen fuel string
  | case3 c hstop => cases hopen
  | case4 c d rest hstop => exact compare_open hopen fuel string
  | case5 c rest hstop hesc => exact compare_open hopen fuel string
  | case6 c d rest hstop hesc hd ih =>
      rw [not_or, Bool.not_eq_true] at hstop
      rw [List.mem_cons, not_or] at hnul
      rw [List.length_cons, List.length_cons] at hfuel
      obtain ⟨fuel, rfl⟩ : ∃ n, fuel = n + 1 := ⟨fuel - 1, by omega⟩
      rw [hesc.2] at hstop ⊢
      rw [compare_escaped _ _ _ hglob hstop.1 hesc.1, if_neg (Ne.symm hnul.1)]
      exact matched_step (fun string h => ih string hopen hnul.2 h fuel (by omega)) h
  | case7 c d rest hstop hesc ih =>
      rw [not_or, Bool.not_eq_true] at hstop
      rw [List.mem_cons, not_or] at hnul
      rw [List.length_cons] at hfuel
      obtain ⟨fuel, rfl⟩ : ∃ n, fuel = n + 1 := ⟨fuel - 1, by omega⟩
      rw [compare_plain _ _ _ hglob hstop.1 hesc]
      exact matched_step (fun string h => ih string hopen hnul.2 h fuel (by omega)) h

end Matching

/-! ## The bounds, in characters -/

def upChar (noCase : Bool) (c : Char) : Char := if noCase then c.toUpper else c

theorem toNat_asciiUpper (b : UInt8) :
    (asciiUpper b).toNat = if 0x61 ≤ b.toNat ∧ b.toNat ≤ 0x7a then b.toNat - 0x20 else b.toNat := by
  unfold asciiUpper
  have hiff : 0x61 ≤ b ∧ b ≤ 0x7a ↔ 0x61 ≤ b.toNat ∧ b.toNat ≤ 0x7a := by
    rw [UInt8.le_iff_toNat_le, UInt8.le_iff_toNat_le]
    rfl
  simp only [hiff]
  split_ifs with h
  · rw [UInt8.toNat_sub_of_le _ _ (UInt8.le_iff_toNat_le.mpr (by change 32 ≤ b.toNat; omega))]
    rfl
  · rfl

theorem foldsAscii_upper : FoldsAscii asciiUpper Char.toUpper where
  ascii c h := by
    have hbyte : (UInt8.ofNat c.toNat).toNat = c.toNat := by
      rw [UInt8.toNat_ofNat']
      omega
    rw [toNat_toUpper, toNat_asciiUpper, hbyte]
    split_ifs <;> omega
  other c h := char_ext (by rw [toNat_toUpper]; split_ifs <;> omega)
  otherByte b h := by
    rw [← UInt8.toNat_inj, toNat_asciiUpper]
    split_ifs <;> omega

def upperBound (noCase : Bool) (literal : List Char) : Option String :=
  (incrementLastUtf8Byte ((literal.map (upChar noCase)).flatMap String.utf8EncodeChar)).map
    fun s => String.ofList (s.toList.map (foldChar noCase))

theorem likeBounds_cases {p : LikePattern} {b : LikeBounds}
    (h : likeBounds p.kind p.escape noCase p.text = some b) :
    p.literal ≠ [] ∧ b.lower = String.ofList (p.literal.map (upChar noCase)) ∧
      b.upper = upperBound noCase p.literal ∧
      (b.isComplete = true ↔ p.kind.isOpen p.rest = true ∧
        ¬(noCase = true ∧ b.upper.any fun s => (utf8Bytes s).getLast? = some 0x40)) := by
  unfold likeBounds at h
  rw [Option.ite_none_left_eq_some] at h
  obtain ⟨hwild, h⟩ := h
  obtain ⟨taken, rest, hbytes, hliteral, hcount, hopen⟩ := counted_literalChars p.escapeAscii
    hwild p.text.toList [] ((utf8Bytes p.text).length + 1) (Nat.lt_succ_self _)
  have hbytes' : utf8Bytes p.text = taken ++ rest := hbytes
  have hcount' : literalCount p.kind p.escape (utf8Bytes p.text) ((utf8Bytes p.text).length + 1) 0 =
      (taken.length, byteAt rest 0) := by
    rw [List.nil_append, List.length_nil, Nat.zero_add] at hcount
    exact hcount
  dsimp only at h
  rw [hcount'] at h
  dsimp only at h
  rw [Option.ite_none_left_eq_some, Option.ite_none_left_eq_some, Option.ite_none_left_eq_some,
    hbytes', List.take_left, Option.ite_none_left_eq_some] at h
  obtain ⟨-, -, -, hne, h⟩ := h
  have hfolded : (if noCase = true then (removeEscapes p.escape taken).map asciiUpper
      else removeEscapes p.escape taken) =
        (p.literal.map (upChar noCase)).flatMap String.utf8EncodeChar := by
    rw [hliteral]
    cases noCase with
    | false =>
        have hid : upChar false = id := rfl
        rw [hid, List.map_id]
        rfl
    | true =>
        rw [if_pos rfl, (foldsAscii_upper).map_flatMap]
        rfl
  have hlower (cs : List Char) :
      fromUtf8Lossy (cs.flatMap String.utf8EncodeChar) = String.ofList cs := by
    have hround := fromUtf8Lossy_utf8Bytes (String.ofList cs)
    rwa [utf8Bytes, String.toList_ofList] at hround
  rw [hfolded, hlower] at h
  cases h
  refine ⟨fun hnil => hne (.inl ?_), rfl, ?_, ?_⟩
  · rw [hliteral]
    have hlit : (literalChars p.kind (byteChar p.escape) p.text.toList).1 = [] := hnil
    rw [hlit]
    rfl
  · unfold upperBound
    cases noCase with
    | false =>
        have hid : foldChar false = id := rfl
        simp [hid]
    | true =>
        rw [if_pos rfl]
        refine Option.map_congr fun s _ => ?_
        rw [utf8Bytes, foldsAscii_lower.map_flatMap, hlower]
        rfl
  · have hrest : byteAt (taken ++ rest) (taken.length + 1) = byteAt rest 1 := byteAt_append
        taken rest 1
    have hlen : (taken ++ rest).length ≤ taken.length + 1 ↔ rest.length ≤ 1 := by
      rw [List.length_append]
      omega
    have hends : (byteAt rest 0 = p.kind.wcAll ∧ ((taken ++ rest).length ≤ taken.length + 1 ∨
        byteAt (taken ++ rest) (taken.length + 1) = 0)) ↔ p.kind.isOpen p.rest = true := by
      rw [hrest, hlen]
      exact hopen
    exact decide_eq_true_iff.trans (and_congr_left' hends)

section Fold

variable {noCase : Bool}

theorem toNat_foldChar (c : Char) : (foldChar noCase c).toNat =
    if noCase = true ∧ 0x41 ≤ c.toNat ∧ c.toNat ≤ 0x5a then c.toNat + 0x20 else c.toNat := by
  unfold foldChar
  cases noCase with
  | false => simp
  | true => simp [toNat_toLower]

theorem toNat_upChar (c : Char) : (upChar noCase c).toNat =
    if noCase = true ∧ 0x61 ≤ c.toNat ∧ c.toNat ≤ 0x7a then c.toNat - 0x20 else c.toNat := by
  unfold upChar
  cases noCase with
  | false => simp
  | true => simp [toNat_toUpper]

theorem foldChar_upChar (c : Char) : foldChar noCase (upChar noCase c) = foldChar noCase c := by
  refine char_ext ?_
  rw [toNat_foldChar, toNat_upChar, toNat_foldChar]
  cases noCase with
  | false => simp
  | true =>
      simp only [true_and]
      split_ifs <;> omega

theorem foldChar_foldChar (c : Char) : foldChar noCase (foldChar noCase c) = foldChar noCase c := by
  refine char_ext ?_
  rw [toNat_foldChar, toNat_foldChar]
  split_ifs <;> omega

theorem map_foldChar_upChar (cs : List Char) :
    (cs.map (upChar noCase)).map (foldChar noCase) = cs.map (foldChar noCase) := by
  rw [List.map_map]
  exact List.map_congr_left fun c _ => foldChar_upChar c

theorem hasNext_iff (c : Char) : HasNext c ↔
    c.toNat ≠ 0x7f ∧ c.toNat ≠ 0x7ff ∧ c.toNat ≠ 0xd7ff ∧ c.toNat ≠ 0xffff ∧
        c.toNat ≠ 0x10ffff := by
  simp [HasNext]

theorem hasNext_upChar (c : Char) : HasNext (upChar noCase c) ↔ HasNext c := by
  rw [hasNext_iff, hasNext_iff, toNat_upChar]
  split_ifs <;> omega

theorem toNat_fold_nextChar (h : HasNext c) :
    (foldChar noCase (nextChar (upChar noCase c))).toNat =
      if noCase = true ∧ (c.toNat = 0x7a ∨ c.toNat = 0x5a) then 0x5b
      else if noCase = true ∧ c.toNat = 0x40 then 0x61
      else (foldChar noCase c).toNat + 1 := by
  rw [toNat_foldChar, toNat_nextChar ((hasNext_upChar c).mpr h), toNat_upChar, toNat_foldChar]
  cases noCase with
  | false => simp
  | true =>
      simp only [true_and]
      split_ifs <;> omega

theorem foldsAscii_id : FoldsAscii id id where
  ascii c h := by
    refine ⟨h, ?_⟩
    rw [id, id, UInt8.toNat_ofNat']
    omega
  other _ _ := rfl
  otherByte _ _ := rfl

def foldByte (noCase : Bool) : UInt8 → UInt8 := if noCase then asciiLower else id

theorem foldsAscii_fold (noCase : Bool) : FoldsAscii (foldByte noCase) (foldChar noCase) := by
  cases noCase with
  | false => exact foldsAscii_id
  | true => exact foldsAscii_lower

theorem map_fold_latin1 (bytes : Bytes) :
    (latin1Chars bytes).map (foldChar noCase) = latin1Chars (bytes.map (foldByte noCase)) := by
  have hbyte (b : UInt8) :
      foldChar noCase (Char.ofNat b.toNat) = Char.ofNat (foldByte noCase b).toNat := by
    refine char_ext ?_
    rw [toNat_foldChar, toNat_latin1, toNat_latin1]
    cases noCase with
    | false => simp [foldByte]
    | true => simp [foldByte, toNat_asciiLower]
  rw [latin1Chars, latin1Chars, List.map_map, List.map_map]
  exact List.map_congr_left fun b _ => hbyte b

theorem map_fold_latin1_flatMap (cs : List Char) :
    (latin1Chars (cs.flatMap String.utf8EncodeChar)).map (foldChar noCase) =
      latin1Chars ((cs.map (foldChar noCase)).flatMap String.utf8EncodeChar) := by
  rw [map_fold_latin1, (foldsAscii_fold noCase).map_flatMap]

theorem compare_fold (a b : String) : (requiredCollation noCase).compare a b =
    compareChars (a.toList.map (foldChar noCase)) (b.toList.map (foldChar noCase)) := by
  cases noCase with
  | true => exact Collation.compare_noCase a b
  | false =>
      have hid : foldChar false = id := rfl
      rw [hid, List.map_id, List.map_id]
      exact Collation.compare_binary a b

theorem upperBound_of_hasNext {front : List Char} (h : HasNext c) :
    upperBound noCase (front ++ [c]) = some (String.ofList
      (front.map (foldChar noCase) ++ [foldChar noCase (nextChar (upChar noCase c))])) := by
  unfold upperBound
  rw [List.map_append, List.map_singleton,
    incrementLastUtf8Byte_of_hasNext ((hasNext_upChar c).mpr h), Option.map_some,
    String.toList_ofList, List.map_append, map_foldChar_upChar]
  rfl

theorem fixed_of_last (h : ¬HasNext c) : foldChar noCase c = c ∧
    upChar noCase c = c := by
  rw [hasNext_iff] at h
  constructor
  · refine char_ext ?_
    rw [toNat_foldChar]
    split_ifs <;> omega
  · refine char_ext ?_
    rw [toNat_upChar]
    split_ifs <;> omega

theorem upperBound_of_last (noCase : Bool) (front : List Char) (h : ¬HasNext c) :
    ∃ raised, RaisedLast c raised ∧ upperBound noCase (front ++ [c]) = some (String.ofList
      (latin1Chars ((front.map (foldChar noCase)).flatMap String.utf8EncodeChar) ++
        latin1Chars raised)) := by
  have hup : ¬HasNext (upChar noCase c) := fun hn => h ((hasNext_upChar c).mp hn)
  obtain ⟨raised, hraised, heq⟩ := incrementLastUtf8Byte_of_last
    (front.map (upChar noCase)) hup
  rw [fixed_of_last h |>.2] at hraised
  have hhigh : raised.map (foldByte noCase) = raised := by
    rw [List.map_congr_left fun b hb => (foldsAscii_fold noCase).otherByte b (hraised.high b hb),
      List.map_id']
  refine ⟨raised, hraised, ?_⟩
  unfold upperBound
  rw [List.map_append, List.map_singleton, heq, Option.map_some]
  refine congrArg (fun cs => some (String.ofList cs)) ?_
  have hchars (bytes : Bytes) : (latin1 bytes).toList = latin1Chars bytes := by
    rw [latin1, String.toList_ofList, latin1Chars]
  rw [hchars, latin1Chars_append, List.map_append, map_fold_latin1_flatMap, map_foldChar_upChar,
    map_fold_latin1, hhigh]

end Fold

end Rustqlite.Codegen
