import Rustqlite.Codegen.LikeRange

/-!
# When the bounds fit

Which patterns have bounds that all their matches lie between, and for which
of those that are taken for complete everything between the bounds matches.
-/

namespace Rustqlite.Codegen

open Foundation Func

instance : Std.TransCmp compareChar := inferInstanceAs (Std.TransCmp (compareOn Char.toNat))

instance : Std.TransCmp compareChars := inferInstanceAs (Std.TransCmp (List.compareLex compareChar))

/--
The upper bound is above the texts that start with the literal.  A `z` is
raised in upper case, to a `[`, which is below it.  Where there is no next
character, the raised bytes are taken as characters one by one.
-/
def StaysAbove (noCase : Bool) (literal : List Char) : Prop :=
  ∀ c ∈ literal.getLast?, (noCase = true → c ≠ 'z' ∧ c ≠ 'Z') ∧
    (HasNext c ∨ (requiredCollation noCase).compare (String.ofList literal)
      (latin1 (literal.flatMap String.utf8EncodeChar)) ≠ .gt)

def StaysTight (noCase : Bool) (literal : List Char) : Prop :=
  ∀ c ∈ literal.getLast?, (noCase = true → c ≠ '@') ∧
    (HasNext c ∨ ∀ d ∈ literal, d.toNat < 0x80)

variable {noCase : Bool}

section Bounds

variable {noCase : Bool} {front : List Char} {c : Char}

theorem staysAbove_append : StaysAbove noCase (front ++ [c]) ↔
    (noCase = true → c ≠ 'z' ∧ c ≠ 'Z') ∧
      (HasNext c ∨ (requiredCollation noCase).compare (String.ofList (front ++ [c]))
        (latin1 ((front ++ [c]).flatMap String.utf8EncodeChar)) ≠ .gt) := by
  simp [StaysAbove]

theorem staysTight_append : StaysTight noCase (front ++ [c]) ↔
    (noCase = true → c ≠ '@') ∧ (HasNext c ∨ ∀ d ∈ front ++ [c], d.toNat < 0x80) := by
  simp [StaysTight]

def Upper (noCase : Bool) (front : List Char) (c : Char) (upper : List Char) : Prop :=
  (HasNext c ∧ upper = front.map (foldChar noCase) ++
      [foldChar noCase (nextChar (upChar noCase c))]) ∨
    (¬HasNext c ∧ ∃ raised, RaisedLast c raised ∧
      upper = latin1Chars ((front.map (foldChar noCase)).flatMap String.utf8EncodeChar) ++
        latin1Chars raised)

theorem exists_upper (noCase : Bool) (front : List Char) (c : Char) :
    ∃ upper, upperBound noCase (front ++ [c]) = some (String.ofList upper) ∧
      Upper noCase front c upper := by
  rcases Decidable.em (HasNext c) with h | h
  · exact ⟨_, upperBound_of_hasNext h, .inl ⟨h, rfl⟩⟩
  · obtain ⟨raised, hraised, heq⟩ := upperBound_of_last noCase front h
    exact ⟨_, heq, .inr ⟨h, raised, hraised, rfl⟩⟩

theorem map_fold_of_upperBound {literal : List Char} {u : String}
    (h : upperBound noCase literal = some u) : u.toList.map (foldChar noCase) = u.toList := by
  obtain ⟨s, -, rfl⟩ := Option.map_eq_some_iff.mp h
  rw [String.toList_ofList, List.map_map]
  exact List.map_congr_left fun c _ => foldChar_foldChar c

theorem toNat_of_last (h : ¬HasNext c) : c.toNat = 0x7f ∨ 0x100 ≤ c.toNat := by
  rw [hasNext_iff] at h
  omega

theorem high_map_fold (noCase : Bool) (h : ∃ d ∈ front, 0x80 ≤ d.toNat) :
    ∃ d ∈ front.map (foldChar noCase), 0x80 ≤ d.toNat := by
  obtain ⟨d, hd, hhigh⟩ := h
  refine ⟨_, List.mem_map_of_mem hd, ?_⟩
  rw [toNat_foldChar]
  split_ifs <;> omega

theorem ascii_map_fold (noCase : Bool) (h : ∀ d ∈ front, d.toNat < 0x80) :
    ∀ d ∈ front.map (foldChar noCase), d.toNat < 0x80 := by
  intro d hd
  obtain ⟨e, he, rfl⟩ := List.mem_map.mp hd
  have hlt := h e he
  rw [toNat_foldChar]
  split_ifs <;> omega

theorem compare_latin1 (hlast : ¬HasNext c) :
    (requiredCollation noCase).compare (String.ofList (front ++ [c]))
    (latin1 ((front ++ [c]).flatMap String.utf8EncodeChar)) =
      compareChars (front.map (foldChar noCase) ++ [c])
        (latin1Chars ((front.map (foldChar noCase)).flatMap String.utf8EncodeChar) ++
          latin1Chars (String.utf8EncodeChar c)) := by
  have hchars (bytes : Bytes) : (latin1 bytes).toList = latin1Chars bytes := by
    rw [latin1, String.toList_ofList, latin1Chars]
  rw [compare_fold, String.toList_ofList, hchars, map_fold_latin1_flatMap, List.map_append,
    List.map_singleton, (fixed_of_last hlast).1, List.flatMap_append, latin1Chars_append,
    List.flatMap_singleton]

theorem compareChars_gt_of_head {d : Char} {bytes : Bytes} (hne : bytes ≠ []) (hd : 0x100 ≤ d.toNat)
    (t : List Char) : compareChars (d :: t) (latin1Chars bytes) = .gt := by
  obtain ⟨b, bytes, rfl⟩ := List.exists_cons_of_ne_nil hne
  have hb := b.toNat_lt
  rw [latin1Chars, List.map_cons, compareChars_cons, compareChar, toNat_latin1,
    compare_gt_iff_gt.mpr (by omega)]
  rfl

variable {upper : List Char}

theorem compare_upper_of_last (hlast : ¬HasNext c) (h : Upper noCase front c upper)
    (t : List Char) :
    compareChars ((front ++ [c]).map (foldChar noCase) ++ t) upper =
      if (requiredCollation noCase).compare (String.ofList (front ++ [c]))
        (latin1 ((front ++ [c]).flatMap String.utf8EncodeChar)) = .gt then .gt else .lt := by
  obtain ⟨hnext, -⟩ | ⟨-, raised, hraised, rfl⟩ := h
  · exact absurd hnext hlast
  · rw [compare_latin1 hlast, List.map_append, List.map_singleton, (fixed_of_last hlast).1,
      List.append_assoc, List.singleton_append]
    by_cases hhigh : ∃ d ∈ front, 0x80 ≤ d.toNat
    · obtain ⟨o, ho, heq⟩ := toldApart_latin1 (c := c) (high_map_fold noCase hhigh)
        (by have := toNat_of_last hlast; omega)
      rw [heq, heq]
      cases o with
      | eq => exact absurd rfl ho
      | lt | gt => rfl
    · have hascii : ∀ d ∈ front, d.toNat < 0x80 := fun d hd => by
        by_contra hge
        exact hhigh ⟨d, hd, by omega⟩
      rw [latin1Chars_flatMap_of_ascii (ascii_map_fold noCase hascii), compareChars_append_left,
        compareChars_append_left]
      rcases toNat_of_last hlast with h7f | hbig
      · have hsame : latin1Chars (String.utf8EncodeChar c) = [c] :=
          latin1Chars_of_ascii (by omega)
        have hlt : compareChars (c :: t) (latin1Chars raised) = .lt := by
          rw [hraised.ascii h7f]
          refine compareChars_singleton_lt.mpr ?_
          rw [h7f, toNat_latin1]
          decide
        rw [hlt, hsame, compareChars_cons, compareChar_self]
        rfl
      · rw [compareChars_gt_of_head hraised.nonempty hbig,
          compareChars_gt_of_head String.utf8EncodeChar_ne_nil hbig]
        rfl

theorem lt_upper_iff (h : Upper noCase front c upper) (t : List Char) :
    compareChars ((front ++ [c]).map (foldChar noCase) ++ t) upper = .lt ↔
      StaysAbove noCase (front ++ [c]) := by
  have hchar (d : Char) : c ≠ d ↔ c.toNat ≠ d.toNat := not_congr ⟨congrArg _, char_ext⟩
  have hz : 'z'.toNat = 0x7a := rfl
  have hZ : 'Z'.toNat = 0x5a := rfl
  rw [staysAbove_append]
  obtain ⟨hnext, rfl⟩ | ⟨hlast, raised, hraised, heq⟩ := h
  · have hor {P : Prop} : HasNext c ∨ P := .inl hnext
    rw [List.map_append, List.append_assoc, compareChars_append_left, List.map_singleton,
      List.singleton_append, compareChars_singleton_lt, toNat_fold_nextChar hnext, toNat_foldChar,
      and_iff_left (a := noCase = true → _) hor, hchar, hchar, hz, hZ]
    cases noCase with
    | false => simp
    | true =>
        simp only [true_and, forall_const]
        split_ifs <;> omega
  · have hne : noCase = true → c ≠ 'z' ∧ c ≠ 'Z' := fun _ => by
      have hnat := toNat_of_last hlast
      rw [hchar, hchar, hz, hZ]
      omega
    rw [compare_upper_of_last hlast (.inr ⟨hlast, raised, hraised, heq⟩), and_iff_right hne,
      or_iff_right hlast]
    split_ifs with hgt
    · exact iff_of_false (by decide) fun hne => hne hgt
    · exact iff_of_true rfl hgt

/-- Nothing lies between the bounds unless the upper one is above the literal. -/
theorem staysAbove_of_between {s : List Char} (h : Upper noCase front c upper)
    (hlow : compareChars ((front ++ [c]).map (foldChar noCase)) s ≠ .gt)
    (hhigh : compareChars s upper = .lt) : StaysAbove noCase (front ++ [c]) := by
  rw [← lt_upper_iff h [], List.append_nil]
  exact Std.TransCmp.lt_of_isLE_of_lt (Ordering.isLE_iff_ne_gt.mpr hlow) hhigh

theorem exists_of_staysTight {s : List Char} (h : Upper noCase front c upper)
    (habove : StaysAbove noCase (front ++ [c])) (htight : StaysTight noCase (front ++ [c]))
    (hlow : compareChars ((front ++ [c]).map (foldChar noCase)) s ≠ .gt)
    (hhigh : compareChars s upper = .lt) : ∃ t, s = (front ++ [c]).map (foldChar noCase) ++ t := by
  -- The upper bound ends in the successor of the last character.
  have hnext : ∃ u : Char, upper = front.map (foldChar noCase) ++ [u] ∧
      u.toNat = (foldChar noCase c).toNat + 1 := by
    have hchar (d : Char) : c ≠ d ↔ c.toNat ≠ d.toNat := not_congr ⟨congrArg _, char_ext⟩
    have hat : '@'.toNat = 0x40 := rfl
    have hz : 'z'.toNat = 0x7a := rfl
    have hZ : 'Z'.toNat = 0x5a := rfl
    rw [staysAbove_append, hchar, hchar, hz, hZ] at habove
    rw [staysTight_append, hchar, hat] at htight
    obtain ⟨hnext, heq⟩ | ⟨hlast, raised, hraised, heq⟩ := h
    · refine ⟨_, heq, ?_⟩
      rw [toNat_fold_nextChar hnext]
      have hz := habove.1
      have hat := htight.1
      cases noCase with
      | false => simp
      | true =>
          have hz := hz rfl
          have hat := hat rfl
          simp only [true_and]
          split_ifs <;> omega
    · have hascii := htight.2.resolve_left hlast
      have h7f : c.toNat = 0x7f := by
        have hc := hascii c (by simp)
        have hnat := toNat_of_last hlast
        omega
      have hfront := ascii_map_fold noCase (fun d hd =>
        hascii d (List.mem_append_left _ hd))
      rw [latin1Chars_flatMap_of_ascii hfront, hraised.ascii h7f] at heq
      refine ⟨Char.ofNat (0x80 : UInt8).toNat, heq, ?_⟩
      rw [(fixed_of_last hlast).1, h7f]
      rfl
  obtain ⟨u, rfl, hu⟩ := hnext
  rw [List.map_append, List.map_singleton] at hlow ⊢
  obtain ⟨d, t, rfl, hd⟩ := exists_of_between hlow hhigh
  have heq : d = foldChar noCase c := char_ext (by omega)
  exact ⟨t, by rw [heq, List.append_assoc, List.singleton_append]⟩

theorem compareChars_self (s : List Char) : compareChars s s = .eq := by
  have happend := compareChars_append_left s [] []
  rwa [List.append_nil] at happend

/-- Behind `@` come a few characters before the letter that it is raised to. -/
theorem exists_of_at (h : Upper true front '@' upper) :
    ∃ s, s.map (foldChar true) = s ∧
      compareChars ((front ++ ['@']).map (foldChar true)) s ≠ .gt ∧
      compareChars s upper = .lt ∧ ∀ t, s ≠ (front ++ ['@']).map (foldChar true) ++ t := by
  have hnext : HasNext '@' := by decide
  obtain ⟨-, rfl⟩ | ⟨hlast, -⟩ := h
  · refine ⟨front.map (foldChar true) ++ ['['], ?_, ?_, ?_, fun t heq => ?_⟩
    · rw [List.map_append, List.map_map]
      refine congrArg (· ++ ['[']) (List.map_congr_left fun c _ => foldChar_foldChar c)
    · rw [List.map_append, compareChars_append_left]
      decide
    · rw [compareChars_append_left, compareChars_singleton_lt, toNat_fold_nextChar hnext]
      decide
    · rw [List.map_append, List.append_assoc] at heq
      have hhead := List.append_cancel_left heq
      rw [List.map_singleton, List.singleton_append, List.cons.injEq] at hhead
      exact absurd hhead.1 (by decide)
  · exact absurd hnext hlast

theorem exists_of_not_staysTight (h : Upper noCase front c upper)
    (habove : StaysAbove noCase (front ++ [c])) (htight : ¬StaysTight noCase (front ++ [c])) :
    ∃ s, s.map (foldChar noCase) = s ∧
      compareChars ((front ++ [c]).map (foldChar noCase)) s ≠ .gt ∧
      compareChars s upper = .lt ∧ ∀ t, s ≠ (front ++ [c]).map (foldChar noCase) ++ t := by
  rw [staysTight_append, not_and_or, Classical.not_imp, not_not, not_or] at htight
  obtain ⟨rfl, rfl⟩ | ⟨hlast, hhigh⟩ := htight
  · exact exists_of_at h
  · have hlt := (lt_upper_iff h []).mpr habove
    obtain ⟨hnext, -⟩ | ⟨-, raised, hraised, rfl⟩ := h
    · exact absurd hnext hlast
    · rw [List.map_append, List.map_singleton, (fixed_of_last hlast).1] at hlt ⊢
      rw [List.append_nil] at hlt
      by_cases hfront : ∃ d ∈ front, 0x80 ≤ d.toNat
      · obtain ⟨o, ho, heq⟩ := toldApart_latin1 (c := c)
          (high_map_fold noCase hfront)
          (by have := toNat_of_last hlast; omega)
        rw [heq] at hlt
        subst hlt
        set s := latin1Chars ((front.map (foldChar noCase)).flatMap String.utf8EncodeChar)
        have hbelow (t : List Char) :
            compareChars (front.map (foldChar noCase) ++ c :: t) s = .lt := by
          have hs : compareChars (front.map (foldChar noCase) ++ c :: t) (s ++ []) = .lt :=
            heq t []
          rwa [List.append_nil] at hs
        refine ⟨s, ?_, ?_, ?_, fun t hs => ?_⟩
        · rw [map_fold_latin1_flatMap, List.map_map]
          refine congrArg (fun cs : List Char =>
            latin1Chars (cs.flatMap String.utf8EncodeChar)) ?_
          exact List.map_congr_left fun c _ => foldChar_foldChar c
        · rw [hbelow []]
          decide
        · obtain ⟨b, bytes, rfl⟩ := List.exists_cons_of_ne_nil hraised.nonempty
          have happend := compareChars_append_left s [] (latin1Chars (b :: bytes))
          rw [List.append_nil] at happend
          rw [happend]
          rfl
        · have hself := hbelow t
          rw [List.append_assoc, List.singleton_append] at hs
          rw [← hs, compareChars_self] at hself
          cases hself
      · have hascii : ∀ d ∈ front, d.toNat < 0x80 := fun d hd => by
          by_contra hge
          exact hfront ⟨d, hd, by omega⟩
        have hbig : 0x100 ≤ c.toNat := by
          have hnat := toNat_of_last hlast
          by_contra hlt
          refine hhigh fun d hd => ?_
          obtain hd | hd := List.mem_append.mp hd
          · exact hascii d hd
          · rw [List.mem_singleton.mp hd]
            omega
        rw [latin1Chars_flatMap_of_ascii (ascii_map_fold noCase hascii), compareChars_append_left,
          compareChars_gt_of_head hraised.nonempty hbig] at hlt
        cases hlt

/-! ## The last byte of the upper bound -/

theorem getLast?_utf8_eq_at (cs : List Char) :
    (cs.flatMap String.utf8EncodeChar).getLast? = some 0x40 ↔ cs.getLast? = some '@' := by
  rcases List.eq_nil_or_concat' cs with rfl | ⟨cs, d, rfl⟩
  · simp
  · have hd : (String.utf8EncodeChar d).getLast? = some 0x40 ↔ d = '@' := by
      have hchar : d = '@' ↔ d.toNat = 0x40 := ⟨congrArg _, fun h => char_ext h⟩
      have hbyte (b : UInt8) : b = 0x40 ↔ b.toNat = 0x40 := UInt8.toNat_inj.symm
      have hspells := spells d
      rw [hchar]
      generalize String.utf8EncodeChar d = bytes at hspells
      cases hspells <;> simp only [List.getLast?_cons_cons, List.getLast?_singleton,
        Option.some_inj, hbyte] <;> omega
    rw [List.flatMap_append, List.flatMap_singleton,
      List.getLast?_append_of_ne_nil _ String.utf8EncodeChar_ne_nil, hd, List.getLast?_concat,
      Option.some_inj]

theorem getLast?_upper_eq_at (h : Upper true front c upper) :
    upper.getLast? = some '@' ↔ c = '?' := by
  have hchar (d e : Char) : d = e ↔ d.toNat = e.toNat := ⟨congrArg _, char_ext⟩
  obtain ⟨hnext, rfl⟩ | ⟨hlast, raised, hraised, rfl⟩ := h
  · have hat : '@'.toNat = 0x40 := rfl
    have hquestion : '?'.toNat = 0x3f := rfl
    rw [List.getLast?_concat, Option.some_inj, hchar, hchar, toNat_fold_nextChar hnext, hat,
      hquestion, toNat_foldChar]
    simp only [true_and]
    split_ifs <;> omega
  · have hnat := toNat_of_last hlast
    refine iff_of_false (fun heq => ?_) ?_
    · have hne : latin1Chars raised ≠ [] := by simp [latin1Chars, hraised.nonempty]
      rw [List.getLast?_append_of_ne_nil _ hne] at heq
      have hhigh := latin1Chars_high hraised.high _ (List.mem_of_getLast? heq)
      exact absurd hhigh.1 (by decide)
    · rintro rfl
      exact absurd hnat (by decide)

end Bounds

/-! ## The patterns whose bounds fit -/

namespace LikePattern

variable (p : LikePattern)

def collation : Collation := requiredCollation p.kind.noCase

/--
Every match is in the range, and where the range is taken for the matches it has
no other text.
-/
def IsBoundedBy (b : LikeBounds) : Prop :=
  ∀ s, (p.isMatch s = true → b.Contains p.collation s) ∧
    (b.isComplete = true → b.Contains p.collation s → p.isMatch s = true)

def EndsOpen (noCase : Bool) : Prop :=
  p.kind.isOpen p.rest = true ∧ ¬(noCase = true ∧ p.literal.getLast? = some '?')

def BoundsFit : Prop :=
  ((∃ s, p.isMatch s = true) → StaysAbove p.kind.noCase p.literal) ∧
    (p.EndsOpen p.kind.noCase → if nul ∈ p.literal then ¬StaysAbove p.kind.noCase p.literal
      else StaysTight p.kind.noCase p.literal)

end LikePattern

section Fit

variable {p : LikePattern} {b : LikeBounds}

variable {s : String} {t : List Char}

theorem exists_of_isMatch (h : p.isMatch s = true) : nul ∉ p.literal ∧
    ∃ t, s.toList.map (foldChar p.kind.noCase) = p.literal.map (foldChar p.kind.noCase) ++ t :=
  exists_of_matched p.globEscape _ _ _ (of_decide_eq_true h)

theorem isMatch_of_endsOpen (hopen : p.kind.isOpen p.rest = true) (hnul : nul ∉ p.literal)
    (h : s.toList.map (foldChar p.kind.noCase) = p.literal.map (foldChar p.kind.noCase) ++ t) :
    p.isMatch s = true :=
  decide_eq_true (matched_of_isOpen p.globEscape _ _ _ _ (Nat.lt_succ_self _) hopen hnul h)

section

variable (h : likeBounds p.kind p.escape noCase p.text = some b)

include h

theorem exists_front :
    ∃ front c upper, p.literal = front ++ [c] ∧ Upper noCase front c upper ∧
      (∀ s, b.Contains (requiredCollation noCase) s ↔
        compareChars (p.literal.map (foldChar noCase)) (s.toList.map (foldChar noCase)) ≠ .gt ∧
          compareChars (s.toList.map (foldChar noCase)) upper = .lt) ∧
      (b.isComplete = true ↔ p.EndsOpen noCase) := by
  obtain ⟨hne, hlower, hupper, hcomplete⟩ := likeBounds_cases h
  obtain ⟨front, c, hliteral⟩ := (List.eq_nil_or_concat' p.literal).resolve_left hne
  obtain ⟨upper, hbound, hup⟩ := exists_upper noCase front c
  rw [hliteral, hbound] at hupper
  have hfixed := map_fold_of_upperBound hbound
  rw [String.toList_ofList] at hfixed
  refine ⟨front, c, upper, hliteral, hup, fun s => ?_, ?_⟩
  · unfold LikeBounds.Contains
    simp only [hlower, hupper, compare_fold, Option.mem_def, Option.some_inj, forall_eq',
      String.toList_ofList, map_foldChar_upChar, hfixed]
  · have hlast : (utf8Bytes (String.ofList upper)).getLast? = some 0x40 ↔
        upper.getLast? = some '@' := by
      rw [utf8Bytes, String.toList_ofList]
      exact getLast?_utf8_eq_at upper
    rw [hcomplete, hupper, Option.any_some, decide_eq_true_eq, hlast,
      LikePattern.EndsOpen, hliteral, List.getLast?_concat, Option.some_inj]
    refine and_congr_right fun _ => not_congr (and_congr_right fun hnoCase => ?_)
    rw [hnoCase] at hup
    exact getLast?_upper_eq_at hup

theorem contains_iff_staysAbove
    (ht : s.toList.map (foldChar noCase) = p.literal.map (foldChar noCase) ++ t) :
    b.Contains (requiredCollation noCase) s ↔ StaysAbove noCase p.literal := by
  obtain ⟨front, c, upper, hliteral, hup, hcontains, -⟩ := exists_front h
  rw [hcontains, ht, and_iff_right (compareChars_append_right_ne_gt _ _), hliteral]
  exact lt_upper_iff hup t

theorem staysAbove_of_contains (hs : b.Contains (requiredCollation noCase) s) :
    StaysAbove noCase p.literal := by
  obtain ⟨front, c, upper, hliteral, hup, hcontains, -⟩ := exists_front h
  obtain ⟨hlow, hhigh⟩ := (hcontains s).mp hs
  rw [hliteral] at hlow ⊢
  exact staysAbove_of_between hup hlow hhigh

theorem exists_of_contains (htight : StaysTight noCase p.literal)
    (hs : b.Contains (requiredCollation noCase) s) :
    ∃ t, s.toList.map (foldChar noCase) = p.literal.map (foldChar noCase) ++ t := by
  have habove := staysAbove_of_contains h hs
  obtain ⟨front, c, upper, hliteral, hup, hcontains, -⟩ := exists_front h
  obtain ⟨hlow, hhigh⟩ := (hcontains s).mp hs
  rw [hliteral] at hlow habove htight ⊢
  exact exists_of_staysTight hup habove htight hlow hhigh

theorem exists_contains_of_not_staysTight (habove : StaysAbove noCase p.literal)
    (htight : ¬StaysTight noCase p.literal) :
    ∃ s, b.Contains (requiredCollation noCase) s ∧
      ∀ t, s.toList.map (foldChar noCase) ≠ p.literal.map (foldChar noCase) ++ t := by
  obtain ⟨front, c, upper, hliteral, hup, hcontains, -⟩ := exists_front h
  rw [hliteral] at habove htight
  obtain ⟨s, hfold, hlow, hhigh, hne⟩ := exists_of_not_staysTight hup habove htight
  refine ⟨String.ofList s, (hcontains _).mpr ?_, ?_⟩
  · rw [String.toList_ofList, hfold, hliteral]
    exact ⟨hlow, hhigh⟩
  · rw [String.toList_ofList, hfold, hliteral]
    exact hne

end

/--
Everything that matches a pattern lies between its bounds, and the bounds that
are taken for complete hold nothing else, for exactly the patterns whose
bounds fit.
-/
theorem isBoundedBy_iff_boundsFit (p : LikePattern) (b : LikeBounds)
    (h : likeBounds p.kind p.escape p.kind.noCase p.text = some b) :
    p.IsBoundedBy b ↔ p.BoundsFit := by
  obtain ⟨-, -, -, -, -, -, hcomplete⟩ := exists_front h
  have hsound : (∀ s, p.isMatch s = true → b.Contains p.collation s) ↔
      ((∃ s, p.isMatch s = true) → StaysAbove p.kind.noCase p.literal) := by
    constructor
    · rintro hall ⟨s, hs⟩
      exact staysAbove_of_contains h (hall s hs)
    · intro habove s hs
      obtain ⟨-, t, ht⟩ := exists_of_isMatch hs
      exact (contains_iff_staysAbove h ht).mpr (habove ⟨s, hs⟩)
  have hself : (String.ofList p.literal).toList.map (foldChar p.kind.noCase) =
      p.literal.map (foldChar p.kind.noCase) ++ [] := by
    rw [String.toList_ofList, List.append_nil]
  constructor
  · intro hall
    have habove := hsound.mp fun s => (hall s).1
    refine ⟨habove, fun hopen => ?_⟩
    have hconverse := fun s => (hall s).2 (hcomplete.mpr hopen)
    split_ifs with hnul
    · exact fun habove' => (exists_of_isMatch
        (hconverse _ ((contains_iff_staysAbove h hself).mpr habove'))).1 hnul
    · by_contra htight
      have habove' := habove ⟨_, isMatch_of_endsOpen hopen.1 hnul hself⟩
      obtain ⟨s, hs, hne⟩ := exists_contains_of_not_staysTight h habove' htight
      obtain ⟨-, t, ht⟩ := exists_of_isMatch (hconverse s hs)
      exact hne t ht
  · rintro ⟨habove, htight⟩ s
    refine ⟨hsound.mpr habove s, fun hc hs => ?_⟩
    have hopen := hcomplete.mp hc
    have htight := htight hopen
    split_ifs at htight with hnul
    · exact absurd (staysAbove_of_contains h hs) htight
    · obtain ⟨t, ht⟩ := exists_of_contains h htight hs
      exact isMatch_of_endsOpen hopen.1 hnul ht

end Fit

/-! ## Patterns whose bounds do and do not fit -/

def pizzPattern : LikePattern := ⟨.like, 0, "pizz%", by decide, fun _ => rfl⟩

def abPattern : LikePattern := ⟨.like, 0, "ab%", by decide, fun _ => rfl⟩

theorem abPattern_literal : abPattern.literal = ['a', 'b'] := by decide

theorem abPattern_staysTight : StaysTight true abPattern.literal := by
  intro c hc
  rw [abPattern_literal] at hc ⊢
  cases hc
  exact ⟨fun _ => by decide, .inl (by decide)⟩

/-- The match `pizza` is above the upper bound, which is `piz[`. -/
theorem pizzPattern_not_isBoundedBy :
    likeBounds .like 0 true "pizz%" = some ⟨"PIZZ", some "piz[", true⟩ ∧
      ¬pizzPattern.IsBoundedBy ⟨"PIZZ", some "piz[", true⟩ := by
  refine ⟨by decide, fun hbounded => ?_⟩
  obtain ⟨-, hupper⟩ := (hbounded "pizza").1 (by decide)
  exact absurd (hupper "piz[" rfl) (by decide)

theorem abPattern_isBoundedBy : abPattern.IsBoundedBy ⟨"AB", some "ac", true⟩ := by
  refine (isBoundedBy_iff_boundsFit abPattern _ (by decide)).mpr ⟨fun _ c hc => ?_, fun _ => ?_⟩
  · rw [abPattern_literal] at hc
    cases hc
    exact ⟨fun _ => by decide, .inl (by decide)⟩
  · rw [if_neg (by rw [abPattern_literal]; decide)]
    exact abPattern_staysTight

end Rustqlite.Codegen
