import Rustqlite.Func.SlidingAccumulator

/-!
# Joined texts of sliding frames

The text that `group_concat` keeps is cut at the front when a row goes out, by
as many bytes as the row's text and the one separator that is remembered have.
-/

namespace Rustqlite.Func.Accumulator

open Foundation

/-! ## Cutting at the front -/

theorem utf8ByteSize_ofList_cons (c : Char) (cs : List Char) :
    (String.ofList (c :: cs)).utf8ByteSize = c.utf8Size + (String.ofList cs).utf8ByteSize := by
  have hsplit : String.ofList (c :: cs) = String.singleton c ++ String.ofList cs := by
    rw [String.singleton_eq_ofList, ← String.ofList_append]
    rfl
  rw [hsplit, String.utf8ByteSize_append, String.utf8ByteSize_singleton]

theorem drain_ofList_append (as bs : List Char) :
    drain (String.ofList as).utf8ByteSize (as ++ bs) = some bs := by
  induction as with
  | nil => simp [drain]
  | cons c cs ih =>
      have hpos := c.utf8Size_pos
      obtain ⟨k, hk⟩ : ∃ k, c.utf8Size + (String.ofList cs).utf8ByteSize = k + 1 :=
        ⟨_, (Nat.succ_pred (by omega)).symm⟩
      have hle : c.utf8Size ≤ k + 1 := by omega
      have hrest : k + 1 - c.utf8Size = (String.ofList cs).utf8ByteSize := by omega
      rw [utf8ByteSize_ofList_cons, hk, List.cons_append, drain, if_pos hle, hrest, ih]

theorem drain_append (s t : String) : drain s.utf8ByteSize (s ++ t).toList = some t.toList := by
  have h := drain_ofList_append s.toList t.toList
  rw [String.ofList_toList] at h
  rw [String.toList_append, h]

/-! ## Pieces -/

def textOf (n : Numerals) (arg : Value) : String := (toText n arg).getD ""

def pieces (n : Numerals) : String → Int → List (List Value) → List (String × String)
  | _, _, [] => []
  | sep, count, args :: rows =>
      let sep := captureSep n sep count args
      match argument args with
      | none => pieces n sep count rows
      | some arg => (sep, textOf n arg) :: pieces n sep (count + 1) rows

def sepAfter (n : Numerals) : String → Int → List (List Value) → String
  | sep, _, [] => sep
  | sep, count, args :: rows =>
      sepAfter n (captureSep n sep count args)
        (if (argument args).isSome then count + 1 else count) rows

def freshPieces (n : Numerals) (rows : List (List Value)) : List (String × String) :=
  pieces n "," 0 rows

def follow : List (String × String) → String
  | [] => ""
  | (sep, text) :: ps => sep ++ text ++ follow ps

def joined : List (String × String) → Option String
  | [] => none
  | (_, text) :: ps => some (text ++ follow ps)

def Blank : List (String × String) → Prop
  | [] => False
  | (_, text) :: ps => text = "" ∧ ∀ p ∈ ps, p.1 = "" ∧ p.2 = ""

theorem follow_append (ps qs : List (String × String)) :
    follow (ps ++ qs) = follow ps ++ follow qs := by
  induction ps with
  | nil => simp [follow]
  | cons p ps ih => simp [follow, ih, String.append_assoc]

variable {ps : List (String × String)} {arg : Value} {s : Sliding}

theorem follow_eq_empty : follow ps = "" ↔ ∀ p ∈ ps, p.1 = "" ∧ p.2 = "" := by
  induction ps with
  | nil => simp [follow]
  | cons p ps ih => simp [follow, ih, and_assoc]

theorem joined_eq_empty : joined ps = some "" ↔ Blank ps := by
  cases ps with
  | nil => simp [joined, Blank]
  | cons p ps => simp [joined, Blank, follow_eq_empty]

theorem pieces_append (n : Numerals) (sep : String) (count : Int) (rows more : List (List Value)) :
    pieces n sep count (rows ++ more) = pieces n sep count rows ++
      pieces n (sepAfter n sep count rows) (count + tally false rows) more := by
  induction rows generalizing sep count with
  | nil => simp [pieces, sepAfter, tally]
  | cons args rows ih =>
      rw [List.cons_append, pieces, pieces, sepAfter, tally_cons]
      cases harg : argument args with
      | none => simp [ih]
      | some arg => simp [ih, add_assoc, add_comm]

theorem sepAfter_append (n : Numerals) (sep : String) (count : Int)
    (rows more : List (List Value)) :
    sepAfter n sep count (rows ++ more) =
      sepAfter n (sepAfter n sep count rows) (count + tally false rows) more := by
  induction rows generalizing sep count with
  | nil => simp [sepAfter, tally]
  | cons args rows ih =>
      rw [List.cons_append, sepAfter, sepAfter, ih, tally_cons]
      cases harg : argument args with
      | none => simp
      | some arg => simp [add_assoc, add_comm]

theorem map_snd_pieces (n : Numerals) (sep : String) (count : Int) (rows : List (List Value)) :
    (pieces n sep count rows).map Prod.snd = rows.filterMap fun args =>
      (argument args).map (textOf n) := by
  induction rows generalizing sep count with
  | nil => rfl
  | cons args rows ih =>
      rw [pieces, List.filterMap_cons]
      cases harg : argument args with
      | none => simp [ih]
      | some arg => simp [ih]

theorem length_pieces (n : Numerals) (sep : String) (count : Int) (rows : List (List Value)) :
    (pieces n sep count rows).length = tally false rows := by
  have h := congrArg List.length (map_snd_pieces n sep count rows)
  rw [List.length_map] at h
  rw [h, tally, List.length_filterMap_eq_countP]
  simp

theorem joined_concat (ps : List (String × String)) (sep text : String) :
    joined (ps ++ [(sep, text)]) = some ((joined ps).elim text (· ++ sep ++ text)) := by
  cases ps with
  | nil => simp [joined, follow]
  | cons p ps => simp [joined, follow_append, follow, String.append_assoc]

theorem freshPieces_concat (n : Numerals) (rows : List (List Value)) (args : List Value) :
    freshPieces n (rows ++ [args]) = freshPieces n rows ++
      ((argument args).map fun arg => (sepAfter n "," 0 (rows ++ [args]),
          textOf n arg)).toList := by
  rw [freshPieces, pieces_append, sepAfter_append, freshPieces, pieces, sepAfter, sepAfter]
  cases argument args <;> simp [pieces]

/-! ## One row -/

variable {R : RealArithmetic} {star : Bool} {acc : Accumulator} {args : List Value}
  {n : Numerals}

theorem step_groupConcat (h : Live .groupConcat acc) :
    acc.step R args star = stepConcat R.toNumerals acc args := by
  simp only [step, h.going, h.kind_eq, Bool.false_eq_true, if_false]

theorem inverse_groupConcat (h : Live .groupConcat acc) :
    acc.inverse R args star = inverseConcat R.toNumerals acc args := by
  simp only [inverse, h.going, h.kind_eq, Bool.false_eq_true, if_false]

theorem live_stepConcat {kind : AggregateKind} (h : Live kind acc) :
    Live kind (stepConcat n acc args) := by
  simp only [stepConcat]
  split <;> exact ⟨h.kind_eq, h.going⟩

theorem sep_stepConcat : (stepConcat n acc args).sep = captureSep n acc.sep acc.count args := by
  simp only [stepConcat]
  split <;> rfl

theorem count_stepConcat : (stepConcat n acc args).count =
    acc.count + if (argument args).isSome then 1 else 0 := by
  simp only [stepConcat]
  cases argument args <;> simp

theorem concat_stepConcat : (stepConcat n acc args).concat =
    (argument args).elim acc.concat fun arg => some (acc.concat.elim (textOf n arg)
      (· ++ captureSep n acc.sep acc.count args ++ textOf n arg)) := by
  simp only [stepConcat, textOf]
  cases argument args with
  | none => rfl
  | some arg => cases acc.concat <;> rfl

structure Joined (n : Numerals) (acc : Accumulator) (rows : List (List Value)) : Prop
    extends Live .groupConcat acc where
  count_eq : acc.count = tally false rows
  concat_eq : acc.concat = joined (freshPieces n rows)

/--
The separators are the ones that an accumulator begun anew would use.  A row
that goes out and leaves others behind was followed by a separator as long as
the remembered one, and what is left is not blank.
-/
def concatTerms (n : Numerals) : Terms where
  step acc frame args := Skips args ∨ tally false frame = 0 ∨
    captureSep n acc.sep acc.count args = sepAfter n "," 0 (frame ++ [args])
  inverse acc args rest :=
    if Skips args then (freshPieces n (args :: rest)).tail = (freshPieces n rest).tail
    else tally false rest = 0 ∨
      (freshPieces n (args :: rest)).tail.tail = (freshPieces n rest).tail ∧
      (∀ p ∈ (freshPieces n (args :: rest)).tail.head?,
        p.1.utf8ByteSize = acc.sep.utf8ByteSize) ∧
      ¬ Blank (freshPieces n rest)

theorem Joined.stepConcat {rows : List (List Value)} (h : Joined n acc rows)
    (ht : (concatTerms n).step acc rows args) :
    Joined n (stepConcat n acc args) (rows ++ [args]) := by
  refine ⟨live_stepConcat h.toLive, ?_, ?_⟩
  · rw [count_stepConcat, h.count_eq, tally_concat]
    push_cast
    rfl
  · rw [concat_stepConcat, freshPieces_concat, h.concat_eq]
    cases harg : argument args with
    | none => simp
    | some arg =>
        simp only [Option.elim_some, Option.map_some, Option.toList_some, joined_concat]
        rcases ht with hs | hnone | hsep
        · rw [Skips, harg] at hs
          cases hs
        · have hnil : freshPieces n rows = [] := by
            rw [← List.length_eq_zero_iff, freshPieces, length_pieces, hnone]
          rw [hnil]
          rfl
        · rw [hsep]

variable (R star) in
theorem joined_fresh (rows : List (List Value)) :
    Joined R.toNumerals (fresh R star .groupConcat rows) rows ∧
      (fresh R star .groupConcat rows).sep = sepAfter R.toNumerals "," 0 rows := by
  induction rows using List.reverseRecOn with
  | nil => exact ⟨⟨live_new _, rfl, rfl⟩, rfl⟩
  | append_singleton rows args ih =>
      obtain ⟨hjoined, hsep⟩ := ih
      have hcapture : captureSep R.toNumerals (fresh R star .groupConcat rows).sep
          (fresh R star .groupConcat rows).count args =
            sepAfter R.toNumerals "," 0 (rows ++ [args]) := by
        rw [sepAfter_append, hsep, hjoined.count_eq]
        simp [sepAfter]
      rw [fresh_concat, step_groupConcat hjoined.toLive]
      exact ⟨hjoined.stepConcat (.inr (.inr hcapture)), (sep_stepConcat).trans hcapture⟩

theorem Joined.step {rows : List (List Value)} (h : Joined R.toNumerals acc rows)
    (ht : (concatTerms R.toNumerals).step acc rows args) :
    Joined R.toNumerals (acc.step R args star) (rows ++ [args]) := by
  rw [step_groupConcat h.toLive]
  exact h.stepConcat ht

theorem joined_congr {qs : List (String × String)} (htexts : ps.map Prod.snd = qs.map Prod.snd)
    (htail : ps.tail = qs.tail) : joined ps = joined qs := by
  cases ps with
  | nil => cases qs <;> simp_all [joined]
  | cons p ps =>
      cases qs with
      | nil => simp at htexts
      | cons q qs =>
          simp only [List.map_cons, List.cons.injEq] at htexts
          rw [joined, joined, htexts.1, show ps = qs from htail]

theorem inverseConcat_of_skips (hs : Skips args) : inverseConcat n acc args = some acc := by
  unfold Skips at hs
  rw [inverseConcat, hs]

theorem inverseConcat_last (harg : argument args = some arg)
    (hconcat : acc.concat = some (textOf n arg)) :
    inverseConcat n acc args = some { acc with count := acc.count - 1, concat := none } := by
  simp only [inverseConcat, harg, hconcat, textOf, le_refl, if_true]

theorem inverseConcat_cut {sep rest : String} (harg : argument args = some arg)
    (hconcat : acc.concat = some (textOf n arg ++ (sep ++ rest)))
    (hsep : sep.utf8ByteSize = acc.sep.utf8ByteSize) (hrest : rest ≠ "") :
    inverseConcat n acc args = some { acc with count := acc.count - 1, concat := some rest } := by
  have hpos : rest.utf8ByteSize ≠ 0 := mt String.utf8ByteSize_eq_zero_iff.mp hrest
  have hsize : (textOf n arg ++ (sep ++ rest)).utf8ByteSize =
      (textOf n arg).utf8ByteSize + (acc.sep.utf8ByteSize + rest.utf8ByteSize) := by
    rw [String.utf8ByteSize_append, String.utf8ByteSize_append, hsep]
  have hmore : ¬ (textOf n arg ++ (sep ++ rest)).utf8ByteSize ≤ (textOf n arg).utf8ByteSize := by
    omega
  have hdrop : dropLen (textOf n arg ++ (sep ++ rest)).utf8ByteSize (textOf n arg).utf8ByteSize
      acc.sep.utf8ByteSize = (textOf n arg ++ sep).utf8ByteSize := by
    rw [dropLen, if_pos (by omega), String.utf8ByteSize_append, hsep]
  have hdrain := drain_append (textOf n arg ++ sep) rest
  rw [String.append_assoc] at hdrain
  simp only [inverseConcat, harg, hconcat]
  rw [← textOf, if_neg hmore, hdrop, hdrain]
  simp [hrest]

theorem Joined.inverse {rest : List (List Value)} (h : Joined R.toNumerals acc (args :: rest))
    (ht : (concatTerms R.toNumerals).inverse acc args rest) :
    ∃ acc', acc.inverse R args star = some acc' ∧ Joined R.toNumerals acc' rest := by
  have hconcat := h.concat_eq
  have hcount := h.count_eq
  rw [inverse_groupConcat h.toLive]
  rw [tally_cons] at hcount
  unfold concatTerms at ht
  dsimp only at ht
  cases harg : argument args with
  | none =>
      have hskips : Skips args := harg
      rw [if_pos hskips] at ht
      have htexts : (freshPieces R.toNumerals (args :: rest)).map Prod.snd =
          (freshPieces R.toNumerals rest).map Prod.snd := by
        simp only [freshPieces, map_snd_pieces, List.filterMap_cons, harg, Option.map_none]
      refine ⟨acc, inverseConcat_of_skips harg, h.toLive, ?_, ?_⟩
      · simpa [harg] using hcount
      · rw [hconcat, joined_congr htexts ht]
  | some arg =>
      have hskips : ¬ Skips args := by rw [Skips, harg]; exact Option.some_ne_none arg
      rw [if_neg hskips] at ht
      have hleft : acc.count - 1 = tally false rest := by
        simp only [harg] at hcount
        rw [hcount]
        push_cast
        exact add_sub_cancel_right _ _
      have hpieces : freshPieces R.toNumerals (args :: rest) =
          (captureSep R.toNumerals "," 0 args, textOf R.toNumerals arg) ::
            pieces R.toNumerals (captureSep R.toNumerals "," 0 args) 1 rest := by
        rw [freshPieces, pieces, harg]
        rfl
      have htexts : (pieces R.toNumerals (captureSep R.toNumerals "," 0 args) 1 rest).map Prod.snd =
          (freshPieces R.toNumerals rest).map Prod.snd := by
        rw [freshPieces, map_snd_pieces, map_snd_pieces]
      have hlength := length_pieces R.toNumerals (captureSep R.toNumerals "," 0 args) 1 rest
      rw [hpieces] at ht hconcat
      rw [List.tail_cons] at ht
      generalize pieces R.toNumerals (captureSep R.toNumerals "," 0 args) 1 rest = ps
        at ht hconcat htexts hlength
      cases ps with
      | nil =>
          have hnil : freshPieces R.toNumerals rest = [] := by simpa using htexts.symm
          rw [joined, follow, String.append_empty] at hconcat
          refine ⟨_, inverseConcat_last harg hconcat, ⟨h.kind_eq, h.going⟩, hleft, ?_⟩
          rw [hnil, joined]
      | cons p ps =>
          obtain ⟨sep, text⟩ := p
          rcases ht with hnone | ⟨htail, hsep, hblank⟩
          · rw [hnone] at hlength
            cases hlength
          · rw [← joined_eq_empty] at hblank
            have hrest : joined (freshPieces R.toNumerals rest) = some (text ++ follow ps) :=
              (joined_congr htexts htail).symm
            rw [joined, follow, String.append_assoc] at hconcat
            rw [hrest, Option.some_inj] at hblank
            refine ⟨_, inverseConcat_cut harg hconcat (hsep _ rfl) hblank, ⟨h.kind_eq, h.going⟩,
              hleft, ?_⟩
            rw [hrest]

theorem lawful_of_joined (h : s.Follows (Joined R.toNumerals)) : s.Lawful R star .groupConcat := by
  obtain ⟨acc, hacc, hjoined⟩ := h
  have hfresh := (joined_fresh R star s.frame).1
  rw [Sliding.Lawful, hacc]
  simp only [Option.map_some, value, hjoined.kind_eq, hjoined.concat_eq, hfresh.kind_eq,
    hfresh.concat_eq]

/-! ## The inverse law -/

def slidingTerms (n : Numerals) : AggregateKind → Terms
  | .sum => sumTerms
  | .groupConcat => concatTerms n
  | _ => countTerms

def separableKinds : List AggregateKind := [.count, .sum, .groupConcat]

def Summable (kind : AggregateKind) (calls : List Call) : Prop :=
  kind = .sum → ∀ args, Call.step args ∈ calls → IntegerRow args

def integerTerms : Terms :=
  ⟨fun acc frame args => IntegerRow args ∧ sumTerms.step acc frame args, sumTerms.inverse⟩

theorem meets_integerTerms {calls : List Call}
    (hints : ∀ args, Call.step args ∈ calls → IntegerRow args)
    (h : AllSteps (Sliding.call R star) (Sliding.Meets sumTerms) calls s) :
    AllSteps (Sliding.call R star) (Sliding.Meets integerTerms) calls s := by
  induction calls generalizing s with
  | nil => trivial
  | cons c calls ih =>
      have hrest := ih (fun args hargs => hints args (List.mem_cons_of_mem _ hargs)) h.2
      cases c with
      | step args => exact ⟨fun acc hacc => ⟨hints args List.mem_cons_self, h.1 acc hacc⟩, hrest⟩
      | inverse => exact ⟨h.1, hrest⟩

/--
Throughout a run whose calls meet the terms, the accumulator of a count, of a
sum of integers or of a joined text tells what one begun anew on the rows of the
frame tells.
-/
theorem lawful_of_terms (R : RealArithmetic) (star : Bool) (kind : AggregateKind)
    (hkind : kind ∈ separableKinds) (calls : List Call) (hints : Summable kind calls)
    (hterms : AllSteps (Sliding.call R star) (Sliding.Meets (slidingTerms R.toNumerals kind)) calls
      (.start kind)) :
    Throughout (Sliding.call R star) (Sliding.Lawful R star kind) calls (.start kind) := by
  simp only [separableKinds, List.mem_cons, List.not_mem_nil, or_false] at hkind
  rcases hkind with rfl | rfl | rfl
  · have hcall := Sliding.Follows.call R star (I := Counted star) (t := countTerms)
      (fun _ _ _ h _ => h.step) (fun _ _ _ h _ => h.inverse)
    exact throughout_of_allSteps (fun _ h => lawful_of_counted h) hcall
      ⟨_, rfl, live_new _, rfl⟩ hterms
  · have hcall := Sliding.Follows.call R star (I := Summed R star)
      (t := integerTerms) (fun _ _ _ h ht => h.step ht.1 ht.2) (fun _ _ _ h ht => h.inverse ht)
    have hempty : Summed R star (new .sum) [] :=
      ⟨live_new _, by simp, rfl, fun _ => rfl, .inl ⟨rfl, fun _ => rfl, fun _ => rfl⟩⟩
    exact throughout_of_allSteps (fun _ h => lawful_of_summed h) hcall ⟨_, rfl, hempty⟩
      (meets_integerTerms (hints rfl) hterms)
  · have hcall := Sliding.Follows.call R star (I := Joined R.toNumerals)
      (t := concatTerms R.toNumerals) (fun _ _ _ h ht => h.step ht) (fun _ _ _ h ht => h.inverse ht)
    exact throughout_of_allSteps (fun _ h => lawful_of_joined h) hcall
      ⟨_, rfl, live_new _, rfl, rfl⟩ hterms

def noReals : RealArithmetic where
  render _ := ""
  numericPrefix _ := (none, false)
  add _ _ := 0
  sub _ _ := 0
  div _ _ := 0

/-- A frame of two rows over `1, NULL, 2, 3`, until `3` is left. -/
def slidingRows : List Call :=
  [.step [.int 1], .step [.null], .inverse, .step [.int 2], .inverse, .step [.int 3], .inverse]

theorem lawful_of_terms_slidingRows :
    AllSteps (Sliding.call noReals false) (Sliding.Meets (slidingTerms noReals.toNumerals .sum))
      slidingRows (.start .sum) ∧
    Throughout (Sliding.call noReals false) (Sliding.Lawful noReals false .sum) slidingRows
      (.start .sum) := by
  have hterms : AllSteps (Sliding.call noReals false)
      (Sliding.Meets (slidingTerms noReals.toNumerals .sum)) slidingRows (.start .sum) := by
    refine ⟨?_, ?_, ?_, ?_, ?_, ?_, ?_, trivial⟩
    · rintro acc ⟨⟩
      exact .inr (.inr rfl)
    · rintro acc ⟨⟩
      exact .inl rfl
    · rintro acc ⟨⟩ args rest ⟨⟩
      exact .inr (.inl rfl)
    · rintro acc ⟨⟩
      exact .inr (.inr rfl)
    · rintro acc ⟨⟩ args rest ⟨⟩
      exact .inl rfl
    · rintro acc ⟨⟩
      exact .inr (.inr rfl)
    · rintro acc ⟨⟩ args rest ⟨⟩
      exact .inr (.inr ⟨rfl, by decide, trivial⟩)
  refine ⟨hterms, lawful_of_terms noReals false .sum (by decide) slidingRows ?_ hterms⟩
  intro _ args hargs
  simp only [slidingRows, List.mem_cons, List.not_mem_nil, Call.step.injEq, reduceCtorEq, false_or,
    or_false] at hargs
  rcases hargs with rfl | rfl | rfl | rfl <;> trivial

/-- A row that is gone leaves its overflow behind: the sum of `1` stays a real. -/
def overflowRows : List Call := [.step [.int Int64.maxValue], .step [.int 1], .inverse]

/-- The empty text that is left is taken for no text at all. -/
def blankRows : List Call := [.step [.text "a"], .step [.text ""], .inverse]

/-- As many bytes are cut as the last separator has, and `b` was joined with another. -/
def separatorRows : List Call :=
  [.step [.text "a", .text ","], .step [.text "b", .text "; "], .step [.text "c", .text ","],
    .inverse]

theorem inverse_not_lawful :
    (∀ R, ¬ Throughout (Sliding.call R false) (Sliding.Lawful R false .sum) overflowRows
      (.start .sum)) ∧
    (∀ R, ¬ Throughout (Sliding.call R false) (Sliding.Lawful R false .groupConcat) blankRows
      (.start .groupConcat)) ∧
    ∀ R, ¬ Throughout (Sliding.call R false) (Sliding.Lawful R false .groupConcat) separatorRows
      (.start .groupConcat) := by
  have hmax : checkedAdd 0 Int64.maxValue = some Int64.maxValue := by decide
  have hover : checkedAdd Int64.maxValue 1 = none := by decide
  have hone : checkedAdd 0 1 = some 1 := by decide
  refine ⟨fun R h => ?_, fun R h => ?_, fun R h => ?_⟩
  · have hlaw := h 3
    simp [Sliding.Lawful, overflowRows, Sliding.start, Sliding.call, fresh, step, inverse, new,
      argument, moveSum, moveInt, value, hmax, hover, hone] at hlaw
  · have hlaw := h 3
    have hmore : ¬ "a,".utf8ByteSize ≤ "a".utf8ByteSize := by decide
    have hdrain : drain (dropLen "a,".utf8ByteSize "a".utf8ByteSize ",".utf8ByteSize) ['a', ','] =
        some [] := by decide
    simp [Sliding.Lawful, blankRows, Sliding.start, Sliding.call, fresh, step, inverse, new,
      argument, stepConcat, inverseConcat, captureSep, toText, value, hmore, hdrain] at hlaw
  · have hlaw := h 4
    have hmore : ¬ "a; b,c".utf8ByteSize ≤ "a".utf8ByteSize := by decide
    have hdrain : drain (dropLen "a; b,c".utf8ByteSize "a".utf8ByteSize ",".utf8ByteSize)
        ['a', ';', ' ', 'b', ',', 'c'] = some [' ', 'b', ',', 'c'] := by decide
    simp [Sliding.Lawful, separatorRows, Sliding.start, Sliding.call, fresh, step, inverse, new,
      argument, stepConcat, inverseConcat, captureSep, toText, value, hmore, hdrain] at hlaw

end Rustqlite.Func.Accumulator
