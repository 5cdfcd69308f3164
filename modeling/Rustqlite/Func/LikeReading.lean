import Rustqlite.Foundation.Wildcards
import Rustqlite.Func.Like
import Rustqlite.Types.TextOrder

/-!
# How the matcher reads a pattern

The pattern as a list of tokens, read in the way of the matcher, and the proof
that the matcher finds the texts of these tokens.  Patterns have no NUL here;
texts may, and no wildcard but the last one takes it.
-/

namespace Rustqlite.Func

open Foundation Wildcards

/-! ## Sets -/

inductive SetItem where
  | single (c : Char)
  | range (first last : Char)
  deriving DecidableEq

structure CharSet where
  invert : Bool
  items : List SetItem
  deriving DecidableEq

def setItems : List Char → Option (List SetItem × List Char)
  | x :: d :: y :: rest =>
      if x = ']' then some ([], d :: y :: rest)
      else if d = '-' ∧ y ≠ ']' then
        (setItems rest).map fun (items, rest) => (.range x y :: items, rest)
      else (setItems (d :: y :: rest)).map fun (items, rest) => (.single x :: items, rest)
  | x :: rest =>
      if x = ']' then some ([], rest)
      else (setItems rest).map fun (items, rest) => (.single x :: items, rest)
  | [] => none

def parseSet (pattern : List Char) : Option (CharSet × List Char) :=
  let (invert, pattern) := if pattern.head? = some '^' then (true, pattern.tail)
    else (false, pattern)
  let (first, pattern) := if pattern.head? = some ']' then ([.single ']'], pattern.tail)
    else ([], pattern)
  (setItems pattern).map fun (items, rest) => (⟨invert, first ++ items⟩, rest)

def SetItem.takes (c : Char) : SetItem → Bool
  | .single x => c = x
  | .range x y => c = x || (x ≤ c && c ≤ y)

def CharSet.takes (set : CharSet) (c : Char) : Bool := set.items.any (·.takes c) != set.invert

/-! ## Tokens -/

def NonNul (c : Char) : Prop := c ≠ nul

instance : DecidablePred NonNul := fun c => inferInstanceAs (Decidable (c ≠ nul))

def broken : Token Char := .one fun _ => False

/-- The single wildcards in a run of wildcards, and what is behind the run. -/
def stripRun (info : CompareInfo) : List Char → Nat × List Char
  | [] => (0, [])
  | c :: pattern =>
      if c = info.matchAll then stripRun info pattern
      else if c = info.matchOne then ((stripRun info pattern).1 + 1, (stripRun info pattern).2)
      else (0, c :: pattern)

def ones (n : Nat) : List (Token Char) := List.replicate n (.one NonNul)

def reading (info : CompareInfo) (other : Char) : Nat → List Char → List (Token Char)
  | 0, _ => []
  | _ + 1, [] => []
  | fuel + 1, c :: pattern =>
      if c = info.matchAll then
        let n := (stripRun info pattern).1
        let rest := (stripRun info pattern).2
        if rest = [] then ones n ++ [.run fun _ => True]
        else if (read rest).1 = other ∧ info.matchSet = false then
          if rest.tail = [] then [broken]
          else ones n ++ .run NonNul :: reading info other fuel rest.tail
        else ones n ++ .run NonNul :: reading info other fuel rest
      else if c = other ∧ info.matchSet = true then
        match parseSet pattern with
        | none => [broken]
        | some (set, rest) =>
            .one (fun d => NonNul d ∧ set.takes d = true) :: reading info other fuel rest
      else if c = other then
        if pattern = [] then [broken]
        else .one (fun d => sameChar info (read pattern).1 d = true) ::
          reading info other fuel pattern.tail
      else
        .one (fun d => sameChar info c d = true ∨ c = info.matchOne ∧ NonNul d) ::
          reading info other fuel pattern

section Reading

variable {info : CompareInfo} {other d : Char} {fuel : Nat} {pattern rest : List Char}

theorem reading_cons : reading info other (fuel + 1) (d :: pattern) =
    if d = info.matchAll then
      let n := (stripRun info pattern).1
      let rest := (stripRun info pattern).2
      if rest = [] then ones n ++ [.run fun _ => True]
      else if (read rest).1 = other ∧ info.matchSet = false then
        if rest.tail = [] then [broken]
        else ones n ++ .run NonNul :: reading info other fuel rest.tail
      else ones n ++ .run NonNul :: reading info other fuel rest
    else if d = other ∧ info.matchSet = true then
      match parseSet pattern with
      | none => [broken]
      | some (set, rest) =>
          .one (fun e => NonNul e ∧ set.takes e = true) :: reading info other fuel rest
    else if d = other then
      if pattern = [] then [broken]
      else .one (fun e => sameChar info (read pattern).1 e = true) ::
        reading info other fuel pattern.tail
    else
      .one (fun e => sameChar info d e = true ∨ d = info.matchOne ∧ NonNul e) ::
        reading info other fuel pattern := rfl

theorem reading_run_end (h : (stripRun info pattern).2 = []) :
    reading info other (fuel + 1) (info.matchAll :: pattern) =
      ones (stripRun info pattern).1 ++ [.run fun _ => True] := by
  rw [reading_cons, if_pos rfl]
  exact if_pos h

theorem reading_run (h : (stripRun info pattern).2 = d :: rest)
    (hd : ¬(d = other ∧ info.matchSet = false)) :
    reading info other (fuel + 1) (info.matchAll :: pattern) =
      ones (stripRun info pattern).1 ++ .run NonNul :: reading info other fuel (d :: rest) := by
  rw [reading_cons, if_pos rfl]
  simp only [h, read]
  rw [if_neg (List.cons_ne_nil _ _), if_neg hd]

theorem reading_run_escape (h : (stripRun info pattern).2 = other :: d :: rest)
    (hset : info.matchSet = false) : reading info other (fuel + 1) (info.matchAll :: pattern) =
      ones (stripRun info pattern).1 ++ .run NonNul :: reading info other fuel (d :: rest) := by
  rw [reading_cons, if_pos rfl]
  simp only [h, read, List.tail_cons]
  rw [if_neg (List.cons_ne_nil _ _), if_pos ⟨trivial, hset⟩, if_neg (List.cons_ne_nil _ _)]

theorem reading_run_dangling (h : (stripRun info pattern).2 = [other])
    (hset : info.matchSet = false) :
    reading info other (fuel + 1) (info.matchAll :: pattern) = [broken] := by
  rw [reading_cons, if_pos rfl]
  simp only [h, read, List.tail_cons]
  rw [if_neg (List.cons_ne_nil _ _), if_pos ⟨trivial, hset⟩, if_pos trivial]

theorem reading_escape (hall : other ≠ info.matchAll) (hset : info.matchSet = false) :
    reading info other (fuel + 1) (other :: d :: rest) =
      .one (fun e => sameChar info d e = true) :: reading info other fuel rest := by
  rw [reading_cons, if_neg hall, if_neg (by simp [hset]), if_pos rfl, if_neg (List.cons_ne_nil _ _)]
  rfl

theorem reading_dangling (hall : other ≠ info.matchAll) (hset : info.matchSet = false) :
    reading info other (fuel + 1) [other] = [broken] := by
  rw [reading_cons, if_neg hall, if_neg (by simp [hset]), if_pos rfl, if_pos rfl]

theorem reading_plain (hall : d ≠ info.matchAll) (hd : d ≠ other) :
    reading info other (fuel + 1) (d :: rest) =
      .one (fun e => sameChar info d e = true ∨ d = info.matchOne ∧ NonNul e) ::
        reading info other fuel rest := by
  rw [reading_cons, if_neg hall, if_neg fun h => hd h.1, if_neg hd]

theorem reading_set (hall : other ≠ info.matchAll) (hset : info.matchSet = true) :
    reading info other (fuel + 1) (other :: rest) =
      match parseSet rest with
      | none => [broken]
      | some (set, rest) =>
          .one (fun d => NonNul d ∧ set.takes d = true) :: reading info other fuel rest := by
  rw [reading_cons, if_neg hall, if_pos ⟨rfl, hset⟩]

end Reading

/-! ## The matcher's sets -/

variable {c x : Char} {seen : Bool} {pattern rest s : List Char} {ts : List (Token Char)}
  {info : CompareInfo}

theorem setLoop_prior {prior : Char} (h : ∀ y rest, pattern = '-' :: y :: rest → y = ']') :
    setLoop c prior seen pattern = setLoop c nul seen pattern := by
  match pattern with
  | [] => simp only [setLoop]
  | [x] => simp only [setLoop]
  | x :: next :: rest =>
      have hrange : ¬(x = '-' ∧ next ≠ ']') := by
        rintro ⟨rfl, hnext⟩
        exact hnext (h next rest rfl)
      simp only [setLoop]
      split_ifs <;> first | rfl | tauto

theorem setLoop_single (hx : NonNul x) (hclose : x ≠ ']')
    (h : ∀ y rest, pattern = '-' :: y :: rest → y = ']') :
    setLoop c nul seen (x :: pattern) = setLoop c nul (seen || c = x) pattern := by
  cases pattern with
  | nil => simp only [setLoop, if_neg hx, if_neg hclose]
  | cons d rest =>
      have hprior : ¬(x = '-' ∧ d ≠ ']' ∧ d ≠ nul ∧ nul ≠ nul) := fun h => h.2.2.2 rfl
      rw [setLoop, if_neg hx, if_neg hclose, if_neg hprior, setLoop_prior h]

theorem setLoop_range {y : Char} (hx : NonNul x) (hclose : x ≠ ']')
    (hy : NonNul y) (hclose' : y ≠ ']') :
    setLoop c nul seen (x :: '-' :: y :: rest) =
      setLoop c nul (seen || (c = x || (x ≤ c && c ≤ y))) rest := by
  have hdash : '-' ≠ nul := by decide
  have hdash' : '-' ≠ ']' := by decide
  have hprior : ¬(x = '-' ∧ '-' ≠ ']' ∧ '-' ≠ nul ∧ nul ≠ nul) := fun h => h.2.2.2 rfl
  rw [setLoop, if_neg hx, if_neg hclose, if_neg hprior, setLoop, if_neg hdash, if_neg hdash',
    if_pos ⟨rfl, hclose', hy, hx⟩, Bool.or_assoc]

theorem setLoop_eq (hp : ∀ x ∈ pattern, NonNul x) (seen : Bool) :
    setLoop c nul seen pattern = (setItems pattern).map
      fun r => (seen || r.1.any (·.takes c), r.2) := by
  have hend : ']' ≠ nul := by decide
  fun_induction setItems pattern generalizing seen with
  | case1 d y rest => simp [setLoop, hend]
  | case2 x d y rest hx hrange ih =>
      obtain ⟨rfl, hy⟩ := hrange
      simp only [List.forall_mem_cons] at hp
      rw [setLoop_range hp.1 hx hp.2.2.1 hy, ih hp.2.2.2, Option.map_map]
      simp [Function.comp_def, SetItem.takes, Bool.or_assoc]
  | case3 x d y rest hx hrange ih =>
      rw [List.forall_mem_cons] at hp
      rw [setLoop_single hp.1 hx, ih hp.2, Option.map_map]
      · simp [Function.comp_def, SetItem.takes, Bool.or_assoc]
      · rintro y' rest' heq
        cases heq
        exact not_not.mp fun hy => hrange ⟨rfl, hy⟩
  | case4 rest hshort =>
      cases rest with
      | nil => simp [setLoop, hend]
      | cons d rest => simp [setLoop, hend]
  | case5 x rest hshort hx ih =>
      rw [List.forall_mem_cons] at hp
      rw [setLoop_single hp.1 hx, ih hp.2, Option.map_map]
      · simp [Function.comp_def, SetItem.takes, Bool.or_assoc]
      · exact fun y' rest' heq => absurd heq (hshort _ _ _)
  | case6 => simp [setLoop]

theorem read_eq (hx : x ≠ nul) : (read pattern).1 = x ↔ pattern.head? = some x := by
  cases pattern with
  | nil => simp [read, hx.symm]
  | cons c rest => simp [read]

theorem read_tail (pattern : List Char) : (read pattern).2 = pattern.tail := by
  cases pattern <;> rfl

theorem forall_mem_tail (hp : ∀ x ∈ pattern, NonNul x) :
    ∀ x ∈ pattern.tail, NonNul x := fun x hx => hp x (List.mem_of_mem_tail hx)

theorem matchSet_body (hp : ∀ x ∈ pattern, NonNul x) (c : Char) (invert : Bool)
    (string : List Char) :
    (match setLoop c nul (if (read pattern).1 = ']' then (decide (c = ']'), pattern.tail)
          else (false, pattern)).1
        (if (read pattern).1 = ']' then (decide (c = ']'), pattern.tail)
          else (false, pattern)).2 with
      | none => none
      | some (seen, pattern) => if seen = invert then none else some (pattern, string)) =
    match (setItems (if pattern.head? = some ']' then ([SetItem.single ']'], pattern.tail)
        else ([], pattern)).2).map fun r => (CharSet.mk invert ((if pattern.head? = some ']' then
          ([SetItem.single ']'], pattern.tail) else ([], pattern)).1 ++ r.1), r.2) with
      | none => none
      | some (set, rest) => if set.takes c then some (rest, string) else none := by
  have hend : ']' ≠ nul := by decide
  simp only [read_eq hend]
  split_ifs with hfirst
  · rw [setLoop_eq (forall_mem_tail hp)]
    cases setItems pattern.tail with
    | none => rfl
    | some r => simp [CharSet.takes, SetItem.takes]
  · rw [setLoop_eq hp]
    cases setItems pattern with
    | none => rfl
    | some r => simp [CharSet.takes]

theorem matchSet_eq (hp : ∀ x ∈ pattern, NonNul x) (hc : NonNul c) (string : List Char) :
    matchSet pattern (c :: string) =
      match parseSet pattern with
      | none => none
      | some (set, rest) => if set.takes c then some (rest, string) else none := by
  have hcaret : '^' ≠ nul := by decide
  rw [matchSet, read, parseSet]
  simp only [if_neg hc, read_eq hcaret, read_tail]
  by_cases hinvert : pattern.head? = some '^'
  · rw [if_pos hinvert]
    exact matchSet_body (forall_mem_tail hp) c true string
  · rw [if_neg hinvert]
    exact matchSet_body hp c false string

theorem setItems_suffix {r : List SetItem × List Char} (h : setItems pattern = some r) :
    r.2 <:+ pattern ∧ r.2.length < pattern.length := by
  fun_induction setItems pattern generalizing r with
  | case1 d y rest =>
      cases h
      exact ⟨List.suffix_cons _ _, by simp⟩
  | case2 x d y rest hx hrange ih =>
      obtain ⟨r', hr', rfl⟩ := Option.map_eq_some_iff.mp h
      obtain ⟨hsuffix, hlt⟩ := ih hr'
      refine ⟨hsuffix.trans ?_, by simp only [List.length_cons]; omega⟩
      exact ((List.suffix_cons _ _).trans (List.suffix_cons _ _)).trans (List.suffix_cons _ _)
  | case3 x d y rest hx hrange ih =>
      obtain ⟨r', hr', rfl⟩ := Option.map_eq_some_iff.mp h
      obtain ⟨hsuffix, hlt⟩ := ih hr'
      exact ⟨hsuffix.trans (List.suffix_cons _ _), by simp only [List.length_cons] at *; omega⟩
  | case4 rest hshort =>
      cases h
      exact ⟨List.suffix_cons _ _, by simp⟩
  | case5 x rest hshort hx ih =>
      obtain ⟨r', hr', rfl⟩ := Option.map_eq_some_iff.mp h
      obtain ⟨hsuffix, hlt⟩ := ih hr'
      exact ⟨hsuffix.trans (List.suffix_cons _ _), by simp only [List.length_cons] at *; omega⟩
  | case6 => cases h

theorem ite_suffix {β : Type} {q : Prop} [Decidable q] (a b : β) (pattern : List Char) :
    (if q then (a, pattern.tail) else (b, pattern)).2 <:+ pattern := by
  split_ifs
  · exact List.tail_suffix _
  · exact List.suffix_refl _

theorem parseSet_suffix {set : CharSet} (h : parseSet pattern = some (set, rest)) :
    rest <:+ pattern ∧
        rest.length < pattern.length := by
  obtain ⟨r, hr, heq⟩ := Option.map_eq_some_iff.mp h
  obtain ⟨-, rfl⟩ := Prod.mk.inj heq
  obtain ⟨hsuffix, hlt⟩ := setItems_suffix hr
  have hcaret := ite_suffix (q := pattern.head? = some '^') true false pattern
  have hfirst (p : List Char) := ite_suffix (q := p.head? = some ']') [SetItem.single ']'] [] p
  have hbody := (hfirst _).trans hcaret
  exact ⟨hsuffix.trans hbody, hlt.trans_le hbody.length_le⟩

/-! ## What an outcome says -/

/-- The outcome for a text: whether it fits, and that no later start helps if it says so. -/
structure Decides (o : Outcome) (ts : List (Token Char)) (s : List Char) : Prop where
  matched : o = .matched ↔ Matches ts s
  blocked : o = .noWildcardMatch → ¬Matches (.run NonNul :: ts) s

theorem Decides.one {o : Outcome} {q : Char → Prop} {ts : List (Token Char)} {c : Char}
    {s : List Char} (h : Decides o ts s) (hq : ∀ d, q d → NonNul d) (hc : q c) :
    Decides o (.one q :: ts) (c :: s) where
  matched := by rw [h.matched, matches_one_cons, and_iff_right hc]
  blocked ho hrun := h.blocked ho (hrun.drop_one hq)

theorem decides_noMatch (h : ¬Matches ts s) :
    Decides .noMatch ts s where
  matched := iff_of_false Outcome.noConfusion h
  blocked := Outcome.noConfusion

theorem decides_noWildcard (h : ¬Matches (.run NonNul :: ts) s) :
    Decides .noWildcardMatch ts s where
  matched := iff_of_false Outcome.noConfusion fun hts => h (.stop hts)
  blocked _ := h

theorem decides_matched (h : Matches ts s) :
    Decides .matched ts s where
  matched := iff_of_true rfl h
  blocked := Outcome.noConfusion

theorem not_matches_run_broken (s : List Char) : ¬Matches [.run NonNul, broken] s := by
  intro h
  obtain ⟨u, s', -, -, hs⟩ := matches_run_iff.mp h
  obtain ⟨c, s'', -, hc, -⟩ := matches_one_iff.mp hs
  exact hc

theorem Decides.run {o : Outcome} (h : Decides o ts s) (ho : o ≠ .noMatch) :
    Decides o (.run NonNul :: ts) s := by
  cases o with
  | matched => exact decides_matched (.stop (h.matched.mp rfl))
  | noMatch => exact absurd rfl ho
  | noWildcardMatch =>
      exact decides_noWildcard fun hrun => h.blocked rfl (matches_run_run.mp hrun)

theorem decides_tryFrom {f : List Char → Outcome} (h : ∀ s, Decides (f s) ts s) (s : List Char) :
    Decides (tryFrom f s) (.run NonNul :: ts) s := by
  have hmiss {s : List Char} (hno : f s = .noMatch) : ¬Matches ts s := by
    rw [← (h s).matched, hno]
    exact Outcome.noConfusion
  induction s with
  | nil =>
      rw [tryFrom]
      split_ifs with hno
      · refine decides_noWildcard fun hrun => hmiss hno ?_
        rwa [matches_run_nil, matches_run_nil] at hrun
      · exact (h []).run hno
  | cons c s ih =>
      rw [tryFrom]
      split_ifs with hno hc
      · refine decides_noWildcard fun hrun => ?_
        rcases matches_run_cons.mp (matches_run_run.mp hrun) with hts | ⟨hnul, -⟩
        · exact hmiss hno hts
        · exact hnul hc
      · constructor
        · rw [ih.matched, matches_run_cons, or_iff_right (hmiss hno)]
          exact (and_iff_right hc).symm
        · intro ho hrun
          rcases matches_run_cons.mp (matches_run_run.mp hrun) with hts | ⟨-, hrest⟩
          · exact hmiss hno hts
          · exact ih.blocked ho (.stop hrest)
      · exact (h (c :: s)).run hno

/-! ## Runs of wildcards -/

theorem skipRun_none (h : skipRun info pattern s = none) (ts : List (Token Char)) :
    ¬Matches (.run NonNul :: (ones (stripRun info pattern).1 ++ ts)) s := by
  induction pattern generalizing s with
  | nil => cases h
  | cons c pattern ih =>
      rw [skipRun] at h
      rw [stripRun]
      split_ifs at h ⊢ with hall hone hend
      · exact ih h
      · intro hrun
        rw [ones, List.replicate_succ, List.cons_append, matches_run_one] at hrun
        obtain ⟨d, s', rfl, hd, -⟩ := matches_one_iff.mp hrun
        exact hd hend
      · cases s with
        | nil => exact absurd rfl hend
        | cons d s => exact fun hrun => ih h (hrun.drop_one fun _ => id)

theorem skipRun_some {s' : List Char} (h : skipRun info pattern s = some (rest, s')) :
    rest = (stripRun info pattern).2 ∧
      ∀ o ts, Decides o ts s' → Decides o (ones (stripRun info pattern).1 ++ ts) s := by
  induction pattern generalizing s with
  | nil =>
      cases h
      exact ⟨rfl, fun _ _ => id⟩
  | cons c pattern ih =>
      rw [skipRun] at h
      rw [stripRun]
      split_ifs at h ⊢ with hall hone hend
      · exact ih h
      · cases s with
        | nil => exact absurd rfl hend
        | cons d s =>
            obtain ⟨hrest, hlift⟩ := ih h
            exact ⟨hrest, fun o ts ho => (hlift o ts ho).one (fun _ => id) hend⟩
      · cases h
        exact ⟨rfl, fun _ _ => id⟩

theorem stripRun_suffix (info : CompareInfo) (pattern : List Char) :
    (stripRun info pattern).2 <:+ pattern := by
  induction pattern with
  | nil => exact List.suffix_refl _
  | cons c pattern ih =>
      rw [stripRun]
      split_ifs
      · exact ih.trans (List.suffix_cons _ _)
      · exact ih.trans (List.suffix_cons _ _)
      · exact List.suffix_refl _

/-! ## The matcher -/

/-- A pattern character is never a match for the end of the text. -/
theorem sameChar_nonNul {d : Char} (hc : NonNul c) (h : sameChar info c d = true) : NonNul d := by
  rintro rfl
  simp only [sameChar, Bool.or_eq_true, Bool.and_eq_true, decide_eq_true_eq] at h
  rcases h with rfl | ⟨⟨⟨-, hlower⟩, -⟩, -⟩
  · exact hc rfl
  · apply hc
    have hnat := congrArg Char.toNat hlower
    have hnul : nul.toNat = 0 := rfl
    rw [toNat_toLower, toNat_toLower, hnul] at hnat
    refine char_ext ?_
    split_ifs at hnat <;> omega

theorem decides_one {q : Char → Prop} [DecidablePred q] {next : List Char → Outcome}
    (hq : ∀ d, q d → NonNul d) (h : ∀ s, Decides (next s) ts s) (s : List Char) :
    Decides (if q (read s).1 then next (read s).2 else .noMatch)
      (.one q :: ts) s := by
  cases s with
  | nil =>
      have hend : ¬q (read []).1 := fun hnul => hq _ hnul rfl
      rw [if_neg hend]
      exact decides_noMatch matches_one_nil
  | cons c s =>
      split_ifs with hc
      · exact (h s).one hq hc
      · exact decides_noMatch fun hts => hc (matches_one_cons.mp hts).1

theorem not_matches_broken (s : List Char) : ¬Matches [broken] s :=
  fun h => not_matches_run_broken s (.stop h)

theorem read_nul_iff (hp : ∀ c ∈ pattern, NonNul c) : (read pattern).1 = nul ↔ pattern = [] := by
  cases pattern with
  | nil => simp [read]
  | cons c pattern => exact iff_of_false (hp c List.mem_cons_self) (List.cons_ne_nil c pattern)

theorem matchSet_end (hs : (read s).1 = nul) : matchSet pattern s = none := by
  rw [matchSet]
  exact if_pos hs

theorem decides_set (hp : ∀ c ∈ pattern, NonNul c) {next : List Char → List Char → Outcome}
    {tokens : List Char → List (Token Char)}
    (h : ∀ rest, rest <:+ pattern → ∀ s, Decides (next rest s) (tokens rest) s) (s : List Char) :
    Decides
      (match matchSet pattern s with
        | none => .noMatch
        | some (rest, s') => next rest s')
      (match parseSet pattern with
        | none => [broken]
        | some (set, rest) => .one (fun d => NonNul d ∧ set.takes d = true) :: tokens rest) s := by
  by_cases hend : (read s).1 = nul
  · rw [matchSet_end hend]
    cases parseSet pattern with
    | none => exact decides_noMatch (not_matches_broken s)
    | some r =>
        refine decides_noMatch fun hts => ?_
        obtain ⟨c, s', rfl, hc, -⟩ := matches_one_iff.mp hts
        exact hc.1 hend
  · cases s with
    | nil => exact absurd rfl hend
    | cons c s =>
        have hc : NonNul c := hend
        rw [matchSet_eq hp hc]
        cases hset : parseSet pattern with
        | none => exact decides_noMatch (not_matches_broken _)
        | some r =>
            obtain ⟨set, rest⟩ := r
            by_cases htakes : set.takes c = true
            · simp only [if_pos htakes]
              exact (h rest (parseSet_suffix hset).1 s).one (fun d => And.left) ⟨hc, htakes⟩
            · simp only [if_neg htakes]
              exact decides_noMatch fun hts => htakes (matches_one_cons.mp hts).1.2

theorem decides_compare (info : CompareInfo) (other : Char) {fuel : Nat}
    (hp : ∀ c ∈ pattern, NonNul c) (hfuel : pattern.length < fuel) (s : List Char) :
    Decides (compare info other fuel pattern s) (reading info other fuel pattern) s := by
  induction fuel generalizing pattern s with
  | zero => omega
  | succ fuel ih =>
      cases pattern with
      | nil =>
          rw [compare, reading]
          split_ifs with hs
          · exact decides_matched (matches_nil.mpr hs)
          · exact decides_noMatch fun h => hs (matches_nil.mp h)
      | cons c pattern =>
          rw [List.forall_mem_cons] at hp
          rw [List.length_cons] at hfuel
          have hnonNul {rest : List Char} (hrest : rest <:+ pattern) : ∀ x ∈ rest, NonNul x :=
            fun x hx => hp.2 x (hrest.subset hx)
          have hbehind {rest : List Char} (hrest : rest <:+ pattern) (s : List Char) :
              Decides (compare info other fuel rest s) (reading info other fuel rest) s :=
            ih (hnonNul hrest) (hrest.length_le.trans_lt (by omega)) s
          rw [compare, reading, if_neg hp.1]
          by_cases hall : c = info.matchAll
          · rw [if_pos hall, if_pos hall]
            have hsuffix := stripRun_suffix info pattern
            have htail := (List.tail_suffix (stripRun info pattern).2).trans hsuffix
            cases hskip : skipRun info pattern s with
            | none =>
                have hshort := skipRun_none hskip
                dsimp only
                split_ifs
                · exact decides_noWildcard (hshort _)
                · exact decides_noWildcard (not_matches_run_broken s)
                · exact decides_noWildcard (hshort _)
                · exact decides_noWildcard (hshort _)
            | some r =>
                obtain ⟨rest, s'⟩ := r
                obtain ⟨rfl, hlift⟩ := skipRun_some hskip
                dsimp only
                by_cases hend : (stripRun info pattern).2 = []
                · rw [if_pos hend, if_pos ((read_nul_iff (hnonNul hsuffix)).mpr hend)]
                  exact hlift _ _ (decides_matched (matches_all s'))
                rw [if_neg hend, if_neg ((read_nul_iff (hnonNul hsuffix)).not.mpr hend)]
                by_cases hesc : (read (stripRun info pattern).2).1 = other ∧ info.matchSet = false
                · rw [if_pos hesc, if_pos hesc, read_tail]
                  by_cases hdangling : (stripRun info pattern).2.tail = []
                  · rw [if_pos hdangling, if_pos ((read_nul_iff (hnonNul htail)).mpr hdangling)]
                    exact decides_noWildcard (not_matches_run_broken s)
                  · rw [if_neg hdangling,
                      if_neg ((read_nul_iff (hnonNul htail)).not.mpr hdangling)]
                    exact hlift _ _ (decides_tryFrom (hbehind htail) s')
                · rw [if_neg hesc, if_neg hesc]
                  exact hlift _ _ (decides_tryFrom (hbehind hsuffix) s')
          rw [if_neg hall, if_neg hall]
          by_cases hset : c = other ∧ info.matchSet = true
          · rw [if_pos hset, if_pos hset]
            exact decides_set hp.2 (fun rest hrest => hbehind hrest) s
          rw [if_neg hset, if_neg hset]
          by_cases hother : c = other
          · rw [if_pos hother, if_pos hother]
            by_cases hdangling : pattern = []
            · rw [if_pos hdangling, if_pos ((read_nul_iff hp.2).mpr hdangling)]
              exact decides_noMatch (not_matches_broken s)
            · rw [if_neg hdangling, if_neg ((read_nul_iff hp.2).not.mpr hdangling), read_tail]
              have hd : NonNul (read pattern).1 := (read_nul_iff hp.2).not.mpr hdangling
              exact decides_one (fun d => sameChar_nonNul hd) (hbehind (List.tail_suffix _)) s
          · rw [if_neg hother, if_neg hother]
            have hq (d : Char) (hd : sameChar info c d = true ∨ c = info.matchOne ∧ NonNul d) :
                NonNul d := hd.elim (sameChar_nonNul hp.1) And.right
            exact decides_one hq (hbehind (List.suffix_refl _)) s

/-! ## Patterns with a NUL -/

/-- What the matcher reads of a pattern. -/
def beforeNul (pattern : List Char) : List Char := pattern.takeWhile (· ≠ nul)

theorem beforeNul_cons (c : Char) (pattern : List Char) :
    beforeNul (c :: pattern) = if c = nul then [] else c :: beforeNul pattern := by
  rw [beforeNul, List.takeWhile_cons]
  by_cases hc : c = nul
  · simp [hc]
  · simp [hc, beforeNul]

theorem nonNul_beforeNul (pattern : List Char) : ∀ c ∈ beforeNul pattern, NonNul c := by
  intro c hc
  exact of_decide_eq_true (@List.mem_takeWhile_imp _ (fun c => decide (c ≠ nul)) pattern c hc)

theorem beforeNul_eq_self (hp : ∀ c ∈ pattern, NonNul c) : beforeNul pattern = pattern :=
  List.takeWhile_eq_self_iff.mpr fun c hc => decide_eq_true (hp c hc)

theorem beforeNul_append {front : List Char} (hfront : ∀ c ∈ front, NonNul c)
    (rest : List Char) : beforeNul (front ++ nul :: rest) = front := by
  induction front with
  | nil => rw [List.nil_append, beforeNul_cons, if_pos rfl]
  | cons c front ih =>
      rw [List.forall_mem_cons] at hfront
      rw [List.cons_append, beforeNul_cons, if_neg hfront.1, ih hfront.2]

theorem read_beforeNul (pattern : List Char) :
    (read (beforeNul pattern)).1 = (read pattern).1 := by
  cases pattern with
  | nil => rfl
  | cons c pattern =>
      rw [beforeNul_cons]
      split_ifs with hc
      · exact hc.symm
      · rfl

theorem tail_beforeNul (h : (read pattern).1 ≠ nul) :
    (read (beforeNul pattern)).2 = beforeNul (read pattern).2 := by
  cases pattern with
  | nil => exact absurd rfl h
  | cons c pattern =>
      have hc : c ≠ nul := h
      rw [beforeNul_cons, if_neg hc]
      rfl

theorem setLoop_beforeNul (c prior : Char) (seen : Bool) (pattern : List Char) :
    setLoop c prior seen (beforeNul pattern) =
      (setLoop c prior seen pattern).map fun r => (r.1, beforeNul r.2) := by
  fun_induction setLoop c prior seen pattern with
  | case1 => rfl
  | case2 prior seen =>
      rw [beforeNul_cons, if_pos rfl]
      rfl
  | case3 prior seen hx => rfl
  | case4 prior seen x hx hclose =>
      rw [beforeNul_cons, if_neg hx]
      simp [setLoop, beforeNul, hx, hclose]
  | case5 prior seen next rest =>
      rw [beforeNul_cons, if_pos rfl]
      rfl
  | case6 prior seen next rest hx =>
      rw [beforeNul_cons, if_neg hx]
      cases hbehind : beforeNul (next :: rest) with
      | nil => simp [setLoop, hx, hbehind]
      | cons y ys => simp [setLoop, hx, hbehind]
  | case7 prior seen x next rest hx hclose hrange ih =>
      rw [beforeNul_cons, if_neg hx, beforeNul_cons, if_neg hrange.2.2.1, setLoop, if_neg hx,
        if_neg hclose, if_pos hrange, ih]
  | case8 prior seen x next rest hx hclose hrange ih =>
      rw [beforeNul_cons, if_neg hx]
      rw [beforeNul_cons] at ih ⊢
      by_cases hnext : next = nul
      · rw [if_pos hnext] at ih ⊢
        rw [← ih]
        simp [setLoop, hx, hclose]
      · rw [if_neg hnext] at ih ⊢
        rw [setLoop, if_neg hx, if_neg hclose, if_neg hrange, ih]

def skipChar (q : Char) (pattern : List Char) : List Char :=
  if (read pattern).1 = q then (read pattern).2 else pattern

theorem skipChar_beforeNul {q : Char} (hq : q ≠ nul) (pattern : List Char) :
    skipChar q (beforeNul pattern) = beforeNul (skipChar q pattern) := by
  rw [skipChar, skipChar, read_beforeNul]
  split_ifs with h
  · exact tail_beforeNul (h ▸ hq)
  · rfl

theorem matchSet_bind (pattern string : List Char) : matchSet pattern string =
    if (read string).1 = nul then none
    else (setLoop (read string).1 nul
        (decide ((read (skipChar '^' pattern)).1 = ']') && decide ((read string).1 = ']'))
        (skipChar ']' (skipChar '^' pattern))).bind fun r =>
      if r.1 = decide ((read pattern).1 = '^') then none else some (r.2, (read string).2) := by
  simp only [matchSet, skipChar]
  split_ifs with hstring hinvert hclose hclose
  · rfl
  · dsimp only at hclose ⊢
    rw [decide_eq_true hclose, decide_eq_true hinvert, Bool.true_and]
    cases setLoop (read string).1 nul (decide ((read string).1 = ']'))
      (read (read pattern).2).2 <;> rfl
  · dsimp only at hclose ⊢
    rw [decide_eq_false hclose, decide_eq_true hinvert, Bool.false_and]
    cases setLoop (read string).1 nul false (read pattern).2 <;> rfl
  · dsimp only at hclose ⊢
    rw [decide_eq_true hclose, decide_eq_false hinvert, Bool.true_and]
    cases setLoop (read string).1 nul (decide ((read string).1 = ']')) (read pattern).2 <;> rfl
  · dsimp only at hclose ⊢
    rw [decide_eq_false hclose, decide_eq_false hinvert, Bool.false_and]
    cases setLoop (read string).1 nul false pattern <;> rfl

theorem matchSet_beforeNul (pattern string : List Char) :
    matchSet (beforeNul pattern) string =
      (matchSet pattern string).map fun r => (beforeNul r.1, r.2) := by
  have hcaret : '^' ≠ nul := by decide
  have hend : ']' ≠ nul := by decide
  rw [matchSet_bind, matchSet_bind, skipChar_beforeNul hcaret, skipChar_beforeNul hend,
    read_beforeNul, read_beforeNul, setLoop_beforeNul]
  split_ifs
  · rfl
  cases setLoop (read string).1 nul
      (decide ((read (skipChar '^' pattern)).1 = ']') && decide ((read string).1 = ']'))
      (skipChar ']' (skipChar '^' pattern)) with
  | none => rfl
  | some r =>
      simp only [Option.map_some, Option.bind_some]
      split_ifs <;> rfl

theorem skipRun_beforeNul (hall : info.matchAll ≠ nul) (hone : info.matchOne ≠ nul)
    (pattern string : List Char) :
    skipRun info (beforeNul pattern) string =
      (skipRun info pattern string).map fun r => (beforeNul r.1, r.2) := by
  induction pattern generalizing string with
  | nil => rfl
  | cons c pattern ih =>
      rw [beforeNul_cons]
      by_cases hc : c = nul
      · subst hc
        rw [if_pos rfl, skipRun, skipRun, if_neg hall.symm, if_neg hone.symm, Option.map_some,
          beforeNul_cons, if_pos rfl]
      · rw [if_neg hc, skipRun, skipRun]
        split_ifs
        · exact ih string
        · rfl
        · exact ih _
        · rw [Option.map_some, beforeNul_cons, if_neg hc]

theorem compare_beforeNul (hall : info.matchAll ≠ nul) (hone : info.matchOne ≠ nul) (other : Char)
    (fuel : Nat) (pattern string : List Char) :
    compare info other fuel (beforeNul pattern) string =
      compare info other fuel pattern string := by
  induction fuel generalizing pattern string with
  | zero => rfl
  | succ fuel ih =>
      cases pattern with
      | nil => rfl
      | cons c pattern =>
          rw [beforeNul_cons]
          by_cases hc : c = nul
          · rw [if_pos hc, compare, compare, if_pos hc]
          rw [if_neg hc, compare, compare, if_neg hc, if_neg hc, skipRun_beforeNul hall hone,
            matchSet_beforeNul]
          simp only [read_beforeNul, ih]
          by_cases hwild : c = info.matchAll
          · rw [if_pos hwild, if_pos hwild]
            cases skipRun info pattern string with
            | none => rfl
            | some r =>
                simp only [Option.map_some, read_beforeNul]
                by_cases hend : (read r.1).1 = nul
                · rw [if_pos hend, if_pos hend]
                rw [if_neg hend, if_neg hend, tail_beforeNul hend, read_beforeNul]
                have hsame (q : List Char) : compare info other fuel (beforeNul q) =
                    compare info other fuel q := funext (ih q)
                rw [hsame, hsame]
          rw [if_neg hwild, if_neg hwild]
          by_cases hset : c = other ∧ info.matchSet = true
          · rw [if_pos hset, if_pos hset]
            cases matchSet pattern string with
            | none => rfl
            | some r => exact ih r.1 r.2
          rw [if_neg hset, if_neg hset]
          by_cases hother : c = other
          · rw [if_pos hother, if_pos hother]
            by_cases hend : (read pattern).1 = nul
            · rw [if_pos hend, if_pos hend]
            rw [if_neg hend, if_neg hend, tail_beforeNul hend, ih]
          · rw [if_neg hother, if_neg hother]

/-! ## The texts of a pattern -/

theorem lastRunOnly_ones (n : Nat) (h : LastRunOnly nul ts) : LastRunOnly nul (ones n ++ ts) := by
  induction n with
  | zero => exact h
  | succ n ih => exact ⟨fun hnul => hnul rfl, ih⟩

/-- Only the last run takes a NUL. -/
theorem lastRunOnly_reading (info : CompareInfo) (other : Char) (fuel : Nat)
    (hp : ∀ c ∈ pattern, NonNul c) : LastRunOnly nul (reading info other fuel pattern) := by
  induction fuel generalizing pattern with
  | zero => trivial
  | succ fuel ih =>
      cases pattern with
      | nil => trivial
      | cons c pattern =>
          rw [List.forall_mem_cons] at hp
          have hbehind {rest : List Char} (hrest : rest <:+ pattern) :
              LastRunOnly nul (reading info other fuel rest) :=
            ih fun x hx => hp.2 x (hrest.subset hx)
          have hsuffix := stripRun_suffix info pattern
          have hbroken : LastRunOnly nul [broken] := ⟨id, trivial⟩
          have hrun {rest : List Char} (hrest : rest <:+ pattern) :
              LastRunOnly nul (.run NonNul :: reading info other fuel rest) :=
            .inr ⟨fun hnul => hnul rfl, hbehind hrest⟩
          have hsame {d : Char} (hd : NonNul d) : ¬sameChar info d nul = true :=
            fun h => sameChar_nonNul hd h rfl
          rw [reading_cons]
          by_cases hall : c = info.matchAll
          · rw [if_pos hall]
            dsimp only
            split_ifs
            · exact lastRunOnly_ones _ (.inl rfl)
            · exact hbroken
            · exact lastRunOnly_ones _ (hrun ((List.tail_suffix _).trans hsuffix))
            · exact lastRunOnly_ones _ (hrun hsuffix)
          rw [if_neg hall]
          by_cases hset : c = other ∧ info.matchSet = true
          · rw [if_pos hset]
            cases hparse : parseSet pattern with
            | none => exact hbroken
            | some r => exact ⟨fun hnul => hnul.1 rfl, hbehind (parseSet_suffix hparse).1⟩
          rw [if_neg hset]
          by_cases hother : c = other
          · rw [if_pos hother]
            by_cases hdangling : pattern = []
            · rw [if_pos hdangling]
              exact hbroken
            · rw [if_neg hdangling]
              exact ⟨hsame ((read_nul_iff hp.2).not.mpr hdangling), hbehind (List.tail_suffix _)⟩
          · rw [if_neg hother]
            exact ⟨fun h => h.elim (hsame hp.1) fun hnul => hnul.2 rfl,
              hbehind (List.suffix_refl _)⟩

/-- The matcher finds the texts of what it reads, up to a NUL. -/
theorem patternCompare_iff (hall : info.matchAll ≠ nul) (hone : info.matchOne ≠ nul) (other : Char)
    (pattern text : List Char) :
    patternCompare pattern text info other = true ↔
      Matches (reading info other (pattern.length + 1) (beforeNul pattern)) text := by
  have hlen : (beforeNul pattern).length < pattern.length + 1 :=
    Nat.lt_succ_of_le (List.takeWhile_prefix _).length_le
  rw [patternCompare, decide_eq_true_eq, ← compare_beforeNul hall hone]
  exact (decides_compare info other (nonNul_beforeNul pattern) hlen text).matched

end Rustqlite.Func
