import Rustqlite.Func.LikeReading

/-!
# Patterns as they are written

The pieces of LIKE and GLOB patterns, as they are meant and as the matcher takes
them: behind a run of wildcards it steps over an escape character, and the first
character of a range is in the set.
-/

namespace Rustqlite.Func

open Foundation Wildcards

inductive Piece where
  | any
  | one
  | char (c : Char)
  | set (s : CharSet)
  /-- A set without an end, or an escape with nothing behind it. -/
  | broken

def plainPiece (c : Char) : Piece := if c = '%' then .any else if c = '_' then .one else .char c

def likePieces (escape : Option Char) : List Char → List Piece
  | [] => []
  | [c] => if escape = some c then [.broken] else [plainPiece c]
  | c :: d :: rest =>
      if escape = some c then .char d :: likePieces escape rest
      else plainPiece c :: likePieces escape (d :: rest)

def globPieces (pattern : List Char) : List Piece :=
  match pattern with
  | [] => []
  | c :: rest =>
      if c = '*' then .any :: globPieces rest
      else if c = '?' then .one :: globPieces rest
      else if c = '[' then
        match _h : parseSet rest with
        | none => [.broken]
        | some (set, rest) => .set set :: globPieces rest
      else .char c :: globPieces rest
termination_by pattern.length
decreasing_by
  all_goals try simp
  exact (parseSet_suffix _h).2.le

def SetItem.Has (c : Char) : SetItem → Prop
  | .single x => c = x
  | .range x y => x ≤ c ∧ c ≤ y

def CharSet.Has (set : CharSet) (c : Char) : Prop :=
  if set.invert then ∀ item ∈ set.items, ¬item.Has c else ∃ item ∈ set.items, item.Has c

/-- What a piece stands for, where `same` tells the characters that are taken for one. -/
def Piece.token (same : Char → Char → Prop) : Piece → Token Char
  | .any => .run fun _ => True
  | .one => .one fun _ => True
  | .char c => .one (same c)
  | .set s => .one s.Has
  | .broken => Func.broken

/-- The texts of a LIKE pattern; the case of ASCII letters does not matter. -/
def LikeLanguage (escape : Option Char) (pattern text : List Char) : Prop :=
  Matches ((likePieces escape pattern).map (Piece.token fun c d => c.toLower = d.toLower)) text

def GlobLanguage (pattern text : List Char) : Prop :=
  Matches ((globPieces pattern).map (Piece.token Eq)) text

/-! ## As the matcher takes them -/

/-- `behind` says that a run of wildcards comes before, which began with `%`.  There `_` is a
wildcard whatever it is else, and an escape is stepped over. -/
def readPieces (escape : Char) : Bool → List Char → List Piece
  | _, [] => []
  | behind, [c] =>
      if c = '%' then [.any]
      else if behind = true ∧ c = '_' then [.one]
      else if c = escape then [.broken]
      else [plainPiece c]
  | behind, c :: d :: rest =>
      if c = '%' then .any :: readPieces escape true (d :: rest)
      else if behind = true ∧ c = '_' then .one :: readPieces escape true (d :: rest)
      else if c = escape then
        if behind then readPieces escape false (d :: rest)
        else .char d :: readPieces escape false rest
      else plainPiece c :: readPieces escape false (d :: rest)

/-- The matcher takes the escapes of the pattern as they are meant, and none has nothing behind it:
`%` is no escape, nor is `_` in a run of wildcards that begins with `%`; and behind such a run the
escapes are odd in number and escape no wildcard. -/
def EscapesRead (escape : Char) : Bool → List Char → Prop
  | _, [] => True
  | _, [c] => c ≠ escape
  | behind, c :: d :: rest =>
      if c = escape then
        c ≠ '%' ∧ ¬(behind = true ∧ c = '_') ∧
          if behind then
            if d = escape then rest.head? = some escape ∧ EscapesRead escape true rest
            else d ≠ '%' ∧ d ≠ '_' ∧ EscapesRead escape false rest
          else EscapesRead escape false rest
      else EscapesRead escape (c = '%' || behind && c = '_') (d :: rest)

/-- The first character of a range is a member. -/
def CharSet.widen (set : CharSet) : CharSet where
  invert := set.invert
  items := set.items.flatMap fun item =>
    match item with
    | .single x => [.single x]
    | .range x y => [.single x, .range x y]

def Piece.widen : Piece → Piece
  | .set s => .set s.widen
  | piece => piece

/-! ## Characters -/

variable {c d : Char} {ts : List (Token Char)} {pattern rest : List Char}

theorem sameChar_like : sameChar likeInfo c d = true ↔ c.toLower = d.toLower := by
  simp only [sameChar, likeInfo, isAscii, Bool.or_eq_true, Bool.and_eq_true, decide_eq_true_eq,
    true_and]
  constructor
  · rintro (rfl | ⟨⟨h, -⟩, -⟩)
    · rfl
    · exact h
  · intro h
    rcases eq_or_ne c d with rfl | hne
    · exact .inl rfl
    · obtain ⟨hc, hd⟩ := toLower_ascii h hne
      exact .inr ⟨⟨h, hc⟩, hd⟩

theorem sameChar_glob : sameChar globInfo c d = true ↔ c = d := by
  simp [sameChar, globInfo]

/-! ## Runs -/

variable {ok : Char → Prop}

theorem agreeOn_run_all (hok : ∀ c, ok c → NonNul c) {ts' : List (Token Char)}
    (h : AgreeOn ok ts ts') : AgreeOn ok (.run NonNul :: ts) (.run (fun _ => True) :: ts') :=
  h.cons fun c hc => iff_true_intro (hok c hc)

theorem agreeOn_stripRun (info : CompareInfo) (hok : ∀ c, ok c → NonNul c)
    (tokens : List Char → List (Token Char))
    (hall : ∀ p, tokens (info.matchAll :: p) = .run (fun _ => True) :: tokens p)
    (hone : ∀ p, tokens (info.matchOne :: p) = .one (fun _ => True) :: tokens p)
    (pattern : List Char) :
    AgreeOn ok (ones (stripRun info pattern).1 ++ .run NonNul :: tokens (stripRun info pattern).2)
      (.run (fun _ => True) :: tokens pattern) := by
  induction pattern with
  | nil => exact agreeOn_run_all hok (.refl _ _)
  | cons c pattern ih =>
      rw [stripRun]
      split_ifs with hc hc'
      · subst hc
        rw [hall]
        exact ih.trans fun s _ => matches_run_run.symm
      · subst hc'
        rw [hone pattern]
        have hrest := ih.cons
          (show (Token.one NonNul).AgreeOn ok (.one fun _ => True) from
            fun c hc => iff_true_intro (hok c hc))
        exact hrest.trans fun s _ => matches_run_one.symm
      · exact agreeOn_run_all hok (.refl _ _)

/-- What is left behind a run begins with no wildcard. -/
theorem stripRun_head {info : CompareInfo} (h : (stripRun info pattern).2 = d :: rest) :
    d ≠ info.matchAll ∧ d ≠ info.matchOne := by
  induction pattern with
  | nil => cases h
  | cons c pattern ih =>
      rw [stripRun] at h
      split_ifs at h with hc hc'
      · exact ih h
      · exact ih h
      · cases h
        exact ⟨hc, hc'⟩

/-! ## LIKE -/

def likeToken : Piece → Token Char := Piece.token fun c d => c.toLower = d.toLower

section Like

variable {escape : Char} {behind : Bool}

theorem readPieces_any (rest : List Char) :
    readPieces escape behind ('%' :: rest) = .any :: readPieces escape true rest := by
  cases rest with
  | nil => rfl
  | cons d rest => rw [readPieces, if_pos rfl]

theorem readPieces_one (rest : List Char) :
    readPieces escape true ('_' :: rest) = .one :: readPieces escape true rest := by
  have hall : '_' ≠ '%' := by decide
  cases rest with
  | nil => rfl
  | cons d rest => rw [readPieces, if_neg hall, if_pos ⟨rfl, rfl⟩]

theorem readPieces_plain (hall : c ≠ '%') (hone : ¬(behind = true ∧ c = '_')) (hesc : c ≠ escape)
    (rest : List Char) :
    readPieces escape behind (c :: rest) = plainPiece c :: readPieces escape false rest := by
  cases rest with
  | nil => simp only [readPieces, if_neg hall, if_neg hone, if_neg hesc]
  | cons d rest => rw [readPieces, if_neg hall, if_neg hone, if_neg hesc]

theorem readPieces_escape (hall : escape ≠ '%') (d : Char) (rest : List Char) :
    readPieces escape false (escape :: d :: rest) = .char d :: readPieces escape false rest := by
  rw [readPieces, if_neg hall, if_neg (by simp), if_pos rfl, if_neg Bool.false_ne_true]

theorem readPieces_skip (hall : escape ≠ '%') (hone : escape ≠ '_') (d : Char)
    (rest : List Char) :
    readPieces escape true (escape :: d :: rest) = readPieces escape false (d :: rest) := by
  rw [readPieces, if_neg hall, if_neg (by simp [hone]), if_pos rfl, if_pos rfl]

theorem readPieces_dangling (hall : escape ≠ '%') (hone : ¬(behind = true ∧ escape = '_')) :
    readPieces escape behind [escape] = [.broken] := by
  rw [readPieces, if_neg hall, if_neg hone, if_pos rfl]

theorem agreeOn_broken (front : List (Token Char))
    (h : AgreeOn ok (front ++ [.run NonNul, broken]) ts) : AgreeOn ok [broken] ts := by
  intro s hs
  refine Iff.trans ?_ (h s hs)
  exact iff_of_false (not_matches_broken s) (not_matches_append front not_matches_run_broken s)

theorem agreeOn_plain (hok : ∀ c, ok c → NonNul c) (hc : c ≠ '%') :
    (Token.one fun e => sameChar likeInfo c e = true ∨ c = likeInfo.matchOne ∧ NonNul e).AgreeOn ok
      (likeToken (plainPiece c)) := by
  rw [plainPiece, if_neg hc]
  split_ifs with hone
  · exact fun e he => iff_of_true (.inr ⟨hone, hok e he⟩) trivial
  · exact fun e he => (or_iff_left fun h => hone h.1).trans sameChar_like

/-- On texts without a NUL the matcher finds the texts of the pieces that it reads. -/
theorem agreeOn_reading_like (hok : ∀ c, ok c → NonNul c) {fuel : Nat} {pattern : List Char}
    (hfuel : pattern.length < fuel) : AgreeOn ok (reading likeInfo escape fuel pattern)
      ((readPieces escape false pattern).map likeToken) := by
  induction fuel generalizing pattern with
  | zero => omega
  | succ fuel ih =>
      cases pattern with
      | nil => exact .refl _ _
      | cons c pattern =>
          rw [List.length_cons] at hfuel
          by_cases hall : c = '%'
          · subst hall
            have hsuffix := (stripRun_suffix likeInfo pattern).length_le
            have hrun := agreeOn_stripRun likeInfo hok
              (fun p => (readPieces escape true p).map likeToken)
              (fun p => congrArg (List.map likeToken) (readPieces_any p))
              (fun p => congrArg (List.map likeToken) (readPieces_one p)) pattern
            rw [readPieces_any, List.map_cons]
            refine AgreeOn.trans ?_ hrun
            cases hbehind : (stripRun likeInfo pattern).2 with
            | nil =>
                rw [show '%' = likeInfo.matchAll from rfl, reading_run_end hbehind]
                exact .append _ (.cons (fun c hc => (iff_true_intro (hok c hc)).symm) (.refl _ _))
            | cons d rest =>
                obtain ⟨hdall, hdone⟩ := stripRun_head hbehind
                have hdone' : ¬(true = true ∧ d = '_') := fun h => hdone h.2
                rw [hbehind, List.length_cons] at hsuffix
                by_cases hesc : d = escape
                · subst hesc
                  cases rest with
                  | nil =>
                      rw [show '%' = likeInfo.matchAll from rfl, reading_run_dangling hbehind rfl,
                        readPieces_dangling hdall hdone']
                      exact agreeOn_broken _ (.refl _ _)
                  | cons e rest =>
                      rw [show '%' = likeInfo.matchAll from rfl, reading_run_escape hbehind rfl,
                        readPieces_skip hdall hdone]
                      refine .append _ (.cons (.refl _ _) (ih ?_))
                      rw [List.length_cons] at hsuffix ⊢
                      omega
                · have hsame : readPieces escape true (d :: rest) =
                      readPieces escape false (d :: rest) := by
                    rw [readPieces_plain hdall hdone' hesc, readPieces_plain hdall (by simp) hesc]
                  rw [show '%' = likeInfo.matchAll from rfl,
                    reading_run hbehind fun h => hesc h.1, hsame]
                  refine .append _ (.cons (.refl _ _) (ih ?_))
                  rw [List.length_cons]
                  omega
          · by_cases hesc : c = escape
            · subst hesc
              cases pattern with
              | nil =>
                  rw [reading_dangling hall rfl, readPieces_dangling hall (by simp)]
                  exact .refl _ _
              | cons d rest =>
                  rw [List.length_cons] at hfuel
                  rw [reading_escape hall rfl, readPieces_escape hall]
                  exact .cons (fun e _ => sameChar_like) (ih (by omega))
            · rw [reading_plain hall hesc, readPieces_plain hall (by simp) hesc]
              exact .cons (agreeOn_plain hok hall) (ih (by omega))

theorem likePieces_escape (d : Char) (rest : List Char) :
    likePieces (some escape) (escape :: d :: rest) =
      .char d :: likePieces (some escape) rest := by
  rw [likePieces, if_pos rfl]

theorem likePieces_dangling : likePieces (some escape) [escape] = [.broken] := by
  rw [likePieces, if_pos rfl]

theorem likePieces_plain {escape : Option Char} (hc : escape ≠ some c) (rest : List Char) :
    likePieces escape (c :: rest) = plainPiece c :: likePieces escape rest := by
  cases rest with
  | nil => simp only [likePieces, if_neg hc]
  | cons d rest => rw [likePieces, if_neg hc]

theorem escapesRead_plain (hc : c ≠ escape) (rest : List Char) :
    EscapesRead escape behind (c :: rest) ↔
      EscapesRead escape (c = '%' || behind && c = '_') rest := by
  cases rest with
  | nil => exact iff_of_true hc trivial
  | cons d rest => rw [EscapesRead, if_neg hc]

theorem escapesRead_escape (d : Char) (rest : List Char) :
    EscapesRead escape behind (escape :: d :: rest) ↔
      escape ≠ '%' ∧ ¬(behind = true ∧ escape = '_') ∧
        if behind then
          if d = escape then rest.head? = some escape ∧ EscapesRead escape true rest
          else d ≠ '%' ∧ d ≠ '_' ∧ EscapesRead escape false rest
        else EscapesRead escape false rest := by
  rw [EscapesRead, if_pos rfl]

theorem plainPiece_of_ne (hall : c ≠ '%') (hone : c ≠ '_') : plainPiece c = .char c := by
  rw [plainPiece, if_neg hall, if_neg hone]

/-- A character that is no escape is taken for the same piece. -/
theorem readPieces_cons (hc : c ≠ escape) (rest : List Char) :
    readPieces escape behind (c :: rest) =
      plainPiece c :: readPieces escape (c = '%' || behind && c = '_') rest := by
  by_cases hall : c = '%'
  · subst hall
    exact readPieces_any rest
  by_cases hone : behind = true ∧ c = '_'
  · obtain ⟨rfl, rfl⟩ := hone
    exact readPieces_one rest
  · rw [readPieces_plain hall hone hc, decide_eq_false hall, Bool.false_or]
    have hfalse : (behind && decide (c = '_')) = false := by
      cases behind with
      | false => rfl
      | true => exact decide_eq_false fun h => hone ⟨rfl, h⟩
    rw [hfalse]

/-- Escapes that are taken as they are meant make no difference. -/
theorem readPieces_of_escapesRead (h : EscapesRead escape behind pattern) :
    readPieces escape behind pattern = likePieces (some escape) pattern := by
  induction hn : pattern.length using Nat.strong_induction_on generalizing pattern behind with
  | _ n ih =>
      subst hn
      cases pattern with
      | nil =>
          cases behind <;> rfl
      | cons c rest =>
          by_cases hc : c = escape
          · subst hc
            cases rest with
            | nil => exact absurd rfl h
            | cons d rest =>
                obtain ⟨hall, hone, hbehind⟩ := (escapesRead_escape d rest).mp h
                have ih {behind : Bool} {rest' : List Char} (hle : rest'.length ≤ rest.length)
                    (h : EscapesRead c behind rest') :=
                  ih rest'.length (by simp only [List.length_cons]; omega) h rfl
                rw [likePieces_escape]
                cases behind with
                | false => rw [readPieces_escape hall, ih (Nat.le_refl _) hbehind]
                | true =>
                    have hone : c ≠ '_' := fun h => hone ⟨rfl, h⟩
                    rw [if_pos rfl] at hbehind
                    rw [readPieces_skip hall hone]
                    split_ifs at hbehind with hd
                    · -- The escapes come in pairs, and every pair is taken one character late.
                      subst hd
                      obtain ⟨hhead, hrest⟩ := hbehind
                      obtain ⟨rest', rfl⟩ := List.head?_eq_some_iff.mp hhead
                      cases rest' with
                      | nil => exact absurd rfl hrest
                      | cons f rest' =>
                          rw [readPieces_escape hall, ← ih (Nat.le_refl _) hrest,
                            readPieces_skip hall hone]
                    · obtain ⟨hdall, hdone, hrest⟩ := hbehind
                      rw [readPieces_plain hdall (by simp) hd, plainPiece_of_ne hdall hdone,
                        ih (Nat.le_refl _) hrest]
          · have hesc : some escape ≠ some c := fun h => hc (Option.some.inj h).symm
            rw [readPieces_cons hc, likePieces_plain hesc]
            have h := (escapesRead_plain hc rest).mp h
            rw [ih rest.length (by simp) h rfl]

end Like

/-! ## GLOB -/

def globToken (piece : Piece) : Token Char := piece.widen.token Eq

theorem globPieces_nil : globPieces [] = [] := by
  rw [globPieces]

theorem globPieces_any (rest : List Char) : globPieces ('*' :: rest) = .any :: globPieces rest := by
  rw [globPieces, if_pos rfl]

theorem globPieces_one (rest : List Char) : globPieces ('?' :: rest) = .one :: globPieces rest := by
  rw [globPieces, if_neg (by decide), if_pos rfl]

theorem globPieces_broken (h : parseSet rest = none) : globPieces ('[' :: rest) = [.broken] := by
  rw [globPieces, if_neg (by decide), if_neg (by decide), if_pos rfl]
  split
  · rfl
  · rename_i heq
    exact absurd (h.symm.trans heq) (by simp)

theorem globPieces_set {behind : List Char} {set : CharSet}
    (h : parseSet rest = some (set, behind)) :
    globPieces ('[' :: rest) = .set set :: globPieces behind := by
  rw [globPieces, if_neg (by decide), if_neg (by decide), if_pos rfl]
  split
  · rename_i heq
    exact absurd (heq.symm.trans h) (by simp)
  · rename_i heq
    obtain ⟨rfl, rfl⟩ := Prod.mk.inj (Option.some.inj (heq.symm.trans h))
    rfl

theorem globPieces_char (hany : c ≠ '*') (hone : c ≠ '?') (hset : c ≠ '[')
    (rest : List Char) : globPieces (c :: rest) = .char c :: globPieces rest := by
  rw [globPieces, if_neg hany, if_neg hone, if_neg hset]

theorem CharSet.any_takes_iff (set : CharSet) (c : Char) :
    set.items.any (·.takes c) = true ↔ ∃ item ∈ set.widen.items, item.Has c := by
  simp only [CharSet.widen, List.any_eq_true, List.mem_flatMap]
  constructor
  · rintro ⟨item, hitem, htakes⟩
    cases item with
    | single x =>
        have heq : c = x := of_decide_eq_true htakes
        exact ⟨.single x, ⟨_, hitem, List.mem_singleton_self _⟩, heq⟩
    | range x y =>
        simp only [SetItem.takes, Bool.or_eq_true, Bool.and_eq_true, decide_eq_true_eq] at htakes
        rcases htakes with hfirst | hwithin
        · exact ⟨.single x, ⟨_, hitem, by simp⟩, hfirst⟩
        · exact ⟨.range x y, ⟨_, hitem, by simp⟩, hwithin⟩
  · rintro ⟨item, ⟨item', hitem, hmem⟩, hhas⟩
    refine ⟨item', hitem, ?_⟩
    cases item' with
    | single x =>
        obtain rfl := List.mem_singleton.mp hmem
        exact decide_eq_true hhas
    | range x y =>
        simp only [SetItem.takes, Bool.or_eq_true, Bool.and_eq_true, decide_eq_true_eq]
        rcases List.mem_cons.mp hmem with rfl | hmem
        · exact .inl hhas
        · obtain rfl := List.mem_singleton.mp hmem
          exact .inr hhas

/-- The matcher takes what is in the set together with the first characters of its ranges. -/
theorem CharSet.takes_iff (set : CharSet) (c : Char) : set.takes c = true ↔ set.widen.Has c := by
  have hany := set.any_takes_iff c
  have hinvert : set.widen.invert = set.invert := rfl
  rw [CharSet.takes, CharSet.Has, hinvert]
  cases set.invert with
  | false => simpa using hany
  | true =>
      have hnot := not_congr hany
      simp only [not_exists, not_and] at hnot
      simpa using hnot

theorem agreeOn_reading_glob (hok : ∀ c, ok c → NonNul c) {fuel : Nat} {pattern : List Char}
    (hfuel : pattern.length < fuel) :
    AgreeOn ok (reading globInfo '[' fuel pattern) ((globPieces pattern).map globToken) := by
  induction fuel generalizing pattern with
  | zero => omega
  | succ fuel ih =>
      cases pattern with
      | nil =>
          rw [globPieces_nil]
          exact .refl _ _
      | cons c pattern =>
          rw [List.length_cons] at hfuel
          by_cases hall : c = '*'
          · subst hall
            have hrun := agreeOn_stripRun globInfo hok
              (fun p => (globPieces p).map globToken)
              (fun p => congrArg (List.map globToken) (globPieces_any p))
              (fun p => congrArg (List.map globToken) (globPieces_one p)) pattern
            have hsuffix := (stripRun_suffix globInfo pattern).length_le
            rw [globPieces_any, List.map_cons]
            refine AgreeOn.trans ?_ hrun
            cases hbehind : (stripRun globInfo pattern).2 with
            | nil =>
                rw [show '*' = globInfo.matchAll from rfl, reading_run_end hbehind, globPieces_nil]
                exact .append _ (.cons (fun c hc => (iff_true_intro (hok c hc)).symm) (.refl _ _))
            | cons d rest =>
                rw [hbehind] at hsuffix
                rw [show '*' = globInfo.matchAll from rfl,
                  reading_run hbehind (by simp [globInfo])]
                exact .append _ (.cons (.refl _ _) (ih (by omega)))
          · by_cases hset : c = '['
            · subst hset
              rw [reading_set hall rfl]
              cases hparse : parseSet pattern with
              | none =>
                  rw [globPieces_broken hparse]
                  exact .refl _ _
              | some r =>
                  obtain ⟨set, rest⟩ := r
                  have hlen := (parseSet_suffix hparse).2
                  rw [globPieces_set hparse]
                  refine .cons (fun c hc => ?_) (ih (by omega))
                  exact (and_iff_right (hok c hc)).trans (set.takes_iff c)
            · rw [reading_plain hall hset]
              by_cases hone : c = '?'
              · subst hone
                rw [globPieces_one]
                exact .cons (fun c hc => iff_of_true (.inr ⟨rfl, hok c hc⟩) trivial) (ih (by omega))
              · rw [globPieces_char hall hone hset]
                exact .cons (fun d _ => (or_iff_left fun h => hone h.1).trans sameChar_glob)
                  (ih (by omega))

end Rustqlite.Func
