import Rustqlite.Func.LikePieces

/-!
# The language of a pattern

Which LIKE and GLOB patterns the matcher decides, with and without an escape
character: over all texts, and over those without a NUL.
-/

namespace Rustqlite.Func

open Foundation Wildcards

/-! ## Patterns without a text -/

/-- No character of the kind fits the piece. -/
def Piece.Empty (ok : Char → Prop) : Piece → Prop
  | .any | .one => False
  | .char c => ¬ok c
  | .set s => ∀ c, ok c → ¬s.Has c
  | .broken => True

def Void (ok : Char → Prop) (pieces : List Piece) : Prop := ∃ piece ∈ pieces, piece.Empty ok

/-- Characters that are taken for one another, a NUL only for itself. -/
structure Likeness (same : Char → Char → Prop) : Prop where
  refl : ∀ c, same c c
  toNul : ∀ c, same c nul ↔ c = nul
  ofNul : ∀ c, same nul c ↔ c = nul

theorem likeness_eq : Likeness Eq := ⟨fun _ => rfl, fun _ => Iff.rfl, fun _ => eq_comm⟩

theorem likeness_like : Likeness fun c d => c.toLower = d.toLower := by
  have hnul (c : Char) : c.toLower = nul.toLower ↔ c = nul := by
    constructor
    · intro h
      by_contra hne
      have hnat := congrArg Char.toNat h
      have hnul : nul.toNat = 0 := rfl
      have hne' : c.toNat ≠ nul.toNat := fun h => hne (char_ext h)
      rw [toNat_toLower, toNat_toLower, hnul] at hnat
      rw [hnul] at hne'
      split_ifs at hnat <;> omega
    · rintro rfl
      rfl
  exact ⟨fun _ => rfl, hnul, fun c => eq_comm.trans (hnul c)⟩

section Texts

variable {same : Char → Char → Prop} {ok : Char → Prop} {pieces taken : List Piece}
  {ts : List (Token Char)}

/-- A kind of characters: all of them, or all but the NUL. -/
def Alphabet (ok : Char → Prop) : Prop := ∀ c, NonNul c → ok c

theorem exists_text_iff (hsame : Likeness same) (hok : Alphabet ok) :
    (∃ s, (∀ c ∈ s, ok c) ∧ Matches (pieces.map (Piece.token same)) s) ↔ ¬Void ok pieces := by
  rw [exists_matches_iff]
  have hx : ok 'x' := hok 'x' (by decide)
  induction pieces with
  | nil => simp [Void, singles]
  | cons piece pieces ih =>
      have hcons : Void ok (piece :: pieces) ↔ piece.Empty ok ∨ Void ok pieces := by
        simp [Void]
      rw [hcons, not_or]
      refine Iff.trans ?_ (and_congr_right fun _ => ih)
      cases piece with
      | any => exact (and_iff_right id).symm
      | one =>
          rw [List.map_cons]
          exact List.forall_mem_cons.trans (and_congr_left fun _ =>
            iff_of_true ⟨'x', hx, trivial⟩ id)
      | char d =>
          refine List.forall_mem_cons.trans (and_congr_left fun _ => ?_)
          rw [Piece.Empty, not_not]
          constructor
          · rintro ⟨c, hc, hd⟩
            by_cases hnul : d = nul
            · subst hnul
              rwa [(hsame.ofNul c).mp hd] at hc
            · exact hok d hnul
          · exact fun hd => ⟨d, hd, hsame.refl d⟩
      | set set =>
          refine List.forall_mem_cons.trans (and_congr_left fun _ => ?_)
          rw [Piece.Empty, not_forall]
          refine exists_congr fun c => ?_
          rw [Classical.not_imp, not_not]
      | broken =>
          refine List.forall_mem_cons.trans (and_congr_left fun _ => ?_)
          exact iff_of_false (fun h => h.choose_spec.2) fun h => h trivial

theorem void_of_agree (hsame : Likeness same) (hok : Alphabet ok)
    (h : AgreeOn ok (taken.map (Piece.token same)) (pieces.map (Piece.token same))) :
    Void ok taken ↔ Void ok pieces := by
  rw [← not_iff_not, ← exists_text_iff hsame hok, ← exists_text_iff hsame hok]
  exact exists_congr fun s => and_congr_right fun hs => h s hs

theorem agreeOn_of_void (hsame : Likeness same) (hok : Alphabet ok) (hpieces : Void ok pieces)
    (htaken : Void ok taken) :
    AgreeOn ok (taken.map (Piece.token same)) (pieces.map (Piece.token same)) := by
  intro s hs
  refine iff_of_false (fun h => ?_) fun h => ?_
  · exact (exists_text_iff hsame hok).mp ⟨s, hs, h⟩ htaken
  · exact (exists_text_iff hsame hok).mp ⟨s, hs, h⟩ hpieces

/-! ## Texts with a NUL -/

/-- The piece takes a NUL for its character. -/
def Piece.TakesNul : Piece → Prop
  | .any | .broken => False
  | .one => True
  | .char c => c = nul
  | .set s => s.Has nul

/-- Nothing takes a NUL but a run at the end. -/
structure NulSafe (pieces : List Piece) : Prop where
  kinds : ∀ piece ∈ pieces, ¬piece.TakesNul
  runs : ∀ front rest, pieces = front ++ .any :: rest → ∀ piece ∈ rest, piece = .any

theorem NulSafe.tail {piece : Piece} (h : NulSafe (piece :: pieces)) : NulSafe pieces where
  kinds := fun p hp => h.kinds p (List.mem_cons_of_mem _ hp)
  runs := fun front rest heq => h.runs (piece :: front) rest (by rw [heq]; rfl)

/-- If a pattern with a text has the texts that the matcher finds, nothing takes a NUL but a run at
the end. -/
theorem nulSafe_of_agree (hsame : Likeness same) (hlast : LastRunOnly nul ts)
    (hvoid : ¬Void (fun _ => True) pieces)
    (h : AgreeOn (fun _ => True) ts (pieces.map (Piece.token same))) : NulSafe pieces := by
  obtain ⟨s, hs, htext⟩ := (exists_text_iff hsame fun _ _ => trivial).mpr hvoid
  have hkinds := h.singles hs ((h s hs).mpr htext)
  constructor
  · intro piece hpiece htakes
    have hmem {p : Char → Prop} (hp : piece.token same = .one p) (hnul : p nul) : False := by
      have hp : p ∈ singles (pieces.map (Piece.token same)) :=
        mem_singles.mpr (hp ▸ List.mem_map_of_mem hpiece)
      have hnone : ∀ q ∈ singles (pieces.map (Piece.token same)), ¬q nul := by
        have hnone := hlast.singles
        generalize singles (pieces.map (Piece.token same)) = qs at hkinds
        generalize singles ts = ps at hkinds hnone
        induction hkinds with
        | nil => simp
        | cons hpq _ ih =>
            rw [List.forall_mem_cons] at hnone ⊢
            exact ⟨fun hq => hnone.1 ((hpq nul trivial).mpr hq), ih hnone.2⟩
      exact hnone p hp hnul
    cases piece with
    | any | broken => exact htakes
    | one => exact hmem rfl trivial
    | char c => exact hmem rfl ((hsame.toNul c).mpr htakes)
    | set set => exact hmem rfl htakes
  · rintro front rest rfl piece hpiece
    rw [List.map_append, List.map_cons] at h htext hkinds
    obtain ⟨u, v, -, hlong, hu, hv⟩ := htext.exists_longer (c := nul) trivial
    have hle := hlast.length_le ((h _ fun _ _ => trivial).mpr hlong)
    have heq := hkinds.length_eq
    rw [singles_append, List.length_append] at heq
    have hrest : singles (rest.map (Piece.token same)) = [] := by
      apply List.eq_nil_of_length_eq_zero
      have hrun : (singles (Piece.token same .any :: rest.map (Piece.token same))).length =
        (singles (rest.map (Piece.token same))).length := rfl
      omega
    have hnone {p : Char → Prop} (hp : piece.token same = .one p) : False := by
      have hp : p ∈ singles (rest.map (Piece.token same)) :=
        mem_singles.mpr (hp ▸ List.mem_map_of_mem hpiece)
      rw [hrest] at hp
      cases hp
    cases piece with
    | any => rfl
    | one | char c | set set | broken => exact (hnone rfl).elim

/-- A pattern that the matcher takes for one without a text has none, with a NUL or without. -/
theorem not_matches_of_void (hsame : Likeness same) (hlast : LastRunOnly nul ts)
    (htaken : AgreeOn NonNul ts (taken.map (Piece.token same))) (hvoid : Void NonNul taken)
    (s : List Char) : ¬Matches ts s := by
  intro h
  obtain ⟨s', -, hs'⟩ := h.exists_shortest
  have hok : ∀ c ∈ s', NonNul c := by
    have hnone := hlast.singles
    generalize singles ts = ps at hs' hnone
    induction hs' with
    | nil => simp
    | @cons p c ps s' hp _ ih =>
        rw [List.forall_mem_cons] at hnone ⊢
        refine ⟨?_, ih hnone.2⟩
        rintro rfl
        exact hnone.1 hp
  have htext := (htaken s' hok).mp (matches_of_singles hs')
  exact (exists_text_iff hsame fun _ => id).mp ⟨s', hok, htext⟩ hvoid

/-- Over all texts the pattern has to be safe from NULs as well. -/
theorem agree_all_iff {P : Prop} (hsame : Likeness same) (hlast : LastRunOnly nul ts)
    (htaken : AgreeOn NonNul ts (taken.map (Piece.token same)))
    (hiff : AgreeOn NonNul ts (pieces.map (Piece.token same)) ↔
      P ∨ Void NonNul pieces ∧ Void NonNul taken)
    (hsafe : P → NulSafe pieces → AgreeOn (fun _ => True) ts (pieces.map (Piece.token same))) :
    AgreeOn (fun _ => True) ts (pieces.map (Piece.token same)) ↔
      P ∧ NulSafe pieces ∨ Void (fun _ => True) pieces ∧ Void NonNul taken := by
  have hall : Alphabet fun _ : Char => True := fun _ _ => trivial
  have hnone (h : Void (fun _ => True) pieces) (s : List Char) :
      ¬Matches (pieces.map (Piece.token same)) s :=
    fun hs => (exists_text_iff hsame hall).mp ⟨s, fun _ _ => trivial, hs⟩ h
  constructor
  · intro h
    by_cases hvoid : Void (fun _ => True) pieces
    · refine .inr ⟨hvoid, ?_⟩
      by_contra htext
      obtain ⟨s, hs, hmatch⟩ := (exists_text_iff hsame fun _ => id).mpr htext
      exact hnone hvoid s ((h s fun _ _ => trivial).mp ((htaken s hs).mpr hmatch))
    rcases hiff.mp fun s _ => h s fun _ _ => trivial with hP | ⟨-, htext⟩
    · exact .inl ⟨hP, nulSafe_of_agree hsame hlast hvoid h⟩
    · obtain ⟨s, hs, hmatch⟩ := (exists_text_iff hsame hall).mpr hvoid
      exact absurd ((h s hs).mpr hmatch) (not_matches_of_void hsame hlast htaken htext s)
  · rintro (⟨hP, hnul⟩ | ⟨hvoid, htext⟩)
    · exact hsafe hP hnul
    · exact fun s _ => iff_of_false (not_matches_of_void hsame hlast htaken htext s)
        (hnone hvoid s)

end Texts

/-! ## Escapes -/

variable {ok : Char → Prop} {c : Char} {pattern front rest : List Char} {escape : Option Char}
  {same : Char → Char → Prop} {pieces : List Piece} {fuel : Nat} {set : CharSet}

section Escapes

variable {escape : Char} {behind : Bool} {pattern : List Char}

def readKinds (escape : Char) (behind : Bool) (pattern : List Char) : List (Char → Prop) :=
  singles ((readPieces escape behind pattern).map likeToken)

def likeKinds (escape : Char) (pattern : List Char) : List (Char → Prop) :=
  singles ((likePieces (some escape) pattern).map likeToken)

variable {ps qs : List (Char → Prop)}

theorem kindsAgree_cons {p q : Char → Prop} :
    KindsAgree ok (p :: ps) (q :: qs) ↔ (∀ c, ok c → (p c ↔ q c)) ∧ KindsAgree ok ps qs :=
  List.forall₂_cons

/-- A literal character is not any character. -/
theorem not_agree_one (d : Char) :
    ¬∀ c, NonNul c → (True ↔ d.toLower = c.toLower) := by
  intro h
  have hx := (h 'x' (by decide)).mp trivial
  have hy := (h 'y' (by decide)).mp trivial
  exact absurd (hx.symm.trans hy) (by decide)

theorem toLower_percent (h : c.toLower = '%') : c = '%' := by
  by_contra hne
  have hnat := congrArg Char.toNat h
  have hpercent : '%'.toNat = 0x25 := rfl
  have hne' : c.toNat ≠ '%'.toNat := fun h => hne (char_ext h)
  rw [toNat_toLower, hpercent] at hnat
  rw [hpercent] at hne'
  split_ifs at hnat <;> omega

theorem kindsAgree_of_append {ks : List (Char → Prop)} (h : KindsAgree ok (ks ++ ps) (ks ++ qs)) :
    KindsAgree ok ps qs := by
  induction ks with
  | nil => exact h
  | cons k ks ih => exact ih (kindsAgree_cons.mp h).2

theorem length_singles_plain (hc : c ≠ '%') : (singles [likeToken (plainPiece c)]).length = 1 := by
  rw [plainPiece, if_neg hc]
  split_ifs <;> rfl

theorem readKinds_cons (hc : c ≠ escape) (rest : List Char) :
    readKinds escape behind (c :: rest) = singles [likeToken (plainPiece c)] ++
      readKinds escape (c = '%' || behind && c = '_') rest := by
  rw [readKinds, readPieces_cons hc, List.map_cons, ← List.singleton_append, singles_append]
  rfl

theorem likeKinds_cons (hc : c ≠ escape) (rest : List Char) :
    likeKinds escape (c :: rest) =
      singles [likeToken (plainPiece c)] ++ likeKinds escape rest := by
  have hesc : some escape ≠ some c := fun h => hc (Option.some.inj h).symm
  rw [likeKinds, likePieces_plain hesc, List.map_cons, ← List.singleton_append, singles_append]
  rfl

theorem likeKinds_escape (d : Char) (rest : List Char) :
    likeKinds escape (escape :: d :: rest) =
      (fun e => d.toLower = e.toLower) :: likeKinds escape rest := by
  rw [likeKinds, likePieces_escape]
  rfl

theorem readKinds_escape (hall : escape ≠ '%') (d : Char) (rest : List Char) :
    readKinds escape false (escape :: d :: rest) =
      (fun e => d.toLower = e.toLower) :: readKinds escape false rest := by
  rw [readKinds, readPieces_escape hall]
  rfl

theorem readKinds_skip (hall : escape ≠ '%') (hone : escape ≠ '_') (d : Char)
    (rest : List Char) :
    readKinds escape true (escape :: d :: rest) = readKinds escape false (d :: rest) := by
  rw [readKinds, readPieces_skip hall hone]
  rfl

/-- For an escape that is no wildcard, the pieces that the matcher reads are no more than those that
are written, and as many only where every escape is read as it is meant. -/
theorem escapesRead_of_kinds (hall : escape ≠ '%') (hone : escape ≠ '_')
    (hlike : .broken ∉ likePieces (some escape) pattern)
    (hread : .broken ∉ readPieces escape behind pattern) :
    (readKinds escape behind pattern).length ≤ (likeKinds escape pattern).length ∧
      (KindsAgree NonNul (readKinds escape behind pattern) (likeKinds escape pattern) →
        EscapesRead escape behind pattern) := by
  induction hn : pattern.length using Nat.strong_induction_on generalizing pattern behind with
  | _ n hind =>
  subst hn
  cases pattern with
  | nil =>
      cases behind <;> exact ⟨Nat.le_refl _, fun _ => trivial⟩
  | cons c rest =>
  have ih {behind : Bool} {rest' : List Char} (hle : rest'.length ≤ rest.length)
      (hlike : .broken ∉ likePieces (some escape) rest')
      (hread : .broken ∉ readPieces escape behind rest') :=
    hind rest'.length (Nat.lt_succ_of_le hle) hlike hread rfl
  by_cases hc : c = escape
  · subst hc
    cases rest with
    | nil =>
        rw [likePieces_dangling] at hlike
        exact absurd (List.mem_singleton_self _) hlike
    | cons d rest =>
    have hshort : rest.length ≤ (d :: rest).length := Nat.le_succ _
    rw [likePieces_escape] at hlike
    have hlike := List.not_mem_of_not_mem_cons hlike
    rw [likeKinds_escape, escapesRead_escape]
    cases behind with
    | false =>
        rw [readPieces_escape hall] at hread
        obtain ⟨hlen, hagree⟩ := ih hshort hlike (List.not_mem_of_not_mem_cons hread)
        rw [readKinds_escape hall, kindsAgree_cons]
        exact ⟨Nat.succ_le_succ hlen, fun h => ⟨hall, by simp, hagree h.2⟩⟩
    | true =>
        have hone' : ¬(true = true ∧ c = '_') := fun h => hone h.2
        rw [readPieces_skip hall hone] at hread
        rw [readKinds_skip hall hone, if_pos rfl, and_iff_right hall, and_iff_right hone']
        by_cases hd : d = c
        · subst hd
          rw [if_pos rfl]
          cases rest with
          | nil =>
              rw [readPieces_dangling hall (by simp)] at hread
              exact absurd (List.mem_singleton_self _) hread
          | cons f r =>
          rw [readPieces_escape hall] at hread
          have hread := List.not_mem_of_not_mem_cons hread
          rw [readKinds_escape hall]
          by_cases hf : f = d
          · -- Two more escapes: what is left is in the same place again.
            subst hf
            cases r with
            | nil =>
                rw [likePieces_dangling] at hlike
                exact absurd (List.mem_singleton_self _) hlike
            | cons g r =>
                rw [← readPieces_skip hall hone] at hread
                rw [← readKinds_skip hall hone, kindsAgree_cons]
                obtain ⟨hlen, hagree⟩ := ih (by simp) hlike hread
                exact ⟨Nat.succ_le_succ hlen, fun h => ⟨rfl, hagree h.2⟩⟩
          · have hesc : some d ≠ some f := fun h => hf (Option.some.inj h).symm
            rw [likePieces_plain hesc] at hlike
            obtain ⟨hlen, -⟩ := ih (by simp; omega) (List.not_mem_of_not_mem_cons hlike) hread
            rw [likeKinds_cons hf]
            by_cases hfall : f = '%'
            · subst hfall
              refine ⟨Nat.succ_le_succ hlen, fun h => absurd ?_ hall⟩
              exact toLower_percent ((kindsAgree_cons.mp h).1 '%' (by decide) |>.mp rfl)
            · have hsingle := length_singles_plain hfall
              simp only [List.length_cons, List.length_append, hsingle]
              refine ⟨by omega, fun h => ?_⟩
              have heq := h.length_eq
              simp only [List.length_cons, List.length_append, hsingle] at heq
              omega
        · rw [if_neg hd]
          rw [readPieces_cons hd] at hread
          obtain ⟨hlen, hagree⟩ := ih hshort hlike (List.not_mem_of_not_mem_cons hread)
          rw [readKinds_cons hd]
          by_cases hdall : d = '%'
          · subst hdall
            refine ⟨Nat.le_succ_of_le hlen, fun h => ?_⟩
            have heq := h.length_eq
            have heq : (readKinds c ('%' = '%' || false && '%' = '_') rest).length =
              (likeKinds c rest).length + 1 := heq
            omega
          have hbehind : (decide (d = '%') || false && decide (d = '_')) = false := by
            simp [hdall]
          rw [hbehind] at hlen hagree ⊢
          by_cases hdone : d = '_'
          · subst hdone
            exact ⟨Nat.succ_le_succ hlen,
              fun h => absurd (kindsAgree_cons.mp h).1 (not_agree_one '_')⟩
          · rw [plainPiece_of_ne hdall hdone]
            exact ⟨Nat.succ_le_succ hlen,
              fun h => ⟨hdall, hdone, hagree (kindsAgree_cons.mp h).2⟩⟩
  · have hesc : some escape ≠ some c := fun h => hc (Option.some.inj h).symm
    rw [readPieces_cons hc] at hread
    rw [likePieces_plain hesc] at hlike
    obtain ⟨hlen, hagree⟩ := ih (Nat.le_refl _) (List.not_mem_of_not_mem_cons hlike)
      (List.not_mem_of_not_mem_cons hread)
    rw [readKinds_cons hc, likeKinds_cons hc, escapesRead_plain hc, List.length_append,
      List.length_append]
    exact ⟨Nat.add_le_add_left hlen _, fun h => hagree (kindsAgree_of_append h)⟩

theorem escapesRead_of_kinds_one (hlike : .broken ∉ likePieces (some '_') pattern)
    (h : KindsAgree NonNul (readKinds '_' behind pattern) (likeKinds '_' pattern)) :
    EscapesRead '_' behind pattern := by
  induction hn : pattern.length using Nat.strong_induction_on generalizing pattern behind with
  | _ n hind =>
  subst hn
  cases pattern with
  | nil => cases behind <;> trivial
  | cons c rest =>
  have ih {behind : Bool} {rest' : List Char} (hle : rest'.length ≤ rest.length)
      (hlike : .broken ∉ likePieces (some '_') rest')
      (h : KindsAgree NonNul (readKinds '_' behind rest') (likeKinds '_' rest')) :=
    hind rest'.length (Nat.lt_succ_of_le hle) hlike h rfl
  by_cases hc : c = '_'
  · subst hc
    cases rest with
    | nil =>
        rw [likePieces_dangling] at hlike
        exact absurd (List.mem_singleton_self _) hlike
    | cons d rest =>
        rw [likePieces_escape] at hlike
        rw [likeKinds_escape] at h
        cases behind with
        | true =>
            rw [readKinds, readPieces_one] at h
            exact absurd (kindsAgree_cons.mp h).1 (not_agree_one d)
        | false =>
            rw [readKinds_escape (by decide)] at h
            rw [escapesRead_escape]
            have hrest : rest.length ≤ (d :: rest).length := Nat.le_succ _
            exact ⟨by decide, by simp, ih hrest (List.not_mem_of_not_mem_cons hlike)
              (kindsAgree_cons.mp h).2⟩
  · have hesc : some '_' ≠ some c := fun h => hc (Option.some.inj h).symm
    rw [likePieces_plain hesc] at hlike
    rw [readKinds_cons hc, likeKinds_cons hc] at h
    rw [escapesRead_plain hc]
    exact ih (Nat.le_refl _) (List.not_mem_of_not_mem_cons hlike) (kindsAgree_of_append h)

theorem escapesRead_percent (h : '%' ∉ pattern) : EscapesRead '%' behind pattern := by
  induction pattern generalizing behind with
  | nil => cases behind <;> trivial
  | cons c rest ih =>
      rw [List.mem_cons, not_or] at h
      exact (escapesRead_plain (Ne.symm h.1) rest).mpr (ih h.2)

theorem any_mem_readPieces (h : '%' ∈ pattern) : .any ∈ readPieces '%' behind pattern := by
  induction pattern generalizing behind with
  | nil => cases h
  | cons c rest ih =>
      by_cases hc : c = '%'
      · subst hc
        exact readPieces_any rest ▸ List.mem_cons_self
      · rw [readPieces_cons hc]
        exact List.mem_cons_of_mem _ (ih ((List.mem_cons.mp h).resolve_left (Ne.symm hc)))

theorem any_notMem_likePieces (pattern : List Char) : .any ∉ likePieces (some '%') pattern := by
  have hplain {c : Char} (hc : some '%' ≠ some c) : .any ≠ plainPiece c := by
    rw [plainPiece, if_neg fun h => hc (congrArg some h.symm)]
    split_ifs <;> exact Piece.noConfusion
  fun_induction likePieces (some '%') pattern with
  | case1 => simp
  | case2 c hc => simp
  | case3 c hc => simpa using hplain hc
  | case4 c d rest hc ih => simpa using ih
  | case5 c d rest hc ih =>
      rw [List.mem_cons, not_or]
      exact ⟨hplain hc, ih⟩

/-- Patterns that have a text and the texts that the matcher finds are read as they are meant. -/
theorem escapesRead_of_agree (hlike : ¬Void NonNul (likePieces (some escape) pattern))
    (h : AgreeOn NonNul ((readPieces escape false pattern).map likeToken)
      ((likePieces (some escape) pattern).map likeToken)) : EscapesRead escape false pattern := by
  have hread := (not_congr (void_of_agree likeness_like (fun _ => id) h)).mpr hlike
  obtain ⟨s, hs, htext⟩ := (exists_text_iff likeness_like fun _ => id).mpr hread
  have hkinds : KindsAgree NonNul (readKinds escape false pattern) (likeKinds escape pattern) :=
    h.singles hs htext
  have hbroken {pieces : List Piece} (hvoid : ¬Void NonNul pieces) : .broken ∉ pieces :=
    fun hmem => hvoid ⟨.broken, hmem, trivial⟩
  by_cases hall : escape = '%'
  · subst hall
    -- The runs that are read make texts of another length.
    refine escapesRead_percent fun hmem => ?_
    have hruns : ∀ p, .run p ∉ (likePieces (some '%') pattern).map likeToken := by
      intro p hp
      obtain ⟨piece, hpiece, htoken⟩ := List.mem_map.mp hp
      cases piece with
      | any => exact any_notMem_likePieces pattern hpiece
      | one | char c | set set | broken => cases htoken
    have hany : Piece.any ∈ readPieces '%' false pattern := any_mem_readPieces hmem
    obtain ⟨front, rest, hsplit⟩ := List.append_of_mem hany
    have hlong := htext
    rw [hsplit, List.map_append, List.map_cons] at hlong
    obtain ⟨u, v, hsub, hlong, hu, hv⟩ := hlong.exists_longer (c := 'x') trivial
    have hok : ∀ c ∈ u ++ 'x' :: v, NonNul c := by
      intro c hc
      rw [List.mem_append, List.mem_cons, or_left_comm, ← List.mem_append] at hc
      rcases hc with rfl | hc
      · decide
      · exact hs c (hsub.subset hc)
    have hfits := (h _ hok).mp (by rw [hsplit, List.map_append, List.map_cons]; exact hlong)
    have hfixed := hfits.length_eq hruns
    have hlen := hkinds.length_eq
    rw [readKinds, hsplit, List.map_append, List.map_cons, singles_append, List.length_append]
      at hlen
    have hrun : (singles (likeToken .any :: rest.map likeToken)).length =
      (singles (rest.map likeToken)).length := rfl
    rw [List.length_append, List.length_cons, hu, hv] at hfixed
    have hkind : (likeKinds '%' pattern).length =
      (singles ((likePieces (some '%') pattern).map likeToken)).length := rfl
    have hsame : (singles (front.map likeToken)).length =
      (singles (front.map (Piece.token fun c d => c.toLower = d.toLower))).length := rfl
    have hsame' : (singles (rest.map likeToken)).length =
      (singles (rest.map (Piece.token fun c d => c.toLower = d.toLower))).length := rfl
    omega
  by_cases hone : escape = '_'
  · subst hone
    exact escapesRead_of_kinds_one (hbroken hlike) hkinds
  · exact (escapesRead_of_kinds hall hone (hbroken hlike) (hbroken hread)).2 hkinds

end Escapes

/-! ## LIKE -/

def NulFree (s : String) : Prop := ∀ c ∈ s.toList, NonNul c

theorem likePieces_nul (hp : ∀ c ∈ pattern, NonNul c) :
    likePieces (some nul) pattern = likePieces none pattern := by
  induction pattern with
  | nil => rfl
  | cons c rest ih =>
      rw [List.forall_mem_cons] at hp
      have hnul : some nul ≠ some c := fun h => hp.1 (Option.some.inj h).symm
      have hnone : none ≠ some c := fun h => by cases h
      rw [likePieces_plain hnul, likePieces_plain hnone, ih hp.2]

theorem escapesRead_nul {behind : Bool} (hp : ∀ c ∈ pattern, NonNul c) :
    EscapesRead nul behind pattern := by
  induction pattern generalizing behind with
  | nil => cases behind <;> trivial
  | cons c rest ih =>
      rw [List.forall_mem_cons] at hp
      exact (escapesRead_plain hp.1 rest).mpr (ih hp.2)

theorem char_nul_mem_likePieces (h : nul ∈ pattern) (hesc : escape ≠ some nul) :
    .char nul ∈ likePieces escape pattern := by
  have hplain : plainPiece nul = .char nul := plainPiece_of_ne (by decide) (by decide)
  fun_induction likePieces escape pattern with
  | case1 => cases h
  | case2 c hc =>
      obtain rfl := List.mem_singleton.mp h
      exact absurd hc hesc
  | case3 c hc =>
      obtain rfl := List.mem_singleton.mp h
      exact List.mem_singleton.mpr hplain.symm
  | case4 c d rest hc ih =>
      rcases List.mem_cons.mp h with rfl | h
      · exact absurd hc hesc
      rcases List.mem_cons.mp h with rfl | h
      · exact List.mem_cons_self
      · exact List.mem_cons_of_mem _ (ih h)
  | case5 c d rest hc ih =>
      rcases List.mem_cons.mp h with rfl | h
      · exact hplain ▸ List.mem_cons_self
      · exact List.mem_cons_of_mem _ (ih h)

theorem likePieces_append (hfront : ∀ c ∈ front, NonNul c) :
    likePieces (some nul) (front ++ rest) =
      likePieces (some nul) front ++ likePieces (some nul) rest := by
  induction front with
  | nil => rfl
  | cons c front ih =>
      rw [List.forall_mem_cons] at hfront
      have hnul : some nul ≠ some c := fun h => hfront.1 (Option.some.inj h).symm
      rw [List.cons_append, likePieces_plain hnul, likePieces_plain hnul, ih hfront.2]
      rfl

/-- A pattern with a NUL is read up to there, and has the texts that the matcher finds only if it
has none at all. -/
theorem void_of_nul (h : nul ∈ pattern) (hagree : AgreeOn NonNul
      ((readPieces (escape.getD nul) false (beforeNul pattern)).map likeToken)
      ((likePieces escape pattern).map likeToken)) : Void NonNul (likePieces escape pattern) := by
  by_cases hesc : escape = some nul
  · subst hesc
    by_contra hvoid
    obtain ⟨front, rest, rfl, hfront⟩ := List.eq_append_cons_of_mem h
    have hfront : ∀ c ∈ front, NonNul c := fun c hc => by
      rintro rfl
      exact hfront hc
    rw [Option.getD_some, beforeNul_append hfront,
      readPieces_of_escapesRead (escapesRead_nul hfront)] at hagree
    have htext := (exists_text_iff likeness_like fun _ => id).mpr
      ((not_congr (void_of_agree likeness_like (fun _ => id) hagree)).mpr hvoid)
    obtain ⟨s, hs, hmatch⟩ := htext
    have hlen := (hagree.singles hs hmatch).length_eq
    rw [likePieces_append hfront, List.map_append, singles_append, List.length_append] at hlen
    cases rest with
    | nil =>
        exact hvoid ⟨.broken, by rw [likePieces_append hfront, likePieces_dangling]; simp, trivial⟩
    | cons d rest =>
        rw [likePieces_escape] at hlen
        have hone : (singles ((Piece.char d :: likePieces (some nul) rest).map likeToken)).length =
          (singles ((likePieces (some nul) rest).map likeToken)).length + 1 := rfl
        omega
  · exact ⟨.char nul, char_nul_mem_likePieces h hesc, fun hnul => hnul rfl⟩

theorem agree_like_iff (escape : Option Char) (pattern : List Char) :
    AgreeOn NonNul ((readPieces (escape.getD nul) false (beforeNul pattern)).map likeToken)
        ((likePieces escape pattern).map likeToken) ↔
      ((∀ c ∈ pattern, NonNul c) ∧ EscapesRead (escape.getD nul) false pattern) ∨
        Void NonNul (likePieces escape pattern) ∧
          Void NonNul (readPieces (escape.getD nul) false (beforeNul pattern)) := by
  have hsome (hp : ∀ c ∈ pattern, NonNul c) :
      likePieces escape pattern = likePieces (some (escape.getD nul)) pattern := by
    cases escape with
    | none => exact (likePieces_nul hp).symm
    | some e => rfl
  constructor
  · intro h
    by_cases hvoid : Void NonNul (likePieces escape pattern)
    · exact .inr ⟨hvoid, (void_of_agree likeness_like (fun _ => id) h).mpr hvoid⟩
    · have hp : ∀ c ∈ pattern, NonNul c := by
        rintro c hc rfl
        exact hvoid (void_of_nul hc h)
      rw [beforeNul_eq_self hp, hsome hp] at h
      rw [hsome hp] at hvoid
      exact .inl ⟨hp, escapesRead_of_agree hvoid h⟩
  · rintro (⟨hp, hread⟩ | ⟨hpieces, htaken⟩)
    · rw [beforeNul_eq_self hp, readPieces_of_escapesRead hread, hsome hp]
      exact .refl _ _
    · exact agreeOn_of_void likeness_like (fun _ => id) hpieces htaken

theorem matches_any_nil (h : ∀ piece ∈ pieces, piece = .any) :
    Matches (pieces.map (Piece.token same)) [] := by
  induction pieces with
  | nil => exact .nil
  | cons piece pieces ih =>
      rw [List.forall_mem_cons] at h
      rw [h.1]
      exact .stop (ih h.2)

theorem agreeOn_last_run (h : ∀ piece ∈ pieces, piece = .any) :
    AgreeOn ok [.run fun _ => True] ((.any :: pieces).map (Piece.token same)) := by
  intro s _
  refine iff_of_true (matches_all s) ?_
  exact matches_run_iff.mpr ⟨s, [], (List.append_nil s).symm, fun _ _ => trivial,
    matches_any_nil h⟩

theorem stripRun_of_any {escape : Char}
    (h : ∀ piece ∈ likePieces (some escape) pattern, piece = .any) :
    stripRun likeInfo pattern = (0, []) := by
  induction pattern with
  | nil => rfl
  | cons c rest ih =>
      by_cases hc : c = escape
      · subst hc
        cases rest with
        | nil =>
            rw [likePieces_dangling, List.forall_mem_singleton] at h
            cases h
        | cons d rest =>
            rw [likePieces_escape, List.forall_mem_cons] at h
            cases h.1
      · have hesc : some escape ≠ some c := fun h => hc (Option.some.inj h).symm
        rw [likePieces_plain hesc, List.forall_mem_cons, plainPiece] at h
        have hall : c = '%' := by
          by_contra hall
          have hany := h.1
          rw [if_neg hall] at hany
          split_ifs at hany
        have hall : c = likeInfo.matchAll := hall
        rw [stripRun, if_pos hall]
        exact ih h.2

/-- Where nothing takes a NUL but a run at the end, the matcher finds the texts with a NUL too. -/
theorem agreeOn_reading_safe {escape : Char} (hfuel : pattern.length < fuel)
    (hread : EscapesRead escape false pattern)
    (hsafe : NulSafe (likePieces (some escape) pattern)) :
    AgreeOn (fun _ => True) (reading likeInfo escape fuel pattern)
      ((likePieces (some escape) pattern).map likeToken) := by
  induction fuel generalizing pattern with
  | zero => omega
  | succ fuel ih =>
      cases pattern with
      | nil => exact .refl _ _
      | cons c rest =>
          rw [List.length_cons] at hfuel
          by_cases hesc : c = escape
          · subst hesc
            cases rest with
            | nil => exact absurd rfl hread
            | cons d rest =>
                obtain ⟨hall, -, hrest⟩ := (escapesRead_escape d rest).mp hread
                rw [List.length_cons] at hfuel
                rw [likePieces_escape] at hsafe ⊢
                rw [reading_escape hall rfl]
                exact .cons (fun e _ => sameChar_like) (ih (by omega) hrest hsafe.tail)
          have hplain : some escape ≠ some c := fun h => hesc (Option.some.inj h).symm
          rw [likePieces_plain hplain] at hsafe ⊢
          by_cases hall : c = '%'
          · subst hall
            have hany := hsafe.runs [] _ rfl
            have hstrip := stripRun_of_any hany
            rw [show '%' = likeInfo.matchAll from rfl, reading_run_end (by rw [hstrip]), hstrip]
            exact agreeOn_last_run hany
          · have hrest := (escapesRead_plain hesc rest).mp hread
            have hfalse : (decide (c = '%') || false && decide (c = '_')) = false := by
              simp [hall]
            rw [hfalse] at hrest
            have hone : c ≠ '_' := by
              rintro rfl
              exact hsafe.kinds .one List.mem_cons_self trivial
            rw [reading_plain hall hesc]
            refine .cons ?_ (ih (by omega) hrest hsafe.tail)
            rw [plainPiece_of_ne hall hone]
            exact fun e _ => (or_iff_left fun h => hone h.1).trans sameChar_like

/-! ## What LIKE returns -/

theorem boolVal_eq_one {b : Bool} : boolVal b = .int 1 ↔ b = true := by
  cases b <;> simp [boolVal]

/-- LIKE is true on just the texts of the language. -/
def LikeRight (n : Numerals) (p : String) (escape : Option Char) (t : String) : Prop :=
  like n (.text p) (.text t) (escape.map fun c => .text (String.ofList [c])) = .ok (.int 1) ↔
    LikeLanguage escape p.toList t.toList

theorem like_text (n : Numerals) (p t : String) (escape : Option Char) :
    like n (.text p) (.text t) (escape.map fun c => .text (String.ofList [c])) =
      .ok (boolVal (patternCompare p.toList t.toList likeInfo (escape.getD nul))) := by
  cases escape with
  | none => rfl
  | some c => simp [like, toText, parseEscape]

theorem likeRight_iff (n : Numerals) (p : String) (escape : Option Char) (t : String) :
    LikeRight n p escape t ↔
      (Matches (reading likeInfo (escape.getD nul) (p.toList.length + 1) (beforeNul p.toList))
          t.toList ↔
        Matches ((likePieces escape p.toList).map likeToken) t.toList) := by
  rw [LikeRight, like_text, Except.ok.injEq, boolVal_eq_one,
    patternCompare_iff (by decide) (by decide)]
  rfl

theorem forall_texts (ok : Char → Prop) (Q : List Char → Prop) :
    (∀ t : String, (∀ c ∈ t.toList, ok c) → Q t.toList) ↔
      ∀ s : List Char, (∀ c ∈ s, ok c) → Q s := by
  constructor
  · intro h s hs
    have htext := h (String.ofList s)
    rw [String.toList_ofList] at htext
    exact htext hs
  · exact fun h t => h t.toList

theorem length_beforeNul (pattern : List Char) :
    (beforeNul pattern).length < pattern.length + 1 :=
  Nat.lt_succ_of_le (List.takeWhile_prefix _).length_le

theorem likeRight_agree (n : Numerals) (p : String) (escape : Option Char) (ok : Char → Prop) :
    (∀ t : String, (∀ c ∈ t.toList, ok c) → LikeRight n p escape t) ↔
      AgreeOn ok
        (reading likeInfo (escape.getD nul) (p.toList.length + 1) (beforeNul p.toList))
        ((likePieces escape p.toList).map likeToken) := by
  simp only [likeRight_iff]
  exact forall_texts ok fun s =>
    Matches (reading likeInfo (escape.getD nul) (p.toList.length + 1) (beforeNul p.toList)) s ↔
      Matches ((likePieces escape p.toList).map likeToken) s

theorem likeRight_nulFree_iff (n : Numerals) (p : String) (escape : Option Char) :
    (∀ t, NulFree t → LikeRight n p escape t) ↔
      (NulFree p ∧ EscapesRead (escape.getD nul) false p.toList) ∨
        Void NonNul (likePieces escape p.toList) ∧
          Void NonNul (readPieces (escape.getD nul) false (beforeNul p.toList)) := by
  have hread := @agreeOn_reading_like NonNul (escape.getD nul) (fun _ => id) _ _
    (length_beforeNul p.toList)
  refine (likeRight_agree n p escape NonNul).trans ?_
  exact hread.congr_left.trans (agree_like_iff escape p.toList)

theorem likeRight_all_iff (n : Numerals) (p : String) (escape : Option Char) :
    (∀ t, LikeRight n p escape t) ↔
      (NulFree p ∧ EscapesRead (escape.getD nul) false p.toList) ∧
          NulSafe (likePieces escape p.toList) ∨
        Void (fun _ => True) (likePieces escape p.toList) ∧
          Void NonNul (readPieces (escape.getD nul) false (beforeNul p.toList)) := by
  have hread := @agreeOn_reading_like NonNul (escape.getD nul) (fun _ => id) _ _
    (length_beforeNul p.toList)
  have hlast := lastRunOnly_reading likeInfo (escape.getD nul) (p.toList.length + 1)
    (nonNul_beforeNul p.toList)
  have htexts := likeRight_agree n p escape fun _ => True
  simp only [implies_true, forall_const] at htexts
  refine htexts.trans (agree_all_iff likeness_like hlast hread
    (hread.congr_left.trans (agree_like_iff escape p.toList)) ?_)
  rintro ⟨hp, hescapes⟩ hsafe
  have hsome : likePieces escape p.toList = likePieces (some (escape.getD nul)) p.toList := by
    cases escape with
    | none => exact (likePieces_nul hp).symm
    | some e => rfl
  rw [beforeNul_eq_self hp]
  rw [hsome] at hsafe ⊢
  exact agreeOn_reading_safe (Nat.lt_succ_self _) hescapes hsafe

/-! ## Sets -/

/-- A range that runs backwards begins with a character that is in the set anyway. -/
def CharSet.Forward (set : CharSet) : Prop :=
  ∀ x y, .range x y ∈ set.items → y < x → ∃ item ∈ set.items, item.Has x

theorem SetItem.takes_iff {item : SetItem} :
    item.takes c = true ↔ item.Has c ∨ ∃ y, item = .range c y := by
  cases item with
  | single x => simp [SetItem.takes, SetItem.Has]
  | range x y =>
      simp only [SetItem.takes, SetItem.Has, Bool.or_eq_true, Bool.and_eq_true, decide_eq_true_eq,
        SetItem.range.injEq]
      constructor
      · rintro (rfl | h)
        · exact .inr ⟨y, rfl, rfl⟩
        · exact .inl h
      · rintro (h | ⟨y, rfl, -⟩)
        · exact .inr h
        · exact .inl rfl

theorem CharSet.widen_has_iff (set : CharSet) (c : Char) : (set.widen.Has c ↔ set.Has c) ↔
    ((∃ y, .range c y ∈ set.items) → ∃ item ∈ set.items, item.Has c) := by
  have hwiden : (∃ item ∈ set.widen.items, item.Has c) ↔
      (∃ item ∈ set.items, item.Has c) ∨ ∃ y, .range c y ∈ set.items := by
    rw [← set.any_takes_iff, List.any_eq_true]
    simp only [SetItem.takes_iff, and_or_left, exists_or]
    refine or_congr_right ⟨?_, ?_⟩
    · rintro ⟨item, hitem, y, rfl⟩
      exact ⟨y, hitem⟩
    · rintro ⟨y, hitem⟩
      exact ⟨_, hitem, y, rfl⟩
  have hmember : (set.widen.Has c ↔ set.Has c) ↔
      ((∃ item ∈ set.widen.items, item.Has c) ↔ ∃ item ∈ set.items, item.Has c) := by
    have hinvert : set.widen.invert = set.invert := rfl
    rw [CharSet.Has, CharSet.Has, hinvert]
    cases set.invert with
    | false => rfl
    | true =>
        have hnot (items : List SetItem) :
            (∀ item ∈ items, ¬item.Has c) ↔ ¬∃ item ∈ items, item.Has c := by simp
        rw [if_pos rfl, if_pos rfl, hnot, hnot, not_iff_not]
  rw [hmember, hwiden, or_iff_left_iff_imp]

theorem CharSet.forward_of_agree (h : ∀ c, NonNul c → (set.widen.Has c ↔ set.Has c)) :
    set.Forward := by
  intro x y hitem hlt
  have hx : NonNul x := by
    rintro rfl
    exact absurd hlt (by simp [nul, Char.le_def])
  exact (set.widen_has_iff x).mp (h x hx) ⟨y, hitem⟩

theorem CharSet.Forward.agree (h : set.Forward) (c : Char) : set.widen.Has c ↔ set.Has c := by
  refine (set.widen_has_iff c).mpr ?_
  rintro ⟨y, hitem⟩
  rcases le_or_gt c y with hle | hlt
  · exact ⟨_, hitem, Char.le_refl c, hle⟩
  · exact h c y hitem hlt

theorem setItems_close (rest : List Char) : setItems (']' :: rest) = some ([], rest) := by
  rcases rest with _ | ⟨d, _ | ⟨y, rest⟩⟩ <;> simp [setItems]

theorem setItems_append {r : List SetItem × List Char} (h : setItems pattern = some r)
    (more : List Char) : setItems (pattern ++ more) = some (r.1, r.2 ++ more) := by
  fun_induction setItems pattern generalizing r with
  | case1 d y rest =>
      cases h
      exact setItems_close _
  | case2 x d y rest hx hrange ih =>
      obtain ⟨r', hr', rfl⟩ := Option.map_eq_some_iff.mp h
      rw [List.cons_append, List.cons_append, List.cons_append, setItems, if_neg hx, if_pos hrange,
        ih hr']
      rfl
  | case3 x d y rest hx hrange ih =>
      obtain ⟨r', hr', rfl⟩ := Option.map_eq_some_iff.mp h
      rw [List.cons_append, List.cons_append, List.cons_append, setItems, if_neg hx,
        if_neg hrange]
      rw [show d :: y :: (rest ++ more) = d :: y :: rest ++ more from rfl, ih hr']
      rfl
  | case4 rest hshort =>
      cases h
      exact setItems_close _
  | case5 x rest hshort hx ih =>
      obtain ⟨r', hr', rfl⟩ := Option.map_eq_some_iff.mp h
      rcases rest with _ | ⟨d, _ | ⟨y, rest⟩⟩
      · cases hr'
      · have hd : d = ']' := by
          by_contra hd
          simp [setItems, hd] at hr'
        subst hd
        obtain rfl : r' = ([], []) := Option.some.inj (hr'.symm.trans (setItems_close []))
        cases more with
        | nil => simp [setItems, hx]
        | cons m more =>
            rw [List.cons_append, List.cons_append, List.nil_append, setItems, if_neg hx,
              if_neg (by simp), setItems_close]
            rfl
      · exact absurd rfl (hshort _ _ _)
  | case6 => cases h

theorem parseSet_append (h : parseSet pattern = some (set, rest)) (more : List Char) :
    parseSet (pattern ++ more) = some (set, rest ++ more) := by
  have hbody {invert : Bool} {pattern : List Char}
      (h : (setItems (if pattern.head? = some ']' then ([SetItem.single ']'], pattern.tail)
          else ([], pattern)).2).map (fun r => (CharSet.mk invert
            ((if pattern.head? = some ']' then ([SetItem.single ']'], pattern.tail)
              else ([], pattern)).1 ++ r.1), r.2)) = some (set, rest)) :
      (setItems (if (pattern ++ more).head? = some ']' then
            ([SetItem.single ']'], (pattern ++ more).tail)
          else ([], pattern ++ more)).2).map (fun r => (CharSet.mk invert
            ((if (pattern ++ more).head? = some ']' then
                ([SetItem.single ']'], (pattern ++ more).tail)
              else ([], pattern ++ more)).1 ++ r.1), r.2)) = some (set, rest ++ more) := by
    cases pattern with
    | nil => cases h
    | cons c pattern =>
        rw [List.cons_append, List.head?_cons, List.tail_cons]
        rw [List.head?_cons, List.tail_cons] at h
        split_ifs at h ⊢ with hclose
        · obtain ⟨r, hr, heq⟩ := Option.map_eq_some_iff.mp h
          cases heq
          rw [setItems_append hr more]
          rfl
        · obtain ⟨r, hr, heq⟩ := Option.map_eq_some_iff.mp h
          cases heq
          rw [show c :: (pattern ++ more) = c :: pattern ++ more from rfl, setItems_append hr more]
          rfl
  rw [parseSet] at h ⊢
  cases pattern with
  | nil => cases h
  | cons c pattern =>
      rw [List.cons_append, List.head?_cons, List.tail_cons]
      rw [List.head?_cons, List.tail_cons] at h
      by_cases hcaret : some c = some '^'
      · rw [if_pos hcaret] at h ⊢
        exact hbody h
      · rw [if_neg hcaret] at h ⊢
        exact @hbody false (c :: pattern) h

/-! ## GLOB -/

theorem map_globToken (pieces : List Piece) :
    pieces.map globToken = (pieces.map Piece.widen).map (Piece.token Eq) :=
  (List.map_map).symm

theorem char_nul_mem_globPieces (h : .broken ∉ globPieces front) (rest : List Char) :
    .char nul ∈ globPieces (front ++ nul :: rest) := by
  induction hn : front.length using Nat.strong_induction_on generalizing front with
  | _ n ih =>
  subst hn
  cases front with
  | nil =>
      rw [List.nil_append, globPieces_char (by decide) (by decide) (by decide)]
      exact List.mem_cons_self
  | cons c front =>
  have ih {front' : List Char} (hlt : front'.length < (c :: front).length)
      (h : .broken ∉ globPieces front') := ih front'.length hlt h rfl
  rw [List.cons_append]
  by_cases hall : c = '*'
  · subst hall
    rw [globPieces_any] at h ⊢
    exact List.mem_cons_of_mem _ (ih (Nat.lt_succ_self _) (List.not_mem_of_not_mem_cons h))
  by_cases hone : c = '?'
  · subst hone
    rw [globPieces_one] at h ⊢
    exact List.mem_cons_of_mem _ (ih (Nat.lt_succ_self _) (List.not_mem_of_not_mem_cons h))
  by_cases hset : c = '['
  · subst hset
    cases hparse : parseSet front with
    | none =>
        rw [globPieces_broken hparse] at h
        exact absurd (List.mem_singleton_self _) h
    | some r =>
        obtain ⟨set, behind⟩ := r
        rw [globPieces_set hparse] at h
        rw [globPieces_set (parseSet_append hparse _)]
        have hlt := Nat.lt_succ_of_lt (parseSet_suffix hparse).2
        exact List.mem_cons_of_mem _ (ih hlt (List.not_mem_of_not_mem_cons h))
  · rw [globPieces_char hall hone hset] at h ⊢
    exact List.mem_cons_of_mem _ (ih (Nat.lt_succ_self _) (List.not_mem_of_not_mem_cons h))

theorem agreeOn_widen (h : ∀ set, .set set ∈ pieces → set.Forward) :
    AgreeOn ok ((pieces.map Piece.widen).map (Piece.token Eq))
      (pieces.map (Piece.token Eq)) := by
  induction pieces with
  | nil => exact .refl _ _
  | cons piece pieces ih =>
      have hrest := ih fun set hmem => h set (List.mem_cons_of_mem _ hmem)
      refine .cons ?_ hrest
      cases piece with
      | any | one | char c | broken => exact .refl _ _
      | set set => exact fun c _ => (h set List.mem_cons_self).agree c

theorem forward_of_kinds
    (h : KindsAgree NonNul (singles ((pieces.map Piece.widen).map (Piece.token Eq)))
      (singles (pieces.map (Piece.token Eq)))) : ∀ set, .set set ∈ pieces → set.Forward := by
  induction pieces with
  | nil => simp
  | cons piece pieces ih =>
      intro set hmem
      cases piece with
      | any => exact ih h set (List.mem_of_ne_of_mem (by simp) hmem)
      | one | char c | broken =>
          exact ih (kindsAgree_cons.mp h).2 set (List.mem_of_ne_of_mem (by simp) hmem)
      | set set' =>
          obtain ⟨hset, hrest⟩ := kindsAgree_cons.mp h
          rcases List.mem_cons.mp hmem with heq | hmem
          · cases heq
            exact CharSet.forward_of_agree hset
          · exact ih hrest set hmem

theorem agree_glob_iff (pattern : List Char) :
    AgreeOn NonNul (((globPieces (beforeNul pattern)).map Piece.widen).map (Piece.token Eq))
        ((globPieces pattern).map (Piece.token Eq)) ↔
      ((∀ c ∈ pattern, NonNul c) ∧ ∀ set, .set set ∈ globPieces pattern → set.Forward) ∨
        Void NonNul (globPieces pattern) ∧
          Void NonNul ((globPieces (beforeNul pattern)).map Piece.widen) := by
  constructor
  · intro h
    by_cases hvoid : Void NonNul (globPieces pattern)
    · exact .inr ⟨hvoid, (void_of_agree likeness_eq (fun _ => id) h).mpr hvoid⟩
    have hread := (not_congr (void_of_agree likeness_eq (fun _ => id) h)).mpr hvoid
    have hp : ∀ c ∈ pattern, NonNul c := by
      rintro c hc rfl
      obtain ⟨front, rest, rfl, hfront⟩ := List.eq_append_cons_of_mem hc
      have hfront : ∀ c ∈ front, NonNul c := fun c hc => by
        rintro rfl
        exact hfront hc
      rw [beforeNul_append hfront] at hread
      have hbroken : .broken ∉ globPieces front := fun hmem =>
        hread ⟨.broken, List.mem_map.mpr ⟨.broken, hmem, rfl⟩, trivial⟩
      exact hvoid ⟨.char nul, char_nul_mem_globPieces hbroken rest, fun hnul => hnul rfl⟩
    obtain ⟨s, hs, htext⟩ := (exists_text_iff likeness_eq fun _ => id).mpr hread
    have hkinds := h.singles hs htext
    rw [beforeNul_eq_self hp] at hkinds
    exact .inl ⟨hp, forward_of_kinds hkinds⟩
  · rintro (⟨hp, hsets⟩ | ⟨hpieces, htaken⟩)
    · rw [beforeNul_eq_self hp]
      exact agreeOn_widen hsets
    · exact agreeOn_of_void likeness_eq (fun _ => id) hpieces htaken

theorem stripRun_of_any_glob (h : ∀ piece ∈ globPieces pattern, piece = .any) :
    stripRun globInfo pattern = (0, []) := by
  induction pattern with
  | nil => rfl
  | cons c rest ih =>
      have hall : c = globInfo.matchAll := by
        by_contra hall
        by_cases hone : c = '?'
        · rw [hone, globPieces_one, List.forall_mem_cons] at h
          cases h.1
        by_cases hset : c = '['
        · subst hset
          cases hparse : parseSet rest with
          | none =>
              rw [globPieces_broken hparse, List.forall_mem_singleton] at h
              cases h
          | some r =>
              rw [globPieces_set hparse, List.forall_mem_cons] at h
              cases h.1
        · rw [globPieces_char hall hone hset, List.forall_mem_cons] at h
          cases h.1
      rw [stripRun, if_pos hall]
      have hall : c = '*' := hall
      rw [hall, globPieces_any, List.forall_mem_cons] at h
      exact ih h.2

theorem agreeOn_reading_glob_safe (hfuel : pattern.length < fuel)
    (hsets : ∀ set, .set set ∈ globPieces pattern → set.Forward)
    (hsafe : NulSafe (globPieces pattern)) :
    AgreeOn (fun _ => True) (reading globInfo '[' fuel pattern)
      ((globPieces pattern).map (Piece.token Eq)) := by
  induction fuel generalizing pattern with
  | zero => omega
  | succ fuel ih =>
      cases pattern with
      | nil =>
          rw [globPieces_nil]
          exact .refl _ _
      | cons c rest =>
          rw [List.length_cons] at hfuel
          by_cases hall : c = '*'
          · subst hall
            rw [globPieces_any] at hsafe ⊢
            have hany := hsafe.runs [] _ rfl
            have hstrip := stripRun_of_any_glob hany
            rw [show '*' = globInfo.matchAll from rfl, reading_run_end (by rw [hstrip]), hstrip]
            exact agreeOn_last_run hany
          by_cases hset : c = '['
          · subst hset
            rw [reading_set hall rfl]
            cases hparse : parseSet rest with
            | none =>
                rw [globPieces_broken hparse]
                exact .refl _ _
            | some r =>
                obtain ⟨set, behind⟩ := r
                have hlen := (parseSet_suffix hparse).2
                rw [globPieces_set hparse] at hsets hsafe ⊢
                refine .cons (fun c _ => ?_) (ih (by omega)
                  (fun set' hmem => hsets set' (List.mem_cons_of_mem _ hmem)) hsafe.tail)
                have htakes := (set.takes_iff c).trans ((hsets set List.mem_cons_self).agree c)
                refine (and_congr_right fun _ => htakes).trans (and_iff_right_of_imp fun hhas => ?_)
                rintro rfl
                exact hsafe.kinds (.set set) List.mem_cons_self hhas
          have hone : c ≠ '?' := by
            rintro rfl
            rw [globPieces_one] at hsafe
            exact hsafe.kinds .one List.mem_cons_self trivial
          rw [globPieces_char hall hone hset] at hsets hsafe ⊢
          rw [reading_plain hall hset]
          exact .cons (fun d _ => (or_iff_left fun h => hone h.1).trans sameChar_glob)
            (ih (by omega) (fun set' hmem => hsets set' (List.mem_cons_of_mem _ hmem)) hsafe.tail)

/-! ## What GLOB returns -/

/-- GLOB is true on just the texts of the language. -/
def GlobRight (n : Numerals) (p t : String) : Prop :=
  glob n (.text p) (.text t) = .int 1 ↔ GlobLanguage p.toList t.toList

theorem globRight_agree (n : Numerals) (p : String) (ok : Char → Prop) :
    (∀ t : String, (∀ c ∈ t.toList, ok c) → GlobRight n p t) ↔
      AgreeOn ok (reading globInfo '[' (p.toList.length + 1) (beforeNul p.toList))
        ((globPieces p.toList).map (Piece.token Eq)) := by
  have hiff (t : String) : GlobRight n p t ↔
      (Matches (reading globInfo '[' (p.toList.length + 1) (beforeNul p.toList)) t.toList ↔
        Matches ((globPieces p.toList).map (Piece.token Eq)) t.toList) := by
    have hglob : glob n (.text p) (.text t) =
      boolVal (patternCompare p.toList t.toList globInfo '[') := rfl
    rw [GlobRight, hglob, boolVal_eq_one, patternCompare_iff (by decide) (by decide)]
    rfl
  simp only [hiff]
  exact forall_texts ok fun s =>
    Matches (reading globInfo '[' (p.toList.length + 1) (beforeNul p.toList)) s ↔
      Matches ((globPieces p.toList).map (Piece.token Eq)) s

theorem globRight_nulFree_iff (n : Numerals) (p : String) :
    (∀ t, NulFree t → GlobRight n p t) ↔
      (NulFree p ∧ ∀ set, .set set ∈ globPieces p.toList → set.Forward) ∨
        Void NonNul (globPieces p.toList) ∧
          Void NonNul ((globPieces (beforeNul p.toList)).map Piece.widen) := by
  have hread := @agreeOn_reading_glob NonNul (fun _ => id) _ _ (length_beforeNul p.toList)
  rw [map_globToken] at hread
  exact (globRight_agree n p NonNul).trans (hread.congr_left.trans (agree_glob_iff p.toList))

theorem globRight_all_iff (n : Numerals) (p : String) :
    (∀ t, GlobRight n p t) ↔
      (NulFree p ∧ ∀ set, .set set ∈ globPieces p.toList → set.Forward) ∧
          NulSafe (globPieces p.toList) ∨
        Void (fun _ => True) (globPieces p.toList) ∧
          Void NonNul ((globPieces (beforeNul p.toList)).map Piece.widen) := by
  have hread := @agreeOn_reading_glob NonNul (fun _ => id) _ _ (length_beforeNul p.toList)
  rw [map_globToken] at hread
  have hlast := lastRunOnly_reading globInfo '[' (p.toList.length + 1)
    (nonNul_beforeNul p.toList)
  have htexts := globRight_agree n p fun _ => True
  simp only [implies_true, forall_const] at htexts
  refine htexts.trans (agree_all_iff likeness_eq hlast hread
    (hread.congr_left.trans (agree_glob_iff p.toList)) ?_)
  rintro ⟨hp, hsets⟩ hsafe
  rw [beforeNul_eq_self hp]
  exact agreeOn_reading_glob_safe (Nat.lt_succ_self _) hsets hsafe

theorem not_void_readPieces_nul (hp : ∀ c ∈ pattern, NonNul c) :
    ¬Void NonNul (readPieces nul false pattern) := by
  rw [readPieces_of_escapesRead (escapesRead_nul hp)]
  rintro ⟨piece, hpiece, hempty⟩
  induction pattern with
  | nil => cases hpiece
  | cons c rest ih =>
      rw [List.forall_mem_cons] at hp
      have hnul : some nul ≠ some c := fun h => hp.1 (Option.some.inj h).symm
      rw [likePieces_plain hnul] at hpiece
      rcases List.mem_cons.mp hpiece with rfl | hpiece
      · rw [plainPiece] at hempty
        split_ifs at hempty
        · exact hempty
        · exact hempty
        · exact hempty hp.1
      · exact ih hp.2 hpiece

/--
LIKE without an escape decides the patterns without a NUL over the texts without
a NUL, and over all texts those in which nothing takes a NUL but a `%` at the
end.  GLOB does so where a range that runs backwards begins with a character
that is in the set anyway; and where the pattern has no text, neither as it is
meant nor as it is read.
-/
theorem like_glob_language (n : Numerals) (p : String) :
    ((∀ t, LikeRight n p none t) ↔ NulFree p ∧ NulSafe (likePieces none p.toList)) ∧
      ((∀ t, NulFree t → LikeRight n p none t) ↔ NulFree p) ∧
      ((∀ t, GlobRight n p t) ↔
        (NulFree p ∧ ∀ set, .set set ∈ globPieces p.toList → set.Forward) ∧
            NulSafe (globPieces p.toList) ∨
          Void (fun _ => True) (globPieces p.toList) ∧
            Void NonNul ((globPieces (beforeNul p.toList)).map Piece.widen)) ∧
      ((∀ t, NulFree t → GlobRight n p t) ↔
        (NulFree p ∧ ∀ set, .set set ∈ globPieces p.toList → set.Forward) ∨
          Void NonNul (globPieces p.toList) ∧
            Void NonNul ((globPieces (beforeNul p.toList)).map Piece.widen)) := by
  have htext := not_void_readPieces_nul (nonNul_beforeNul p.toList)
  have hescapes : NulFree p ∧ EscapesRead nul false p.toList ↔ NulFree p :=
    and_iff_left_of_imp escapesRead_nul
  refine ⟨(likeRight_all_iff n p none).trans ?_, (likeRight_nulFree_iff n p none).trans ?_,
    globRight_all_iff n p, globRight_nulFree_iff n p⟩
  · exact (or_iff_left fun h => htext h.2).trans (and_congr_left fun _ => hescapes)
  · exact (or_iff_left fun h => htext h.2).trans hescapes

/-- `_` is for one character, and a NUL is one; `[c-a]` is for none. -/
theorem like_glob_wrong :
    ¬(patternCompare ['_'] [nul] likeInfo nul = true ↔ LikeLanguage none ['_'] [nul]) ∧
      ¬(patternCompare ['[', 'c', '-', 'a', ']'] ['c'] globInfo '[' = true ↔
        GlobLanguage ['[', 'c', '-', 'a', ']'] ['c']) := by
  constructor
  · intro h
    have hmatch : LikeLanguage none ['_'] [nul] := .one trivial .nil
    exact absurd (h.mpr hmatch) (by decide)
  · intro h
    have hmatch := h.mp (by decide)
    have hparse : parseSet ['c', '-', 'a', ']'] = some (⟨false, [.range 'c' 'a']⟩, []) := by decide
    rw [GlobLanguage, globPieces_set hparse, globPieces_nil] at hmatch
    obtain ⟨item, hitem, hhas⟩ := (matches_one_cons.mp hmatch).1
    rw [List.mem_singleton.mp hitem] at hhas
    exact absurd hhas.2 (by decide)

/--
LIKE with an escape decides, over the texts without a NUL, the patterns without a
NUL whose escapes the matcher takes as they are meant, and those that have no
text either way; over all texts nothing may take a NUL besides but a `%` at the
end.
-/
theorem like_escape_language (n : Numerals) (p : String) (escape : Char) :
    ((∀ t, LikeRight n p (some escape) t) ↔
        (NulFree p ∧ EscapesRead escape false p.toList) ∧
            NulSafe (likePieces (some escape) p.toList) ∨
          Void (fun _ => True) (likePieces (some escape) p.toList) ∧
            Void NonNul (readPieces escape false (beforeNul p.toList))) ∧
      ((∀ t, NulFree t → LikeRight n p (some escape) t) ↔
        (NulFree p ∧ EscapesRead escape false p.toList) ∨
          Void NonNul (likePieces (some escape) p.toList) ∧
            Void NonNul (readPieces escape false (beforeNul p.toList))) :=
  ⟨likeRight_all_iff n p (some escape), likeRight_nulFree_iff n p (some escape)⟩

/-- Behind `%` an escaped `%` is a wildcard, though it is only for itself. -/
theorem like_escape_wrong : ¬(patternCompare ['%', '\\', '%'] ['a'] likeInfo '\\' = true ↔
    LikeLanguage (some '\\') ['%', '\\', '%'] ['a']) := by
  intro h
  have hmatch := h.mp (by decide)
  simp [LikeLanguage, likePieces, plainPiece, Piece.token, matches_run_cons] at hmatch

end Rustqlite.Func
