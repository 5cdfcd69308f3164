import Mathlib.Tactic

/-!
# Wildcard patterns

A pattern is a list of tokens, each of them for one symbol of a kind or for a
run of such symbols, and its language is the set of the texts that fit.
-/

namespace Rustqlite.Foundation.Wildcards

variable {α : Type}

inductive Token (α : Type) where
  | one (p : α → Prop)
  | run (p : α → Prop)

inductive Matches : List (Token α) → List α → Prop
  | nil : Matches [] []
  | one {p : α → Prop} {ts : List (Token α)} {c : α} {s : List α} :
      p c → Matches ts s → Matches (.one p :: ts) (c :: s)
  | stop {p : α → Prop} {ts : List (Token α)} {s : List α} :
      Matches ts s → Matches (.run p :: ts) s
  | more {p : α → Prop} {ts : List (Token α)} {c : α} {s : List α} :
      p c → Matches (.run p :: ts) s → Matches (.run p :: ts) (c :: s)

variable {p q : α → Prop} {ts ts' : List (Token α)} {c : α} {s : List α}

@[simp] theorem matches_nil : Matches [] s ↔ s = [] := by
  constructor
  · intro h
    cases h
    rfl
  · rintro rfl
    exact .nil

@[simp] theorem matches_one_nil : ¬Matches (.one p :: ts) [] := by
  intro h
  cases h

@[simp] theorem matches_one_cons : Matches (.one p :: ts) (c :: s) ↔ p c ∧ Matches ts s := by
  constructor
  · rintro (_ | ⟨hc, hs⟩)
    exact ⟨hc, hs⟩
  · rintro ⟨hc, hs⟩
    exact .one hc hs

@[simp] theorem matches_run_nil : Matches (.run p :: ts) [] ↔ Matches ts [] := by
  constructor
  · rintro (_ | _ | hs)
    exact hs
  · exact .stop

theorem matches_run_cons : Matches (.run p :: ts) (c :: s) ↔
    Matches ts (c :: s) ∨ p c ∧ Matches (.run p :: ts) s := by
  constructor
  · intro h
    cases h with
    | stop hs => exact .inl hs
    | more hc hs => exact .inr ⟨hc, hs⟩
  · rintro (hs | ⟨hc, hs⟩)
    · exact .stop hs
    · exact .more hc hs

theorem matches_one_iff : Matches (.one p :: ts) s ↔ ∃ c s', s = c :: s' ∧ p c ∧ Matches ts s' := by
  cases s with
  | nil => simp
  | cons c s => simp

theorem matches_run_iff : Matches (.run p :: ts) s ↔
    ∃ u s', s = u ++ s' ∧ (∀ c ∈ u, p c) ∧ Matches ts s' := by
  induction s with
  | nil =>
      rw [matches_run_nil]
      constructor
      · intro h
        exact ⟨[], [], rfl, by simp, h⟩
      · rintro ⟨u, s', hsplit, -, h⟩
        obtain ⟨rfl, rfl⟩ := List.append_eq_nil_iff.mp hsplit.symm
        exact h
  | cons c s ih =>
      rw [matches_run_cons, ih]
      constructor
      · rintro (h | ⟨hc, u, s', rfl, hu, h⟩)
        · exact ⟨[], c :: s, rfl, by simp, h⟩
        · exact ⟨c :: u, s', rfl, List.forall_mem_cons.mpr ⟨hc, hu⟩, h⟩
      · rintro ⟨u, s', hsplit, hu, h⟩
        cases u with
        | nil =>
            rw [List.nil_append] at hsplit
            exact .inl (hsplit ▸ h)
        | cons d u =>
            obtain ⟨rfl, rfl⟩ := List.cons.inj hsplit
            rw [List.forall_mem_cons] at hu
            exact .inr ⟨hu.1, u, s', rfl, hu.2, h⟩

theorem matches_all (s : List α) : Matches [.run fun _ => True] s :=
  (matches_run_iff).mpr ⟨s, [], (List.append_nil s).symm, fun _ _ => trivial, .nil⟩

/-! ## Runs and what is behind them -/

theorem Matches.drop_one (hq : ∀ c, q c → p c) (h : Matches (.run p :: .one q :: ts) (c :: s)) :
    Matches (.run p :: ts) s := by
  obtain ⟨u, s', hsplit, hu, hrest⟩ := (matches_run_iff).mp h
  obtain ⟨d, s'', rfl, hd, hs⟩ := (matches_one_iff).mp hrest
  cases u with
  | nil =>
      obtain ⟨-, rfl⟩ := List.cons.inj hsplit
      exact .stop hs
  | cons e u =>
      obtain ⟨-, rfl⟩ := List.cons.inj hsplit
      rw [List.forall_mem_cons] at hu
      refine (matches_run_iff).mpr ⟨u ++ [d], s'', by simp, ?_, hs⟩
      exact List.forall_mem_append.mpr ⟨hu.2, List.forall_mem_singleton.mpr (hq d hd)⟩

theorem matches_run_one : Matches (.run p :: .one p :: ts) s ↔
    Matches (.one p :: .run p :: ts) s := by
  cases s with
  | nil => simp
  | cons c s =>
      rw [matches_one_cons]
      constructor
      · intro h
        refine ⟨?_, h.drop_one fun _ => id⟩
        rcases (matches_run_cons).mp h with hone | ⟨hc, -⟩
        · exact ((matches_one_cons).mp hone).1
        · exact hc
      · rintro ⟨hc, h⟩
        obtain ⟨u, s', rfl, hu, hs⟩ := (matches_run_iff).mp h
        rcases u.eq_nil_or_concat with rfl | ⟨u, d, rfl⟩
        · exact .stop (.one hc hs)
        · rw [List.concat_eq_append, List.forall_mem_append, List.forall_mem_singleton] at hu
          refine (matches_run_iff).mpr ⟨c :: u, d :: s', by simp, ?_, .one hu.2 hs⟩
          exact List.forall_mem_cons.mpr ⟨hc, hu.1⟩

theorem matches_run_run : Matches (.run p :: .run p :: ts) s ↔ Matches (.run p :: ts) s := by
  constructor
  · intro h
    obtain ⟨u, s', rfl, hu, hrun⟩ := (matches_run_iff).mp h
    obtain ⟨v, s'', rfl, hv, hs⟩ := (matches_run_iff).mp hrun
    refine (matches_run_iff).mpr ⟨u ++ v, s'', by simp, ?_, hs⟩
    exact List.forall_mem_append.mpr ⟨hu, hv⟩
  · exact .stop

/-! ## Patterns that agree on some texts -/

def Token.AgreeOn (ok : α → Prop) : Token α → Token α → Prop
  | .one p, .one q | .run p, .run q => ∀ c, ok c → (p c ↔ q c)
  | _, _ => False

/-- The patterns have the same texts among those of symbols of a kind. -/
def AgreeOn (ok : α → Prop) (ts ts' : List (Token α)) : Prop :=
  ∀ s : List α, (∀ c ∈ s, ok c) → (Matches ts s ↔ Matches ts' s)

variable {ok : α → Prop}

theorem AgreeOn.refl (ok : α → Prop) (ts : List (Token α)) : AgreeOn ok ts ts := fun _ _ => Iff.rfl

theorem AgreeOn.trans {us : List (Token α)} (h : AgreeOn ok ts ts') (h' : AgreeOn ok ts' us) :
    AgreeOn ok ts us := fun s hs => (h s hs).trans (h' s hs)

theorem AgreeOn.congr_left {us : List (Token α)} (h : AgreeOn ok ts us) :
    AgreeOn ok ts ts' ↔ AgreeOn ok us ts' :=
  forall₂_congr fun s hs => iff_congr (h s hs) Iff.rfl

theorem AgreeOn.cons {t t' : Token α} (ht : t.AgreeOn ok t') (h : AgreeOn ok ts ts') :
    AgreeOn ok (t :: ts) (t' :: ts') := by
  intro s hs
  induction s with
  | nil =>
      cases t with
      | one p =>
          cases t' with
          | one q => simp
          | run q => exact ht.elim
      | run p =>
          cases t' with
          | one q => exact ht.elim
          | run q => rw [matches_run_nil, matches_run_nil, h [] (by simp)]
  | cons c s ih =>
      rw [List.forall_mem_cons] at hs
      cases t with
      | one p =>
          cases t' with
          | one q => rw [matches_one_cons, matches_one_cons, ht c hs.1, h s hs.2]
          | run q => exact ht.elim
      | run p =>
          cases t' with
          | one q => exact ht.elim
          | run q =>
              rw [matches_run_cons, matches_run_cons, ht c hs.1, ih hs.2,
                h (c :: s) (List.forall_mem_cons.mpr hs)]

theorem Token.AgreeOn.refl (ok : α → Prop) (t : Token α) : t.AgreeOn ok t := by
  cases t with
  | one p => exact fun _ _ => Iff.rfl
  | run p => exact fun _ _ => Iff.rfl

theorem AgreeOn.append (front : List (Token α)) (h : AgreeOn ok ts ts') :
    AgreeOn ok (front ++ ts) (front ++ ts') := by
  induction front with
  | nil => exact h
  | cons t front ih => exact ih.cons (.refl ok t)

theorem not_matches_append (front : List (Token α)) (h : ∀ s, ¬Matches ts s) (s : List α) :
    ¬Matches (front ++ ts) s := by
  induction front generalizing s with
  | nil => exact h s
  | cons t front ih =>
      cases t with
      | one p =>
          intro hone
          obtain ⟨c, s', -, -, hs⟩ := (matches_one_iff).mp hone
          exact ih s' hs
      | run p =>
          intro hrun
          obtain ⟨u, s', -, -, hs⟩ := (matches_run_iff).mp hrun
          exact ih s' hs

/-! ## The shortest texts -/

/-- What the tokens for one symbol ask for, in order. -/
def singles : List (Token α) → List (α → Prop)
  | [] => []
  | .one p :: ts => p :: singles ts
  | .run _ :: ts => singles ts

@[simp] theorem singles_append (front ts : List (Token α)) :
    singles (front ++ ts) = singles front ++ singles ts := by
  induction front with
  | nil => rfl
  | cons t front ih =>
      cases t with
      | one p => exact congrArg (p :: ·) ih
      | run p => exact ih

theorem Matches.length_le (h : Matches ts s) : (singles ts).length ≤ s.length := by
  induction h with
  | nil => exact Nat.le_refl 0
  | one _ _ ih => exact Nat.succ_le_succ ih
  | stop _ ih => exact ih
  | more _ _ ih => exact Nat.le_succ_of_le ih

theorem matches_of_singles (h : List.Forall₂ (fun p c => p c) (singles ts) s) : Matches ts s := by
  induction ts generalizing s with
  | nil =>
      cases h
      exact .nil
  | cons t ts ih =>
      cases t with
      | one p =>
          cases h with
          | cons hc hs => exact .one hc (ih hs)
      | run p => exact .stop (ih h)

/-- In a text as short as can be the runs are empty. -/
theorem Matches.singles (h : Matches ts s) (hlen : s.length = (singles ts).length) :
    List.Forall₂ (fun p c => p c) (Wildcards.singles ts) s := by
  induction h with
  | nil => exact .nil
  | one hc _ ih => exact .cons hc (ih (Nat.succ.inj hlen))
  | stop _ ih => exact ih hlen
  | more _ hs _ =>
      have hle := hs.length_le
      rw [List.length_cons] at hlen
      omega

theorem Matches.exists_shortest (h : Matches ts s) :
    ∃ s', List.Sublist s' s ∧ List.Forall₂ (fun p c => p c) (Wildcards.singles ts) s' := by
  induction h with
  | nil => exact ⟨[], .slnil, .nil⟩
  | @one p ts c s hc _ ih =>
      obtain ⟨s', hsub, hs'⟩ := ih
      exact ⟨c :: s', hsub.cons_cons c, .cons hc hs'⟩
  | stop _ ih => exact ih
  | @more p ts c s _ _ ih =>
      obtain ⟨s', hsub, hs'⟩ := ih
      exact ⟨s', hsub.cons c, hs'⟩

/-- There is a text when every token for one symbol has a symbol. -/
theorem exists_matches_iff : (∃ s : List α, (∀ c ∈ s, ok c) ∧ Matches ts s) ↔
    ∀ p ∈ singles ts, ∃ c, ok c ∧ p c := by
  constructor
  · rintro ⟨s, hs, h⟩
    obtain ⟨s', hsub, hs'⟩ := h.exists_shortest
    have hok : ∀ c ∈ s', ok c := fun c hc => hs c (hsub.subset hc)
    generalize singles ts = ps at hs'
    induction hs' with
    | nil => simp
    | cons hc _ ih =>
        rw [List.forall_mem_cons] at hok ⊢
        exact ⟨⟨_, hok.1, hc⟩, ih ((List.sublist_cons_self _ _).trans hsub) hok.2⟩
  · intro h
    have hsome : ∃ s : List α, (∀ c ∈ s, ok c) ∧
        List.Forall₂ (fun p c => p c) (singles ts) s := by
      generalize singles ts = ps at h
      induction ps with
      | nil => exact ⟨[], by simp, .nil⟩
      | cons p ps ih =>
          rw [List.forall_mem_cons] at h
          obtain ⟨c, hc, hp⟩ := h.1
          obtain ⟨s, hs, hps⟩ := ih h.2
          exact ⟨c :: s, List.forall_mem_cons.mpr ⟨hc, hs⟩, .cons hp hps⟩
    obtain ⟨s, hs, hps⟩ := hsome
    exact ⟨s, hs, matches_of_singles hps⟩

def KindsAgree (ok : α → Prop) (ps qs : List (α → Prop)) : Prop :=
  List.Forall₂ (fun p q => ∀ c, ok c → (p c ↔ q c)) ps qs

/-- Kinds that take the same texts one by one are the same, if there is such a text. -/
theorem kindsAgree_of_texts {ps qs : List (α → Prop)} {s : List α} (hs : ∀ c ∈ s, ok c)
    (hps : List.Forall₂ (fun p c => p c) ps s)
    (h : ∀ s : List α, (∀ c ∈ s, ok c) →
      (List.Forall₂ (fun p c => p c) ps s ↔ List.Forall₂ (fun p c => p c) qs s)) :
    KindsAgree ok ps qs := by
  have hqs := (h s hs).mp hps
  induction hps generalizing qs with
  | nil =>
      cases hqs
      exact .nil
  | @cons p c ps s hc hps ih =>
      cases hqs with
      | @cons q _ qs _ hc' hqs =>
          rw [List.forall_mem_cons] at hs
          refine .cons (fun d hd => ?_) (ih hs.2 (fun s' hs' => ?_) hqs)
          · have hd := h (d :: s) (List.forall_mem_cons.mpr ⟨hd, hs.2⟩)
            simpa only [List.forall₂_cons, hps, hqs, and_true] using hd
          · have hs' := h (c :: s') (List.forall_mem_cons.mpr ⟨hs.1, hs'⟩)
            simpa only [List.forall₂_cons, hc, hc', true_and] using hs'

/-- Patterns with the same texts ask for the same symbols, if they have a text. -/
theorem AgreeOn.singles (h : AgreeOn ok ts ts') (hs : ∀ c ∈ s, ok c) (hts : Matches ts s) :
    KindsAgree ok (Wildcards.singles ts) (Wildcards.singles ts') := by
  obtain ⟨s₁, hsub₁, hs₁⟩ := hts.exists_shortest
  have hok₁ : ∀ c ∈ s₁, ok c := fun c hc => hs c (hsub₁.subset hc)
  have hts' := (h s₁ hok₁).mp (matches_of_singles hs₁)
  obtain ⟨s₂, hsub₂, hs₂⟩ := hts'.exists_shortest
  have hback := (h s₂ fun c hc => hok₁ c (hsub₂.subset hc)).mpr (matches_of_singles hs₂)
  have hlen : (Wildcards.singles ts).length = (Wildcards.singles ts').length := by
    have hle := hback.length_le
    have hle' := hts'.length_le
    rw [hs₁.length_eq.symm] at hle'
    rw [hs₂.length_eq.symm] at hle
    omega
  refine kindsAgree_of_texts hok₁ hs₁ fun s hok => ⟨fun hps => ?_, fun hqs => ?_⟩
  · exact ((h s hok).mp (matches_of_singles hps)).singles (hps.length_eq.symm.trans hlen)
  · exact ((h s hok).mpr (matches_of_singles hqs)).singles
      (hqs.length_eq.symm.trans hlen.symm)

theorem mem_singles : p ∈ singles ts ↔ .one p ∈ ts := by
  induction ts with
  | nil => simp [Wildcards.singles]
  | cons t ts ih =>
      cases t with
      | one q => simp [Wildcards.singles, ih]
      | run q => simp [Wildcards.singles, ih]

theorem Matches.append {u v : List α} (hu : Matches ts u) (hv : Matches ts' v) :
    Matches (ts ++ ts') (u ++ v) := by
  induction hu with
  | nil => exact hv
  | one hc _ ih => exact .one hc ih
  | stop _ ih => exact .stop ih
  | more hc _ ih => exact .more hc ih

/-- A symbol more fits into a run, and the texts before and behind it can be the shortest. -/
theorem Matches.exists_longer (h : Matches (ts ++ .run p :: ts') s) (hc : p c) :
    ∃ u v, List.Sublist (u ++ v) s ∧ Matches (ts ++ .run p :: ts') (u ++ c :: v) ∧
      u.length = (Wildcards.singles ts).length ∧ v.length = (Wildcards.singles ts').length := by
  obtain ⟨s', hsub, hs'⟩ := h.exists_shortest
  rw [singles_append] at hs'
  have hu := List.forall₂_take_append _ _ _ hs'.flip
  have hv := List.forall₂_drop_append _ _ _ hs'.flip
  refine ⟨_, _, (List.take_append_drop _ s').symm ▸ hsub, ?_, hu.length_eq, hv.length_eq⟩
  exact (matches_of_singles hu.flip).append (.more hc (.stop (matches_of_singles hv.flip)))

/-- Without runs all texts are of one length. -/
theorem Matches.length_eq (h : Matches ts s) (hruns : ∀ p, .run p ∉ ts) :
    s.length = (Wildcards.singles ts).length := by
  induction h with
  | nil => rfl
  | one _ _ ih =>
      exact congrArg Nat.succ (ih fun p hp => hruns p (List.mem_cons_of_mem _ hp))
  | stop _ _ => exact absurd List.mem_cons_self (hruns _)
  | more _ _ _ => exact absurd List.mem_cons_self (hruns _)

/-! ## A symbol that only a last run takes -/

def LastRunOnly (c : α) : List (Token α) → Prop
  | [] => True
  | .one p :: ts => ¬p c ∧ LastRunOnly c ts
  | .run p :: ts => ts = [] ∨ ¬p c ∧ LastRunOnly c ts

theorem LastRunOnly.length_le {u v : List α} (h : LastRunOnly c ts)
    (hs : Matches ts (u ++ c :: v)) : (Wildcards.singles ts).length ≤ u.length := by
  generalize htext : u ++ c :: v = s at hs
  induction hs generalizing u with
  | nil => simp at htext
  | @one p ts d s hd _ ih =>
      cases u with
      | nil =>
          cases htext
          exact absurd hd h.1
      | cons d' u =>
          cases htext
          exact Nat.succ_le_succ (ih h.2 rfl)
  | @stop p ts s hs ih =>
      rcases h with rfl | ⟨-, h⟩
      · exact Nat.zero_le _
      · exact ih h htext
  | @more p ts d s hd _ ih =>
      cases u with
      | nil =>
          cases htext
          rcases h with rfl | ⟨hc, -⟩
          · exact Nat.zero_le _
          · exact absurd hd hc
      | cons d' u =>
          cases htext
          exact Nat.le_succ_of_le (ih h rfl)

theorem LastRunOnly.singles (h : LastRunOnly c ts) : ∀ p ∈ Wildcards.singles ts, ¬p c := by
  induction ts with
  | nil => simp [Wildcards.singles]
  | cons t ts ih =>
      cases t with
      | one p => exact List.forall_mem_cons.mpr ⟨h.1, ih h.2⟩
      | run p =>
          rcases h with rfl | ⟨-, h⟩
          · simp [Wildcards.singles]
          · exact ih h

end Rustqlite.Foundation.Wildcards
