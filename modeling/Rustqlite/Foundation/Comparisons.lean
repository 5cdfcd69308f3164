import Mathlib.Tactic
import Mathlib.Data.List.Destutter

/-!
# Comparing by several keys

Two values are compared by the first of several comparisons that tells them
apart.
-/

namespace Rustqlite.Foundation

variable {α : Type}

def lexCompare : List (α → α → Ordering) → α → α → Ordering
  | [], _, _ => .eq
  | c :: cs, a, b => (c a b).then (lexCompare cs a b)

theorem lexCompare_append (cs ds : List (α → α → Ordering)) (a b : α) :
    lexCompare (cs ++ ds) a b = (lexCompare cs a b).then (lexCompare ds a b) := by
  induction cs with
  | nil => rfl
  | cons c cs ih => rw [List.cons_append, lexCompare, ih, lexCompare, Ordering.then_assoc]

variable {cs ds : List (α → α → Ordering)} {a b x r : α} {c : Bool} {l : List α}

theorem lexCompare_eq_of_forall (h : ∀ c ∈ cs, c a b = .eq) : lexCompare cs a b = .eq := by
  induction cs with
  | nil => rfl
  | cons c cs ih =>
      rw [List.forall_mem_cons] at h
      rw [lexCompare, h.1, ih h.2]
      rfl

theorem ne_gt_of_then {o p : Ordering} (h : o.then p ≠ .gt) : o ≠ .gt := by
  cases o with
  | gt => exact absurd rfl h
  | lt | eq => simp

theorem lexCompare_ne_gt {es : List (α → α → Ordering)} {rest : Ordering}
    (hties : ∀ c ∈ cs, c a b = .eq) (h : (lexCompare (cs ++ ds ++ es) a b).then rest ≠ .gt) :
    lexCompare ds a b ≠ .gt := by
  rw [lexCompare_append, lexCompare_append, lexCompare_eq_of_forall hties, Ordering.eq_then] at h
  exact ne_gt_of_then (ne_gt_of_then h)

theorem lexCompare_of_first {c : α → α → Ordering} {rest : List (α → α → Ordering)}
    (hties : ∀ d ∈ cs, d a b = .eq) (hc : c a b ≠ .eq) :
    lexCompare (cs ++ c :: rest) a b = c a b := by
  rw [lexCompare_append, lexCompare_eq_of_forall hties, Ordering.eq_then, lexCompare]
  cases h : c a b with
  | eq => exact absurd h hc
  | lt | gt => rfl

/-!
## Merging two sorted lists

One pass over two sorted lists keeps, by three flags, what is in the first list
only, in the second list, or in both.  Without repetitions the result is a
union, an intersection or a difference of the two.
-/

variable {β : Type}

structure MergeRule where
  left : Bool
  right : Bool
  both : Bool

def keepIf (c : Bool) (a : α) (l : List α) : List α := if c then a :: l else l

def mergeBy (cmp : α → α → Ordering) (rule : MergeRule) : List α → List α → List α
  | [], bs => if rule.right then bs else []
  | a :: as, [] => if rule.left then a :: as else []
  | a :: as, b :: bs =>
      match cmp a b with
      | .lt => keepIf rule.left a (mergeBy cmp rule as (b :: bs))
      | .eq => keepIf rule.both a (mergeBy cmp rule as (b :: bs))
      | .gt => keepIf rule.right b (mergeBy cmp rule (a :: as) bs)
termination_by as bs => as.length + bs.length

variable (cmp : α → α → Ordering)

def LevelIn (l : List α) (r : α) : Prop := ∃ x ∈ l, cmp r x = .eq

def Ascending (l : List α) : Prop := l.Pairwise fun a b => (cmp a b).isLE

structure ListsInOrder (S : Set α) (p : α → Prop) (l : List α) : Prop where
  ascending : l.Pairwise fun a b => cmp a b = .lt
  level : ∀ r ∈ S, LevelIn cmp l r ↔ p r

def MergeRule.Keeps (rule : MergeRule) (inA inB : Prop) : Prop :=
  (inA ∧ inB ∧ (rule.both ∨ rule.right)) ∨ (inA ∧ ¬inB ∧ rule.left) ∨ (¬inA ∧ inB ∧ rule.right)

def distinct (l : List α) : List α := l.destutter fun p r => cmp r p ≠ .eq

def distinctAfter : Option α → List α → List α
  | _, [] => []
  | prev, a :: l =>
      if prev.any fun p => cmp a p = .eq then distinctAfter prev l
      else a :: distinctAfter (some a) l

variable {cmp}

/-! ## One case of the merge at a time -/

theorem mergeBy_nil_left (rule : MergeRule) (bs : List α) :
    mergeBy cmp rule [] bs = if rule.right then bs else [] := by
  rw [mergeBy]

theorem mergeBy_nil_right (rule : MergeRule) (as : List α) :
    mergeBy cmp rule as [] = if rule.left then as else [] := by
  cases as with
  | nil => rw [mergeBy]; simp
  | cons a as => rw [mergeBy]

section Step

variable {rule : MergeRule} {a b : α} {as bs : List α}

theorem mergeBy_lt (h : cmp a b = .lt) :
    mergeBy cmp rule (a :: as) (b :: bs) = keepIf rule.left a (mergeBy cmp rule as (b :: bs)) := by
  rw [mergeBy, h]

theorem mergeBy_eq (h : cmp a b = .eq) :
    mergeBy cmp rule (a :: as) (b :: bs) = keepIf rule.both a (mergeBy cmp rule as (b :: bs)) := by
  rw [mergeBy, h]

theorem mergeBy_gt (h : cmp a b = .gt) :
    mergeBy cmp rule (a :: as) (b :: bs) = keepIf rule.right b (mergeBy cmp rule (a :: as) bs) := by
  rw [mergeBy, h]

end Step

theorem merge_induction {P : List α → List α → Prop} (cmp : α → α → Ordering)
    (left : ∀ bs, P [] bs) (right : ∀ as, P as [])
    (lt : ∀ a as b bs, cmp a b = .lt → P as (b :: bs) → P (a :: as) (b :: bs))
    (eq : ∀ a as b bs, cmp a b = .eq → P as (b :: bs) → P (a :: as) (b :: bs))
    (gt : ∀ a as b bs, cmp a b = .gt → P (a :: as) bs → P (a :: as) (b :: bs))
    (as bs : List α) : P as bs := by
  induction as generalizing bs with
  | nil => exact left bs
  | cons a as ihA =>
      induction bs with
      | nil => exact right (a :: as)
      | cons b bs ihB =>
          cases h : cmp a b with
          | lt => exact lt a as b bs h (ihA _)
          | eq => exact eq a as b bs h (ihA _)
          | gt => exact gt a as b bs h ihB

theorem mem_keepIf : x ∈ keepIf c a l ↔ (c ∧ x = a) ∨ x ∈ l := by
  cases c <;> simp [keepIf]

theorem mem_mergeBy {rule : MergeRule} {as bs : List α} (h : x ∈ mergeBy cmp rule as bs) :
    x ∈ as ∨ x ∈ bs := by
  induction as, bs using merge_induction cmp with
  | left bs =>
      rw [mergeBy_nil_left] at h
      split at h
      · exact .inr h
      · cases h
  | right as =>
      rw [mergeBy_nil_right] at h
      split at h
      · exact .inl h
      · cases h
  | lt a as b bs hab ih =>
      rw [mergeBy_lt hab, mem_keepIf] at h
      grind
  | eq a as b bs hab ih =>
      rw [mergeBy_eq hab, mem_keepIf] at h
      grind
  | gt a as b bs hab ih =>
      rw [mergeBy_gt hab, mem_keepIf] at h
      grind

theorem map_keepIf (f : α → β) (c : Bool) (a : α) (l : List α) :
    (keepIf c a l).map f = keepIf c (f a) (l.map f) := by
  cases c <;> rfl

theorem mergeBy_map (cmp : β → β → Ordering) (f : α → β) (rule : MergeRule) (as bs : List α) :
    mergeBy cmp rule (as.map f) (bs.map f) =
      (mergeBy (fun a b => cmp (f a) (f b)) rule as bs).map f := by
  induction as, bs using merge_induction (fun a b => cmp (f a) (f b)) with
  | left bs =>
      rw [List.map_nil, mergeBy_nil_left, mergeBy_nil_left]
      split <;> rfl
  | right as =>
      rw [List.map_nil, mergeBy_nil_right, mergeBy_nil_right]
      split <;> rfl
  | lt a as b bs hab ih =>
      rw [@mergeBy_lt _ (fun a b => cmp (f a) (f b)) rule a b as bs hab, map_keepIf, ← ih]
      exact mergeBy_lt hab
  | eq a as b bs hab ih =>
      rw [@mergeBy_eq _ (fun a b => cmp (f a) (f b)) rule a b as bs hab, map_keepIf, ← ih]
      exact mergeBy_eq hab
  | gt a as b bs hab ih =>
      rw [@mergeBy_gt _ (fun a b => cmp (f a) (f b)) rule a b as bs hab, map_keepIf, ← ih]
      exact mergeBy_gt hab

theorem mergeBy_perm (as bs : List α) : (mergeBy cmp ⟨true, true, true⟩ as bs).Perm (as ++ bs) := by
  induction as, bs using merge_induction cmp with
  | left bs => rw [mergeBy_nil_left]; exact .refl _
  | right as => rw [mergeBy_nil_right, List.append_nil]; exact .refl _
  | lt a as b bs hab ih => rw [mergeBy_lt hab]; exact ih.cons a
  | eq a as b bs hab ih => rw [mergeBy_eq hab]; exact ih.cons a
  | gt a as b bs hab ih =>
      rw [mergeBy_gt hab]
      exact (ih.cons b).trans List.perm_middle.symm

/-! ## What the rule keeps -/

namespace MergeRule

variable {rule : MergeRule} {p inA inB : Prop}

theorem keeps_false_left : rule.Keeps False inB ↔ inB ∧ rule.right := by
  simp [Keeps]

theorem keeps_false_right : rule.Keeps inA False ↔ inA ∧ rule.left := by
  simp [Keeps]

theorem keeps_lt (h : p → ¬inB) :
    rule.Keeps (p ∨ inA) inB ↔ (rule.left ∧ p) ∨ rule.Keeps inA inB := by
  by_cases hp : p
  · simp only [Keeps, hp, h hp, true_or, false_and, not_true, not_false_iff, true_and, and_true,
      false_or, and_false, or_false, iff_self_or, and_imp]
    exact fun _ hleft => hleft
  · simp only [hp, false_or, and_false]

theorem keeps_eq (h : p → inB) :
    rule.Keeps (p ∨ inA) inB ↔ (rule.both ∧ p) ∨ rule.Keeps inA inB := by
  by_cases hp : p
  · by_cases hA : inA
    · simp [Keeps, hp, h hp, hA]
    · simp [Keeps, hp, h hp, hA]
  · simp only [hp, false_or, and_false]

theorem keeps_gt (h : p → ¬inA) :
    rule.Keeps inA (p ∨ inB) ↔ (rule.right ∧ p) ∨ rule.Keeps inA inB := by
  by_cases hp : p
  · simp only [Keeps, hp, h hp, true_or, false_and, not_true, not_false_iff, true_and, and_true,
      false_or, and_false, iff_self_or, and_imp]
    exact fun _ hright => hright
  · simp only [hp, false_or, and_false]

end MergeRule

/-! ## Elements level with one in a list -/

theorem levelIn_cons : LevelIn cmp (a :: l) r ↔ cmp r a = .eq ∨ LevelIn cmp l r := by
  simp [LevelIn]

theorem levelIn_keepIf : LevelIn cmp (keepIf c a l) r ↔ (c ∧ cmp r a = .eq) ∨ LevelIn cmp l r := by
  cases c
  · simp [keepIf]
  · simp [keepIf, levelIn_cons]

theorem not_levelIn_nil (r : α) : ¬LevelIn cmp [] r := by
  rintro ⟨x, hx, -⟩
  cases hx

theorem levelIn_if : LevelIn cmp (if c then l else []) r ↔ LevelIn cmp l r ∧ c := by
  cases c
  · simp [not_levelIn_nil]
  · simp

theorem pairwise_keepIf (hl : Ascending cmp l) (h : ∀ x ∈ l, (cmp a x).isLE) :
    Ascending cmp (keepIf c a l) := by
  cases c
  · exact hl
  · exact List.pairwise_cons.mpr ⟨h, hl⟩

/-! ## Merging by an order -/

section Order

variable [Std.TransCmp cmp] {rule : MergeRule} {as bs : List α}

theorem Ascending.le_of_mem (h : Ascending cmp (a :: l)) (hx : x ∈ a :: l) : (cmp a x).isLE := by
  rcases List.mem_cons.mp hx with rfl | hx
  · exact Std.ReflCmp.isLE_rfl
  · exact List.rel_of_pairwise_cons h hx

theorem not_levelIn_of_lt (h : Ascending cmp (x :: l)) (hlt : cmp a x = .lt) (hr : cmp r a = .eq) :
    ¬LevelIn cmp (x :: l) r := by
  rintro ⟨y, hy, hry⟩
  have hay : cmp a y = .lt := Std.TransCmp.lt_of_lt_of_isLE hlt (h.le_of_mem hy)
  rw [Std.TransCmp.lt_of_eq_of_lt hr hay] at hry
  cases hry

theorem ascending_mergeBy (has : Ascending cmp as) (hbs : Ascending cmp bs) :
    Ascending cmp (mergeBy cmp rule as bs) := by
  induction as, bs using merge_induction cmp with
  | left bs =>
      rw [mergeBy_nil_left]
      split
      · exact hbs
      · exact .nil
  | right as =>
      rw [mergeBy_nil_right]
      split
      · exact has
      · exact .nil
  | lt a as b bs hab ih =>
      rw [mergeBy_lt hab]
      refine pairwise_keepIf (ih has.of_cons hbs) fun x hx => ?_
      rcases mem_mergeBy hx with hx | hx
      · exact List.rel_of_pairwise_cons has hx
      · exact Std.TransCmp.isLE_trans (by rw [hab]; rfl) (hbs.le_of_mem hx)
  | eq a as b bs hab ih =>
      rw [mergeBy_eq hab]
      refine pairwise_keepIf (ih has.of_cons hbs) fun x hx => ?_
      rcases mem_mergeBy hx with hx | hx
      · exact List.rel_of_pairwise_cons has hx
      · exact Std.TransCmp.isLE_trans (by rw [hab]; rfl) (hbs.le_of_mem hx)
  | gt a as b bs hab ih =>
      rw [mergeBy_gt hab]
      have hba : cmp b a = .lt := Std.OrientedCmp.lt_of_gt hab
      refine pairwise_keepIf (ih has hbs.of_cons) fun x hx => ?_
      rcases mem_mergeBy hx with hx | hx
      · exact Std.TransCmp.isLE_trans (by rw [hba]; rfl) (has.le_of_mem hx)
      · exact List.rel_of_pairwise_cons hbs hx

theorem levelIn_mergeBy (has : Ascending cmp as) (hbs : Ascending cmp bs) (r : α) :
    LevelIn cmp (mergeBy cmp rule as bs) r ↔ rule.Keeps (LevelIn cmp as r) (LevelIn cmp bs r) := by
  induction as, bs using merge_induction cmp with
  | left bs =>
      rw [mergeBy_nil_left, levelIn_if, iff_false_intro (not_levelIn_nil r),
        MergeRule.keeps_false_left]
  | right as =>
      rw [mergeBy_nil_right, levelIn_if, iff_false_intro (not_levelIn_nil r),
        MergeRule.keeps_false_right]
  | lt a as b bs hab ih =>
      have hout : cmp r a = .eq → ¬LevelIn cmp (b :: bs) r := not_levelIn_of_lt hbs hab
      rw [mergeBy_lt hab, levelIn_keepIf, ih has.of_cons hbs, levelIn_cons (a := a),
        MergeRule.keeps_lt hout]
  | eq a as b bs hab ih =>
      have hin : cmp r a = .eq → LevelIn cmp (b :: bs) r :=
        fun hr => levelIn_cons.mpr (.inl (Std.TransCmp.eq_trans hr hab))
      rw [mergeBy_eq hab, levelIn_keepIf, ih has.of_cons hbs, levelIn_cons (a := a),
        MergeRule.keeps_eq hin]
  | gt a as b bs hab ih =>
      have hout : cmp r b = .eq → ¬LevelIn cmp (a :: as) r :=
        not_levelIn_of_lt has (Std.OrientedCmp.lt_of_gt hab)
      rw [mergeBy_gt hab, levelIn_keepIf, ih has hbs.of_cons, levelIn_cons (a := b),
        MergeRule.keeps_gt hout]

/-! ## Without repetitions -/

theorem levelIn_destutter' (a r : α) (l : List α) :
    LevelIn cmp (l.destutter' (fun p x => cmp x p ≠ .eq) a) r ↔ LevelIn cmp (a :: l) r := by
  induction l generalizing a with
  | nil => rw [List.destutter'_nil]
  | cons x l ih =>
      by_cases h : cmp x a = .eq
      · have hsame : cmp r x = .eq ↔ cmp r a = .eq := by rw [Std.TransCmp.congr_right h]
        rw [List.destutter'_cons_neg _ (not_not_intro h), ih, levelIn_cons, levelIn_cons,
          levelIn_cons]
        tauto
      · rw [List.destutter'_cons_pos _ h, levelIn_cons, ih, levelIn_cons (a := a)]

omit [Std.TransCmp cmp] in
theorem distinctAfter_some (p : α) (l : List α) :
    p :: distinctAfter cmp (some p) l = l.destutter' (fun p r => cmp r p ≠ .eq) p := by
  induction l generalizing p with
  | nil => rfl
  | cons a l ih =>
      by_cases h : cmp a p = .eq
      · rw [List.destutter'_cons_neg _ (not_not_intro h), ← ih, distinctAfter, Option.any_some,
          if_pos (decide_eq_true h)]
      · rw [List.destutter'_cons_pos _ h, ← ih, distinctAfter, Option.any_some,
          if_neg (ne_true_of_eq_false (decide_eq_false h))]

omit [Std.TransCmp cmp] in
theorem distinctAfter_none (l : List α) : distinctAfter cmp none l = distinct cmp l := by
  cases l with
  | nil => rfl
  | cons a l => exact distinctAfter_some a l

theorem levelIn_distinct (l : List α) (r : α) :
    LevelIn cmp (distinct cmp l) r ↔ LevelIn cmp l r := by
  cases l with
  | nil => rfl
  | cons a l => exact levelIn_destutter' a r l

theorem pairwise_of_isChain_ne (hle : Ascending cmp l) (hne : l.IsChain fun p r => cmp r p ≠ .eq) :
    l.Pairwise fun a b => cmp a b = .lt := by
  induction l with
  | nil => exact .nil
  | cons a l ih =>
      have hl := ih hle.of_cons hne.tail
      refine List.pairwise_cons.mpr ⟨fun x hx => ?_, hl⟩
      obtain ⟨b, l, rfl⟩ := List.exists_cons_of_ne_nil (List.ne_nil_of_mem hx)
      have hab : cmp a b = .lt := by
        have hle' : (cmp a b).isLE := List.rel_of_pairwise_cons hle List.mem_cons_self
        have hne' : cmp b a ≠ .eq := (List.isChain_cons_cons.mp hne).1
        rw [ne_eq, Std.OrientedCmp.eq_comm] at hne'
        cases hcmp : cmp a b with
        | lt => rfl
        | eq => exact absurd hcmp hne'
        | gt => rw [hcmp] at hle'; cases hle'
      exact Std.TransCmp.lt_of_lt_of_isLE hab (Ascending.le_of_mem hle.of_cons hx)

theorem ascending_distinct (h : Ascending cmp l) :
    (distinct cmp l).Pairwise fun a b => cmp a b = .lt :=
  pairwise_of_isChain_ne (h.sublist (List.destutter_sublist _ l)) (List.isChain_destutter _ l)

end Order

/-! ## Where the comparison is an order -/

section Within

variable {S : Set α} {as bs : List α} (rule : MergeRule)

theorem distinct_map (f : β → α) (l : List β) :
    distinct cmp (l.map f) = (distinct (fun a b => cmp (f a) (f b)) l).map f :=
  (List.map_destutter (f := f) fun _ _ _ _ => Iff.rfl).symm

theorem levelIn_val {l : List S} (hr : r ∈ S) :
    LevelIn cmp (l.map Subtype.val) r ↔ LevelIn (fun a b : S => cmp a.1 b.1) l ⟨r, hr⟩ := by
  simp only [LevelIn, List.mem_map, exists_exists_and_eq_and]

theorem ascending_val {l : List S} :
    Ascending cmp (l.map Subtype.val) ↔ Ascending (fun a b : S => cmp a.1 b.1) l :=
  List.pairwise_map

theorem ascending_merge_on (horder : Std.TransCmp fun a b : S => cmp a.1 b.1)
    (has : ∀ a ∈ as, a ∈ S) (hbs : ∀ b ∈ bs, b ∈ S) (hascA : Ascending cmp as)
    (hascB : Ascending cmp bs) : Ascending cmp (mergeBy cmp rule as bs) := by
  lift as to List S using has
  lift bs to List S using hbs
  rw [mergeBy_map]
  exact ascending_val.mpr (ascending_mergeBy (ascending_val.mp hascA) (ascending_val.mp hascB))

theorem listsInOrder_merge (horder : Std.TransCmp fun a b : S => cmp a.1 b.1)
    (has : ∀ a ∈ as, a ∈ S) (hbs : ∀ b ∈ bs, b ∈ S) (hascA : Ascending cmp as)
    (hascB : Ascending cmp bs) :
    ListsInOrder cmp S (fun r => rule.Keeps (LevelIn cmp as r) (LevelIn cmp bs r))
      (distinct cmp (mergeBy cmp rule as bs)) := by
  lift as to List S using has
  lift bs to List S using hbs
  rw [ascending_val] at hascA hascB
  rw [mergeBy_map, distinct_map]
  constructor
  · exact List.pairwise_map.mpr (ascending_distinct (ascending_mergeBy hascA hascB))
  · intro r hr
    rw [levelIn_val hr, levelIn_val hr, levelIn_val hr, levelIn_distinct,
      levelIn_mergeBy hascA hascB]

end Within

end Rustqlite.Foundation
