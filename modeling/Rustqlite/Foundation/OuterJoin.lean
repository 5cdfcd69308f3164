import Mathlib.Data.Multiset.Bind

/-!
# Outer joins

The pairs of two lists on which a condition is true, and for a side that is kept
the elements that are in no pair.
-/

namespace Rustqlite.Foundation

variable {α β γ : Type}

def matched (on : α → β → Bool) (as : List α) (bs : List β) : List (Option α × Option β) :=
  as.flatMap fun a => (bs.filter (on a)).map fun b => (some a, some b)

def unmatched (on : α → β → Bool) (bs : List β) (as : List α) : List α :=
  as.filter fun a => !bs.any (on a)

def outerJoin (on : α → β → Bool) (keepLeft keepRight : Bool) (as : List α) (bs : List β) :
    List (Option α × Option β) :=
  matched on as bs ++
    ((if keepLeft then (unmatched on bs as).map fun a => (some a, none) else []) ++
      (if keepRight then (unmatched (flip on) as bs).map fun b => (none, some b) else []))

variable {on : α → β → Bool} {bs : List β} {as : List α}

theorem mem_unmatched {a : α} : a ∈ unmatched on bs as ↔ a ∈ as ∧ bs.any (on a) = false := by
  simp [unmatched]

theorem unmatched_ne_nil : unmatched on bs as ≠ [] ↔ ∃ a ∈ as, bs.any (on a) = false := by
  simp only [ne_eq, List.eq_nil_iff_forall_not_mem, mem_unmatched, not_forall, not_not]

theorem flatMap_filter (p : α → Bool) (f : α → List γ) (as : List α) :
    (as.filter p).flatMap f = as.flatMap fun a => if p a then f a else [] := by
  induction as with
  | nil => rfl
  | cons a as ih =>
      rw [List.flatMap_cons, ← ih, List.filter_cons]
      split_ifs with h
      · rfl
      · rfl

theorem map_filter_eq_bind (p : α → Bool) (f : α → γ) (s : Multiset α) :
    (s.filter fun a => p a).map f = s.bind fun a => if p a then {f a} else 0 := by
  induction s using Multiset.induction_on with
  | empty => rfl
  | cons a s ih =>
      rw [Multiset.cons_bind, ← ih, Multiset.filter_cons, Multiset.map_add]
      split_ifs with h
      · rfl
      · rfl

theorem perm_matched_swap (on : α → β → Bool) (as : List α) (bs : List β) :
    ((matched on as bs).map Prod.swap).Perm (matched (flip on) bs as) := by
  apply Multiset.coe_eq_coe.mp
  calc (((matched on as bs).map Prod.swap : List (Option β × Option α)) : Multiset _)
      = (as : Multiset α).bind fun a => ((bs : Multiset β).filter fun b => on a b).map
          fun b => (some b, some a) := by
        simp [matched, List.map_flatMap, Multiset.coe_bind, Function.comp_def]
    _ = (as : Multiset α).bind fun a => (bs : Multiset β).bind fun b =>
          if on a b then {(some b, some a)} else 0 := by simp only [map_filter_eq_bind]
    _ = (bs : Multiset β).bind fun b => (as : Multiset α).bind fun a =>
          if flip on b a then {(some b, some a)} else 0 := Multiset.bind_bind _ _
    _ = (bs : Multiset β).bind fun b => ((as : Multiset α).filter fun a => flip on b a).map
          fun a => (some b, some a) := by simp only [map_filter_eq_bind]
    _ = (matched (flip on) bs as : Multiset _) := by
        simp [matched, Multiset.coe_bind]

theorem perm_outerJoin_swap (on : α → β → Bool) (keepLeft keepRight : Bool) (as : List α)
    (bs : List β) : ((outerJoin on keepLeft keepRight as bs).map Prod.swap).Perm
      (outerJoin (flip on) keepRight keepLeft bs as) := by
  rw [outerJoin, List.map_append, List.map_append, outerJoin]
  refine (perm_matched_swap on as bs).append ((List.perm_append_comm).trans ?_)
  have hflip : flip (flip on) = on := rfl
  rw [hflip]
  cases keepLeft <;> cases keepRight <;>
    simp [Function.comp_def]

end Rustqlite.Foundation
