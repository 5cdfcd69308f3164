import Mathlib.Data.List.Basic
import Mathlib.Data.List.Induction

/-!
# Groups of a sorted list

A list in order is read from its start.  The elements that tie stand next to
each other, so what has been read falls into the groups before the last
element's and the part of its own group that has been reached.
-/

namespace Rustqlite.Foundation

variable {α : Type} {cmp : α → α → Ordering}

abbrev InOrder (cmp : α → α → Ordering) (l : List α) : Prop :=
  l.Pairwise fun a b => (cmp a b).isLE

structure Split (cmp : α → α → Ordering) (read done group : List α) (next : α) : Prop where
  split : read = done ++ group
  together : ∀ a ∈ group, cmp a next = .eq
  apart : ∀ a ∈ done, cmp a next = .lt

structure Cut (cmp : α → α → Ordering) (read done group : List α) (last : α) : Prop extends
    Split cmp read done group last where
  ends : last ∈ group

variable {o : Ordering} {read done group : List α} {next last : α}

theorem lt_or_eq_of_isLE (h : o.isLE) : o = .lt ∨ o = .eq := by
  cases o with
  | lt => exact .inl rfl
  | eq => exact .inr rfl
  | gt => contradiction

theorem isLE_of_lt (h : o = .lt) : o.isLE := by rw [h]; rfl

theorem isLE_of_eq (h : o = .eq) : o.isLE := by rw [h]; rfl

theorem Split.nil (next : α) : Split cmp [] [] [] next where
  split := rfl
  together := by simp
  apart := by simp

theorem Split.isLE {a : α} (h : Split cmp read done group next) (ha : a ∈ read) :
    (cmp a next).isLE := by
  rw [h.split, List.mem_append] at ha
  rcases ha with ha | ha
  · exact isLE_of_lt (h.apart a ha)
  · exact isLE_of_eq (h.together a ha)

theorem Cut.mem_read (h : Cut cmp read done group last) : last ∈ read := by
  rw [h.split]
  exact List.mem_append_right _ h.ends

variable [Std.TransCmp cmp]

theorem Split.cut (h : Split cmp read done group next) :
    Cut cmp (read ++ [next]) done (group ++ [next]) next where
  split := by rw [h.split, List.append_assoc]
  ends := by simp
  together := by
    intro a ha
    rw [List.mem_append, List.mem_singleton] at ha
    rcases ha with ha | rfl
    · exact h.together a ha
    · exact Std.ReflCmp.compare_self
  apart := h.apart

theorem Cut.same (h : Cut cmp read done group last) (heq : cmp last next = .eq) :
    Split cmp read done group next where
  split := h.split
  together := fun a ha => Std.TransCmp.eq_trans (h.together a ha) heq
  apart := fun a ha => Std.TransCmp.lt_of_lt_of_eq (h.apart a ha) heq

theorem Cut.new (h : Cut cmp read done group last) (hlt : cmp last next = .lt) :
    Split cmp read read [] next where
  split := (List.append_nil read).symm
  together := by simp
  apart := fun _ ha => Std.TransCmp.lt_of_isLE_of_lt (h.isLE ha) hlt

end Rustqlite.Foundation
