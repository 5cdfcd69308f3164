import Mathlib.Data.List.Nodup
import Mathlib.Data.List.Perm.Basic

/-!
# Lists with keys

A list in which no two elements have the same key.  The element under a key can
be found, taken out and put back changed.
-/

namespace Rustqlite.Foundation

variable {α κ : Type} [DecidableEq κ] {key : α → κ}

def others (key : α → κ) (k : κ) (l : List α) : List α := l.filter fun a => key a ≠ k

variable {k : κ} {l : List α} {a : α}

theorem mem_others : a ∈ others key k l ↔ a ∈ l ∧ key a ≠ k := by
  simp [others]

theorem others_eq_self (h : k ∉ l.map key) : others key k l = l := by
  apply List.filter_eq_self.mpr
  intro a ha
  have hne : key a ≠ k := by
    rintro rfl
    exact h (List.mem_map_of_mem ha)
  simpa using hne

theorem perm_cons_others (h : (l.map key).Nodup) (ha : a ∈ l) :
    l.Perm (a :: others key (key a) l) := by
  induction l with
  | nil => cases ha
  | cons b l ih =>
      rw [List.map_cons, List.nodup_cons] at h
      rcases List.mem_cons.mp ha with rfl | hmem
      · have hself : others key (key a) (a :: l) = l := by
          rw [others, List.filter_cons_of_neg (by simp)]
          exact others_eq_self h.1
        rw [hself]
      · have hne : key b ≠ key a := fun heq => h.1 (heq ▸ List.mem_map_of_mem hmem)
        rw [others, List.filter_cons_of_pos (by simpa using hne)]
        exact ((ih h.2 hmem).cons b).trans (.swap a b _)

theorem find?_key (h : (l.map key).Nodup) (ha : a ∈ l) :
    l.find? (fun b => key b == key a) = some a := by
  induction l with
  | nil => cases ha
  | cons b l ih =>
      rw [List.map_cons, List.nodup_cons] at h
      rcases List.mem_cons.mp ha with rfl | hmem
      · rw [List.find?_cons_of_pos (by simp)]
      · have hne : key b ≠ key a := fun heq => h.1 (heq ▸ List.mem_map_of_mem hmem)
        rw [List.find?_cons_of_neg (by simpa using hne)]
        exact ih h.2 hmem

theorem perm_map_ite (h : (l.map key).Nodup) (ha : a ∈ l) (b : α) :
    (l.map fun c => if key c = key a then b else c).Perm (b :: others key (key a) l) := by
  have hmap := (perm_cons_others h ha).map fun c => if key c = key a then b else c
  have hothers : (others key (key a) l).map (fun c => if key c = key a then b else c) =
      others key (key a) l := by
    conv_rhs => rw [← List.map_id (others key (key a) l)]
    apply List.map_congr_left
    intro c hc
    exact if_neg ((mem_others).mp hc).2
  rwa [List.map_cons, if_pos rfl, hothers] at hmap

end Rustqlite.Foundation
