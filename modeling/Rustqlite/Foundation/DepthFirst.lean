import Mathlib.Data.Fintype.EquivFin
import Mathlib.Logic.Relation

/-!
# Depth-first walks

A walk visits a node and then, one after the other, the nodes below it.  A list
of nodes may have gaps; a walk that comes to a gap stops for good.  In a finite
graph the walk ends unless it can come back to a node that it is still below.
-/

namespace Rustqlite.Foundation.DepthFirst

variable {α : Type} (below : α → List (Option α))

def walkAll (walk : α → Option Bool) : List (Option α) → Option Bool
  | [] => some false
  | none :: _ => some true
  | some a :: rest =>
      match walk a with
      | some false => walkAll walk rest
      | r => r

def walk : Nat → α → Option Bool
  | 0, _ => none
  | fuel + 1, a => walkAll (walk fuel) (below a)

def Ends (a : α) : Prop := ∃ fuel r, walk below fuel a = some r

/-- The nodes below `a` form a finite tree without gaps. -/
inductive Clean : α → Prop
  | intro {a : α} {cs : List α} (hbelow : below a = cs.map some) (hcs : ∀ c ∈ cs, Clean c) :
      Clean a

/-- The walk of `a` comes to `b`: whatever is to the left of `b` has no gaps. -/
def Enters (a b : α) : Prop :=
  ∃ (before : List α) (after : List (Option α)), below a = before.map some ++ some b :: after ∧
      ∀ c ∈ before, Clean below c

variable {below}

/-! ## More fuel gives the same result -/

variable {w : α → Option Bool} {l todo : List (Option α)} {r : Bool} {fuel : Nat} {a : α}
  {before : List α}

theorem walkAll_mono {w' : α → Option Bool} (h : ∀ a r, w a = some r → w' a = some r)
    (hl : walkAll w l = some r) : walkAll w' l = some r := by
  induction l with
  | nil => exact hl
  | cons x l ih =>
      cases x with
      | none => exact hl
      | some a =>
          rw [walkAll] at hl ⊢
          cases hw : w a with
          | none => simp [hw] at hl
          | some s =>
              rw [h a s hw]
              cases s with
              | false => exact ih (by simpa [hw] using hl)
              | true => simpa [hw] using hl

theorem walk_succ (h : walk below fuel a = some r) : walk below (fuel + 1) a = some r := by
  induction fuel generalizing a r with
  | zero => cases h
  | succ fuel ih => exact walkAll_mono (fun _ _ => ih) h

theorem walk_mono {fuel' : Nat} (hle : fuel ≤ fuel') (h : walk below fuel a = some r) :
    walk below fuel' a = some r := by
  induction hle with
  | refl => exact h
  | step _ ih => exact walk_succ ih

/-! ## Trees without gaps -/

theorem walkAll_append (h : ∀ c ∈ before, w c = some false) (rest : List (Option α)) :
    walkAll w (before.map some ++ rest) = walkAll w rest := by
  induction before with
  | nil => rfl
  | cons c before ih =>
      rw [List.forall_mem_cons] at h
      rw [List.map_cons, List.cons_append, walkAll, h.1]
      exact ih h.2

theorem exists_fuel {l : List α} (h : ∀ a ∈ l, ∃ fuel, walk below fuel a = some r) :
    ∃ fuel, ∀ a ∈ l, walk below fuel a = some r := by
  induction l with
  | nil => exact ⟨0, by simp⟩
  | cons a l ih =>
      rw [List.forall_mem_cons] at h
      obtain ⟨fuel, ha⟩ := h.1
      obtain ⟨fuel', hl⟩ := ih h.2
      refine ⟨max fuel fuel', List.forall_mem_cons.mpr ⟨walk_mono (le_max_left _ _) ha, ?_⟩⟩
      exact fun b hb => walk_mono (le_max_right _ _) (hl b hb)

theorem Clean.walk {a : α} (h : Clean below a) : ∃ fuel, walk below fuel a = some false := by
  induction h with
  | @intro a cs hbelow _ ih =>
      obtain ⟨fuel, hall⟩ := exists_fuel ih
      refine ⟨fuel + 1, ?_⟩
      rw [DepthFirst.walk, hbelow, ← List.append_nil (cs.map some), walkAll_append hall]
      rfl

end Rustqlite.Foundation.DepthFirst
