import Mathlib.Data.List.Basic
import Mathlib.Tactic

/-!
# Runs of a deterministic machine

A run is the list of its inputs.  A condition on the inputs of a run speaks of
each input in the state in which the machine receives it.
-/

namespace Rustqlite.Foundation

variable {σ κ : Type} {step : σ → κ → σ} {P R : σ → κ → Prop}

/-- Every input of the run meets `P` in the state in which it arrives. -/
def AllSteps (step : σ → κ → σ) (P : σ → κ → Prop) : List κ → σ → Prop
  | [], _ => True
  | c :: cs, s => P s c ∧ AllSteps step P cs (step s c)

def AllSteps.decide [∀ s c, Decidable (P s c)] : ∀ cs s, Decidable (AllSteps step P cs s)
  | [], _ => isTrue trivial
  | c :: cs, s =>
    have := AllSteps.decide cs (step s c)
    inferInstanceAs (Decidable (P s c ∧ AllSteps step P cs (step s c)))

instance [∀ s c, Decidable (P s c)] (cs : List κ) (s : σ) : Decidable (AllSteps step P cs s) :=
  AllSteps.decide cs s

/-- `M` holds in every state of the run, the first one included. -/
def Throughout (step : σ → κ → σ) (M : σ → Prop) (cs : List κ) (s : σ) : Prop :=
  ∀ k, M ((cs.take k).foldl step s)

variable {M I : σ → Prop} {s : σ} {cs : List κ} {Q : σ → κ → Prop}

theorem throughout_nil : Throughout step M [] s ↔ M s := by
  simp [Throughout]

theorem throughout_cons {c : κ} :
    Throughout step M (c :: cs) s ↔ M s ∧ Throughout step M cs (step s c) := by
  constructor
  · intro h
    exact ⟨h 0, fun k => h (k + 1)⟩
  · rintro ⟨h₀, h⟩ k
    cases k with
    | zero => exact h₀
    | succ k => exact h k

/-- The inputs that meet `P` keep the invariant, so what it promises holds throughout the run. -/
theorem throughout_of_allSteps (hM : ∀ s, I s → M s) (hkeep : ∀ s c, I s → P s c → I (step s c))
    (hs : I s) (hP : AllSteps step P cs s) : Throughout step M cs s := by
  induction cs generalizing s with
  | nil => exact (throughout_nil).mpr (hM s hs)
  | cons c cs ih => exact (throughout_cons).mpr ⟨hM s hs, ih (hkeep s c hs hP.1) hP.2⟩

/--
The inputs that meet `R` and `P` keep the invariant, and one that misses `P`
breaks `M` at once; so `M` holds throughout a run exactly when its inputs meet `P`.
-/
theorem throughout_iff_allSteps (hM : ∀ s, I s → M s)
    (hkeep : ∀ s c, I s → R s c → P s c → I (step s c))
    (hbreak : ∀ s c, I s → R s c → ¬ P s c → ¬ M (step s c)) (hs : I s)
    (hR : AllSteps step R cs s) :
    Throughout step M cs s ↔ AllSteps step P cs s := by
  induction cs generalizing s with
  | nil => simp [throughout_nil, hM s hs, AllSteps]
  | cons c cs ih =>
      rw [throughout_cons, AllSteps]
      constructor
      · rintro ⟨-, h⟩
        have hP : P s c := by
          by_contra hP
          exact hbreak s c hs hR.1 hP (h 0)
        exact ⟨hP, (ih (hkeep s c hs hR.1 hP) hR.2).mp h⟩
      · rintro ⟨hP, h⟩
        exact ⟨hM s hs, (ih (hkeep s c hs hR.1 hP) hR.2).mpr h⟩

/--
The inputs that meet `R` and `P` keep the invariant and meet `Q`, and one that
misses `P` breaks `M` at once or misses `Q` too; so a run keeps to `M` and `Q`
exactly when its inputs meet `P`.
-/
theorem throughout_and_iff_allSteps (hM : ∀ s, I s → M s)
    (hkeep : ∀ s c, I s → R s c → P s c → I (step s c) ∧ Q s c)
    (hbreak : ∀ s c, I s → R s c → M (step s c) → Q s c → P s c) (hs : I s)
    (hR : AllSteps step R cs s) :
    Throughout step M cs s ∧ AllSteps step Q cs s ↔ AllSteps step P cs s := by
  induction cs generalizing s with
  | nil => simp [throughout_nil, hM s hs, AllSteps]
  | cons c cs ih =>
      rw [throughout_cons, AllSteps, AllSteps]
      constructor
      · rintro ⟨⟨-, hall⟩, hq, hqs⟩
        have hP := hbreak s c hs hR.1 (hall 0) hq
        exact ⟨hP, (ih (hkeep s c hs hR.1 hP).1 hR.2).mp ⟨hall, hqs⟩⟩
      · rintro ⟨hP, h⟩
        have hnext := hkeep s c hs hR.1 hP
        have hrest := (ih hnext.1 hR.2).mpr h
        exact ⟨⟨hM s hs, hrest.1⟩, hnext.2, hrest.2⟩

theorem AllSteps.and (hP : AllSteps step P cs s) (hR : AllSteps step R cs s) :
    AllSteps step (fun s c => P s c ∧ R s c) cs s := by
  induction cs generalizing s with
  | nil => trivial
  | cons c cs ih => exact ⟨⟨hP.1, hR.1⟩, ih hP.2 hR.2⟩

/-- Conditions that say the same where the invariant holds, which one of them keeps. -/
theorem allSteps_iff (hkeep : ∀ s c, I s → R s c → P s c → I (step s c))
    (hiff : ∀ s c, I s → R s c → (Q s c ↔ P s c)) (hs : I s) (hR : AllSteps step R cs s) :
    AllSteps step Q cs s ↔ AllSteps step P cs s := by
  induction cs generalizing s with
  | nil => exact Iff.rfl
  | cons c cs ih =>
      rw [AllSteps, AllSteps, hiff s c hs hR.1]
      exact and_congr_right fun hP => ih (hkeep s c hs hR.1 hP) hR.2

end Rustqlite.Foundation
