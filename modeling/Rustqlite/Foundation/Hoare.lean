import Rustqlite.Foundation.Storage

/-!
# Pre- and postconditions

A program ends with a value or stops with an error; a triple says what holds of
the state in either case.  Failing file operations are errors like any other.
-/

namespace Rustqlite.Foundation.FileM

variable {ε F σ α β : Type} [DecidableEq F]

/-- From a state with `P`, the program ends in one with `Q` or stops in one with `E`. -/
def Triple (P : σ × World F → Prop) (m : FileM ε F σ α) (Q : α → σ × World F → Prop)
    (E : σ × World F → Prop) : Prop :=
  ∀ p, P p → match m p with
    | .ok a q => Q a q
    | .error _ q => E q

def Keeps (I : σ × World F → Prop) (m : FileM ε F σ α) : Prop := Triple I m (fun _ => I) I

/-- The state that a program leaves behind, with or without an error. -/
def after (m : FileM ε F σ α) (p : σ × World F) : σ × World F :=
  match m p with
  | .ok _ q => q
  | .error _ q => q

def endsWith (m : FileM ε F σ α) (p : σ × World F) (test : α → σ × World F → Bool) : Bool :=
  match m p with
  | .ok a q => test a q
  | .error _ _ => false

omit [DecidableEq F] in
theorem exists_of_endsWith (m : FileM ε F σ α) (p : σ × World F)
    (test : α → σ × World F → Bool) (h : endsWith m p test = true) :
    ∃ a q, m p = .ok a q ∧ test a q = true := by
  rw [endsWith] at h
  cases hm : m p with
  | ok a q => exact ⟨a, q, rfl, by rwa [hm] at h⟩
  | error e q => simp [hm] at h

namespace Triple

variable {P P' : σ × World F → Prop} {m : FileM ε F σ α} {f : α → FileM ε F σ β}
  {Q Q' : α → σ × World F → Prop} {R : β → σ × World F → Prop} {E E' : σ × World F → Prop}

omit [DecidableEq F] in
theorem conseq (h : Triple P m Q E) (hP : ∀ p, P' p → P p) (hQ : ∀ a p, Q a p → Q' a p)
    (hE : ∀ p, E p → E' p) : Triple P' m Q' E' := by
  intro p hp
  have := h p (hP p hp)
  split at this
  · exact hQ _ _ this
  · exact hE _ this

omit [DecidableEq F] in
theorem pure {a : α} (h : ∀ p, P p → Q a p) : Triple P (pure a : FileM ε F σ α) Q E :=
  fun p hp => h p hp

omit [DecidableEq F] in
theorem throw {e : ε} (h : ∀ p, P p → E p) : Triple P (throw e : FileM ε F σ α) Q E :=
  fun p hp => h p hp

omit [DecidableEq F] in
theorem bind (hm : Triple P m Q E) (hf : ∀ a, Triple (Q a) (f a) R E) :
    Triple P (m >>= f) R E := by
  intro p hp
  have h := hm p hp
  cases hmp : m p with
  | ok a q =>
      rw [hmp] at h
      rw [bind_ok hmp]
      exact hf a q h
  | error e q =>
      rw [hmp] at h
      rw [bind_error hmp]
      exact h

omit [DecidableEq F] in
theorem getState {P : σ × World F → Prop} {Q : σ → σ × World F → Prop}
    {E : σ × World F → Prop} (h : ∀ p, P p → Q p.1 p) :
    Triple P (getState : FileM ε F σ σ) Q E :=
  fun p hp => h p hp

omit [DecidableEq F] in
theorem modifyState {g : σ → σ} {Q : Unit → σ × World F → Prop}
    (h : ∀ p, P p → Q () (g p.1, p.2)) :
    Triple P (modifyState g : FileM ε F σ Unit) Q E :=
  fun p hp => h p hp

theorem perform {e : ε} {op : FileOp F} {Q : Unit → σ × World F → Prop}
    (hok : ∀ p, P p → Q () (p.1, p.2.apply op))
    (hfail : ∀ p, P p → p.2.failAt = some 0 → E (p.1, { p.2 with failAt := none })) :
    Triple P (perform e op) Q E := by
  intro p hp
  by_cases h : p.2.failAt = some 0
  · rw [perform_fail e op p.1 h]
    exact hfail p hp h
  · rw [perform_ok e op p.1 h]
    exact hok p hp

theorem contents {e : ε} {f : F} {Q : Option Bytes → σ × World F → Prop}
    (hok : ∀ p, P p → Q (p.2.disk f) (p.1, p.2.apply (.probe f)))
    (hfail : ∀ p, P p → p.2.failAt = some 0 → E (p.1, { p.2 with failAt := none })) :
    Triple P (contents e f) Q E := by
  refine bind (perform (Q := fun _ q => Q (q.2.disk f) q) ?_ hfail) ?_
  · intro p hp
    exact hok p hp
  · intro _ p hp
    exact hp

omit [DecidableEq F] in
theorem attempt {m : FileM ε F σ Unit} {Q : Unit → σ × World F → Prop}
    (h : Triple P m Q (Q ())) : Triple P (attempt m) Q E := by
  intro p hp
  have := h p hp
  rw [FileM.attempt]
  cases hm : m p with
  | ok a q => rwa [hm] at this
  | error e q => rwa [hm] at this

omit [DecidableEq F] in
theorem after {I : σ × World F → Prop} (h : Triple P m (fun _ => I) I) {p : σ × World F}
    (hp : P p) : I (after m p) := by
  have := h p hp
  rw [FileM.after]
  cases hm : m p with
  | ok a q => rwa [hm] at this
  | error e q => rwa [hm] at this

end Triple

namespace Keeps

variable {I : σ × World F → Prop} {m : FileM ε F σ α} {f : α → FileM ε F σ β}

omit [DecidableEq F] in
theorem bind (hm : Keeps I m) (hf : ∀ a, Keeps I (f a)) : Keeps I (m >>= f) :=
  Triple.bind hm hf

omit [DecidableEq F] in
theorem pure (a : α) : Keeps I (pure a : FileM ε F σ α) := Triple.pure fun _ h => h

omit [DecidableEq F] in
theorem throw (e : ε) : Keeps I (throw e : FileM ε F σ α) := Triple.throw fun _ h => h

omit [DecidableEq F] in
theorem ite {c : Prop} [Decidable c] {m m' : FileM ε F σ α} (h : Keeps I m) (h' : Keeps I m') :
    Keeps I (if c then m else m') := by
  split
  · exact h
  · exact h'

omit [DecidableEq F] in
theorem getState : Keeps I (getState : FileM ε F σ σ) := Triple.getState fun _ h => h

omit [DecidableEq F] in
theorem of_ok (h : Keeps I m) {p q : σ × World F} {a : α} (hp : I p) (hm : m p = .ok a q) :
    I q := by
  have := h p hp
  rwa [hm] at this

end Keeps

end Rustqlite.Foundation.FileM
