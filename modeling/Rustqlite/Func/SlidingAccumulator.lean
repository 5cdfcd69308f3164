import Rustqlite.Foundation.Run
import Rustqlite.Func.Accumulator

/-!
# Accumulators of sliding frames

Rows come into a frame one after another, and the oldest one in it goes out
again.  An accumulator that follows the frame is compared with one that is
begun anew and sees the rows that are left.
-/

namespace Rustqlite.Func.Accumulator

open Foundation

/-! ## Frames -/

inductive Call where
  | step (args : List Value)
  | inverse

/-- The accumulator, which a panic loses, and the rows that are in its frame. -/
structure Sliding where
  acc : Option Accumulator
  frame : List (List Value)

/-- What is asked of a row that comes in, and of the oldest row, which goes out. -/
structure Terms where
  step : Accumulator → List (List Value) → List Value → Prop
  inverse : Accumulator → List Value → List (List Value) → Prop

namespace Sliding

def start (kind : AggregateKind) : Sliding := ⟨some (new kind), []⟩

def call (R : RealArithmetic) (star : Bool) (s : Sliding) : Call → Sliding
  | .step args => ⟨s.acc.map (·.step R args star), s.frame ++ [args]⟩
  | .inverse =>
      match s.frame with
      | [] => s
      | args :: rest => ⟨s.acc.bind (·.inverse R args star), rest⟩

def Meets (t : Terms) (s : Sliding) : Call → Prop
  | .step args => ∀ acc ∈ s.acc, t.step acc s.frame args
  | .inverse => ∀ acc ∈ s.acc, ∀ args rest, s.frame = args :: rest → t.inverse acc args rest

def Follows (I : Accumulator → List (List Value) → Prop) (s : Sliding) : Prop :=
  ∃ acc, s.acc = some acc ∧ I acc s.frame

theorem Follows.call (R : RealArithmetic) (star : Bool)
    {I : Accumulator → List (List Value) → Prop} {t : Terms}
    (hstep : ∀ acc frame args, I acc frame → t.step acc frame args →
      I (acc.step R args star) (frame ++ [args]))
    (hinverse : ∀ acc args rest, I acc (args :: rest) → t.inverse acc args rest →
      ∃ acc', acc.inverse R args star = some acc' ∧ I acc' rest)
    (s : Sliding) (c : Call) (h : s.Follows I) (hc : s.Meets t c) :
    (s.call R star c).Follows I := by
  obtain ⟨_, frame⟩ := s
  obtain ⟨acc, rfl, hI⟩ := h
  cases c with
  | step args => exact ⟨_, rfl, hstep acc frame args hI (hc acc rfl)⟩
  | inverse =>
      cases frame with
      | nil => exact ⟨acc, rfl, hI⟩
      | cons args rest => exact hinverse acc args rest hI (hc acc rfl args rest rfl)

end Sliding

def fresh (R : RealArithmetic) (star : Bool) (kind : AggregateKind) (rows : List (List Value)) :
    Accumulator :=
  rows.foldl (fun acc args => acc.step R args star) (new kind)

/-- The accumulator tells what one begun anew on the rows of the frame tells. -/
def Sliding.Lawful (R : RealArithmetic) (star : Bool) (kind : AggregateKind) (s : Sliding) : Prop :=
  s.acc.map (·.value R) = some ((fresh R star kind s.frame).value R)

theorem fresh_concat (R : RealArithmetic) (star : Bool) (kind : AggregateKind)
    (rows : List (List Value)) (args : List Value) :
    fresh R star kind (rows ++ [args]) = (fresh R star kind rows).step R args star := by
  rw [fresh, List.foldl_append]
  rfl

structure Live (kind : AggregateKind) (acc : Accumulator) : Prop where
  kind_eq : acc.kind = kind
  going : acc.finalized = false

theorem live_new (kind : AggregateKind) : Live kind (new kind) := ⟨rfl, rfl⟩

def Skips (args : List Value) : Prop := argument args = none

instance (args : List Value) : Decidable (Skips args) :=
  inferInstanceAs (Decidable (argument args = none))

variable {R : RealArithmetic} {star : Bool} {acc : Accumulator} {args : List Value}

/-! ## Counting -/

theorem step_count (h : Live .count acc) : acc.step R args star =
    if star || (argument args).isSome then { acc with count := acc.count + 1 } else acc := by
  simp only [step, h.going, h.kind_eq, Bool.false_eq_true, if_false]

theorem inverse_count (h : Live .count acc) : acc.inverse R args star =
    some (if star || (argument args).isSome then { acc with count := acc.count - 1 } else acc) := by
  simp only [inverse, h.going, h.kind_eq, Bool.false_eq_true, if_false]

def tally (star : Bool) (rows : List (List Value)) : Nat :=
  rows.countP fun args => star || (argument args).isSome

theorem tally_concat (rows : List (List Value)) : tally star (rows ++ [args]) =
    tally star rows + if star || (argument args).isSome then 1 else 0 := by
  rw [tally, List.countP_append, List.countP_singleton, tally]

theorem tally_cons (rows : List (List Value)) : tally star (args :: rows) =
    tally star rows + if star || (argument args).isSome then 1 else 0 := by
  rw [tally, List.countP_cons, tally]

structure Counted (star : Bool) (acc : Accumulator) (rows : List (List Value)) : Prop
    extends Live .count acc where
  count_eq : acc.count = tally star rows

theorem Counted.step {rows : List (List Value)} (h : Counted star acc rows) :
    Counted star (acc.step R args star) (rows ++ [args]) := by
  rw [step_count h.toLive]
  split_ifs with hc
  · exact ⟨⟨h.kind_eq, h.going⟩, by simp [tally_concat, hc, h.count_eq]⟩
  · exact ⟨h.toLive, by simp [tally_concat, hc, h.count_eq]⟩

variable {rest rows : List (List Value)} {s : Sliding} {i a b c : Int64} {t : Int} {v : Value}

theorem Counted.inverse (h : Counted star acc (args :: rest)) :
    ∃ acc', acc.inverse R args star = some acc' ∧ Counted star acc' rest := by
  refine ⟨_, inverse_count h.toLive, ?_⟩
  split_ifs with hc
  · exact ⟨⟨h.kind_eq, h.going⟩, by simp [h.count_eq, tally_cons, hc]⟩
  · exact ⟨h.toLive, by simp [h.count_eq, tally_cons, hc]⟩

theorem counted_fresh (rows : List (List Value)) :
    Counted star (fresh R star .count rows) rows := by
  induction rows using List.reverseRecOn with
  | nil => exact ⟨live_new _, rfl⟩
  | append_singleton rows args ih =>
      rw [fresh_concat]
      exact ih.step

/-- A counter follows its frame whatever comes. -/
def countTerms : Terms := ⟨fun _ _ _ => True, fun _ _ _ => True⟩

theorem lawful_of_counted (h : s.Follows (Counted star)) : s.Lawful R star .count := by
  obtain ⟨acc, hacc, hcounted⟩ := h
  have hfresh : Counted star (fresh R star .count s.frame) s.frame := counted_fresh s.frame
  rw [Sliding.Lawful, hacc]
  simp only [Option.map_some, value, hcounted.kind_eq, hcounted.count_eq, hfresh.kind_eq,
    hfresh.count_eq]

/-! ## Sums of integers -/

def IntegerRow (args : List Value) : Prop :=
  match argument args with
  | none | some (.int _) => True
  | _ => False

def amount (args : List Value) : Int :=
  match argument args with
  | some (.int i) => i.toInt
  | _ => 0

def sumOf (rows : List (List Value)) : Int := (rows.map amount).sum

/-- No sum on the way from `t` over the rows leaves 64 bits. -/
def RunningSumsFit (t : Int) : List (List Value) → Prop
  | [] => True
  | args :: rows => fitsInt64 (t + amount args) ∧ RunningSumsFit (t + amount args) rows

theorem IntegerRow.cases (h : IntegerRow args) :
    Skips args ∨ ∃ i, argument args = some (.int i) := by
  unfold IntegerRow at h
  split at h
  · exact .inl ‹_›
  · exact .inr ⟨_, ‹_›⟩
  · cases h

theorem amount_of_skips (h : Skips args) : amount args = 0 := by
  rw [amount, h]

theorem amount_of_int (h : argument args = some (.int i)) : amount args = i.toInt := by
  rw [amount, h]

theorem toInt_ofInt_of_fits {n : Int} (h : fitsInt64 n) : (Int64.ofInt n).toInt = n := by
  rw [fitsInt64, decide_eq_true_eq] at h
  exact Int64.toInt_ofInt_of_le (by omega) (by omega)

theorem fits_sumOf (ht : fitsInt64 t) (h : RunningSumsFit t rows) : fitsInt64 (t + sumOf rows) := by
  induction rows generalizing t with
  | nil => simpa [sumOf] using ht
  | cons args rows ih =>
      have hrest := ih h.1 h.2
      rw [add_assoc] at hrest
      exact hrest

theorem runningSumsFit_of_skips (ht : fitsInt64 t) (h : ∀ args ∈ rows, Skips args) :
    RunningSumsFit t rows := by
  induction rows with
  | nil => trivial
  | cons args rows ih =>
      have hrows := ih fun x hx => h x (List.mem_cons_of_mem _ hx)
      rw [RunningSumsFit, amount_of_skips (h args List.mem_cons_self), add_zero]
      exact ⟨ht, hrows⟩

theorem tally_eq_zero : tally false rows = 0 ↔ ∀ args ∈ rows, Skips args := by
  simp [tally, Skips, List.countP_eq_zero]

/-! ### One row -/

theorem step_of_skips (h : Live .sum acc) (hs : Skips args) : acc.step R args star = acc := by
  unfold Skips at hs
  simp only [step, h.going, h.kind_eq, hs, Bool.false_eq_true, if_false]

theorem inverse_of_skips (h : Live .sum acc) (hs : Skips args) :
    acc.inverse R args star = some acc := by
  unfold Skips at hs
  simp only [inverse, h.going, h.kind_eq, hs, Bool.false_eq_true, if_false]

theorem step_sum (h : Live .sum acc) (hv : argument args = some v) :
    acc.step R args star =
      moveSum R.toNumerals checkedAdd R.add { acc with count := acc.count + 1 } v := by
  simp only [step, h.going, h.kind_eq, hv, Bool.false_eq_true, if_false]

theorem inverse_sum (h : Live .sum acc) (hv : argument args = some v) :
    acc.inverse R args star =
      some (moveSum R.toNumerals checkedSub R.sub { acc with count := acc.count - 1 } v) := by
  simp only [inverse, h.going, h.kind_eq, hv, Bool.false_eq_true, if_false]

section

variable {n : Numerals} {checked : Int64 → Int64 → Option Int64} {real : UInt64 → UInt64 → UInt64}

attribute [local simp] moveSum moveInt

theorem live_moveSum {kind : AggregateKind} (h : Live kind acc) :
    Live kind (moveSum n checked real acc (.int i)) := by
  simp only [moveSum, moveInt]
  split_ifs
  · exact ⟨h.kind_eq, h.going⟩
  · split <;> exact ⟨h.kind_eq, h.going⟩

theorem count_moveSum : (moveSum n checked real acc (.int i)).count = acc.count := by
  simp only [moveSum, moveInt]
  split_ifs
  · rfl
  · split <;> rfl

/-- What stays an integer was one, and the 64 bits held the result. -/
theorem sumI_moveSum (h : (moveSum n checked real acc (.int i)).hasReal = false) :
    acc.hasReal = false ∧
      checked acc.sumI i = some (moveSum n checked real acc (.int i)).sumI := by
  simp only [moveSum, moveInt] at h ⊢
  split_ifs at h ⊢ with hreal
  · simp_all
  · split at h
    · rename_i newI hnew
      simp only [hnew, Bool.not_eq_true] at hreal ⊢
      exact ⟨hreal, trivial⟩
    · cases h

theorem hasReal_moveSum {newI : Int64} (h : acc.hasReal = false)
    (hchecked : checked acc.sumI i = some newI) :
    (moveSum n checked real acc (.int i)).hasReal = false := by
  simp only [moveSum, moveInt, h, hchecked, Bool.false_eq_true, if_false]

end

theorem toInt_checkedAdd (h : checkedAdd a b = some c) : c.toInt = a.toInt + b.toInt := by
  unfold checkedAdd at h
  split_ifs at h with hfits
  cases h
  exact toInt_ofInt_of_fits hfits

theorem toInt_checkedSub (h : checkedSub a b = some c) : c.toInt = a.toInt - b.toInt := by
  unfold checkedSub at h
  split_ifs at h with hfits
  cases h
  exact toInt_ofInt_of_fits hfits

/-! ### The same sum -/

structure SameSum (a b : Accumulator) : Prop where
  hasReal_eq : a.hasReal = b.hasReal
  sumR_eq : a.hasReal = true → a.sumR = b.sumR
  sumI_eq : a.hasReal = false → a.sumI = b.sumI

theorem SameSum.moveSum {n : Numerals} {checked : Int64 → Int64 → Option Int64}
    {real : UInt64 → UInt64 → UInt64} {a b : Accumulator} {i : Int64} (h : SameSum a b) :
    SameSum (moveSum n checked real a (.int i)) (moveSum n checked real b (.int i)) := by
  have hreal := h.hasReal_eq
  simp only [Accumulator.moveSum, moveInt]
  cases ha : a.hasReal with
  | true =>
      have hsum := h.sumR_eq ha
      simp only [← hreal, ha, if_true, hsum]
      exact ⟨rfl, fun _ => rfl, fun hf => by simp at hf⟩
  | false =>
      have hsum := h.sumI_eq ha
      simp only [← hreal, ha, hsum, Bool.false_eq_true, if_false]
      cases checked b.sumI i with
      | none => exact ⟨rfl, fun _ => rfl, fun hf => by simp at hf⟩
      | some newI => exact ⟨rfl, fun hf => by simp at hf, fun _ => rfl⟩

/-! ### Following the frame -/

variable (R star) in
theorem foldl_step_sum (h : Live .sum acc) (hreal : acc.hasReal = false)
    (hints : ∀ args ∈ rows, IntegerRow args) (hfit : RunningSumsFit acc.sumI.toInt rows) :
    (rows.foldl (fun a r => a.step R r star) acc).hasReal = false ∧
      (rows.foldl (fun a r => a.step R r star) acc).sumI.toInt = acc.sumI.toInt + sumOf rows := by
  induction rows generalizing acc with
  | nil => simpa [sumOf] using hreal
  | cons args rows ih =>
      have hrows := fun x hx => hints x (List.mem_cons_of_mem args hx)
      rw [List.foldl_cons]
      rcases (hints args List.mem_cons_self).cases with hs | ⟨i, hi⟩
      · rw [step_of_skips h hs]
        have htail := hfit.2
        rw [amount_of_skips hs, add_zero] at htail
        simpa [sumOf, amount_of_skips hs] using ih h hreal hrows htail
      · have hfits := hfit.1
        have htail := hfit.2
        rw [amount_of_int hi] at hfits htail
        have hadd : checkedAdd acc.sumI i = some (Int64.ofInt (acc.sumI.toInt + i.toInt)) :=
          if_pos hfits
        rw [step_sum h hi]
        have hstays : (moveSum R.toNumerals checkedAdd R.add { acc with count := acc.count + 1 }
            (.int i)).hasReal = false := hasReal_moveSum hreal hadd
        have hnew := toInt_checkedAdd (sumI_moveSum hstays).2
        have hlive : Live .sum { acc with count := acc.count + 1 } := ⟨h.kind_eq, h.going⟩
        have hrest := ih (live_moveSum hlive) hstays hrows (by rw [hnew]; exact htail)
        refine ⟨hrest.1, ?_⟩
        rw [hrest.2, hnew]
        simp [sumOf, amount_of_int hi, add_assoc]

/--
The accumulator of a frame: while it is an integer it is the sum of the rows,
and it is what one begun anew would hold, unless it went over to a real and no
row is left that counts.
-/
structure Summed (R : RealArithmetic) (star : Bool) (acc : Accumulator)
    (rows : List (List Value)) : Prop extends Live .sum acc where
  ints : ∀ args ∈ rows, IntegerRow args
  count_eq : acc.count = tally false rows
  exact : acc.hasReal = false → acc.sumI.toInt = sumOf rows
  same : SameSum acc (fresh R star .sum rows) ∨ acc.hasReal = true ∧ tally false rows = 0

/--
A row that counts does not come to a real sum of nothing; one that goes out and
leaves others behind leaves an integer, and sums of the others that fit.
-/
def sumTerms : Terms where
  step acc frame args := Skips args ∨ tally false frame ≠ 0 ∨ acc.hasReal = false
  inverse acc args rest :=
    Skips args ∨ tally false rest = 0 ∨ acc.hasReal = false ∧ RunningSumsFit 0 rest

variable (R star) in
theorem live_fresh_sum (rows : List (List Value)) (hints : ∀ args ∈ rows, IntegerRow args) :
    Live .sum (fresh R star .sum rows) ∧ (fresh R star .sum rows).count = tally false rows := by
  induction rows using List.reverseRecOn with
  | nil => exact ⟨live_new _, rfl⟩
  | append_singleton rows args ih =>
      have hrows := ih fun x hx => hints x (List.mem_append_left _ hx)
      rw [fresh_concat]
      rcases (hints args (by simp)).cases with hs | ⟨i, hi⟩
      · rw [step_of_skips hrows.1 hs]
        unfold Skips at hs
        simpa [tally_concat, hs] using hrows
      · rw [step_sum hrows.1 hi]
        refine ⟨live_moveSum ⟨hrows.1.kind_eq, hrows.1.going⟩, ?_⟩
        rw [count_moveSum]
        simp [tally_concat, hi, hrows.2]

theorem Summed.step {rows : List (List Value)} (h : Summed R star acc rows)
    (hint : IntegerRow args) (ht : sumTerms.step acc rows args) :
    Summed R star (acc.step R args star) (rows ++ [args]) := by
  have hints : ∀ x ∈ rows ++ [args], IntegerRow x := by
    simpa [or_imp, forall_and] using ⟨h.ints, hint⟩
  have hfresh := live_fresh_sum R star rows h.ints
  rcases hint.cases with hs | ⟨i, hi⟩
  · have hcount : tally false (rows ++ [args]) = tally false rows := by
      unfold Skips at hs
      simp [tally_concat, hs]
    rw [step_of_skips h.toLive hs]
    refine ⟨h.toLive, hints, hcount ▸ h.count_eq, ?_, ?_⟩
    · intro hreal
      simpa [sumOf, amount_of_skips hs] using h.exact hreal
    · rw [fresh_concat, step_of_skips hfresh.1 hs, hcount]
      exact h.same
  · rw [step_sum h.toLive hi]
    refine ⟨live_moveSum ⟨h.kind_eq, h.going⟩, hints, ?_, ?_, .inl ?_⟩
    · rw [count_moveSum]
      simp [tally_concat, hi, h.count_eq]
    · intro hreal
      obtain ⟨hbefore, hadd⟩ := sumI_moveSum hreal
      rw [toInt_checkedAdd hadd, h.exact hbefore]
      simp [sumOf, amount_of_int hi]
    · have hsame : SameSum acc (fresh R star .sum rows) := by
        rcases h.same with hsame | ⟨hreal, hnone⟩
        · exact hsame
        · rcases ht with hs | hsome | hint
          · rw [Skips, hi] at hs
            cases hs
          · exact absurd hnone hsome
          · rw [hint] at hreal
            cases hreal
      rw [fresh_concat, step_sum hfresh.1 hi]
      exact SameSum.moveSum ⟨hsame.hasReal_eq, hsame.sumR_eq, hsame.sumI_eq⟩

theorem Summed.inverse (h : Summed R star acc (args :: rest))
    (ht : sumTerms.inverse acc args rest) :
    ∃ acc', acc.inverse R args star = some acc' ∧ Summed R star acc' rest := by
  have hints := fun x hx => h.ints x (List.mem_cons_of_mem args hx)
  rcases (h.ints args List.mem_cons_self).cases with hs | ⟨i, hi⟩
  · have hcount : tally false (args :: rest) = tally false rest := by
      unfold Skips at hs
      simp [tally_cons, hs]
    have hfresh : fresh R star .sum (args :: rest) = fresh R star .sum rest := by
      rw [fresh, List.foldl_cons, step_of_skips (live_new _) hs, fresh]
    refine ⟨acc, inverse_of_skips h.toLive hs, h.toLive, hints, hcount ▸ h.count_eq, ?_, ?_⟩
    · intro hreal
      simpa [sumOf, amount_of_skips hs] using h.exact hreal
    · rw [← hfresh, ← hcount]
      exact h.same
  · refine ⟨_, inverse_sum h.toLive hi, live_moveSum ⟨h.kind_eq, h.going⟩, hints, ?_, ?_, ?_⟩
    · rw [count_moveSum]
      simp [h.count_eq, tally_cons, hi]
    · intro hreal
      obtain ⟨hbefore, hsub⟩ := sumI_moveSum hreal
      rw [toInt_checkedSub hsub, h.exact hbefore]
      simp [sumOf, amount_of_int hi]
    · have hterms : tally false rest = 0 ∨ acc.hasReal = false ∧ RunningSumsFit 0 rest := by
        rcases ht with hs | ht
        · rw [Skips, hi] at hs
          cases hs
        · exact ht
      rcases Bool.eq_false_or_eq_true acc.hasReal with hreal | hreal
      · refine .inr ⟨?_, by simpa [hreal] using hterms⟩
        by_contra hfalse
        have hbefore := (sumI_moveSum (Bool.eq_false_iff.mpr hfalse)).1
        rw [hreal] at hbefore
        cases hbefore
      · have hfit : RunningSumsFit 0 rest := by
          rcases hterms with hnone | ⟨-, hfit⟩
          · exact runningSumsFit_of_skips (by decide) ((tally_eq_zero).mp hnone)
          · exact hfit
        have hleft : acc.sumI.toInt - i.toInt = sumOf rest := by
          rw [h.exact hreal]
          simp [sumOf, amount_of_int hi]
        have hsum := fits_sumOf (by decide) hfit
        rw [zero_add, ← hleft] at hsum
        have hsub : checkedSub acc.sumI i = some (Int64.ofInt (acc.sumI.toInt - i.toInt)) :=
          if_pos hsum
        have hstays : (moveSum R.toNumerals checkedSub R.sub { acc with count := acc.count - 1 }
            (.int i)).hasReal = false := hasReal_moveSum hreal hsub
        have hanew := foldl_step_sum R star (live_new .sum) rfl hints hfit
        refine .inl ⟨hstays.trans hanew.1.symm, ?_, ?_⟩
        · intro htrue
          rw [hstays] at htrue
          cases htrue
        · intro
          refine Int64.toInt_inj.mp ?_
          rw [toInt_checkedSub (sumI_moveSum hstays).2, hleft, fresh, hanew.2]
          exact (zero_add _).symm

theorem lawful_of_summed (h : s.Follows (Summed R star)) : s.Lawful R star .sum := by
  obtain ⟨acc, hacc, hsummed⟩ := h
  have hfresh := live_fresh_sum R star s.frame hsummed.ints
  rw [Sliding.Lawful, hacc]
  simp only [Option.map_some, value, hsummed.kind_eq, hsummed.count_eq, hfresh.1.kind_eq, hfresh.2,
    Option.some.injEq]
  rcases hsummed.same with hsame | ⟨-, hnone⟩
  · rw [← hsame.hasReal_eq]
    split_ifs with hzero hreal
    · rfl
    · rw [hsame.sumR_eq hreal]
    · rw [hsame.sumI_eq (Bool.eq_false_iff.mpr hreal)]
  · simp [hnone]

end Rustqlite.Func.Accumulator
