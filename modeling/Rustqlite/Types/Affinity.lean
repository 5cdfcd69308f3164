import Rustqlite.Types.Compare

/-!
# Affinity

Before two values are compared a column's affinity is applied to both of them.
-/

namespace Rustqlite

open Rustqlite.Foundation

inductive Affinity where
  | integer
  | text
  | blob
  | real
  | numeric
  deriving DecidableEq

/--
How numbers are written and read: the digits of a real that is not a zero, and
the number at the front of a text together with whether it is all of the text.
-/
structure Numerals where
  render : UInt64 → String
  numericPrefix : String → Option Value × Bool

namespace Numerals

def fpToText (n : Numerals) (r : UInt64) : String :=
  if Double.value r = 0 then "0.0" else n.render r

def numericValueOf (n : Numerals) (s : String) : Option Value :=
  match n.numericPrefix s with
  | (some v, true) => some v
  | _ => none

def toTextAffinity (n : Numerals) : Value → Value
  | .int i => .text (toString i)
  | .real r => .text (n.fpToText r)
  | v => v

def toNumericAffinity (n : Numerals) : Value → Value
  | .text s => (n.numericValueOf s).getD (.text s)
  | v => v

def applyAffinity (n : Numerals) (v : Value) : Affinity → Value
  | .text => n.toTextAffinity v
  | .integer | .real | .numeric => n.toNumericAffinity v
  | .blob => v

end Numerals

/-! ## The two zeros -/

def Value.SameNumber : Value → Value → Prop
  | .real r, .real r' => r = r' ∨ Double.value r = 0 ∧ Double.value r' = 0
  | v, v' => v = v'

@[simp] theorem Value.SameNumber.refl (v : Value) : v.SameNumber v := by
  cases v with
  | real r => exact .inl rfl
  | null | int _ | text _ | blob _ => rfl

theorem Value.SameNumber.cases {v v' : Value} (h : v.SameNumber v') : v = v' ∨
    ∃ r r', v = .real r ∧ v' = .real r' ∧ Double.value r = 0 ∧ Double.value r' = 0 := by
  cases v with
  | real r =>
      cases v' with
      | real r' => exact h.imp (congrArg Value.real) fun hzero => ⟨r, r', rfl, rfl, hzero⟩
      | null | int _ | text _ | blob _ => cases h
  | null | int _ | text _ | blob _ => exact .inl h

theorem Value.SameNumber.symm {v v' : Value} (h : v.SameNumber v') : v'.SameNumber v := by
  obtain rfl | ⟨r, r', rfl, rfl, hr, hr'⟩ := h.cases
  · exact .refl _
  · exact .inr ⟨hr', hr⟩

theorem Value.SameNumber.trans {u v w : Value} (h : u.SameNumber v) (h' : v.SameNumber w) :
    u.SameNumber w := by
  obtain rfl | ⟨r, r', rfl, rfl, hr, hr'⟩ := h.cases
  · exact h'
  · obtain rfl | ⟨x, y, hx, rfl, _, hy⟩ := h'.cases
    · exact h
    · exact .inr ⟨hr, hy⟩

theorem intFloatCompare_zero {r r' : UInt64} (h : Double.value r = 0) (h' : Double.value r' = 0)
    (i : Int64) : intFloatCompare i r = intFloatCompare i r' := by
  rw [intFloatCompare_eq (Double.isNaN_of_value h), intFloatCompare_eq (Double.isNaN_of_value h'),
    h, h']

theorem memCompare_congr {v v' : Value} (h : v.SameNumber v') (w : Value) (coll : Collation) :
    memCompare w v coll = memCompare w v' coll := by
  obtain rfl | ⟨r, r', rfl, rfl, hr, hr'⟩ := h.cases
  · rfl
  · cases w with
    | int i => exact intFloatCompare_zero hr hr' i
    | real x =>
        simp only [memCompare, Double.partialCmp, Double.isNaN_of_value hr,
          Double.isNaN_of_value hr', hr, hr']
    | null | text _ | blob _ => rfl

theorem Numerals.applyAffinity_congr {v v' : Value} (h : v.SameNumber v') (n : Numerals)
    (aff : Affinity) : (n.applyAffinity v aff).SameNumber (n.applyAffinity v' aff) := by
  obtain rfl | ⟨r, r', rfl, rfl, hr, hr'⟩ := h.cases
  · simp
  · cases aff with
    | text => simp only [Numerals.applyAffinity, Numerals.toTextAffinity, Numerals.fpToText,
          hr, hr',
        if_true, Value.SameNumber]
    | integer | blob | real | numeric => exact .inr ⟨hr, hr'⟩

/-! ## Turning a comparison around -/

theorem compareBytes_swap (a b : Bytes) : compareBytes b a = (compareBytes a b).swap := by
  rw [compareBytes_eq, compareBytes_eq]
  exact Std.OrientedCmp.eq_swap

theorem partialCmp_swap (x y : UInt64) : (Double.partialCmp y x).getD .eq =
    ((Double.partialCmp x y).getD .eq).swap := by
  rw [Double.partialCmp, Double.partialCmp, Bool.or_comm]
  split_ifs
  · rfl
  · simp only [Option.getD_some]
    exact Std.OrientedCmp.eq_swap

theorem memCompare_swap (v w : Value) (coll : Collation) :
    memCompare w v coll = (memCompare v w coll).swap := by
  cases v with
  | null => cases w <;> rfl
  | int i =>
      cases w with
      | int j =>
          simp only [memCompare, Int.compare_swap]
      | null | real _ | text _ | blob _ => rfl
  | real r =>
      cases w with
      | int j => exact Ordering.swap_swap.symm
      | real r' => exact partialCmp_swap r r'
      | null | text _ | blob _ => rfl
  | text s =>
      cases w with
      | text s' =>
          simp only [memCompare, Collation.compare_eq]
          exact compareBytes_swap _ _
      | null | int _ | real _ | blob _ => rfl
  | blob b =>
      cases w with
      | blob b' => exact compareBytes_swap b b'
      | null | int _ | real _ | text _ => rfl

theorem memCompare_self (v : Value) (coll : Collation) : memCompare v v coll = .eq := by
  have hswap := memCompare_swap v v coll
  cases h : memCompare v v coll <;> rw [h] at hswap <;> first | rfl | cases hswap

end Rustqlite
