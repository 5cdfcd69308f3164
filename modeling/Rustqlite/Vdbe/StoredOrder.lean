import Rustqlite.Format.Record
import Rustqlite.Types.Affinity

/-!
# The order of stored values

Every pattern of 64 bits can be stored as a real, so a record can hold a NaN.
A NaN agrees with every real and is below every integer, which only fits in
one order with values that do the same.
-/

namespace Rustqlite

open Rustqlite.Foundation Double Format

/-- What a comparison must be for a set of values to be sorted and searched by it. -/
structure PreorderOn {α : Type} (cmp : α → α → Ordering) (S : Set α) : Prop where
  refl : ∀ a ∈ S, cmp a a = .eq
  total : ∀ a ∈ S, ∀ b ∈ S, (cmp a b).isLE ∨ (cmp b a).isLE
  trans : ∀ a ∈ S, ∀ b ∈ S, ∀ c ∈ S, (cmp a b).isLE → (cmp b c).isLE → (cmp a c).isLE
  swap : ∀ a ∈ S, ∀ b ∈ S, cmp b a = (cmp a b).swap

theorem PreorderOn.of_places {α β : Type} {cmp : α → α → Ordering} {S : Set α}
    (cmp' : β → β → Ordering) [Std.TransCmp cmp'] (place : α → β)
    (h : ∀ a ∈ S, ∀ b ∈ S, cmp a b = cmp' (place a) (place b)) : PreorderOn cmp S where
  refl a ha := (h a ha a ha).trans Std.ReflCmp.compare_self
  total a ha b hb := by
    have hswap : cmp' (place b) (place a) = (cmp' (place a) (place b)).swap :=
      Std.OrientedCmp.eq_swap
    rw [h a ha b hb, h b hb a ha, hswap]
    cases cmp' (place a) (place b) <;> simp
  trans a ha b hb c hc hab hbc := by
    rw [h a ha b hb] at hab
    rw [h b hb c hc] at hbc
    rw [h a ha c hc]
    exact Std.TransCmp.isLE_trans hab hbc
  swap a ha b hb := by
    rw [h a ha b hb, h b hb a ha]
    exact Std.OrientedCmp.eq_swap

/-! ## Preorders from others -/

section Preorder

variable {α β : Type} {cmp cmp' : α → α → Ordering} {S : Set α}

theorem PreorderOn.transCmp (h : PreorderOn cmp S) :
    Std.TransCmp fun a b : S => cmp a.1 b.1 where
  eq_swap {a b} := h.swap b.1 b.2 a.1 a.2
  isLE_trans {a b c} := h.trans a.1 a.2 b.1 b.2 c.1 c.2

theorem PreorderOn.of_transCmp (h : Std.TransCmp fun a b : S => cmp a.1 b.1) :
    PreorderOn cmp S where
  refl a ha := @Std.ReflCmp.compare_self _ (fun a b : S => cmp a.1 b.1) _ ⟨a, ha⟩
  total a ha b hb := by
    rw [show cmp b a = (cmp a b).swap from h.eq_swap (a := ⟨b, hb⟩) (b := ⟨a, ha⟩)]
    cases cmp a b <;> simp
  trans a ha b hb c hc := h.isLE_trans (a := ⟨a, ha⟩) (b := ⟨b, hb⟩) (c := ⟨c, hc⟩)
  swap a ha b hb := h.eq_swap (a := ⟨b, hb⟩) (b := ⟨a, ha⟩)

theorem PreorderOn.lex (h : PreorderOn cmp S) (h' : PreorderOn cmp' S) :
    PreorderOn (fun a b => (cmp a b).then (cmp' a b)) S := by
  have := h.transCmp
  have := h'.transCmp
  exact .of_transCmp (inferInstanceAs
    (Std.TransCmp (compareLex (fun a b : S => cmp a.1 b.1) fun a b : S => cmp' a.1 b.1)))

theorem PreorderOn.reverse (h : PreorderOn cmp S) : PreorderOn (fun a b => (cmp a b).swap) S where
  refl a ha := by rw [h.refl a ha]; rfl
  total a ha b hb := by
    rw [← h.swap a ha b hb, ← h.swap b hb a ha]
    exact h.total b hb a ha
  trans a ha b hb c hc := by
    rw [← h.swap a ha b hb, ← h.swap b hb c hc, ← h.swap a ha c hc]
    exact fun hab hbc => h.trans c hc b hb a ha hbc hab
  swap a ha b hb := by rw [h.swap a ha b hb]

theorem PreorderOn.comap (f : β → α) {T : Set β} (h : PreorderOn cmp S) (hf : ∀ b ∈ T, f b ∈ S) :
    PreorderOn (fun a b => cmp (f a) (f b)) T where
  refl a ha := h.refl _ (hf a ha)
  total a ha b hb := h.total _ (hf a ha) _ (hf b hb)
  trans a ha b hb c hc := h.trans _ (hf a ha) _ (hf b hb) _ (hf c hc)
  swap a ha b hb := h.swap _ (hf a ha) _ (hf b hb)

theorem PreorderOn.congr (h : PreorderOn cmp S) (heq : ∀ a ∈ S, ∀ b ∈ S, cmp' a b = cmp a b) :
    PreorderOn cmp' S where
  refl a ha := (heq a ha a ha).trans (h.refl a ha)
  total a ha b hb := by
    rw [heq a ha b hb, heq b hb a ha]
    exact h.total a ha b hb
  trans a ha b hb c hc := by
    rw [heq a ha b hb, heq b hb c hc, heq a ha c hc]
    exact h.trans a ha b hb c hc
  swap a ha b hb := by
    rw [heq a ha b hb, heq b hb a ha]
    exact h.swap a ha b hb

end Preorder

/-! ## A NaN against other numbers -/

/-- The reals that are no NaN stand for one number, and it is below every integer. -/
def RealsBelow (S : Set Value) : Prop :=
  ∀ r, .real r ∈ S → isNaN r = false →
    (∀ r', .real r' ∈ S → isNaN r' = false → value r' = value r) ∧
      ∀ i : Int64, .int i ∈ S → value r < i.toInt * one

variable {x r r' : UInt64} {S : Set Value}

theorem memCompare_nan_left (hx : isNaN x = true) (r : UInt64) (coll : Collation) :
    memCompare (.real x) (.real r) coll = .eq := by
  simp [memCompare, partialCmp, hx]

theorem memCompare_nan_right (hx : isNaN x = true) (r : UInt64) (coll : Collation) :
    memCompare (.real r) (.real x) coll = .eq := by
  simp [memCompare, partialCmp, hx]

theorem memCompare_int_nan (hx : isNaN x = true) (i : Int64) (coll : Collation) :
    memCompare (.int i) (.real x) coll = .gt := by
  simp [memCompare, intFloatCompare, hx]

theorem memCompare_reals (h : isNaN r = false) (h' : isNaN r' = false) (coll : Collation) :
    memCompare (.real r) (.real r') coll = compare (value r) (value r') := by
  simp [memCompare, partialCmp, h, h']

theorem memCompare_int_real (h : isNaN r = false) (i : Int64) (coll : Collation) :
    memCompare (.int i) (.real r) coll = compare (i.toInt * one) (value r) :=
  intFloatCompare_eq h

theorem PreorderOn.realsBelow {coll : Collation} (h : PreorderOn (memCompare · · coll) S)
    (hx : isNaN x = true) (hmem : .real x ∈ S) : RealsBelow S := by
  intro r hr hnan
  have hthrough : ∀ r', .real r' ∈ S → ∀ v ∈ S, (memCompare (.real x) v coll).isLE →
      (memCompare (.real r') v coll).isLE := by
    intro r' hr' v hv hle
    exact h.trans _ hr' _ hmem _ hv (by rw [memCompare_nan_right hx]; rfl) hle
  have hle : ∀ r₁ r₂, .real r₁ ∈ S → isNaN r₁ = false → .real r₂ ∈ S → isNaN r₂ = false →
      value r₁ ≤ value r₂ := by
    intro r₁ r₂ h₁ hn₁ h₂ hn₂
    have hcmp := hthrough r₁ h₁ _ h₂ (by rw [memCompare_nan_left hx]; rfl)
    rw [memCompare_reals hn₁ hn₂] at hcmp
    exact Std.isLE_compare.mp hcmp
  refine ⟨fun r' hr' hnan' => le_antisymm (hle r' r hr' hnan' hr hnan)
    (hle r r' hr hnan hr' hnan'), fun i hi => ?_⟩
  by_contra hge
  have hir : (memCompare (.int i) (.real r) coll).isLE := by
    rw [memCompare_int_real hnan]
    exact Std.isLE_compare.mpr (not_lt.mp hge)
  have hix := h.trans _ hi _ hr _ hmem hir (by rw [memCompare_nan_right hx]; rfl)
  rw [memCompare_int_nan hx] at hix
  exact absurd hix (by decide)

/-! ## When there is one order -/

def realsFirst (coll : Collation) : Value → List Int
  | .null => [0]
  | .real _ => [1]
  | .int i => [2, i.toInt]
  | .text s => 3 :: (coll.bytes s).map fun b => (b.toNat : Int)
  | .blob b => 4 :: b.map fun b => (b.toNat : Int)

theorem compareKeys_cons (c : Int) (x y : List Int) :
    compareKeys (c :: x) (c :: y) = compareKeys x y := by
  rw [compareKeys, List.compareLex_cons_cons, compare_eq_iff_eq.mpr rfl, Ordering.eq_then]

theorem compareKeys_single (x y : Int) : compareKeys [x] [y] = compare x y := by
  rw [compareKeys, List.compareLex_cons_cons]
  cases compare x y <;> rfl

theorem memCompare_real_real (h : RealsBelow S) (hr : .real r ∈ S) (hr' : .real r' ∈ S)
    (coll : Collation) : memCompare (.real r) (.real r') coll = .eq := by
  cases hnan : isNaN r with
  | true => exact memCompare_nan_left hnan r' coll
  | false =>
      cases hnan' : isNaN r' with
      | true => exact memCompare_nan_right hnan' r coll
      | false =>
          rw [memCompare_reals hnan hnan', compare_eq_iff_eq]
          exact (h r' hr' hnan').1 r hr hnan

theorem memCompare_int_above (h : RealsBelow S) {i : Int64} (hr : .real r ∈ S) (hi : .int i ∈ S)
    (coll : Collation) : memCompare (.int i) (.real r) coll = .gt := by
  cases hnan : isNaN r with
  | true => exact memCompare_int_nan hnan i coll
  | false =>
      rw [memCompare_int_real hnan, compare_gt_iff_gt]
      exact (h r hr hnan).2 i hi

theorem RealsBelow.memCompare_eq (h : RealsBelow S) (coll : Collation) {a b : Value} (ha : a ∈ S)
    (hb : b ∈ S) : memCompare a b coll = compareKeys (realsFirst coll a) (realsFirst coll b) := by
  cases a with
  | null => cases b <;> rfl
  | int i =>
      cases b with
      | int j => rw [memCompare, realsFirst, realsFirst, compareKeys_cons, compareKeys_single]
      | real r => exact memCompare_int_above h hb ha coll
      | null | text _ | blob _ => rfl
  | real r =>
      cases b with
      | int j =>
          rw [memCompare_swap, memCompare_int_above h ha hb coll]
          rfl
      | real r' => exact memCompare_real_real h ha hb coll
      | null | text _ | blob _ => rfl
  | text s =>
      cases b with
      | text s' =>
          rw [memCompare, realsFirst, realsFirst, compareKeys_cons, Collation.compare_eq,
            compareBytes_eq]
      | null | int _ | real _ | blob _ => rfl
  | blob x =>
      cases b with
      | blob y => rw [memCompare, realsFirst, realsFirst, compareKeys_cons, compareBytes_eq]
      | null | int _ | real _ | text _ => rfl

/--
Values are compared by a total preorder when there is no NaN among them, or
when the other reals are all one number and that is below the integers.
-/
theorem preorderOn_memCompare (S : Set Value) (coll : Collation) :
    PreorderOn (memCompare · · coll) S ↔ (∀ v ∈ S, v.isOrdered) ∨ RealsBelow S := by
  constructor
  · intro h
    by_cases hall : ∀ v ∈ S, v.isOrdered
    · exact .inl hall
    · push Not at hall
      obtain ⟨v, hv, hnan⟩ := hall
      cases v with
      | real x => exact .inr (h.realsBelow (by simpa [Value.isOrdered] using hnan) hv)
      | null | int _ | text _ | blob _ => exact absurd rfl hnan
  · rintro (hall | hbelow)
    · exact .of_places compareKeys (sortKey coll)
        fun a ha b hb => memCompare_eq coll (hall a ha) (hall b hb)
    · exact .of_places compareKeys (realsFirst coll) fun a ha b hb => hbelow.memCompare_eq
          coll ha hb

def nanRecord : Bytes :=
  [4, 7, 7, 7, 0x3f, 0xf0, 0, 0, 0, 0, 0, 0, 0x7f, 0xf8, 0, 0, 0, 0, 0, 0, 0x40, 0, 0, 0, 0,
      0, 0, 0]

/-- 2.0 is not above the NaN and the NaN is not above 1.0. -/
theorem nanRecord_unordered : ∃ values, decodeRecord nanRecord .utf8 = .ok values ∧
    ¬PreorderOn (memCompare · · .binary) { v | v ∈ values } := by
  refine ⟨[.real 0x3ff0000000000000, .real 0x7ff8000000000000, .real 0x4000000000000000],
    by decide +kernel, fun h => ?_⟩
  have hle := h.trans (.real 0x4000000000000000) (by simp) (.real 0x7ff8000000000000) (by simp)
    (.real 0x3ff0000000000000) (by simp) (by decide +kernel) (by decide +kernel)
  revert hle
  decide +kernel

end Rustqlite
