import Mathlib.Order.Compare
import Rustqlite.Foundation.Double
import Rustqlite.Types.Value

/-!
# Comparing values

NULL comes first, then the numbers, the texts and the blobs.  An integer and a
real compare as the numbers they are, without rounding the integer first.
-/

namespace Rustqlite

open Rustqlite.Foundation Double

/-! ## Single values -/

def intFloatCompare (i : Int64) (r : UInt64) : Ordering :=
  if isNaN r then .gt
  else if value r < -2 ^ 63 * one then .gt
  else if 2 ^ 63 * one ≤ value r then .lt
  else (compare i.toInt (toInt64 r).toInt).then ((partialCmp (ofInt64 i) r).getD .eq)

def memCompare : Value → Value → Collation → Ordering
  | .null, .null, _ => .eq
  | .null, _, _ => .lt
  | _, .null, _ => .gt
  | .int x, .int y, _ => compare x.toInt y.toInt
  | .real x, .real y, _ => (partialCmp x y).getD .eq
  | .int x, .real y, _ => intFloatCompare x y
  | .real x, .int y, _ => (intFloatCompare y x).swap
  | .int _, .text _, _ | .int _, .blob _, _ | .real _, .text _, _ | .real _, .blob _, _ => .lt
  | .text _, .int _, _ | .text _, .real _, _ | .blob _, .int _, _ | .blob _, .real _, _ => .gt
  | .text x, .text y, coll => coll.compare x y
  | .text _, .blob _, _ => .lt
  | .blob _, .text _, _ => .gt
  | .blob x, .blob y, _ => compareBytes x y

/-! ## Columns and records -/

/-- The collation of a column; a column that is not described has the plain one. -/
def collationAt (keyInfo : List KeyField) (i : Nat) : Collation :=
  (keyInfo[i]?.map KeyField.collation).getD .binary

/-- The first difference between columns that stand at the same place, from column `i` on. -/
def compareColumns (keyInfo : List KeyField) : Nat → List Value → List Value → Ordering
  | i, x :: xs, y :: ys =>
      (memCompare x y (collationAt keyInfo i)).then (compareColumns keyInfo (i + 1) xs ys)
  | _, _, _ => .eq

def comparePrefix (columns key : List Value) (keyInfo : List KeyField) : Ordering :=
  (compareColumns keyInfo 0 columns key).then (compare columns.length key.length)

def compareRecordPrefixes (keyInfo : List KeyField) (aPrefix : List Value) (aRowid : Value)
    (bPrefix : List Value) (bRowid : Value) : Ordering :=
  (compareColumns keyInfo 0 aPrefix bPrefix).then
    ((compare aPrefix.length bPrefix.length).then (memCompare aRowid bRowid .binary))

/-! ## The order behind the comparison -/

/-- A value has a place in the order unless it is a NaN. -/
def Value.isOrdered : Value → Bool
  | .real r => !isNaN r
  | _ => true

def Collation.bytes (c : Collation) (s : String) : Bytes :=
  match c with
  | .binary => utf8Bytes s
  | .noCase => (utf8Bytes s).map asciiLower
  | .rTrim => rtrimSpaces (utf8Bytes s)

def sortKey (coll : Collation) : Value → List Int
  | .null => [0]
  | .int i => [1, i.toInt * one]
  | .real r => [1, value r]
  | .text s => 2 :: (coll.bytes s).map fun b => (b.toNat : Int)
  | .blob b => 3 :: b.map fun b => (b.toNat : Int)

def columnKeys (keyInfo : List KeyField) : Nat → List Value → List (List Int)
  | _, [] => []
  | i, v :: vs => sortKey (collationAt keyInfo i) v :: columnKeys keyInfo (i + 1) vs

def compareKeys : List Int → List Int → Ordering := List.compareLex compare

def compareKeyLists : List (List Int) → List (List Int) → Ordering := List.compareLex compareKeys

instance : Std.TransCmp compareKeys := inferInstanceAs (Std.TransCmp (List.compareLex compare))

instance : Std.TransCmp compareKeyLists :=
  inferInstanceAs (Std.TransCmp (List.compareLex compareKeys))

theorem isLE_compareLex_take {α : Type} {cmp : α → α → Ordering} {as bs : List α}
    (h : (List.compareLex cmp as bs).isLE) (m : Nat) :
    (List.compareLex cmp (as.take m) (bs.take m)).isLE := by
  induction m generalizing as bs with
  | zero => simp [List.compareLex]
  | succ m ih =>
      cases as with
      | nil => simp [List.isLE_compareLex_nil_left]
      | cons a as =>
          cases bs with
          | nil => simp [List.compareLex] at h
          | cons b bs =>
              rw [List.compareLex_cons_cons, Ordering.isLE_then_iff_or] at h
              rw [List.take_succ_cons, List.take_succ_cons, List.compareLex_cons_cons,
                Ordering.isLE_then_iff_or]
              exact h.imp_right fun hrest => ⟨hrest.1, ih hrest.2⟩

/-! ## The comparison is the one of the order -/

theorem compare_natCast (a b : Nat) : compare (a : Int) b = compare a b := by
  rw [← cmp_eq_compare, ← cmp_eq_compare]
  exact Nat.strictMono_cast.cmp_map_eq a b

theorem compareBytes_eq (a b : Bytes) :
    compareBytes a b =
      compareKeys (a.map fun x => (x.toNat : Int)) (b.map fun x => (x.toNat : Int)) := by
  induction a generalizing b with
  | nil => cases b <;> rfl
  | cons x a ih =>
      cases b with
      | nil => rfl
      | cons y b =>
          rw [compareBytes, ih, ← compare_natCast]
          exact List.compareLex_cons_cons.symm

theorem Collation.compare_eq (c : Collation) (a b : String) :
    c.compare a b = compareBytes (c.bytes a) (c.bytes b) := by
  cases c <;> rfl

variable {v d : Int} {r : UInt64} {a b : Value} {as bs : List Value} {keyInfo : List KeyField}

theorem tdiv_lt_of_lt_mul {k : Int} (hd : 0 < d) (hk : 0 < k) (h : v < k * d) : v.tdiv d < k := by
  rcases le_or_gt 0 v with hv | hv
  · rw [Int.tdiv_eq_ediv_of_nonneg hv]
    exact Int.ediv_lt_of_lt_mul hd h
  · have hle := Int.tdiv_le_tdiv hd hv.le
    rw [Int.zero_tdiv] at hle
    omega

theorem toInt_toInt64 (hnan : isNaN r = false) (hlo : -2 ^ 63 * one ≤ value r)
    (hhi : value r < 2 ^ 63 * one) : (toInt64 r).toInt = (value r).tdiv one := by
  have hone : (0 : Int) < one := by exact_mod_cast one_pos
  have hge : -2 ^ 63 ≤ (value r).tdiv one := by
    have := Int.tdiv_le_tdiv hone hlo
    rwa [Int.mul_tdiv_cancel _ hone.ne'] at this
  have hlt : (value r).tdiv one < 2 ^ 63 := tdiv_lt_of_lt_mul hone (by norm_num) hhi
  rw [toInt64, hnan, if_neg (by simp), max_eq_right (by omega), min_eq_right (by omega)]
  exact Int64.toInt_ofInt_of_le (by omega) (by omega)

theorem compare_tdiv {i : Int} (hd : 0 < d) (h : i ≠ v.tdiv d) :
    compare i (v.tdiv d) = compare (i * d) v := by
  have habove := Int.lt_tdiv_add_one_mul_self v hd
  have hbelow := Int.lt_tdiv_add_one_mul_self (-v) hd
  rw [Int.neg_tdiv] at hbelow
  rcases lt_or_gt_of_ne h with hlt | hgt
  · rw [compare_lt_iff_lt.mpr hlt, eq_comm, compare_lt_iff_lt]
    calc i * d ≤ (v.tdiv d - 1) * d := Int.mul_le_mul_of_nonneg_right (by omega) hd.le
      _ < v := by linarith
  · rw [compare_gt_iff_gt.mpr hgt, eq_comm, compare_gt_iff_gt]
    calc v < (v.tdiv d + 1) * d := habove
      _ ≤ i * d := Int.mul_le_mul_of_nonneg_right (by omega) hd.le

theorem exact_tdiv_value (r : UInt64) : Exact ((value r).tdiv one).natAbs := by
  have habs : (value r).natAbs = magnitude (absBits r) := by
    rw [value]
    split_ifs <;> simp
  rw [Int.natAbs_tdiv, habs]
  exact exact_magnitude _

theorem intFloatCompare_eq {i : Int64} (hnan : isNaN r = false) :
    intFloatCompare i r = compare (i.toInt * one) (value r) := by
  have hone : (0 : Int) < one := by exact_mod_cast one_pos
  have hlo := i.le_toInt
  have hhi := i.toInt_lt
  rw [intFloatCompare, hnan, if_neg (by simp)]
  split_ifs with hsmall hlarge
  · rw [eq_comm, compare_gt_iff_gt]
    exact hsmall.trans_le (Int.mul_le_mul_of_nonneg_right hlo hone.le)
  · rw [eq_comm, compare_lt_iff_lt]
    exact (Int.mul_lt_mul_of_pos_right hhi hone).trans_le hlarge
  · rw [toInt_toInt64 hnan (by omega) (by omega)]
    by_cases htie : i.toInt = (value r).tdiv one
    · have hexact : Exact i.toInt.natAbs := by
        rw [htie]
        exact exact_tdiv_value r
      rw [← htie, compare_eq_iff_eq.mpr rfl, Ordering.eq_then, partialCmp, isNaN_ofInt64, hnan,
        value_ofInt64 hexact]
      rfl
    · rw [compare_tdiv hone htie]
      have hne : compare (i.toInt * one) (value r) ≠ .eq := by
        rw [← compare_tdiv hone htie, ne_eq, compare_eq_iff_eq]
        exact htie
      cases hc : compare (i.toInt * one) (value r) with
      | lt => rfl
      | eq => exact absurd hc hne
      | gt => rfl

theorem memCompare_eq (coll : Collation) (ha : a.isOrdered) (hb : b.isOrdered) :
    memCompare a b coll = compareKeys (sortKey coll a) (sortKey coll b) := by
  have hnumber (x y : Int) : compareKeys [1, x] [1, y] = compare x y := by
    rw [compareKeys, List.compareLex_cons_cons, List.compareLex_cons_cons]
    cases compare x y <;> rfl
  have hclass (c : Int) (x y : List Int) : compareKeys (c :: x) (c :: y) = compareKeys x y := by
    rw [compareKeys, List.compareLex_cons_cons, compare_eq_iff_eq.mpr rfl, Ordering.eq_then]
  cases a with
  | null => cases b <;> rfl
  | int i =>
      cases b with
      | int j =>
          have hone : (0 : Int) < one := by exact_mod_cast one_pos
          rw [memCompare, sortKey, sortKey, hnumber, ← cmp_eq_compare, ← cmp_eq_compare]
          exact ((strictMono_mul_right_of_pos hone).cmp_map_eq _ _).symm
      | real r =>
          rw [memCompare, sortKey, sortKey, hnumber]
          exact intFloatCompare_eq (by simpa [Value.isOrdered] using hb)
      | null | text _ | blob _ => rfl
  | real r =>
      cases b with
      | int j =>
          rw [memCompare, sortKey, sortKey, hnumber,
            intFloatCompare_eq (by simpa [Value.isOrdered] using ha)]
          exact Std.OrientedCmp.eq_swap.symm
      | real r' =>
          rw [memCompare, sortKey, sortKey, hnumber, partialCmp]
          simp only [Value.isOrdered, Bool.not_eq_true'] at ha hb
          rw [ha, hb]
          rfl
      | null | text _ | blob _ => rfl
  | text s =>
      cases b with
      | text s' =>
          rw [memCompare, sortKey, sortKey, hclass, Collation.compare_eq, compareBytes_eq]
      | null | int _ | real _ | blob _ => rfl
  | blob x =>
      cases b with
      | blob y => rw [memCompare, sortKey, sortKey, hclass, compareBytes_eq]
      | null | int _ | real _ | text _ => rfl

theorem take_columnKeys (keyInfo : List KeyField) (i m : Nat) (vs : List Value) :
    columnKeys keyInfo i (vs.take m) = (columnKeys keyInfo i vs).take m := by
  induction vs generalizing i m with
  | nil => simp [columnKeys]
  | cons v vs ih =>
      cases m with
      | zero => rfl
      | succ m => simp [columnKeys, ih]

theorem compareColumns_then (keyInfo : List KeyField) {i : Nat} (ha : ∀ v ∈ as, v.isOrdered)
    (hb : ∀ v ∈ bs, v.isOrdered) :
    (compareColumns keyInfo i as bs).then (compare as.length bs.length) =
      compareKeyLists (columnKeys keyInfo i as) (columnKeys keyInfo i bs) := by
  induction as generalizing bs i with
  | nil => cases bs <;> rfl
  | cons a as ih =>
      cases bs with
      | nil => rfl
      | cons b bs =>
          simp only [List.forall_mem_cons] at ha hb
          have hlen : compare (a :: as).length (b :: bs).length = compare as.length bs.length := by
            rw [← cmp_eq_compare, ← cmp_eq_compare]
            exact (add_left_strictMono (a := 1)).cmp_map_eq _ _
          rw [compareColumns, hlen, Ordering.then_assoc, ih ha.2 hb.2, memCompare_eq _ ha.1 hb.1]
          exact List.compareLex_cons_cons.symm

theorem comparePrefix_eq {columns key : List Value} (hcolumns : ∀ v ∈ columns, v.isOrdered)
    (hkey : ∀ v ∈ key, v.isOrdered) :
    comparePrefix columns key keyInfo =
      compareKeyLists (columnKeys keyInfo 0 columns) (columnKeys keyInfo 0 key) :=
  compareColumns_then keyInfo hcolumns hkey

theorem compareRecordPrefixes_eq (has : ∀ v ∈ as, v.isOrdered) (hbs : ∀ v ∈ bs, v.isOrdered)
    (ha : a.isOrdered) (hb : b.isOrdered) : compareRecordPrefixes keyInfo as a bs b =
      (compareKeyLists (columnKeys keyInfo 0 as) (columnKeys keyInfo 0 bs)).then
        (compareKeys (sortKey .binary a) (sortKey .binary b)) := by
  rw [compareRecordPrefixes, ← Ordering.then_assoc, compareColumns_then keyInfo has hbs,
    memCompare_eq _ ha hb]

/-!
## Integers and reals in one order

An integer and a real are compared as the numbers they are, although neither has
a form in the type of the other.
-/

namespace Foundation.Double

def isInfinite (r : UInt64) : Bool := decide (absBits r = 2047 * 2 ^ 52)

/-- The number that a double is, an infinity included; a NaN is none. -/
noncomputable def exactValue (r : UInt64) : EReal :=
  if isInfinite r then (if 2 ^ 63 ≤ r.toNat then ⊥ else ⊤)
  else (((value r : ℝ) / (one : ℝ) : ℝ) : EReal)

theorem lt_magnitude_of_isInfinite (h : isInfinite r = true) :
    2 ^ 63 * one < magnitude (absBits r) := by
  rw [isInfinite, decide_eq_true_eq] at h
  rw [h, show 2047 * 2 ^ 52 = 2046 * 2 ^ 52 + 2 ^ 52 by norm_num,
    magnitude_split le_rfl (by norm_num), one, ← pow_add, ← pow_add]
  -- The exponents are kept from being evaluated.
  generalize hn : 63 + 1074 = n
  generalize hm : 52 + 2046 = m
  exact Nat.pow_lt_pow_right one_lt_two (by omega)

end Foundation.Double

/-- An integer and a real compare as the numbers they are, and with an infinity as its sign says. -/
theorem intFloatCompare_eq_cmp {i : Int64} {r : UInt64} (h : isNaN r = false) :
    intFloatCompare i r = cmp ((i.toInt : ℝ) : EReal) (exactValue r) := by
  have hone : (0 : ℝ) < one := by exact_mod_cast one_pos
  have hint : (0 : Int) < one := by exact_mod_cast one_pos
  have hlo : -2 ^ 63 * (one : Int) ≤ i.toInt * one :=
    Int.mul_le_mul_of_nonneg_right i.le_toInt hint.le
  have hhi : i.toInt * (one : Int) < 2 ^ 63 * one := Int.mul_lt_mul_of_pos_right i.toInt_lt hint
  rw [intFloatCompare_eq h, ← cmp_eq_compare, exactValue]
  by_cases hinf : isInfinite r = true
  · have hlarge : (2 ^ 63 * one : Int) < magnitude (absBits r) := by
      exact_mod_cast lt_magnitude_of_isInfinite hinf
    rw [if_pos hinf, value]
    split_ifs with hsign
    · rw [(cmp_eq_gt_iff _ _).mpr (EReal.bot_lt_coe _), cmp_eq_gt_iff]
      linarith
    · rw [(cmp_eq_lt_iff _ _).mpr (EReal.coe_lt_top _), cmp_eq_lt_iff]
      linarith
  · have hmul : (value r : ℝ) = (value r : ℝ) / one * one := (div_mul_cancel₀ _ hone.ne').symm
    rw [if_neg hinf, EReal.coe_strictMono.cmp_map_eq,
      ← (strictMono_mul_right_of_pos hone).cmp_map_eq, ← hmul,
      ← (Int.cast_strictMono (R := ℝ)).cmp_map_eq]
    push_cast
    rfl

/-- `2 ^ 53 + 1` is more than the real to which it is rounded. -/
theorem intFloatCompare_eq_cmp_rounded :
    intFloatCompare 9007199254740993 0x4340000000000000 =
      cmp (((9007199254740993 : Int64).toInt : ℝ) : EReal) (exactValue 0x4340000000000000) :=
  intFloatCompare_eq_cmp (by decide)

end Rustqlite
