import Rustqlite.Types.Affinity
import Rustqlite.Types.Error

/-!
# Comparison opcodes

The comparison opcodes of the virtual machine, the truth of a value, and the
subtraction from zero that a negation is compiled to.
-/

namespace Rustqlite.Vdbe

open Foundation

inductive CmpOp where
  | eq
  | ne
  | lt
  | le
  | gt
  | ge
  deriving DecidableEq

def negateCmp : CmpOp → CmpOp
  | .eq => .ne
  | .ne => .eq
  | .lt => .ge
  | .ge => .lt
  | .le => .gt
  | .gt => .le

def CmpOp.holds : CmpOp → Ordering → Bool
  | .eq, ord => ord = .eq
  | .ne, ord => ord ≠ .eq
  | .lt, ord => ord = .lt
  | .le, ord => ord ≠ .gt
  | .gt, ord => ord = .gt
  | .ge, ord => ord ≠ .lt

structure CompareRules where
  affinity : Option Affinity
  collation : Collation
  nulleq : Bool
  deriving DecidableEq

def CompareRules.coerce (rules : CompareRules) (n : Numerals) (v : Value) : Value :=
  if rules.nulleq then v else (rules.affinity.map (n.applyAffinity v)).getD v

def compareOperands (n : Numerals) (rules : CompareRules) (op : CmpOp) (left right : Value) :
    Option Bool :=
  if !rules.nulleq && (left = .null || right = .null) then none
  else some (op.holds (memCompare (rules.coerce n left) (rules.coerce n right) rules.collation))

/-! ## Truth and negation -/

def prefixIsZero (n : Numerals) (s : String) : Bool :=
  match (n.numericPrefix s).1 with
  | some (.int i) => i = 0
  | some (.real r) => Double.value r = 0
  | _ => true

def truth (n : Numerals) : Value → Option Bool
  | .null => none
  | .int i => some (i ≠ 0)
  | .real r => some (Double.value r ≠ 0)
  | .text s => some (!prefixIsZero n s)
  | .blob b => some (!prefixIsZero n (fromUtf8Lossy b))

def parseNum (n : Numerals) (s : String) : Value :=
  match (n.numericPrefix s).1 with
  | some (.int i) => .int i
  | some (.real r) => .real r
  | _ => .int 0

def toNum (n : Numerals) : Value → Option Value
  | .null => none
  | .int i => some (.int i)
  | .real r => some (.real r)
  | .text s => some (parseNum n s)
  | .blob b => some (parseNum n (fromUtf8Lossy b))

/-- `arith` for the one subtraction that a negation is compiled to, that from the integer 0. -/
def subtractFromZero (n : Numerals) (v : Value) : Value :=
  match toNum n v with
  | some (.int i) =>
      if i = Int64.minValue then .real (Double.negate (Double.ofInt64 i)) else .int (-i)
  | some (.real r) =>
      if Double.isNaN r then .null
      else if Double.value r = 0 then .real 0
      else .real (Double.negate r)
  | _ => .null

/-! ## Facts about comparisons -/

theorem CmpOp.holds_negateCmp (op : CmpOp) (ord : Ordering) :
    (negateCmp op).holds ord = !op.holds ord := by
  cases op <;> cases ord <;> rfl

theorem compareOperands_negateCmp (n : Numerals) (rules : CompareRules) (op : CmpOp) (l r : Value) :
    compareOperands n rules (negateCmp op) l r = (compareOperands n rules op l r).map (!·) := by
  unfold compareOperands
  split_ifs
  · rfl
  · rw [CmpOp.holds_negateCmp]
    rfl

variable {n : Numerals} {rules : CompareRules} {op : CmpOp} {l r v v' : Value}

theorem compareOperands_of_getD (h : (compareOperands n rules op l r).getD true = false) :
    compareOperands n rules (negateCmp op) l r = some true := by
  rw [compareOperands_negateCmp]
  cases hcmp : compareOperands n rules op l r with
  | none =>
      rw [hcmp] at h
      cases h
  | some b =>
      rw [hcmp] at h
      cases b with
      | false => rfl
      | true => cases h

def CmpOp.flip : CmpOp → CmpOp
  | .eq => .eq
  | .ne => .ne
  | .lt => .gt
  | .le => .ge
  | .gt => .lt
  | .ge => .le

theorem CmpOp.holds_flip (op : CmpOp) (ord : Ordering) : op.flip.holds ord.swap = op.holds ord := by
  cases op <;> cases ord <;> rfl

theorem compareOperands_flip (n : Numerals) (rules : CompareRules) (op : CmpOp) (l r : Value) :
    compareOperands n rules op.flip r l = compareOperands n rules op l r := by
  unfold compareOperands
  rw [memCompare_swap (rules.coerce n l), CmpOp.holds_flip, Bool.or_comm]

theorem CompareRules.coerce_congr (h : v.SameNumber v') (rules : CompareRules) (n : Numerals) :
    (rules.coerce n v).SameNumber (rules.coerce n v') := by
  unfold coerce
  split_ifs
  · exact h
  · cases rules.affinity with
    | none => exact h
    | some aff => exact n.applyAffinity_congr h aff

theorem null_iff_of_sameNumber (h : v.SameNumber v') : v = .null ↔ v' = .null := by
  obtain rfl | ⟨r, r', rfl, rfl, _⟩ := h.cases
  · rfl
  · simp

theorem compareOperands_congr (h : v.SameNumber v') (n : Numerals) (rules : CompareRules)
    (op : CmpOp) (l : Value) : compareOperands n rules op l v = compareOperands n rules op l
        v' := by
  unfold compareOperands
  rw [memCompare_congr (rules.coerce_congr h n)]
  simp only [null_iff_of_sameNumber h]

theorem compareOperands_nulleq (h : rules.nulleq = true) (n : Numerals) (op : CmpOp) (l r : Value) :
    compareOperands n rules op l r = some (op.holds (memCompare l r rules.collation)) := by
  simp [compareOperands, CompareRules.coerce, h]

theorem memCompare_null_eq_iff {coll : Collation} : memCompare v .null coll = .eq ↔ v = .null := by
  cases v <;> simp [memCompare]

theorem compareOperands_both (hne : op ≠ .eq) (hne' : op ≠ .ne)
    (h : compareOperands n rules op.flip l r = some true) :
    compareOperands n rules op l r = some true ↔
      (op = .ge ∨ op = .le) ∧ compareOperands n rules .eq l r = some true := by
  unfold compareOperands at h ⊢
  split_ifs at h ⊢
  generalize memCompare (rules.coerce n l) (rules.coerce n r) rules.collation = ord at h ⊢
  cases op <;> cases ord <;> simp_all [CmpOp.flip, CmpOp.holds]

theorem subtractFromZero_int (n : Numerals) {i : Int64} (h : i ≠ Int64.minValue) :
    subtractFromZero n (.int i) = .int (-i) := by
  simp only [subtractFromZero, toNum, if_neg h]

theorem subtractFromZero_real (n : Numerals) {r : UInt64} (h : Double.isNaN r = false) :
    (subtractFromZero n (.real r)).SameNumber (.real (Double.negate r)) := by
  simp only [subtractFromZero, toNum, h, Bool.false_eq_true, if_false]
  split_ifs with hzero
  · exact .inr ⟨rfl, by simp [hzero]⟩
  · exact .inl rfl

end Rustqlite.Vdbe
