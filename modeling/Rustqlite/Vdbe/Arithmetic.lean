import Rustqlite.Func.Accumulator
import Rustqlite.Vdbe.Comparison
import Rustqlite.Vdbe.Opcode

/-!
# Arithmetic

The arithmetic and the bitwise instructions.  The machine operations under them
panic where the build, which checks for overflow, makes them panic.
-/

namespace Rustqlite.Vdbe

open Foundation Func

structure FloatArithmetic extends RealArithmetic where
  mul : UInt64 → UInt64 → UInt64

/-! ## Machine operations -/

def unreachable : Error := .panic "internal error: entered unreachable code"

def checkedMul (a b : Int64) : Option Int64 :=
  if fitsInt64 (a.toInt * b.toInt) then some (Int64.ofInt (a.toInt * b.toInt)) else none

def divInt (b a : Int64) : Result Int64 :=
  if a = 0 then .error (.panic "attempt to divide by zero")
  else if b = Int64.minValue ∧ a = -1 then .error (.panic "attempt to divide with overflow")
  else .ok (b / a)

def remInt (b a : Int64) : Result Int64 :=
  if a = 0 then .error (.panic "attempt to calculate the remainder with a divisor of zero")
  else if b = Int64.minValue ∧ a = -1 then
    .error (.panic "attempt to calculate the remainder with overflow")
  else .ok (b % a)

def negInt (a : Int64) : Result Int64 :=
  if a = Int64.minValue then .error (.panic "attempt to negate with overflow") else .ok (-a)

def subInt (a b : Int64) : Result Int64 :=
  match checkedSub a b with
  | some c => .ok c
  | none => .error (.panic "attempt to subtract with overflow")

def shlUInt (u : UInt64) (n : Int64) : Result UInt64 :=
  if 0 ≤ n ∧ n < 64 then .ok (u <<< n.toUInt64)
  else .error (.panic "attempt to shift left with overflow")

def shrUInt (u : UInt64) (n : Int64) : Result UInt64 :=
  if 0 ≤ n ∧ n < 64 then .ok (u >>> n.toUInt64)
  else .error (.panic "attempt to shift right with overflow")

/-! ## Operands -/

def numF : Value → UInt64
  | .int i => Double.ofInt64 i
  | .real r => r
  | _ => 0

/-! ## The instructions -/

/-- `b op a` on two integers. -/
def arithInt (R : FloatArithmetic) (op : Opcode) (b a : Int64) : Result Value :=
  let fb := Double.ofInt64 b
  let fa := Double.ofInt64 a
  match op with
  | .add => .ok (((checkedAdd b a).map Value.int).getD (.real (R.add fb fa)))
  | .subtract => .ok (((checkedSub b a).map Value.int).getD (.real (R.sub fb fa)))
  | .multiply => .ok (((checkedMul b a).map Value.int).getD (.real (R.mul fb fa)))
  | .divide =>
      if a = 0 then .ok .null
      else if a = -1 ∧ b = Int64.minValue then .ok (.real (R.div fb fa))
      else Value.int <$> divInt b a
  | .remainder =>
      if a = 0 then .ok .null
      else Value.int <$> remInt b (if a = -1 then 1 else a)
  | _ => .error unreachable

def arithReal (R : FloatArithmetic) (op : Opcode) (b a : UInt64) : Result Value :=
  let result (r : UInt64) : Value := if Double.isNaN r then .null else .real r
  match op with
  | .add => .ok (result (R.add b a))
  | .subtract => .ok (result (R.sub b a))
  | .multiply => .ok (result (R.mul b a))
  | .divide => .ok (if Double.value a = 0 then .null else result (R.div b a))
  | .remainder =>
      let ia := Double.toInt64 a
      if ia = 0 then .ok .null
      else do
        let r ← remInt (Double.toInt64 b) (if ia = -1 then 1 else ia)
        return result (Double.ofInt64 r)
  | _ => .error unreachable

def arith (R : FloatArithmetic) (op : Opcode) (b a : Value) : Result Value :=
  match toNum R.toNumerals b, toNum R.toNumerals a with
  | some (.int b), some (.int a) => arithInt R op b a
  | some b, some a => arithReal R op (numF b) (numF a)
  | _, _ => .ok .null

def turn (op : Opcode) (n : Int64) : Result (Opcode × Int64) :=
  if n < 0 then do
    let n ← if -64 < n then negInt n else pure 64
    return (if op = .shiftLeft then .shiftRight else .shiftLeft, n)
  else return (op, n)

def shiftPlaces (op : Opcode) (a n : Int64) : Result Int64 :=
  if 64 ≤ n then .ok (if 0 ≤ a ∨ op = .shiftLeft then 0 else -1)
  else if op = .shiftLeft then UInt64.toInt64 <$> shlUInt a.toUInt64 n
  else do
    let u ← shrUInt a.toUInt64 n
    if a < 0 then
      let fill ← shlUInt (-1) (← subInt 64 n)
      return (u ||| fill).toInt64
    else return u.toInt64

def bitwise (n : Numerals) (op : Opcode) (b a : Value) : Result Value :=
  if b = .null ∨ a = .null then .ok .null
  else
    let ia := asI64 n b
    let ib := asI64 n a
    match op with
    | .bitAnd => .ok (.int (ia &&& ib))
    | .bitOr => .ok (.int (ia ||| ib))
    | .shiftLeft | .shiftRight =>
        if ib = 0 then .ok (.int ia)
        else do
          let (op, ib) ← turn op ib
          Value.int <$> shiftPlaces op ia ib
    | _ => .error unreachable

/-! ## Whole numbers -/

/-- The instruction ends with the integer `n`. -/
def Yields (result : Result Value) (n : Int) : Prop :=
  ∃ i : Int64, result = .ok (.int i) ∧ i.toInt = n

/-- The instruction ends with the integer `n` where 64 bits hold it, and with a real otherwise. -/
def ExactOr (result : Result Value) (n : Int) (r : UInt64) : Prop :=
  if fitsInt64 n then Yields result n else result = .ok (.real r)

theorem fitsInt64_iff {n : Int} : fitsInt64 n = true ↔ -2 ^ 63 ≤ n ∧ n < 2 ^ 63 := by
  simp [fitsInt64]

theorem toInt_ofInt_of_fits {n : Int} (h : fitsInt64 n = true) : (Int64.ofInt n).toInt = n :=
  Int64.toInt_ofInt_of_le ((fitsInt64_iff).mp h).1 ((fitsInt64_iff).mp h).2

theorem exactOr_checked (n : Int) (r : UInt64) :
    ExactOr (.ok (((if fitsInt64 n then some (Int64.ofInt n) else none).map Value.int).getD
      (.real r))) n r := by
  rw [ExactOr]
  split_ifs with hfits
  · exact ⟨Int64.ofInt n, rfl, toInt_ofInt_of_fits hfits⟩
  · rfl

theorem arith_int (R : FloatArithmetic) (op : Opcode) (b a : Int64) :
    arith R op (.int b) (.int a) = arithInt R op b a := rfl

variable {b a n : Int64} {u : UInt64} {x : BitVec 64} {k : Nat} {op : Opcode}

theorem divInt_ok (ha : a ≠ 0) (h : ¬(a = -1 ∧ b = Int64.minValue)) :
    divInt b a = .ok (b / a) ∧ (b / a).toInt = b.toInt.tdiv a.toInt := by
  rw [divInt, if_neg ha, if_neg fun hover => h hover.symm]
  refine ⟨rfl, ?_⟩
  by_cases hb : b = Int64.minValue
  · exact Int64.toInt_div_of_ne_right b a fun hneg => h ⟨hneg, hb⟩
  · exact Int64.toInt_div_of_ne_left b a hb

theorem remInt_ok (ha : a ≠ 0) (hneg : a ≠ -1) : remInt b a = .ok (b % a) := by
  rw [remInt, if_neg ha, if_neg fun hover => hneg hover.2]

theorem fits_tdiv_iff (ha : a ≠ 0) :
    fitsInt64 (b.toInt.tdiv a.toInt) = true ↔ ¬(a = -1 ∧ b = Int64.minValue) := by
  constructor
  · rintro hfits ⟨rfl, rfl⟩
    revert hfits
    decide
  · intro h
    rw [fitsInt64_iff, ← (divInt_ok ha h).2]
    exact ⟨Int64.le_toInt _, Int64.toInt_lt _⟩

theorem divide_exact (R : FloatArithmetic) (ha : a ≠ 0) :
    ExactOr (arith R .divide (.int b) (.int a)) (b.toInt.tdiv a.toInt)
      (R.div (Double.ofInt64 b) (Double.ofInt64 a)) := by
  rw [arith_int, arithInt, ExactOr]
  simp only [if_neg ha, fits_tdiv_iff ha]
  split_ifs with hover
  · rfl
  · obtain ⟨hdiv, hvalue⟩ := divInt_ok ha hover
    exact ⟨b / a, by rw [hdiv]; rfl, hvalue⟩

theorem remainder_exact (R : FloatArithmetic) (ha : a ≠ 0) :
    Yields (arith R .remainder (.int b) (.int a)) (b.toInt.tmod a.toInt) := by
  rw [arith_int, arithInt]
  simp only [if_neg ha]
  split_ifs with hneg
  · -- the remainder by one is the one by minus one
    refine ⟨b % 1, ?_, ?_⟩
    · rw [remInt_ok (by decide) (by decide)]
      rfl
    · rw [Int64.toInt_mod, hneg, Int64.toInt_one, Int64.toInt_neg, Int64.toInt_one, Int.tmod_one]
      exact (Int.tmod_neg b.toInt 1).symm ▸ (Int.tmod_one _).symm
  · refine ⟨b % a, ?_, Int64.toInt_mod b a⟩
    rw [remInt_ok ha hneg]
    rfl

/-! ## Shifts -/

/-- `n` doubled `k` times in 64 bits, or halved downwards where `k` is negative. -/
def shifted (n k : Int) : Int :=
  if 0 ≤ k then (n * 2 ^ k.toNat).bmod (2 ^ 64) else n / 2 ^ (-k).toNat

theorem toNat_toBitVec (h : 0 ≤ n.toInt) : n.toBitVec.toNat = n.toInt.toNat := by
  rw [← Int64.toInt_toBitVec] at h ⊢
  rw [BitVec.toInt_eq_toNat_cond] at h ⊢
  have := n.toBitVec.isLt
  split_ifs at h ⊢ <;> omega

/-- A count below 64 is not cut down. -/
theorem toNat_mod (h : 0 ≤ n.toInt) (hlt : n.toInt < 64) :
    (n.toUInt64.toBitVec % 64).toNat = n.toInt.toNat := by
  have hmod : (n.toUInt64.toBitVec % 64).toNat = n.toBitVec.toNat % 64 := BitVec.toNat_umod
  rw [hmod, toNat_toBitVec h]
  omega

theorem shlUInt_ok (h : 0 ≤ n.toInt) (hlt : n.toInt < 64) :
    shlUInt u n = .ok ⟨u.toBitVec <<< n.toInt.toNat⟩ := by
  rw [shlUInt, if_pos]
  · refine congrArg Except.ok (UInt64.toBitVec_inj.mp ?_)
    rw [UInt64.toBitVec_shiftLeft, BitVec.shiftLeft_eq', toNat_mod h hlt]
  · exact ⟨Int64.le_iff_toInt_le.mpr h, Int64.lt_iff_toInt_lt.mpr hlt⟩

theorem shrUInt_ok (h : 0 ≤ n.toInt) (hlt : n.toInt < 64) :
    shrUInt u n = .ok ⟨u.toBitVec >>> n.toInt.toNat⟩ := by
  rw [shrUInt, if_pos]
  · refine congrArg Except.ok (UInt64.toBitVec_inj.mp ?_)
    rw [UInt64.toBitVec_shiftRight, BitVec.ushiftRight_eq', toNat_mod h hlt]
  · exact ⟨Int64.le_iff_toInt_le.mpr h, Int64.lt_iff_toInt_lt.mpr hlt⟩

theorem toInt_shiftLeft (x : BitVec 64) (k : Nat) :
    (x <<< k).toInt = (x.toInt * 2 ^ k).bmod (2 ^ 64) := by
  rw [BitVec.toInt_shiftLeft, BitVec.toInt_eq_toNat_bmod, Int.bmod_mul_bmod, Nat.shiftLeft_eq]
  norm_cast

theorem ushiftRight_or_fill (hneg : x.toInt < 0) (hk : k ≤ 64) :
    x >>> k ||| BitVec.allOnes 64 <<< (64 - k) = x.sshiftRight k := by
  have hmsb : x.msb = true := BitVec.msb_eq_toInt.trans (decide_eq_true hneg)
  apply BitVec.eq_of_getElem_eq
  intro i hi
  simp only [BitVec.getElem_or, BitVec.getElem_ushiftRight, BitVec.getElem_shiftLeft,
    BitVec.getElem_allOnes, BitVec.getElem_sshiftRight, hmsb, BitVec.getLsbD]
  grind

theorem ushiftRight_nonneg (hpos : 0 ≤ x.toInt) : x >>> k = x.sshiftRight k := by
  have hmsb : x.msb = false := BitVec.msb_eq_toInt.trans (decide_eq_false (by omega))
  rw [BitVec.sshiftRight_eq_of_msb_false hmsb]

theorem toInt_sshiftRight (x : BitVec 64) (k : Nat) :
    (x.sshiftRight k).toInt = x.toInt / 2 ^ k := by
  rw [BitVec.toInt_sshiftRight, Int.shiftRight_eq_div_pow]
  norm_cast

theorem shifted_of_ge {n k : Int} (h : 64 ≤ k) : shifted n k = 0 := by
  obtain ⟨m, rfl⟩ : ∃ m : Nat, k = m + 64 := ⟨(k - 64).toNat, by omega⟩
  have hnat : ((m : Int) + 64).toNat = m + 64 := by omega
  rw [shifted, if_pos (by omega), hnat, pow_add, ← mul_assoc]
  exact Int.bmod_eq_zero_of_dvd (Dvd.intro_left _ rfl)

theorem shifted_of_le {n k : Int} (h : k ≤ -64) (hlo : -2 ^ 63 ≤ n) (hhi : n < 2 ^ 63) :
    shifted n k = if n < 0 then -1 else 0 := by
  have hpow : (2 : Int) ^ 64 ≤ 2 ^ (-k).toNat := pow_le_pow_right₀ (by norm_num) (by omega)
  have hpos : (0 : Int) < 2 ^ (-k).toNat := by positivity
  rw [shifted, if_neg (by omega)]
  split_ifs with hneg
  · apply le_antisymm
    · exact Int.le_of_lt_add_one ((Int.ediv_lt_iff_lt_mul hpos).mpr (by omega))
    · exact (Int.le_ediv_iff_mul_le hpos).mpr (by omega)
  · exact Int.ediv_eq_zero_of_lt (by omega) (by omega)

def places (op : Opcode) (n : Int) : Int := if op = .shiftLeft then n else -n

theorem toInt_lt_zero : n < 0 ↔ n.toInt < 0 := by
  rw [Int64.lt_iff_toInt_lt, Int64.toInt_zero]

theorem toInt_neg (h : -2 ^ 63 < n.toInt) : (-n).toInt = -n.toInt := by
  have hlt := n.toInt_lt
  rw [Int64.toInt_neg, Int.bmod_eq_of_le] <;> omega

theorem turn_ok (hop : op = .shiftLeft ∨ op = .shiftRight) (hn : n ≠ 0) :
    ∃ op' n', turn op n = .ok (op', n') ∧
      (op' = .shiftLeft ∨ op' = .shiftRight) ∧ 0 < n'.toInt ∧ ∀ a : Int64,
          shifted a.toInt (places op' n'.toInt) =
        shifted a.toInt (places op n.toInt) := by
  by_cases hneg : n < 0
  · have hsign := (toInt_lt_zero).mp hneg
    by_cases hbig : -64 < n
    · have hlow : -64 < n.toInt := Int64.lt_iff_toInt_lt.mp hbig
      have hmin : n ≠ Int64.minValue := by
        rintro rfl
        exact absurd hbig (by decide)
      have hvalue : (-n).toInt = -n.toInt := toInt_neg (by omega)
      refine ⟨if op = .shiftLeft then .shiftRight else .shiftLeft, -n, ?_, ?_, by omega, ?_⟩
      · rw [turn, if_pos hneg, if_pos hbig, negInt, if_neg hmin]
        rfl
      · split_ifs <;> simp
      · intro a
        obtain rfl | rfl := hop <;> simp [places, hvalue]
    · have hlow : n.toInt ≤ -64 := by
        rw [Int64.lt_iff_toInt_lt] at hbig
        exact not_lt.mp hbig
      refine ⟨if op = .shiftLeft then .shiftRight else .shiftLeft, 64, ?_, ?_, by decide, ?_⟩
      · rw [turn, if_pos hneg, if_neg hbig]
        rfl
      · split_ifs <;> simp
      · intro a
        have h64 : (64 : Int64).toInt = 64 := rfl
        obtain rfl | rfl := hop
        · simp only [places, if_true, h64, reduceCtorEq, if_false]
          rw [shifted_of_le (by omega) a.le_toInt a.toInt_lt,
            shifted_of_le (by omega) a.le_toInt a.toInt_lt]
        · simp only [places, if_true, h64, reduceCtorEq, if_false]
          rw [shifted_of_ge (by omega), shifted_of_ge (by omega)]
  · refine ⟨op, n, ?_, hop, ?_, fun _ => rfl⟩
    · rw [turn, if_neg hneg]
      rfl
    · have hzero : n.toInt ≠ 0 := fun h => hn (Int64.toInt_inj.mp h)
      rw [toInt_lt_zero] at hneg
      omega

theorem shiftPlaces_left (hn : 0 < n.toInt) :
    ∃ i, shiftPlaces .shiftLeft a n = .ok i ∧ i.toInt = shifted a.toInt n.toInt := by
  rw [shiftPlaces]
  by_cases hbig : 64 ≤ n
  · rw [if_pos hbig]
    exact ⟨0, by simp, (shifted_of_ge (Int64.le_iff_toInt_le.mp hbig)).symm⟩
  · have hlt : n.toInt < 64 := not_le.mp (Int64.le_iff_toInt_le.not.mp hbig)
    rw [if_neg hbig, if_pos rfl, shlUInt_ok hn.le hlt, shifted, if_pos hn.le]
    exact ⟨_, rfl, toInt_shiftLeft a.toBitVec n.toInt.toNat⟩

theorem shrUInt_fill (hn : 0 < n.toInt) (hlt : n.toInt < 64) :
    (do
      let u ← shrUInt a.toUInt64 n
      if a < 0 then
        let fill ← shlUInt (-1) (← subInt 64 n)
        return (u ||| fill).toInt64
      else return u.toInt64) = Except.ok (Int64.ofBitVec (a.toBitVec.sshiftRight n.toInt.toNat))
    := by
  rw [shrUInt_ok hn.le hlt, Result.ok_bind]
  split_ifs with hneg
  · have hsub : subInt 64 n = .ok (64 - n) := by
      have hfits : fitsInt64 ((64 : Int64).toInt - n.toInt) = true := by
        rw [fitsInt64_iff]
        have : (64 : Int64).toInt = 64 := rfl
        omega
      rw [subInt, checkedSub, if_pos hfits, Int64.ofInt_sub, Int64.ofInt_toInt, Int64.ofInt_toInt]
    have hvalue : (64 - n).toInt = 64 - n.toInt := by
      have : (64 : Int64).toInt = 64 := rfl
      rw [Int64.toInt_sub, Int.bmod_eq_of_le] <;> omega
    have hnat : (64 - n.toInt).toNat = 64 - n.toInt.toNat := by omega
    rw [hsub, Result.ok_bind, shlUInt_ok (by omega) (by omega), Result.ok_bind, hvalue, hnat]
    refine congrArg Except.ok (congrArg Int64.ofBitVec ?_)
    exact ushiftRight_or_fill ((toInt_lt_zero).mp hneg) (by omega)
  · refine congrArg Except.ok (congrArg Int64.ofBitVec ?_)
    exact ushiftRight_nonneg (not_lt.mp ((toInt_lt_zero).not.mp hneg))

theorem shiftPlaces_right (hn : 0 < n.toInt) :
    ∃ i, shiftPlaces .shiftRight a n = .ok i ∧ i.toInt = shifted a.toInt (-n.toInt) := by
  rw [shiftPlaces]
  by_cases hbig : 64 ≤ n
  · have hcount : 64 ≤ n.toInt := Int64.le_iff_toInt_le.mp hbig
    rw [if_pos hbig, shifted_of_le (by omega) a.le_toInt a.toInt_lt]
    by_cases hneg : a < 0
    · exact ⟨-1, by simp [Int64.not_le.mpr hneg], by rw [if_pos ((toInt_lt_zero).mp hneg)]; rfl⟩
    · exact ⟨0, by simp [Int64.not_lt.mp hneg], by rw [if_neg ((toInt_lt_zero).not.mp hneg)]; rfl⟩
  · have hlt : n.toInt < 64 := not_le.mp (Int64.le_iff_toInt_le.not.mp hbig)
    rw [if_neg hbig, if_neg (by decide), shrUInt_fill hn hlt, shifted, if_neg (by omega), neg_neg]
    exact ⟨_, rfl, toInt_sshiftRight _ _⟩

theorem shiftPlaces_ok (hop : op = .shiftLeft ∨ op = .shiftRight) (hn : 0 < n.toInt) :
    ∃ i, shiftPlaces op a n = .ok i ∧ i.toInt = shifted a.toInt (places op n.toInt) := by
  obtain rfl | rfl := hop
  · exact shiftPlaces_left hn
  · exact shiftPlaces_right hn

theorem bitwise_shift (N : Numerals) (hop : op = .shiftLeft ∨ op = .shiftRight) (b a : Int64) :
    Yields (bitwise N op (.int b) (.int a)) (shifted b.toInt (places op a.toInt)) := by
  have hbody : bitwise N op (.int b) (.int a) = if a = 0 then .ok (.int b) else
      turn op a >>= fun turned => Value.int <$> shiftPlaces turned.1 b turned.2 := by
    obtain rfl | rfl := hop <;> rfl
  rw [hbody]
  split_ifs with hzero
  · refine ⟨b, rfl, ?_⟩
    have hplaces : places op a.toInt = 0 := by
      rw [hzero]
      obtain rfl | rfl := hop <;> rfl
    rw [hplaces, shifted, if_pos le_rfl, Int.toNat_zero, pow_zero, mul_one]
    exact (Int64.toInt_bmod_size b).symm
  · obtain ⟨op', n, hturn, hop', hn, hsame⟩ := turn_ok hop hzero
    obtain ⟨i, hi, hvalue⟩ := shiftPlaces_ok (a := b) hop' hn
    rw [hturn]
    exact ⟨i, by simp only [Result.ok_bind, hi]; rfl, hvalue.trans (hsame b)⟩

/-! ## The operators on integers -/

/--
No operator panics on integers.  A sum, a difference, a product and a quotient
are exact, or a real where 64 bits do not hold them; the quotient and the
remainder are those of the division toward zero, and NULL for a zero divisor.
A shift is the one of two's complement, to the other side for a negative count.
-/
theorem integer_operators (R : FloatArithmetic) (b a : Int64) :
    ExactOr (arith R .add (.int b) (.int a)) (b.toInt + a.toInt)
      (R.add (Double.ofInt64 b) (Double.ofInt64 a)) ∧
    ExactOr (arith R .subtract (.int b) (.int a)) (b.toInt - a.toInt)
      (R.sub (Double.ofInt64 b) (Double.ofInt64 a)) ∧
    ExactOr (arith R .multiply (.int b) (.int a)) (b.toInt * a.toInt)
      (R.mul (Double.ofInt64 b) (Double.ofInt64 a)) ∧
    (if a = 0 then arith R .divide (.int b) (.int a) = .ok .null ∧
        arith R .remainder (.int b) (.int a) = .ok .null
      else ExactOr (arith R .divide (.int b) (.int a)) (b.toInt.tdiv a.toInt)
          (R.div (Double.ofInt64 b) (Double.ofInt64 a)) ∧
        Yields (arith R .remainder (.int b) (.int a)) (b.toInt.tmod a.toInt)) ∧
    Yields (bitwise R.toNumerals .shiftLeft (.int b) (.int a)) (shifted b.toInt a.toInt) ∧
    Yields (bitwise R.toNumerals .shiftRight (.int b) (.int a)) (shifted b.toInt (-a.toInt)) ∧
    ∀ k, 64 ≤ k → shifted b.toInt k = 0 ∧
      shifted b.toInt (-k) = if b.toInt < 0 then -1 else 0 := by
  refine ⟨exactOr_checked _ _, exactOr_checked _ _, exactOr_checked _ _, ?_,
    bitwise_shift _ (.inl rfl) b a, bitwise_shift _ (.inr rfl) b a, ?_⟩
  · split_ifs with hzero
    · rw [arith_int, arith_int, arithInt, arithInt, if_pos hzero, if_pos hzero]
      exact ⟨rfl, rfl⟩
    · exact ⟨divide_exact R hzero, remainder_exact R hzero⟩
  · intro k hk
    exact ⟨shifted_of_ge hk, shifted_of_le (by omega) b.le_toInt b.toInt_lt⟩

end Rustqlite.Vdbe
