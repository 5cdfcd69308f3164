import Rustqlite.Foundation.Comparisons
import Rustqlite.Vdbe.Coroutine

/-!
# The merge of a compound SELECT

The code of a UNION, INTERSECT, EXCEPT or UNION ALL of two sorted arms.  The
arms are coroutines, and the code merges the rows that they yield.
-/

namespace Rustqlite.Codegen

open Foundation Vdbe

inductive CompoundOperator where
  | union
  | unionAll
  | intersect
  | except
  deriving DecidableEq

namespace CompoundOperator

def emitsOutB : CompoundOperator → Bool
  | .union | .unionAll => true
  | .intersect | .except => false

/-- A row of the first arm is output where the second arm is past it. -/
def outsAltB : CompoundOperator → Bool
  | .intersect => false
  | _ => true

/-- A row of the first arm is output where the second arm has it too. -/
def outsAeqB : CompoundOperator → Bool
  | .intersect | .unionAll => true
  | .union | .except => false

end CompoundOperator

/-- The arguments of the merge; its working registers are allocated one after another. -/
structure Merge where
  op : CompoundOperator
  ncol : Nat
  keyInfo : List KeyField
  first : Int
  limitReg : Option Int
  offsetReg : Option Int

structure MergeLabels where
  outA : Nat
  outB : Nat
  eofA : Nat
  eofANoB : Nat
  eofB : Nat
  altB : Nat
  aeqB : Nat
  agtB : Nat
  init : Nat
  cmpr : Nat
  labelEnd : Nat

def ascBinary : KeyField := ⟨false, .binary⟩

namespace Merge

variable (m : Merge)

def nkey : Nat := m.keyInfo.length

def needsDedup : Bool := m.op ≠ .unionAll

def regAddrA : Int := m.first
def regAddrB : Int := m.first + 1
def regOutA : Int := m.first + 2
def regOutB : Int := m.first + 3
def regBlockA : Int := m.first + 4
def regBlockB : Int := m.first + 4 + m.ncol
def regPrevFlag : Int := if m.needsDedup then m.first + 4 + 2 * m.ncol else 0
def regPrevBlock : Int := if m.needsDedup then m.first + 5 + 2 * m.ncol else 0

/-! ## The output subroutine -/

def copies (src dst : Int) (n : Nat) : List Instruction :=
  (List.range n).map fun j : Nat => .new .sCopy (src + j) (dst + j) 0

def outLength : Nat :=
  (if m.needsDedup then m.ncol + 4 else 0) + (if m.offsetReg.isSome then 1 else 0) + 1 +
    (if m.limitReg.isSome then 1 else 0)

def emitOutSubroutine (block : Int) (pos labelEnd : Nat) : List Instruction :=
  let emit : Nat := pos + 3
  let skip : Nat := pos + m.outLength
  (if m.needsDedup then
    [.new .ifNot m.regPrevFlag emit 0,
      { Instruction.new .compare block m.regPrevBlock m.ncol with
        p4 := .keyInfo (List.replicate m.ncol ascBinary) },
      .new .jump emit skip emit] ++
      (copies block m.regPrevBlock m.ncol ++ [.new .integer 1 m.regPrevFlag 0])
  else []) ++
  (m.offsetReg.toList.map (fun r => .new .ifPos r skip 1) ++
    (.new .resultRow block m.ncol 0 ::
      m.limitReg.toList.map (fun r => .new .decrJumpZero r labelEnd 0)))

/-! ## The control flow -/

/-- Perhaps output a row of an arm, go on to its next row or to `eof`, and then to `next`. -/
def handler (outs : Bool) (regOut : Int) (out : Nat) (regAddr : Int) (eof next : Nat) :
    List Instruction :=
  (if outs then [.new .gosub regOut out 0] else []) ++
    [.new .yield regAddr eof 0, .new .goto 0 next 0]

def handlerLength (outs : Bool) : Nat := (if outs then 1 else 0) + 2

/-- The labels for code at `base`; without rows of the second arm `outB` is not bound. -/
def labels (base : Nat) : MergeLabels :=
  let outB := base + m.outLength + 1
  let eofA := if m.op.emitsOutB then outB + m.outLength + 1 else outB
  let eofANoB := eofA + (if m.op.emitsOutB then 3 else 1)
  let eofB := eofANoB + (if m.op.emitsOutB then 2 else 1)
  let altB := eofB + (if m.op = .intersect then 1 else 3)
  let aeqB := altB + handlerLength m.op.outsAltB
  let agtB := aeqB + handlerLength m.op.outsAeqB
  let init := agtB + handlerLength m.op.emitsOutB
  ⟨base, outB, eofA, eofANoB, eofB, altB, aeqB, agtB, init, init + 2, init + 4⟩

def outA (l : MergeLabels) : List Instruction :=
  m.emitOutSubroutine m.regBlockA l.outA l.labelEnd ++ [.new .return_ m.regOutA 0 1]

def outB (l : MergeLabels) : List Instruction :=
  if m.op.emitsOutB then
    m.emitOutSubroutine m.regBlockB l.outB l.labelEnd ++ [.new .return_ m.regOutB 0 1]
  else []

def eofA (l : MergeLabels) : List Instruction :=
  if m.op.emitsOutB then handler true m.regOutB l.outB m.regAddrB l.labelEnd l.eofA
  else [.new .goto 0 l.labelEnd 0]

/-- As `eofA`, where the second arm has not been resumed yet. -/
def eofANoB (l : MergeLabels) : List Instruction :=
  if m.op.emitsOutB then handler false m.regOutB l.outB m.regAddrB l.labelEnd l.eofA
  else [.new .goto 0 l.labelEnd 0]

def eofB (l : MergeLabels) : List Instruction :=
  if m.op = .intersect then [.new .goto 0 l.labelEnd 0]
  else handler true m.regOutA l.outA m.regAddrA l.labelEnd l.eofB

def altB (l : MergeLabels) : List Instruction :=
  handler m.op.outsAltB m.regOutA l.outA m.regAddrA l.eofA l.cmpr

def aeqB (l : MergeLabels) : List Instruction :=
  handler m.op.outsAeqB m.regOutA l.outA m.regAddrA l.eofA l.cmpr

def agtB (l : MergeLabels) : List Instruction :=
  handler m.op.emitsOutB m.regOutB l.outB m.regAddrB l.eofB l.cmpr

def init (l : MergeLabels) : List Instruction :=
  [.new .yield m.regAddrA l.eofANoB 0, .new .yield m.regAddrB l.eofB 0]

def cmpr (l : MergeLabels) : List Instruction :=
  [{ Instruction.new .compare m.regBlockA m.regBlockB m.nkey with p4 := .keyInfo m.keyInfo },
    .new .jump l.altB l.aeqB l.agtB]

def emitMergeControl (base : Nat) : List Instruction :=
  let l := m.labels base
  m.outA l ++ (m.outB l ++ (m.eofA l ++ (m.eofANoB l ++ (m.eofB l ++ (m.altB l ++ (m.aeqB l ++
    (m.agtB l ++ (m.init l ++ (m.cmpr l ++ [.new .halt 0 0 0])))))))))

end Merge

/-!
## The output subroutine

It leaves out repetitions and the first rows, and stops at the limit.
-/

open Machine

variable {A C W : Type} {n : Numerals} {fx : Effects A C W} {prog : List Instruction}

/-! ## What is output -/

structure OutState where
  prev : Option (List Value)
  skip : Nat
  left : Option Nat

def rowOrder (ncol : Nat) : List Value → List Value → Ordering :=
  Machine.compareKeys (List.replicate ncol ascBinary)

/-- So many rows are left out, and no more than so many are kept. -/
def slice (skip : Nat) (left : Option Nat) (rows : List (List Value)) : List (List Value) :=
  left.elim (rows.drop skip) (rows.drop skip).take

namespace OutState

def sliceRow (st : OutState) (row : List Value) : List (List Value) × Option OutState :=
  match st.skip, st.left with
  | k + 1, _ => ([], some { st with skip := k })
  | 0, none => ([row], some st)
  | 0, some l => ([row], if l ≤ 1 then none else some { st with left := some (l - 1) })

def repeats (ncol : Nat) (st : OutState) (row : List Value) : Bool :=
  st.prev.any fun p => rowOrder ncol row p = .eq

end OutState

namespace Merge

variable (m : Merge)

def outRow (st : OutState) (row : List Value) : List (List Value) × Option OutState :=
  if m.needsDedup then
    if st.repeats m.ncol row then ([], some st) else { st with prev := some row }.sliceRow row
  else st.sliceRow row

def outRows : OutState → List (List Value) → List (List Value)
  | _, [] => []
  | st, row :: rows =>
      (m.outRow st row).1 ++ (m.outRow st row).2.elim [] fun st' => outRows st' rows

def fresh (prev : Option (List Value)) (rows : List (List Value)) : List (List Value) :=
  if m.needsDedup then distinctAfter (rowOrder m.ncol) prev rows else rows

variable {st : OutState} {row : List Value} {r : Int} {R : Region} {k : Nat}

theorem fresh_cons_repeat (hdedup : m.needsDedup) (h : st.repeats m.ncol row)
    (rows : List (List Value)) : m.fresh st.prev (row :: rows) = m.fresh st.prev rows := by
  rw [fresh, fresh, if_pos hdedup, if_pos hdedup]
  exact if_pos h

theorem fresh_cons_new (hdedup : m.needsDedup) (h : ¬st.repeats m.ncol row)
    (rows : List (List Value)) :
    m.fresh st.prev (row :: rows) = row :: m.fresh (some row) rows := by
  rw [fresh, fresh, if_pos hdedup, if_pos hdedup]
  exact if_neg h

theorem slice_nil (skip : Nat) (left : Option Nat) : slice skip left [] = [] := by
  cases left with
  | none => exact List.drop_nil
  | some l => rw [slice, Option.elim_some, List.drop_nil, List.take_nil]

theorem slice_sliceRow (st : OutState) (hleft : st.left ≠ some 0) (row : List Value)
    (rows : List (List Value)) (f : OutState → List (List Value))
    (hf : ∀ st', st'.prev = st.prev → st'.left ≠ some 0 → f st' = slice st'.skip st'.left rows) :
    (st.sliceRow row).1 ++ (st.sliceRow row).2.elim [] f = slice st.skip st.left (row :: rows) := by
  obtain ⟨prev, skip, left⟩ := st
  cases skip with
  | succ k => exact (hf ⟨prev, k, left⟩ rfl hleft).trans (by cases left <;> rfl)
  | zero =>
      cases left with
      | none => exact congrArg (row :: ·) (hf ⟨prev, 0, none⟩ rfl hleft)
      | some l =>
          by_cases hl : l ≤ 1
          · obtain rfl : l = 1 := by
              have hne : l ≠ 0 := fun h => hleft (congrArg some h)
              omega
            rfl
          · obtain ⟨k, rfl⟩ : ∃ k, l = k + 2 := ⟨l - 2, by omega⟩
            have hrest := hf ⟨prev, 0, some (k + 1)⟩ rfl (by simp)
            simp only [OutState.sliceRow, if_neg hl, Option.elim_some]
            exact congrArg (row :: ·) hrest

theorem outRows_eq (hleft : st.left ≠ some 0) (rows : List (List Value)) :
    m.outRows st rows = slice st.skip st.left (m.fresh st.prev rows) := by
  induction rows generalizing st with
  | nil =>
      have hnil : m.fresh st.prev [] = [] := by
        rw [fresh, distinctAfter, ite_self]
      rw [outRows, hnil, slice_nil]
  | cons row rows ih =>
      rw [outRows, outRow]
      by_cases hdedup : m.needsDedup
      · rw [if_pos hdedup]
        by_cases hrepeat : st.repeats m.ncol row
        · rw [if_pos hrepeat, m.fresh_cons_repeat hdedup hrepeat]
          exact ih hleft
        · rw [if_neg hrepeat, m.fresh_cons_new hdedup hrepeat]
          refine slice_sliceRow { st with prev := some row } hleft row _ _ ?_
          intro st' hprev hleft'
          rw [ih hleft', hprev]
      · have hfresh : ∀ prev rows, m.fresh prev rows = rows := fun prev rows => if_neg hdedup
        rw [if_neg hdedup, hfresh]
        refine slice_sliceRow st hleft row rows _ ?_
        intro st' _ hleft'
        rw [ih hleft', hfresh]

/-! ## The registers of the merge -/

def top : Int := m.first + 4 + 2 * m.ncol + if m.needsDedup then (m.ncol : Int) + 1 else 0

def work : Set Int :=
  {r | (m.first + 4 + 2 * m.ncol ≤ r ∧ r < m.top) ∨ m.limitReg = some r ∨ m.offsetReg = some r}

def registers : Set Int :=
  {r | (m.first ≤ r ∧ r < m.top) ∨ m.limitReg = some r ∨ m.offsetReg = some r}

structure Placed : Prop where
  limit : ∀ r, m.limitReg = some r → r < m.first
  offset : ∀ r, m.offsetReg = some r → r < m.first
  apart : ∀ r, m.limitReg = some r → m.offsetReg ≠ some r

theorem needsDedup_registers (h : m.needsDedup) :
    m.regPrevFlag = m.first + 4 + 2 * m.ncol ∧ m.regPrevBlock = m.first + 5 + 2 * m.ncol ∧
      m.top = m.first + 5 + 3 * m.ncol := by
  refine ⟨if_pos h, if_pos h, ?_⟩
  rw [top, if_pos h]
  ring

structure Holds (st : OutState) (s : Machine A C W) : Prop where
  flag : m.needsDedup → s.regs m.regPrevFlag = .int (if st.prev.isSome then 1 else 0)
  prev : m.needsDedup → ∀ p, st.prev = some p → s.rowAt m.regPrevBlock m.ncol = p
  skip : ∀ r, m.offsetReg = some r → s.regs r = .int (Int64.ofNat st.skip)
  noSkip : m.offsetReg = none → st.skip = 0
  left : ∀ r, m.limitReg = some r → ∃ k, st.left = some k ∧ s.regs r = .int (Int64.ofNat k)
  noLeft : m.limitReg = none → st.left = none
  skip_lt : st.skip < 2 ^ 63
  left_pos : ∀ k, st.left = some k → 0 < k ∧ k < 2 ^ 63

variable {m} {s t : Machine A C W} {st : OutState}

theorem flag_mem_work (hdedup : m.needsDedup) : m.regPrevFlag ∈ m.work := by
  obtain ⟨hflag, -, htop⟩ := m.needsDedup_registers hdedup
  exact Or.inl ⟨by omega, by omega⟩

theorem block_mem_work (hdedup : m.needsDedup) (hr : r ∈ blockSet m.regPrevBlock m.ncol) :
    r ∈ m.work := by
  obtain ⟨-, hblock, htop⟩ := m.needsDedup_registers hdedup
  obtain ⟨hle, hlt⟩ := hr
  exact Or.inl ⟨by omega, by omega⟩

theorem Holds.keeps (h : m.Holds st s) (hkeeps : s.Keeps R t) (hout : ∀ r ∈ m.work, r ∉ R.regs) :
    m.Holds st t where
  flag hdedup := (hkeeps.regs _ (hout _ (flag_mem_work hdedup))).trans (h.flag hdedup)
  prev hdedup p hp :=
    (rowAt_keeps hkeeps fun r hr => hout r (block_mem_work hdedup hr)).trans (h.prev hdedup p hp)
  skip r hr := (hkeeps.regs r (hout r (.inr (.inr hr)))).trans (h.skip r hr)
  noSkip := h.noSkip
  left r hr := by
    obtain ⟨k, hk, hreg⟩ := h.left r hr
    exact ⟨k, hk, (hkeeps.regs r (hout r (.inr (.inl hr)))).trans hreg⟩
  noLeft := h.noLeft
  skip_lt := h.skip_lt
  left_pos := h.left_pos

theorem Holds.setCounter (h : m.Holds st s) (hr : r < m.first) (v : Value) :
    (m.needsDedup → (s.set r v).regs m.regPrevFlag = .int (if st.prev.isSome then 1 else 0)) ∧
      (m.needsDedup → ∀ p, st.prev = some p → (s.set r v).rowAt m.regPrevBlock m.ncol = p) := by
  have hkeeps : s.Keeps (Region.ofRegs {r}) (s.set r v) := (Machine.Keeps.refl _ s).set rfl v
  constructor
  · intro hdedup
    obtain ⟨hflag, -, -⟩ := m.needsDedup_registers hdedup
    have hne : m.regPrevFlag ∉ (Region.ofRegs {r}).regs := by
      change m.regPrevFlag ≠ r
      omega
    exact (hkeeps.regs _ hne).trans (h.flag hdedup)
  · intro hdedup p hp
    obtain ⟨-, hblock, -⟩ := m.needsDedup_registers hdedup
    refine (rowAt_keeps hkeeps ?_).trans (h.prev hdedup p hp)
    rintro r' ⟨hle, -⟩
    change r' ≠ r
    omega

theorem Holds.setSkip (hplaced : m.Placed) (h : m.Holds st s) (hr : m.offsetReg = some r)
    (hk : k < 2 ^ 63) (pc : Nat) :
    m.Holds { st with skip := k } ((s.set r (.int (Int64.ofNat k))).goto pc) where
  flag := (h.setCounter (hplaced.offset r hr) _).1
  prev := (h.setCounter (hplaced.offset r hr) _).2
  skip r' hr' := by
    obtain rfl : r = r' := Option.some.inj (hr.symm.trans hr')
    exact Function.update_self ..
  noSkip hnone := absurd (hr.symm.trans hnone) (Option.some_ne_none r)
  left r' hr' := by
    have hne : r' ≠ r := fun heq => hplaced.apart r' hr' (heq ▸ hr)
    obtain ⟨l, hl, hreg⟩ := h.left r' hr'
    exact ⟨l, hl, (Function.update_of_ne hne _ _).trans hreg⟩
  noLeft := h.noLeft
  skip_lt := hk
  left_pos := h.left_pos

theorem Holds.setLeft (hplaced : m.Placed) (h : m.Holds st s) (hr : m.limitReg = some r)
    (hpos : 0 < k) (hk : k < 2 ^ 63) (pc : Nat) :
    m.Holds { st with left := some k } ((s.set r (.int (Int64.ofNat k))).goto pc) where
  flag := (h.setCounter (hplaced.limit r hr) _).1
  prev := (h.setCounter (hplaced.limit r hr) _).2
  skip r' hr' := by
    have hne : r' ≠ r := fun heq => hplaced.apart r hr (heq ▸ hr')
    exact (Function.update_of_ne hne _ _).trans (h.skip r' hr')
  noSkip := h.noSkip
  left r' hr' := by
    obtain rfl : r = r' := Option.some.inj (hr.symm.trans hr')
    exact ⟨k, rfl, Function.update_self ..⟩
  noLeft hnone := absurd (hr.symm.trans hnone) (Option.some_ne_none r)
  skip_lt := h.skip_lt
  left_pos l hl := by
    obtain rfl : k = l := Option.some.inj hl
    exact ⟨hpos, hk⟩

def Lands (m : Merge) (next : Option OutState) (back labelEnd : Nat) (t : Machine A C W) : Prop :=
  next.elim (t.pc = labelEnd) fun st => t.pc = back ∧ m.Holds st t

/-! ## OFFSET, the row and LIMIT -/

theorem ofNat_succ_sub_one (k : Nat) : Int64.ofNat (k + 1) - 1 = Int64.ofNat k := by
  rw [Int64.ofNat_add]
  exact Int64.add_sub_cancel ..

theorem ofNat_pos (hpos : 0 < k) (hk : k < 2 ^ 63) : 0 < Int64.ofNat k := by
  rw [Int64.lt_iff_toInt_lt, Int64.toInt_ofNat_of_lt hk]
  exact Int.natCast_pos.mpr hpos

theorem ofNat_eq_zero_iff (hk : k < 2 ^ 63) : Int64.ofNat k = 0 ↔ k = 0 := by
  rw [← Int64.toInt_inj, Int64.toInt_ofNat_of_lt hk]
  exact Int.natCast_eq_zero

section Output

variable {skip labelEnd : Nat} {block : Int}

theorem work_of_limit (h : m.limitReg = some r) : r ∈ m.work := Or.inr (.inl h)

theorem work_of_offset (h : m.offsetReg = some r) : r ∈ m.work := Or.inr (.inr h)

theorem keeps_setCounter (hr : r ∈ R.regs) (v : Value) (pc : Nat) :
    s.Keeps R ((s.set r v).goto pc) :=
  ((Machine.Keeps.refl _ s).set hr v).goto pc

theorem Holds.goto (h : m.Holds st s) (pc : Nat) : m.Holds st (s.goto pc) :=
  h.keeps ((Machine.Keeps.refl (Region.ofRegs ∅) s).goto pc) fun _ _ => id

variable (n fx) in
theorem runs_skip (hplaced : m.Placed)
    (hseg : Seg prog s.pc (m.offsetReg.toList.map fun r => .new .ifPos r skip 1)) (h : m.Holds st s)
    (hk : st.skip = k + 1) :
    ∃ t, s.Runs n fx prog [] t ∧ s.Keeps (Region.ofRegs m.work) t ∧ t.pc = skip ∧
      m.Holds { st with skip := k } t := by
  cases hreg : m.offsetReg with
  | none =>
      rw [h.noSkip hreg] at hk
      cases hk
  | some r =>
      rw [hreg, Option.toList_some, List.map_singleton] at hseg
      have hlt : k + 1 < 2 ^ 63 := hk ▸ h.skip_lt
      have hval := h.skip r hreg
      rw [hk] at hval
      have hexec : s.exec n fx prog (.new .ifPos r skip 1) = _ :=
        exec_ifPos_pos hval (ofNat_pos (Nat.succ_pos k) hlt)
      rw [ofNat_succ_sub_one] at hexec
      exact ⟨_, .one (Seg.cons_iff.mp hseg).1 hexec, keeps_setCounter (work_of_offset hreg) _ _,
        rfl, h.setSkip hplaced hreg (Nat.lt_of_succ_lt hlt) skip⟩

variable (n fx) in
theorem runs_noSkip (hplaced : m.Placed)
    (hseg : Seg prog s.pc (m.offsetReg.toList.map fun r => .new .ifPos r skip 1))
    (h : m.Holds st s) (hk : st.skip = 0) :
    ∃ t, s.Runs n fx prog [] t ∧ s.Keeps (Region.ofRegs m.work) t ∧
      t.pc = s.pc + m.offsetReg.toList.length ∧ m.Holds st t := by
  obtain ⟨prev, skip, left⟩ := st
  obtain rfl : skip = 0 := hk
  cases hreg : m.offsetReg with
  | none => exact ⟨s, .refl s, .refl _ s, rfl, h⟩
  | some r =>
      rw [hreg, Option.toList_some, List.map_singleton] at hseg
      exact ⟨_, .one (Seg.cons_iff.mp hseg).1 (exec_ifPos_zero (h.skip r hreg)),
        keeps_setCounter (work_of_offset hreg) _ _, rfl,
        h.setSkip hplaced hreg (Nat.two_pow_pos 63) (s.pc + 1)⟩

variable (n fx) in
theorem runs_limit (hplaced : m.Placed)
    (hseg : Seg prog s.pc (m.limitReg.toList.map fun r => .new .decrJumpZero r labelEnd 0))
    (h : m.Holds st s) (hk : st.skip = 0) (row : List Value) :
    ∃ t, s.Runs n fx prog [] t ∧ s.Keeps (Region.ofRegs m.work) t ∧
      m.Lands (st.sliceRow row).2 (s.pc + m.limitReg.toList.length) labelEnd t := by
  obtain ⟨prev, skip, left⟩ := st
  obtain rfl : skip = 0 := hk
  cases hreg : m.limitReg with
  | none =>
      obtain rfl : left = none := h.noLeft hreg
      exact ⟨s, .refl s, .refl _ s, rfl, h⟩
  | some r =>
      rw [hreg, Option.toList_some, List.map_singleton] at hseg
      obtain ⟨l, rfl, hval⟩ : ∃ l, left = some l ∧ s.regs r = .int (Int64.ofNat l) := h.left r hreg
      obtain ⟨hpos, hlt⟩ := h.left_pos l rfl
      obtain ⟨k, rfl⟩ : ∃ k, l = k + 1 := ⟨l - 1, by omega⟩
      have hexec : s.exec n fx prog (.new .decrJumpZero r labelEnd 0) = _ := exec_decrJumpZero hval
      rw [ofNat_succ_sub_one] at hexec
      refine ⟨_, .one (Seg.cons_iff.mp hseg).1 hexec, keeps_setCounter (work_of_limit hreg) _ _, ?_⟩
      have hk : k < 2 ^ 63 := Nat.lt_of_succ_lt hlt
      by_cases hlast : k = 0
      · subst hlast
        rfl
      · have hle : ¬k + 1 ≤ 1 := by omega
        simp only [OutState.sliceRow, if_neg hle, if_neg (mt (ofNat_eq_zero_iff hk).mp hlast)]
        exact ⟨rfl, h.setLeft hplaced hreg (Nat.pos_of_ne_zero hlast) hk _⟩

def sliceCode (m : Merge) (block : Int) (skip labelEnd : Nat) : List Instruction :=
  m.offsetReg.toList.map (fun r => .new .ifPos r skip 1) ++
    (.new .resultRow block m.ncol 0 ::
      m.limitReg.toList.map (fun r => .new .decrJumpZero r labelEnd 0))

variable (n fx) in
theorem runs_slice (hplaced : m.Placed) (hseg : Seg prog s.pc (m.sliceCode block skip labelEnd))
    (hskip : skip = s.pc + (m.sliceCode block skip labelEnd).length) (h : m.Holds st s)
    (hblock : ∀ r ∈ blockSet block m.ncol, r ∉ m.work) :
    ∃ t, s.Runs n fx prog (st.sliceRow (s.rowAt block m.ncol)).1 t ∧
      s.Keeps (Region.ofRegs m.work) t ∧
      m.Lands (st.sliceRow (s.rowAt block m.ncol)).2 skip labelEnd t := by
  obtain ⟨hoffset, hrest⟩ := Seg.append_iff.mp hseg
  cases hk : st.skip with
  | succ k =>
      obtain ⟨t, hruns, hkeeps, hpc, hholds⟩ := runs_skip n fx hplaced hoffset h hk
      simp only [OutState.sliceRow, hk]
      exact ⟨t, hruns, hkeeps, hpc, hholds⟩
  | zero =>
      obtain ⟨t, hruns, hkeeps, hpc, hholds⟩ := runs_noSkip n fx hplaced hoffset h hk
      rw [List.length_map, ← hpc] at hrest
      obtain ⟨hrow, hlimit⟩ := Seg.cons_iff.mp hrest
      have hsame := rowAt_keeps hkeeps hblock
      obtain ⟨u, hruns', hkeeps', hlands⟩ := runs_limit n fx hplaced
        (s := t.goto (t.pc + 1)) hlimit (hholds.goto _) hk (s.rowAt block m.ncol)
      have hemit : t.Runs n fx prog [s.rowAt block m.ncol] (t.goto (t.pc + 1)) :=
        hsame ▸ .emit hrow (exec_resultRow block m.ncol)
      have hrows : (st.sliceRow (s.rowAt block m.ncol)).1 = [s.rowAt block m.ncol] := by
        obtain ⟨prev, skip, left⟩ := st
        obtain rfl : skip = 0 := hk
        cases left <;> rfl
      have hback : (t.goto (t.pc + 1)).pc + m.limitReg.toList.length = skip := by
        rw [hskip]
        simp only [sliceCode, List.length_append, List.length_map, List.length_cons]
        change t.pc + 1 + _ = _
        omega
      rw [hback] at hlands
      rw [hrows]
      have hemitKeeps : s.Keeps (Region.ofRegs m.work) (t.goto (t.pc + 1)) := hkeeps.goto _
      exact ⟨u, (hruns.trans hemit).trans hruns', hemitKeeps.trans hkeeps', hlands⟩

/-! ## Without repetitions -/

theorem copies_succ (src dst : Int) (k : Nat) :
    copies src dst (k + 1) = copies src dst k ++ [.new .sCopy (src + k) (dst + k) 0] := by
  rw [copies, List.range_succ, List.map_append]
  rfl

theorem rowAt_succ (s : Machine A C W) (first : Int) (k : Nat) :
    s.rowAt first (k + 1) = s.rowAt first k ++ [s.regs (first + k)] := by
  rw [Machine.rowAt, Vdbe.block, List.range_succ, List.map_append, List.map_append]
  rfl

theorem length_copies (src dst : Int) (k : Nat) : (copies src dst k).length = k := by
  rw [copies, List.length_map, List.length_range]

variable (n fx) in
theorem runs_copies {src dst : Int} (hseg : Seg prog s.pc (copies src dst k))
    (hapart : ∀ r ∈ blockSet src k, r ∉ blockSet dst k) :
    ∃ t, s.Runs n fx prog [] t ∧ s.Keeps (Region.ofRegs (blockSet dst k)) t ∧ t.pc = s.pc + k ∧
      t.rowAt dst k = s.rowAt src k := by
  induction k with
  | zero => exact ⟨s, .refl s, .refl _ s, rfl, rfl⟩
  | succ k ih =>
      have hsub : ∀ first, blockSet first k ⊆ blockSet first (k + 1) := by
        rintro first r ⟨hle, hlt⟩
        exact ⟨hle, by push_cast; omega⟩
      rw [copies_succ] at hseg
      obtain ⟨hfirst, hlast⟩ := Seg.append_iff.mp hseg
      obtain ⟨t, hruns, hkeeps, hpc, hrow⟩ :=
        ih hfirst fun r hr hr' => hapart r (hsub src hr) (hsub dst hr')
      have hlastSrc : src + k ∈ blockSet src (k + 1) := ⟨by omega, by push_cast; omega⟩
      have hval : t.regs (src + k) = s.regs (src + k) :=
        hkeeps.regs _ fun hin => hapart _ hlastSrc (hsub dst hin)
      rw [length_copies, ← hpc] at hlast
      have hkeeps' : s.Keeps (Region.ofRegs (blockSet dst (k + 1))) t :=
        hkeeps.widen (hsub dst)
      refine ⟨_, hruns.trans (.one (Seg.cons_iff.mp hlast).1 (exec_sCopy _ _)),
        (hkeeps'.set ⟨by omega, by push_cast; omega⟩ _).goto _, ?_, ?_⟩
      · change t.pc + 1 = _
        omega
      · rw [rowAt_succ, rowAt_succ, ← hrow, ← hval]
        refine congrArg₂ _ (List.map_congr_left fun r hr => ?_) ?_
        · obtain ⟨-, hlt⟩ := mem_block.mp hr
          have hne : r ≠ dst + k := by omega
          exact Function.update_of_ne hne _ _
        · exact congrArg (fun v => [v]) (Function.update_self ..)

def dedupCode (m : Merge) (block : Int) (emit skip : Nat) : List Instruction :=
  [.new .ifNot m.regPrevFlag emit 0,
    { Instruction.new .compare block m.regPrevBlock m.ncol with
      p4 := .keyInfo (List.replicate m.ncol ascBinary) },
    .new .jump emit skip emit] ++
    (copies block m.regPrevBlock m.ncol ++ [.new .integer 1 m.regPrevFlag 0])

variable (n fx) in
theorem runs_compareRow (hdedup : m.needsDedup) {emit : Nat}
    (hseg : Seg prog s.pc (m.dedupCode block emit skip)) (h : m.Holds st s) :
    ∃ t, s.Runs n fx prog [] t ∧ s.Keeps (Region.ofRegs ∅) t ∧
      t.pc = if st.repeats m.ncol (s.rowAt block m.ncol) then skip else emit := by
  obtain ⟨hhead, -⟩ := Seg.append_iff.mp hseg
  obtain ⟨hifNot, hrest⟩ := Seg.cons_iff.mp hhead
  obtain ⟨hcompare, hrest⟩ := Seg.cons_iff.mp hrest
  obtain ⟨hjump, -⟩ := Seg.cons_iff.mp hrest
  have hkept : ∀ pc, s.Keeps (Region.ofRegs ∅) (s.goto pc) := fun pc =>
    (Machine.Keeps.refl _ s).goto pc
  cases hprev : st.prev with
  | none =>
      have hflag : s.regs m.regPrevFlag = .int 0 := (h.flag hdedup).trans (by rw [hprev]; rfl)
      have hfalse : ¬st.repeats m.ncol (s.rowAt block m.ncol) := by
        rw [OutState.repeats, hprev]
        exact Bool.false_ne_true
      rw [if_neg hfalse]
      exact ⟨_, .one hifNot (exec_ifNot hflag), hkept _, rfl⟩
  | some p =>
      have hflag : s.regs m.regPrevFlag = .int 1 := (h.flag hdedup).trans (by rw [hprev]; rfl)
      have hfirst : s.Runs n fx prog [] (s.goto (s.pc + 1)) := .one hifNot (exec_ifNot hflag)
      have hrow : s.rowAt m.regPrevBlock m.ncol = p := h.prev hdedup p hprev
      have hrepeat : st.repeats m.ncol (s.rowAt block m.ncol) =
          decide (rowOrder m.ncol (s.rowAt block m.ncol) p = .eq) := by
        rw [OutState.repeats, hprev, Option.any_some]
      obtain ⟨t, hruns, hkeeps, hpc⟩ := runs_compare (s := s.goto (s.pc + 1)) hcompare hjump
      refine ⟨t, hfirst.trans hruns, (hkept _).trans hkeeps, ?_⟩
      change t.pc = branch (rowOrder m.ncol (s.rowAt block m.ncol) (s.rowAt m.regPrevBlock m.ncol))
        emit skip emit at hpc
      rw [hrow] at hpc
      rw [hpc, hrepeat]
      cases rowOrder m.ncol (s.rowAt block m.ncol) p <;> rfl

variable (n fx) in
theorem runs_remember (hdedup : m.needsDedup)
    (hseg : Seg prog s.pc (copies block m.regPrevBlock m.ncol ++ [.new .integer 1 m.regPrevFlag 0]))
    (hplaced : m.Placed) (h : m.Holds st s) (hhigh : block + m.ncol ≤ m.first + 4 + 2 * m.ncol) :
    ∃ t, s.Runs n fx prog [] t ∧ s.Keeps (Region.ofRegs m.work) t ∧ t.pc = s.pc + (m.ncol + 1) ∧
      m.Holds { st with prev := some (s.rowAt block m.ncol) } t := by
  obtain ⟨hflag, hprev, htop⟩ := m.needsDedup_registers hdedup
  obtain ⟨hcopies, hlast⟩ := Seg.append_iff.mp hseg
  obtain ⟨t, hruns, hkeeps, hpc, hrow⟩ := runs_copies n fx hcopies (by
    rintro r ⟨-, hlt⟩ ⟨hle, -⟩
    omega)
  rw [length_copies, ← hpc] at hlast
  have hwork : s.Keeps (Region.ofRegs m.work) t :=
    hkeeps.widen fun r hr => block_mem_work hdedup hr
  have hset : t.Keeps (Region.ofRegs {m.regPrevFlag}) _ :=
    keeps_setCounter rfl (.int (Int64.ofInt 1)) (t.pc + 1)
  have hboth : s.Keeps (Region.ofRegs ({m.regPrevFlag} ∪ blockSet m.regPrevBlock m.ncol)) _ :=
    (hkeeps.widen Set.subset_union_right).trans (hset.widen Set.subset_union_left)
  have hcounter : ∀ r, r < m.first → r ∉ {m.regPrevFlag} ∪ blockSet m.regPrevBlock m.ncol := by
    rintro r hr (rfl | ⟨hle, -⟩) <;> omega
  refine ⟨_, hruns.trans (.one (Seg.cons_iff.mp hlast).1 (exec_integer 1 m.regPrevFlag)),
    (hwork.set (flag_mem_work hdedup) _).goto _, ?_, ?_⟩
  · change t.pc + 1 = _
    omega
  · exact {
      flag := fun _ => Function.update_self ..
      prev := fun _ p hp => by
        obtain rfl := Option.some.inj hp
        rw [← hrow]
        refine rowAt_keeps hset ?_
        rintro r ⟨hle, -⟩ rfl
        omega
      skip := fun r hr => (hboth.regs r (hcounter r (hplaced.offset r hr))).trans (h.skip r hr)
      noSkip := h.noSkip
      left := fun r hr => by
        obtain ⟨k, hk, hreg⟩ := h.left r hr
        exact ⟨k, hk, (hboth.regs r (hcounter r (hplaced.limit r hr))).trans hreg⟩
      noLeft := h.noLeft
      skip_lt := h.skip_lt
      left_pos := h.left_pos }

theorem emitOutSubroutine_dedup (hdedup : m.needsDedup) (block : Int) (pos labelEnd : Nat) :
    m.emitOutSubroutine block pos labelEnd =
      m.dedupCode block (pos + 3) (pos + m.outLength) ++
        m.sliceCode block (pos + m.outLength) labelEnd := by
  rw [emitOutSubroutine, if_pos hdedup]
  rfl

theorem emitOutSubroutine_plain (hdedup : ¬m.needsDedup) (block : Int) (pos labelEnd : Nat) :
    m.emitOutSubroutine block pos labelEnd = m.sliceCode block (pos + m.outLength) labelEnd := by
  rw [emitOutSubroutine, if_neg hdedup]
  rfl

theorem length_dedupCode (block : Int) (emit skip : Nat) :
    (m.dedupCode block emit skip).length = m.ncol + 4 := by
  simp [dedupCode, length_copies]

theorem length_toList (r : Option Int) : r.toList.length = if r.isSome then 1 else 0 := by
  cases r <;> rfl

theorem length_sliceCode (block : Int) (skip labelEnd : Nat) :
    (m.sliceCode block skip labelEnd).length =
      m.offsetReg.toList.length + (1 + m.limitReg.toList.length) := by
  simp only [sliceCode, List.length_append, List.length_map, List.length_cons]
  omega

theorem outLength_eq : m.outLength =
    (if m.needsDedup then m.ncol + 4 else 0) +
      (m.offsetReg.toList.length + (1 + m.limitReg.toList.length)) := by
  rw [outLength, length_toList, length_toList]
  omega

theorem length_emitOutSubroutine (block : Int) (pos labelEnd : Nat) :
    (m.emitOutSubroutine block pos labelEnd).length = m.outLength := by
  by_cases hdedup : m.needsDedup
  · rw [emitOutSubroutine_dedup hdedup, List.length_append, length_dedupCode, length_sliceCode,
      outLength_eq, if_pos hdedup]
  · rw [emitOutSubroutine_plain hdedup, length_sliceCode, outLength_eq, if_neg hdedup, Nat.zero_add]

variable (n fx) in
theorem runs_emitOut (hplaced : m.Placed)
    (hseg : Seg prog s.pc (m.emitOutSubroutine block s.pc labelEnd))
    (h : m.Holds st s) (hlow : m.first ≤ block)
    (hhigh : block + m.ncol ≤ m.first + 4 + 2 * m.ncol) :
    ∃ t, s.Runs n fx prog (m.outRow st (s.rowAt block m.ncol)).1 t ∧
      s.Keeps (Region.ofRegs m.work) t ∧
      m.Lands (m.outRow st (s.rowAt block m.ncol)).2 (s.pc + m.outLength) labelEnd t := by
  have hblock : ∀ r ∈ blockSet block m.ncol, r ∉ m.work := by
    rintro r ⟨hle, hlt⟩ (⟨hwork, -⟩ | hreg | hreg)
    · omega
    · exact absurd (hplaced.limit r hreg) (by omega)
    · exact absurd (hplaced.offset r hreg) (by omega)
  by_cases hdedup : m.needsDedup
  · rw [emitOutSubroutine_dedup hdedup] at hseg
    obtain ⟨hfront, hslice⟩ := Seg.append_iff.mp hseg
    obtain ⟨t, hruns, hnone, hpc⟩ := runs_compareRow n fx hdedup hfront h
    have hkeeps : s.Keeps (Region.ofRegs m.work) t := hnone.widen (Set.empty_subset _)
    have hholds : m.Holds st t := h.keeps hnone fun _ _ => id
    have hsame : t.rowAt block m.ncol = s.rowAt block m.ncol := rowAt_keeps hnone fun _ _ => id
    rw [outRow, if_pos hdedup]
    by_cases hrepeat : st.repeats m.ncol (s.rowAt block m.ncol)
    · rw [if_pos hrepeat] at hpc ⊢
      exact ⟨t, hruns, hkeeps, hpc, hholds⟩
    · rw [if_neg hrepeat] at hpc ⊢
      obtain ⟨-, hcopies⟩ := Seg.append_iff.mp hfront
      change Seg prog (s.pc + 3) _ at hcopies
      rw [← hpc] at hcopies
      obtain ⟨u, hruns', hkeeps', hpc', hholds'⟩ :=
        runs_remember n fx hdedup hcopies hplaced hholds hhigh
      have hupc : u.pc = s.pc + (m.ncol + 4) := by omega
      rw [length_dedupCode, ← hupc] at hslice
      have hend : s.pc + m.outLength =
          u.pc + (m.sliceCode block (s.pc + m.outLength) labelEnd).length := by
        rw [length_sliceCode, outLength_eq, if_pos hdedup]
        omega
      obtain ⟨v, hruns'', hkeeps'', hlands⟩ := runs_slice n fx hplaced hslice hend hholds' hblock
      have hrow : u.rowAt block m.ncol = s.rowAt block m.ncol :=
        (rowAt_keeps hkeeps' hblock).trans hsame
      rw [hrow, hsame] at hruns'' hlands
      exact ⟨v, (hruns.trans hruns').trans hruns'', (hkeeps.trans hkeeps').trans hkeeps'', hlands⟩
  · rw [emitOutSubroutine_plain hdedup] at hseg
    rw [outRow, if_neg hdedup]
    have hend : s.pc + m.outLength =
        s.pc + (m.sliceCode block (s.pc + m.outLength) labelEnd).length := by
      rw [length_sliceCode, outLength_eq, if_neg hdedup, Nat.zero_add]
    exact runs_slice n fx hplaced hseg hend h hblock

end Output

end Merge

end Rustqlite.Codegen
