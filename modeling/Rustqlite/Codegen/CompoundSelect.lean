import Rustqlite.Codegen.CompoundRows
import Rustqlite.Codegen.Inlining

/-!
# Compound SELECTs of two arms

The program of a compound has its two arms inlined as coroutines.  It returns
what the merge makes of the rows that the arms return by themselves.
-/

namespace Rustqlite.Codegen

open Foundation Vdbe Machine

variable {A C W : Type} {n : Numerals} {fx : Effects A C W} {prog : List Instruction}

def start (w : W) : Machine A C W where
  pc := 0
  regs _ := .null
  accs _ := none
  cursors _ := none
  world := w
  onceDone _ := false
  lastCompare := .eq

/-- A constant of 64 bits is loaded by `Int64` where it does not fit into 32 bits. -/
def emitInt (r : Int) (k : Int64) : Instruction :=
  if -2 ^ 31 ≤ k.toInt ∧ k.toInt < 2 ^ 31 then .new .integer k.toInt r 0
  else { Instruction.new .int64 0 r 0 with p4 := .int k }

/--
The keys of the comparison, one for each ORDER BY term.  Key `i` is on column
`i` of the rows, whatever the term is, and BINARY.
-/
def mergeKeyInfo (descs : List Bool) : List KeyField := descs.map fun desc => ⟨desc, .binary⟩

structure TwoArmMerge where
  op : CompoundOperator
  ncol : Nat
  keyInfo : List KeyField
  limit : Option Int64
  offset : Int64
  leading : Inlining.Arm
  trailing : Inlining.Arm

namespace TwoArmMerge

variable (c : TwoArmMerge)

def positiveLimit : Option Int64 := c.limit.filter fun k => 0 < k

def limitReg : Option Int := c.positiveLimit.map fun _ => 1

def offsetReg : Option Int :=
  if 0 < c.offset then some (if c.limitReg.isSome then 2 else 1) else none

def first : Int := (if c.limitReg.isSome then 2 else 1) + if 0 < c.offset then 1 else 0

def merge : Merge := ⟨c.op, c.ncol, c.keyInfo, c.first, c.limitReg, c.offsetReg⟩

def setUp : List Instruction :=
  (c.positiveLimit.toList.map fun k => emitInt 1 k) ++
    (c.offsetReg.toList.map fun r => emitInt r c.offset) ++
      if c.merge.needsDedup then [.new .integer 0 c.merge.regPrevFlag 0] else []

/-- Where the code of the leading arm begins. -/
def leadingStart : Nat := 1 + c.setUp.length + 1

def leadingPlace : Inlining.Place where
  regOffset := c.merge.top - 1
  cursorOffset := 0
  outBlock := c.merge.regBlockA
  ncol := c.ncol
  yieldReg := c.merge.regAddrA
  start := c.leadingStart

def leadingCode : List Instruction := c.leading.inline c.leadingPlace

def trailingStart : Nat := c.leadingStart + c.leadingCode.length + 1

def trailingPlace : Inlining.Place where
  regOffset := c.merge.top + c.leading.numRegisters - 1
  cursorOffset := c.leading.numCursors
  outBlock := c.merge.regBlockB
  ncol := c.ncol
  yieldReg := c.merge.regAddrB
  start := c.trailingStart

def trailingCode : List Instruction := c.trailing.inline c.trailingPlace

def base : Nat := c.trailingStart + c.trailingCode.length

def setup : Nat := c.base + (c.merge.emitMergeControl c.base).length

def program : List Instruction :=
  .new .init 0 c.setup 0 :: (c.setUp ++
    (.new .initCoroutine c.merge.regAddrA (c.trailingStart - 1 : Nat) c.leadingStart ::
      (c.leadingCode ++
        (.new .initCoroutine c.merge.regAddrB (c.merge.labels c.base).init c.trailingStart ::
          (c.trailingCode ++ (c.merge.emitMergeControl c.base ++
            [.new .transaction 0 0 0, .new .goto 0 1 0]))))))

def hasHalt (arm : Inlining.Arm) : Bool := arm.prog.any fun i => i.opcode = .halt

def compileTwoArmMerge : Except String Inlining.Arm :=
  if c.limit = some 0 then
    .ok ⟨[.new .init 0 2 0, .new .halt 0 0 0, .new .transaction 0 0 0, .new .goto 0 1 0], 1, 0⟩
  else if ¬hasHalt c.leading then .error "leading arm program has no Halt"
  else if ¬hasHalt c.trailing then .error "trailing arm program has no Halt"
  else .ok ⟨c.program, (c.merge.top + c.leading.numRegisters + c.trailing.numRegisters).toNat,
    c.leading.numCursors + c.trailing.numCursors⟩

/-! ## The counters -/

variable {k : Int64} {s : Machine A C W} {r : Int} {p : Int × Int64} {w w' : W} {arm : Inlining.Arm}
  {rows as bs : List (List Value)}

theorem ofNat_toInt (h : 0 < k) : Int64.ofNat k.toInt.toNat = k := by
  have hpos := Int64.lt_iff_toInt_lt.mp h
  rw [← Int64.ofInt_eq_ofNat, Int.toNat_of_nonneg (by simpa using hpos.le), Int64.ofInt_toInt]

theorem toNat_toInt_pos (h : 0 < k) : 0 < k.toInt.toNat := by
  have hpos : 0 < k.toInt := Int64.lt_iff_toInt_lt.mp h
  omega

theorem toNat_toInt_lt (k : Int64) : k.toInt.toNat < 2 ^ 63 := by
  have hlt := k.toInt_lt
  omega

theorem positiveLimit_pos (h : c.positiveLimit = some k) : 0 < k :=
  of_decide_eq_true (Option.filter_eq_some_iff.mp h).2

theorem exec_emitInt (r : Int) (k : Int64) :
    s.exec n fx prog (emitInt r k) = .next ((s.set r (.int k)).goto (s.pc + 1)) := by
  unfold emitInt
  split
  · rw [exec_integer, Int64.ofInt_toInt]
  · rfl

variable (n fx) in
theorem runs_constants {ps : List (Int × Int64)}
    (hseg : Seg prog s.pc (ps.map fun p => emitInt p.1 p.2)) (hdistinct : (ps.map Prod.fst).Nodup) :
    ∃ t, s.Runs n fx prog [] t ∧ s.Keeps (Region.ofRegs {r | r ∈ ps.map Prod.fst}) t ∧
      t.pc = s.pc + ps.length ∧ ∀ p ∈ ps, t.regs p.1 = .int p.2 := by
  induction ps generalizing s with
  | nil => exact ⟨s, .refl s, .refl _ s, rfl, fun _ hp => absurd hp List.not_mem_nil⟩
  | cons p ps ih =>
      rw [List.map_cons, Seg.cons_iff] at hseg
      rw [List.map_cons, List.nodup_cons] at hdistinct
      have hfirst : s.Runs n fx prog [] _ := .one hseg.1 (exec_emitInt p.1 p.2)
      obtain ⟨t, hruns, hkeeps, hpc, hregs⟩ := @ih ((s.set p.1 (.int p.2)).goto (s.pc + 1))
        hseg.2 hdistinct.2
      have hset : s.Keeps (Region.ofRegs {r | r ∈ (p :: ps).map Prod.fst})
          ((s.set p.1 (.int p.2)).goto (s.pc + 1)) :=
        ((Machine.Keeps.refl _ s).set (List.mem_cons_self ..) _).goto _
      refine ⟨t, hfirst.trans hruns,
        hset.trans (hkeeps.widen fun r hr => List.mem_cons_of_mem _ hr), ?_,
        List.forall_mem_cons.mpr ⟨?_, hregs⟩⟩
      · rw [hpc, List.length_cons]
        change s.pc + 1 + _ = _
        omega
      · exact (hkeeps.regs p.1 hdistinct.1).trans (Function.update_self ..)

def constants : List (Int × Int64) :=
  (c.positiveLimit.toList.map fun k => (1, k)) ++ (c.offsetReg.toList.map fun r => (r, c.offset)) ++
    if c.merge.needsDedup then [(c.merge.regPrevFlag, 0)] else []

theorem setUp_eq : c.setUp = c.constants.map fun p => emitInt p.1 p.2 := by
  have hzero : ∀ r, emitInt r 0 = .new .integer 0 r 0 := fun _ => rfl
  simp only [setUp, constants, List.map_append, List.map_map, Function.comp_def]
  congr 1
  split
  · rw [List.map_singleton, hzero]
  · rfl

theorem limitReg_eq (h : c.limitReg = some r) : r = 1 ∧ 2 ≤ c.first := by
  obtain ⟨k, -, rfl⟩ := Option.map_eq_some_iff.mp h
  refine ⟨rfl, ?_⟩
  rw [first, if_pos (Option.isSome_of_eq_some h)]
  split <;> omega

theorem offsetReg_eq {r : Int} (h : c.offsetReg = some r) :
    0 < c.offset ∧ r + 1 = c.first ∧ 1 ≤ r ∧ (c.limitReg.isSome → r = 2) := by
  unfold offsetReg at h
  split at h
  · rename_i hpos
    cases h
    refine ⟨hpos, ?_⟩
    rw [first, if_pos hpos]
    split <;> simp_all
  · cases h

theorem one_le_first : 1 ≤ c.first := by
  unfold first
  split <;> split <;> omega

theorem placed : c.merge.Placed where
  limit r hr := by
    obtain ⟨rfl, hle⟩ := c.limitReg_eq hr
    exact hle
  offset r hr := by
    obtain ⟨-, heq, -⟩ := c.offsetReg_eq hr
    change r < c.first
    omega
  apart r hr hr' := by
    obtain ⟨rfl, -⟩ := c.limitReg_eq hr
    obtain ⟨-, -, -, htwo⟩ := c.offsetReg_eq hr'
    exact absurd (htwo (Option.isSome_of_eq_some hr)) (by decide)

theorem mem_constants (h : p ∈ c.constants) :
    (c.limitReg = some p.1 ∧ c.positiveLimit = some p.2) ∨
      (c.offsetReg = some p.1 ∧ p.2 = c.offset) ∨
      (c.merge.needsDedup ∧ p = (c.merge.regPrevFlag, 0)) := by
  simp only [constants, List.mem_append, List.mem_map, Option.mem_toList] at h
  rcases h with (⟨k, hk, rfl⟩ | ⟨r, hr, rfl⟩) | hflag
  · exact .inl ⟨by rw [limitReg, hk]; rfl, hk⟩
  · exact .inr (.inl ⟨hr, rfl⟩)
  · split at hflag
    · exact .inr (.inr ⟨‹_›, List.mem_singleton.mp hflag⟩)
    · cases hflag

theorem constants_subset (h : p ∈ c.constants) : p.1 ∈ c.merge.work := by
  rcases c.mem_constants h with ⟨hr, -⟩ | ⟨hr, -⟩ | ⟨hdedup, rfl⟩
  · exact Merge.work_of_limit hr
  · exact Merge.work_of_offset hr
  · exact Merge.flag_mem_work hdedup

theorem constants_distinct : (c.constants.map Prod.fst).Nodup := by
  have hflag : c.merge.needsDedup → c.merge.regPrevFlag = c.first + 4 + 2 * c.ncol :=
    fun h => (c.merge.needsDedup_registers h).1
  have hone := c.one_le_first
  have hlimit : ∀ k, c.positiveLimit = some k → 2 ≤ c.first := fun k hk =>
    (c.limitReg_eq (r := 1) (by rw [limitReg, hk]; rfl)).2
  have hoffset := fun r => @offsetReg_eq c r
  have hsome : ∀ k, c.positiveLimit = some k → c.limitReg.isSome := fun k hk => by
    rw [limitReg, hk]
    rfl
  unfold constants
  cases hk : c.positiveLimit <;> cases hr : c.offsetReg <;> by_cases hd : c.merge.needsDedup <;>
    simp only [hd, Option.toList_none, Option.toList_some, List.map_nil, List.map_cons,
      List.nil_append, List.cons_append, List.append_nil, if_true, List.nodup_cons,
      List.mem_cons, List.not_mem_nil, or_false, not_false_eq_true, List.nodup_nil, and_true,
      not_or] <;> grind

/-! ## Where the code stands -/

structure Layout (prog : List Instruction) : Prop where
  init : prog[0]? = some (.new .init 0 c.setup 0)
  setUp : Seg prog 1 c.setUp
  initLeading : prog[1 + c.setUp.length]? =
    some (.new .initCoroutine c.merge.regAddrA (c.trailingStart - 1 : Nat) c.leadingStart)
  leading : Seg prog c.leadingStart c.leadingCode
  initTrailing : prog[c.trailingStart - 1]? =
    some (.new .initCoroutine c.merge.regAddrB (c.merge.labels c.base).init c.trailingStart)
  trailing : Seg prog c.trailingStart c.trailingCode
  control : Seg prog c.base (c.merge.emitMergeControl c.base)
  transaction : prog[c.setup]? = some (.new .transaction 0 0 0)
  goto : prog[c.setup + 1]? = some (.new .goto 0 1 0)

theorem layout : c.Layout c.program := by
  have hall : Seg c.program 0 c.program := fun j _ => by rw [Nat.zero_add]
  unfold program at hall
  obtain ⟨hinit, hall⟩ := Seg.cons_iff.mp hall
  obtain ⟨hsetUp, hall⟩ := Seg.append_iff.mp hall
  obtain ⟨hinitA, hall⟩ := Seg.cons_iff.mp hall
  obtain ⟨hleading, hall⟩ := Seg.append_iff.mp hall
  obtain ⟨hinitB, hall⟩ := Seg.cons_iff.mp hall
  obtain ⟨htrailing, hall⟩ := Seg.append_iff.mp hall
  obtain ⟨hcontrol, hall⟩ := Seg.append_iff.mp hall
  obtain ⟨htransaction, hall⟩ := Seg.cons_iff.mp hall
  obtain ⟨hgoto, -⟩ := Seg.cons_iff.mp hall
  exact ⟨hinit, hsetUp, hinitA, hleading, hinitB, htrailing, hcontrol, htransaction, hgoto⟩

/-! ## The run up to the merge -/

/-- `Transaction` succeeds in the world and leads to another one. -/
def Begins (fx : Effects A C W) (w w' : W) : Prop :=
  ∃ o, fx .transaction ⟨.none, 0, [0], [], [], [], w⟩ = some o ∧ o.world = w' ∧ o.jumps = false

def Rows (n : Numerals) (fx : Effects A C W) (w : W) (arm : Inlining.Arm)
    (rows : List (List Value)) : Prop :=
  ((start w).goto 1).Returns n fx arm.prog rows

structure Runnable (n : Numerals) (fx : Effects A C W) (w : W) (as bs : List (List Value)) :
    Prop where
  leading : c.leading.Scans c.ncol
  trailing : c.trailing.Scans c.ncol
  readsLeading : ReadOnly fx c.leading.scan
  readsTrailing : ReadOnly fx c.trailing.scan
  leadingRows : Rows n fx w c.leading as
  trailingRows : Rows n fx w c.trailing bs

theorem runs_begin {setup : Nat} (hinit : prog[0]? = some (.new .init 0 setup 0))
    (htransaction : prog[setup]? = some (.new .transaction 0 0 0))
    (hgoto : prog[setup + 1]? = some (.new .goto 0 1 0)) (h : Begins fx w w') :
    (start w : Machine A C W).Runs n fx prog [] ((start w').goto 1) := by
  obtain ⟨o, ho, hworld, hjumps⟩ := h
  have hfirst : (start w : Machine A C W).Runs n fx prog [] ((start w).goto setup) :=
    .one hinit rfl
  have hexec : ((start w).goto setup).exec n fx prog (.new .transaction 0 0 0) =
      .next (((start w).goto setup).after (.new .transaction 0 0 0) o) := by
    rw [exec_plain rfl]
    exact congrArg (fun x : Option (Outcome A C W) => x.elim StepResult.error fun o =>
      .next (((start w).goto setup).after (.new .transaction 0 0 0) o)) ho
  have hafter : ((start w).goto setup).after (.new .transaction 0 0 0) o =
      (start w').goto (setup + 1) := by
    simp [Machine.after, Instruction.new, Instruction.uses, setAll, hjumps, hworld, Machine.goto,
      start]
  rw [hafter] at hexec
  have hlast : ((start w').goto (setup + 1)).Runs n fx prog [] ((start w').goto 1) :=
    .one (A := A) (C := C) (W := W) hgoto rfl
  exact (hfirst.trans (.one htransaction hexec)).trans hlast

/-! ## The regions of the arms -/

theorem top_pos : c.first + 4 ≤ c.merge.top := by
  unfold Merge.top
  change c.first + 4 ≤ c.first + 4 + 2 * (c.ncol : Int) + _
  split <;> omega

theorem registers_lt (h : r ∈ c.merge.registers) : r < c.merge.top := by
  have htop := c.top_pos
  rcases h with ⟨-, hlt⟩ | hlimit | hoffset
  · exact hlt
  · exact lt_of_lt_of_le (c.placed.limit r hlimit) (by change c.first ≤ _; omega)
  · exact lt_of_lt_of_le (c.placed.offset r hoffset) (by change c.first ≤ _; omega)

theorem arms : c.merge.Arms (c.leading.own c.leadingPlace) (c.trailing.own c.trailingPlace) where
  apart := by
    refine ⟨?_, ?_, fun _ ho => ho.elim⟩
    · rintro _ ⟨r, ⟨-, hr⟩, rfl⟩ ⟨r', ⟨hr', -⟩, heq⟩
      have heq' : r' + (c.merge.top + c.leading.numRegisters - 1) = r + (c.merge.top - 1) := heq
      omega
    · rintro _ ⟨k, ⟨-, hk⟩, rfl⟩ ⟨k', ⟨hk', -⟩, heq⟩
      have heq' : k' + (c.leading.numCursors : Int) = k + 0 := heq
      omega
  a := by
    rintro _ ⟨r, ⟨hr, -⟩, rfl⟩ hin
    have hlt : r + (c.merge.top - 1) < c.merge.top := c.registers_lt hin
    omega
  b := by
    rintro _ ⟨r, ⟨hr, -⟩, rfl⟩ hin
    have hlt : r + (c.merge.top + c.leading.numRegisters - 1) < c.merge.top := c.registers_lt hin
    omega

theorem block_subset {first : Int} (hlow : c.first + 4 ≤ first)
    (hhigh : first + c.ncol ≤ c.first + 4 + 2 * c.ncol) (hr : r ∈ blockSet first c.ncol) :
    r ∈ c.merge.registers := by
  obtain ⟨hle, hlt⟩ := hr
  refine Or.inl ⟨by change c.first ≤ r; omega, ?_⟩
  unfold Merge.top
  change r < c.first + 4 + 2 * (c.ncol : Int) + _
  split <;> omega

/-! ## The start of the merge -/

theorem holds_constants (h : ∀ p ∈ c.constants, s.regs p.1 = .int p.2) :
    c.merge.Holds ⟨none, if 0 < c.offset then c.offset.toInt.toNat else 0,
      c.positiveLimit.map fun k => k.toInt.toNat⟩ s where
  flag hdedup := by
    refine h (c.merge.regPrevFlag, 0) ?_
    rw [constants, if_pos hdedup]
    exact List.mem_append_right _ (List.mem_singleton.mpr rfl)
  prev _ _ hp := by cases hp
  skip r hr := by
    obtain ⟨hpos, -⟩ := c.offsetReg_eq hr
    have hmem : (r, c.offset) ∈ c.constants := by
      have hr' : c.offsetReg = some r := hr
      rw [constants, hr']
      simp
    rw [if_pos hpos, h _ hmem, ofNat_toInt hpos]
  noSkip hnone := if_neg fun hpos => by
    have hnone' : c.offsetReg = none := hnone
    rw [offsetReg, if_pos hpos] at hnone'
    cases hnone'
  left r hr := by
    obtain ⟨k, hk, rfl⟩ := Option.map_eq_some_iff.mp (show c.limitReg = some r from hr)
    have hmem : (1, k) ∈ c.constants := by
      rw [constants, hk]
      simp
    refine ⟨k.toInt.toNat, by rw [hk]; rfl, ?_⟩
    rw [h _ hmem, ofNat_toInt (c.positiveLimit_pos hk)]
  noLeft hnone := by
    rw [Option.map_eq_none_iff.mp (show c.limitReg = none from hnone)]
    rfl
  skip_lt := by
    split
    · exact toNat_toInt_lt c.offset
    · exact Nat.two_pow_pos 63
  left_pos k hk := by
    obtain ⟨l, hl, rfl⟩ := Option.map_eq_some_iff.mp hk
    exact ⟨toNat_toInt_pos (c.positiveLimit_pos hl), toNat_toInt_lt l⟩

theorem Rows.produces {p : Inlining.Place} (h : Rows n fx w arm rows) (hscans : arm.Scans p.ncol)
    (hread : ReadOnly fx arm.scan) (hseg : Seg prog p.start (arm.inline p))
    (hoffset : 0 ≤ p.regOffset) (hout : ∀ r ∈ blockSet p.outBlock p.ncol, r ∉ (arm.own p).regs) :
    (arm.coroutine p).Produces n fx prog p.start ((arm.copy p).here ((start w).goto 1)) rows :=
  Inlining.Arm.produces_inlined (u := (start w).goto 1) hscans hseg hoffset hread hout Nat.one_pos
    hscans.pos h

theorem agrees_start {k : Inlining.Arm.Copy} {R : Region} (h : ((start w).goto 1).Keeps R s)
    (hapart : (k.own arm).Apart R) : (k.here ((start w).goto 1)).Agrees (k.own arm) s := by
  have hsame : (k.here ((start w).goto 1)).Agrees (k.own arm) ((start w).goto 1 : Machine A C W) :=
    ⟨fun _ _ => rfl, fun _ _ => rfl, fun _ _ => rfl, fun _ _ => rfl, rfl⟩
  exact hsame.keeps h hapart

theorem exec_initCoroutine (r : Int) {target : Nat} (entry : Nat) (h : 0 < target) :
    s.exec n fx prog (.new .initCoroutine r target entry) =
      .next ((s.set r (address entry)).goto target) := by
  have hne : (target : Int) ≠ 0 := by omega
  have htarget : (if (target : Int) = 0 then s.pc + 1 else (target : Int).toNat) = target := by
    rw [if_neg hne, Int.toNat_natCast]
  exact congrArg (fun k => StepResult.next ((s.set r (address entry)).goto k)) htarget

theorem le_init (m : Merge) (base : Nat) : base ≤ (m.labels base).init := by
  simp only [Merge.labels]
  split_ifs <;> omega

variable {c} in
theorem Runnable.starts (h : c.Runnable n fx w' as bs) (hbegins : Begins fx w w')
    (hshort : c.program.length < 2 ^ 63) :
    ∃ s, (start w : Machine A C W).Runs n fx c.program [] s ∧
      Merge.Starts n fx c.program c.merge c.base (c.leading.own c.leadingPlace)
        (c.trailing.own c.trailingPlace) as bs (if 0 < c.offset then c.offset.toInt.toNat else 0)
        (c.positiveLimit.map fun k => k.toInt.toNat) s := by
  have hlayout := c.layout
  have hfirst := c.one_le_first
  have htop := c.top_pos
  have hcode := hlayout.setUp
  rw [setUp_eq] at hcode
  obtain ⟨s, hruns, hkeeps, hpc, hconstants⟩ :=
    runs_constants n fx (s := (start w').goto 1) hcode c.constants_distinct
  have hinitLeading := hlayout.initLeading
  have hpc' : 1 + c.setUp.length = s.pc := by
    rw [hpc, setUp_eq, List.length_map]
    rfl
  rw [hpc'] at hinitLeading
  let s₁ := (s.set c.merge.regAddrA (address c.leadingStart)).goto (c.trailingStart - 1)
  let s₂ := (s₁.set c.merge.regAddrB (address c.trailingStart)).goto (c.merge.labels c.base).init
  have hruns₁ : s.Runs n fx c.program [] s₁ :=
    .one hinitLeading (exec_initCoroutine _ _ (by unfold trailingStart leadingStart; omega))
  have hruns₂ : s₁.Runs n fx c.program [] s₂ := by
    refine .one hlayout.initTrailing (exec_initCoroutine _ _ ?_)
    have hle := le_init c.merge c.base
    have hbase : 0 < c.base := by
      unfold base trailingStart
      omega
    omega
  have hmemA : c.merge.regAddrA ∈ c.merge.registers :=
    Or.inl ⟨le_rfl, by change c.first < _; omega⟩
  have hmemB : c.merge.regAddrB ∈ c.merge.registers :=
    Or.inl ⟨by change c.first ≤ c.first + 1; omega, by change c.first + 1 < _; omega⟩
  have hall : ((start w').goto 1).Keeps (Region.ofRegs c.merge.registers) s₂ := by
    refine (((hkeeps.widen ?_).set hmemA _).goto _ |>.set hmemB _).goto _
    intro r hr
    obtain ⟨p, hp, rfl⟩ := List.mem_map.mp hr
    exact Merge.work_subset_registers (c.constants_subset hp)
  have hne : c.merge.regAddrA ≠ c.merge.regAddrB := by
    change c.first ≠ c.first + 1
    omega
  have hconstants₂ : ∀ p ∈ c.constants, s₂.regs p.1 = .int p.2 := by
    intro p hp
    have hlow : ∀ r, c.first ≤ r → r < c.first + 4 → p.1 ≠ r := fun r hle hlt heq =>
      Merge.work_of_low c.placed hle hlt (heq ▸ c.constants_subset hp)
    have hA : p.1 ≠ c.merge.regAddrA := hlow c.first le_rfl (by omega)
    have hB : p.1 ≠ c.merge.regAddrB := hlow (c.first + 1) (by omega) (by omega)
    exact (Function.update_of_ne hB _ _).trans
      ((Function.update_of_ne hA _ _).trans (hconstants p hp))
  have hproducesA := h.leadingRows.produces (p := c.leadingPlace) h.leading h.readsLeading
    hlayout.leading (by change 0 ≤ c.merge.top - 1; omega)
    fun r hr hr' => c.arms.a r hr' (c.block_subset (le_refl (c.first + 4)) (by omega) hr)
  have hproducesB := h.trailingRows.produces (p := c.trailingPlace) h.trailing h.readsTrailing
    hlayout.trailing (by change 0 ≤ c.merge.top + c.leading.numRegisters - 1; omega)
    fun r hr hr' => c.arms.b r hr'
      (c.block_subset (show c.first + 4 ≤ c.first + 4 + c.ncol by omega) (by omega) hr)
  exact ⟨s₂, ((runs_begin hlayout.init hlayout.transaction hlayout.goto hbegins).trans hruns).trans
    (hruns₁.trans hruns₂), {
      short := hshort
      code := hlayout.control
      placed := c.placed
      arms := c.arms
      pc := rfl
      a := ⟨c.leadingStart, _, hproducesA, agrees_start hall (Region.apart_ofRegs c.arms.a),
        (Function.update_of_ne hne _ _).trans (Function.update_self ..),
        (List.getElem?_eq_some_iff.mp hlayout.initLeading).1⟩
      b := ⟨c.trailingStart, _, hproducesB, agrees_start hall (Region.apart_ofRegs c.arms.b),
        Function.update_self ..,
        (List.getElem?_eq_some_iff.mp hlayout.initTrailing).1⟩
      holds := c.holds_constants hconstants₂ }⟩

/-! ## What a compound returns -/

def rowOffset : Nat := c.offset.toInt.toNat

def rowLimit : Option Nat := c.limit.bind fun k => if 0 ≤ k then some k.toInt.toNat else none

theorem rowOffset_eq : (if 0 < c.offset then c.offset.toInt.toNat else 0) = c.rowOffset := by
  unfold rowOffset
  split
  · rfl
  · rename_i hneg
    have hle : ¬0 < c.offset.toInt := fun hpos => hneg (Int64.lt_iff_toInt_lt.mpr hpos)
    omega

theorem rowLimit_eq (h : c.limit ≠ some 0) :
    (c.positiveLimit.map fun k => k.toInt.toNat) = c.rowLimit := by
  unfold positiveLimit rowLimit
  cases hlimit : c.limit with
  | none => rfl
  | some k =>
      have hk : k ≠ 0 := fun hzero => h (hlimit.trans (congrArg some hzero))
      have hiff : 0 < k ↔ 0 ≤ k := by
        rw [Int64.lt_iff_le_and_ne]
        exact ⟨And.left, fun hle => ⟨hle, hk.symm⟩⟩
      by_cases hpos : 0 < k
      · simp [Option.filter, hpos, hiff.mp hpos]
      · simp [Option.filter, hpos, mt hiff.mpr hpos]

theorem Scans.hasHalt {arm : Inlining.Arm} {ncol : Nat} (h : arm.Scans ncol) : hasHalt arm := by
  obtain ⟨i, hi, hop, -⟩ := h.halt
  exact List.any_eq_true.mpr ⟨i, List.mem_of_getElem? hi, decide_eq_true hop⟩

variable {c}

theorem Runnable.returns (h : c.Runnable n fx w' as bs) (hbegins : Begins fx w w')
    (hrows : (start w : Machine A C W).Returns n fx c.program
      (slice c.rowOffset (c.positiveLimit.map fun k => k.toInt.toNat) rows)) :
    ∃ compiled, c.compileTwoArmMerge = .ok compiled ∧
      (start w : Machine A C W).Returns n fx compiled.prog (slice c.rowOffset c.rowLimit rows) := by
  unfold compileTwoArmMerge
  by_cases hlimit : c.limit = some 0
  · rw [if_pos hlimit]
    refine ⟨_, rfl, ?_⟩
    have hnone : slice c.rowOffset c.rowLimit rows = [] := by
      rw [rowLimit, hlimit]
      rfl
    rw [hnone]
    exact ⟨_, runs_begin rfl rfl rfl hbegins, rfl⟩
  · rw [if_neg hlimit, if_neg (not_not_intro (Scans.hasHalt h.leading)),
      if_neg (not_not_intro (Scans.hasHalt h.trailing)), ← c.rowLimit_eq hlimit]
    exact ⟨_, rfl, hrows⟩

/--
The program of a UNION, INTERSECT or EXCEPT without ORDER BY returns the rows of
the set operation on what the arms return, each once and in ascending order, of
which it leaves out the first ones and keeps no more than the limit.
-/
theorem compileTwoArmMerge_setOperation {w w' : W} {as bs : List (List Value)}
    (h : c.Runnable n fx w' as bs) (hbegins : Begins fx w w') (hshort : c.program.length < 2 ^ 63)
    (hplain : c.keyInfo = List.replicate c.ncol ascBinary) (hop : c.op ≠ .unionAll) {V : Set Value}
    (horder : PreorderOn (memCompare · · .binary) V)
    (hvalues : ∀ row ∈ as ++ bs, ∀ v ∈ row, v ∈ V) (hascA : Ascending (rowOrder c.ncol) as)
    (hascB : Ascending (rowOrder c.ncol) bs) :
    ∃ compiled rows, c.compileTwoArmMerge = .ok compiled ∧
      (start w : Machine A C W).Returns n fx compiled.prog (slice c.rowOffset c.rowLimit rows) ∧
      ListsInOrder (rowOrder c.ncol) (rowsOf c.ncol V)
        (fun row => c.op.Member (LevelIn (rowOrder c.ncol) as row)
          (LevelIn (rowOrder c.ncol) bs row)) rows := by
  obtain ⟨s, hruns, hstarts⟩ := h.starts hbegins hshort
  obtain ⟨rows, hreturns, hlists⟩ :=
    Merge.returns_setOperation hstarts hplain hop horder hvalues hascA hascB
  rw [rowOffset_eq] at hreturns
  obtain ⟨compiled, hcompiled, hall⟩ := h.returns hbegins (hruns.returns hreturns)
  exact ⟨compiled, rows, hcompiled, hall, hlists⟩

/-! A compound of two constant SELECTs. -/

/-- `SELECT k`. -/
def constantArm (k : Int) : Inlining.Arm where
  prog := [.new .init 0 4 0, .new .integer k 1 0, .new .resultRow 1 1 0, .new .halt 0 0 0,
    .new .goto 0 1 0]
  numRegisters := 2
  numCursors := 0

def transactionOnly : Effects Unit Unit Unit := fun op inputs =>
  if op = .transaction then some ⟨[], [], [], inputs.world, false⟩ else none

def noNumerals : Numerals := ⟨fun _ => "", fun _ => (none, false)⟩

/-- `SELECT 2 <op> SELECT 1`, with the keys and LIMIT. -/
def twoAndOne (op : CompoundOperator) (limit : Option Int64) : TwoArmMerge :=
  ⟨op, 1, [ascBinary], limit, 0, constantArm 2, constantArm 1⟩

theorem scans_constantArm (k : Int) : (constantArm k).Scans 1 where
  pos := Nat.succ_pos 2
  halt := ⟨.new .halt 0 0 0, rfl, rfl, rfl⟩
  body idx i hpos hlt hi := by
    have hidx : idx = 1 ∨ idx = 2 := by
      change idx < 3 at hlt
      omega
    rcases hidx with rfl | rfl
    · obtain rfl : Instruction.new .integer k 1 0 = i := Option.some.inj hi
      exact {
        kind := .inr (.inr ⟨rfl, rfl⟩)
        within := ⟨fun _ hr => absurd hr List.not_mem_nil, by
            rintro r hr
            obtain rfl : r = 1 := List.mem_singleton.mp hr
            exact ⟨Int.one_pos, by change (1 : Int) ≤ 2; decide⟩,
          fun _ hr => absurd hr List.not_mem_nil, fun _ hc => absurd hc List.not_mem_nil⟩
        target := fun _ ht => by cases ht }
    · obtain rfl : Instruction.new .resultRow 1 1 0 = i := Option.some.inj hi
      exact {
        kind := .inl ⟨1, rfl⟩
        within := ⟨by
            rintro r hr
            obtain rfl : r = 1 := List.mem_singleton.mp hr
            exact ⟨Int.one_pos, by change (1 : Int) ≤ 2; decide⟩,
          fun _ hr => absurd hr List.not_mem_nil, fun _ hr => absurd hr List.not_mem_nil,
          fun _ hc => absurd hc List.not_mem_nil⟩
        target := fun _ ht => by cases ht }

theorem readOnly_constantArm (k : Int) : ReadOnly transactionOnly (constantArm k).scan := by
  intro i hi inputs o ho
  have hscan : (constantArm k).scan =
      [.new .integer k 1 0, .new .resultRow 1 1 0, .new .halt 0 0 0] := rfl
  rw [hscan] at hi
  have hop : i.opcode ≠ .transaction := by
    rcases List.mem_cons.mp hi with rfl | hi
    · exact Opcode.noConfusion
    · rcases List.mem_cons.mp hi with rfl | hi
      · exact Opcode.noConfusion
      · obtain rfl := List.mem_singleton.mp hi
        exact Opcode.noConfusion
  rw [transactionOnly, if_neg hop] at ho
  cases ho

theorem rows_constantArm (k : Int) :
    Rows noNumerals transactionOnly () (constantArm k) [[.int (Int64.ofInt k)]] :=
  Machine.returns_of_rowsWithin
    (show Machine.rowsWithin _ _ _ 3 _ = some [[.int (Int64.ofInt k)]] from rfl)

theorem runnable_twoAndOne (op : CompoundOperator) (limit : Option Int64) :
    (twoAndOne op limit).Runnable noNumerals transactionOnly () [[.int 2]] [[.int 1]] where
  leading := scans_constantArm 2
  trailing := scans_constantArm 1
  readsLeading := readOnly_constantArm 2
  readsTrailing := readOnly_constantArm 1
  leadingRows := rows_constantArm 2
  trailingRows := rows_constantArm 1

theorem preorderOn_isOrdered (coll : Collation) :
    PreorderOn (memCompare · · coll) {v | v.isOrdered} :=
  .of_places Rustqlite.compareKeys (sortKey coll) fun _ ha _ hb => memCompare_eq coll ha hb

theorem isOrdered_twoAndOne : ∀ row ∈ [[Value.int 2]] ++ [[Value.int 1]], ∀ v ∈ row,
    v ∈ {v : Value | v.isOrdered} := by
  intro row hrow v hv
  rcases List.mem_cons.mp hrow with rfl | hrow
  · obtain rfl := List.mem_singleton.mp hv
    rfl
  · obtain rfl := List.mem_singleton.mp hrow
    obtain rfl := List.mem_singleton.mp hv
    rfl

theorem compileTwoArmMerge_setOperation_constants : ∃ compiled rows,
    (twoAndOne .union (some 5)).compileTwoArmMerge = .ok compiled ∧
      (start () : Machine Unit Unit Unit).Returns noNumerals transactionOnly compiled.prog
        (slice 0 (some 5) rows) ∧
      ListsInOrder (rowOrder 1) (rowsOf 1 {v | v.isOrdered})
        (fun row => CompoundOperator.Member .union (LevelIn (rowOrder 1) [[.int 2]] row)
          (LevelIn (rowOrder 1) [[.int 1]] row)) rows :=
  compileTwoArmMerge_setOperation (runnable_twoAndOne .union (some 5)) ⟨_, rfl, rfl, rfl⟩
    (by decide) rfl (by decide) (preorderOn_isOrdered .binary) isOrdered_twoAndOne
    (List.pairwise_singleton ..) (List.pairwise_singleton ..)

/--
The program of a UNION ALL with `ORDER BY 1, 2, ...` returns all the rows of the
two arms, sorted by these columns in the directions, but for OFFSET and LIMIT.
-/
theorem compileTwoArmMerge_unionAll {w w' : W} {as bs : List (List Value)}
    (h : c.Runnable n fx w' as bs) (hbegins : Begins fx w w') (hshort : c.program.length < 2 ^ 63)
    (hop : c.op = .unionAll) {descs : List Bool} (hkey : c.keyInfo = mergeKeyInfo descs)
    (hkeys : descs.length ≤ c.ncol) {V : Set Value}
    (horder : PreorderOn (memCompare · · .binary) V)
    (hvalues : ∀ row ∈ as ++ bs, ∀ v ∈ row, v ∈ V)
    (hascA : Ascending (Machine.compareKeys (mergeKeyInfo descs)) as)
    (hascB : Ascending (Machine.compareKeys (mergeKeyInfo descs)) bs) :
    ∃ compiled rows, c.compileTwoArmMerge = .ok compiled ∧
      (start w : Machine A C W).Returns n fx compiled.prog (slice c.rowOffset c.rowLimit rows) ∧
      rows.Perm (as ++ bs) ∧ Ascending (Machine.compareKeys (mergeKeyInfo descs)) rows := by
  have hplain : ∀ key ∈ c.keyInfo, PreorderOn (memCompare · · key.collation) V := by
    rw [hkey]
    intro key hmem
    obtain ⟨desc, -, rfl⟩ := List.mem_map.mp hmem
    exact horder
  have hlength : c.keyInfo.length ≤ c.ncol := by
    rw [hkey, mergeKeyInfo, List.length_map]
    exact hkeys
  rw [← hkey] at hascA hascB ⊢
  obtain ⟨s, hruns, hstarts⟩ := h.starts hbegins hshort
  obtain ⟨rows, hreturns, hperm, hasc⟩ :=
    Merge.returns_unionAll hstarts hop hlength hplain hvalues hascA hascB
  rw [rowOffset_eq] at hreturns
  obtain ⟨compiled, hcompiled, hall⟩ := h.returns hbegins (hruns.returns hreturns)
  exact ⟨compiled, rows, hcompiled, hall, hperm, hasc⟩

/-- `SELECT 2 UNION ALL SELECT 1 ORDER BY 1` -/
theorem compileTwoArmMerge_unionAll_constants : ∃ compiled rows,
    (twoAndOne .unionAll none).compileTwoArmMerge = .ok compiled ∧
      (start () : Machine Unit Unit Unit).Returns noNumerals transactionOnly compiled.prog
        (slice 0 none rows) ∧
      rows.Perm [[.int 2], [.int 1]] ∧
      Ascending (Machine.compareKeys (mergeKeyInfo [false])) rows :=
  compileTwoArmMerge_unionAll (runnable_twoAndOne .unionAll none) ⟨_, rfl, rfl, rfl⟩
    (by decide) rfl rfl le_rfl (preorderOn_isOrdered .binary) isOrdered_twoAndOne
    (List.pairwise_singleton ..) (List.pairwise_singleton ..)

end TwoArmMerge

end Rustqlite.Codegen
