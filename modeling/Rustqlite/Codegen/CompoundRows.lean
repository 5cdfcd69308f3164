import Rustqlite.Codegen.CompoundMerge
import Rustqlite.Vdbe.StoredOrder

/-!
# The rows of a compound SELECT

What the merge returns of the rows that its two arms yield.
-/

namespace Rustqlite.Codegen

open Foundation Vdbe Machine

variable {A C W : Type} {n : Numerals} {fx : Effects A C W} {prog : List Instruction}

namespace Merge

variable {m : Merge} {s t : Machine A C W} {st : OutState}

/-! ## The two sides -/

structure Side where
  regOut : Int
  out : Nat
  arm : Coroutine

structure Side.Fits (m : Merge) (d : Side) : Prop where
  ncol : d.arm.ncol = m.ncol
  low : m.first + 4 ≤ d.arm.block
  high : d.arm.block + m.ncol ≤ m.first + 4 + 2 * m.ncol
  regOut_low : m.first ≤ d.regOut
  regOut_high : d.regOut < m.first + 4
  addr_low : m.first ≤ d.arm.addr
  addr_high : d.arm.addr < m.first + 4
  own : ∀ r ∈ d.arm.own.regs, r ∉ m.registers

def reach (m : Merge) (d : Side) : Region := d.arm.resumed.withRegs (m.work ∪ {d.regOut})

structure Side.Clear (m : Merge) (d e : Side) : Prop where
  own : e.arm.own.Apart (m.reach d)
  addr : e.arm.addr ∉ (m.reach d).regs
  block : ∀ r ∈ blockSet e.arm.block e.arm.ncol, r ∉ (m.reach d).regs

/-- The current row of an arm with those to come; nothing is said of an arm that is at its end. -/
def Front (n : Numerals) (fx : Effects A C W) (prog : List Instruction) (c : Coroutine) :
    List (List Value) → Machine A C W → Prop
  | [], _ => True
  | row :: rows, s => s.rowAt c.block c.ncol = row ∧ c.Ready n fx prog rows s

def Arrives (n : Numerals) (fx : Effects A C W) (prog : List Instruction) (c : Coroutine)
    (next eof : Nat) (rows : List (List Value)) (s : Machine A C W) : Prop :=
  s.pc = (if rows.isEmpty then eof else next) ∧ Front n fx prog c rows s

def outIf (m : Merge) (outs : Bool) (st : OutState) (row : List Value) :
    List (List Value) × Option OutState :=
  if outs then m.outRow st row else ([], some st)

theorem outRows_keepIf (outs : Bool) (st : OutState) (row : List Value) (rows : List (List Value)) :
    m.outRows st (keepIf outs row rows) =
      (m.outIf outs st row).1 ++ (m.outIf outs st row).2.elim [] fun st' => m.outRows st' rows := by
  cases outs <;> rfl

variable {r : Int} {rows : List (List Value)} {outs : Bool} {row : List Value} {own : Region}
  {d : Side}

theorem work_of_low (hplaced : m.Placed) (hlow : m.first ≤ r) (hhigh : r < m.first + 4) :
    r ∉ m.work := by
  rintro (⟨hle, -⟩ | hreg | hreg)
  · omega
  · exact absurd (hplaced.limit r hreg) (by omega)
  · exact absurd (hplaced.offset r hreg) (by omega)

theorem work_subset_registers : m.work ⊆ m.registers := by
  rintro r (⟨hle, hlt⟩ | hreg)
  · exact Or.inl ⟨by omega, hlt⟩
  · exact Or.inr hreg

section Side

variable {d e : Side} {labelEnd : Nat}

theorem Side.Fits.block_not_mem_work (hplaced : m.Placed) (hd : d.Fits m)
    (hr : r ∈ blockSet d.arm.block d.arm.ncol) : r ∉ m.work := by
  obtain ⟨hle, hlt⟩ := hr
  have hncol := hd.ncol
  have hlow := hd.low
  have hhigh := hd.high
  rintro (⟨hwork, -⟩ | hreg | hreg)
  · omega
  · exact absurd (hplaced.limit r hreg) (by omega)
  · exact absurd (hplaced.offset r hreg) (by omega)

theorem Side.Fits.addr_not_mem_inside (hd : d.Fits m) : d.arm.addr ∉ d.arm.inside.regs := by
  have hlow := hd.addr_low
  have hhigh := hd.addr_high
  have hblock := hd.low
  have htop : m.first + 4 ≤ m.top := by
    unfold top
    split <;> omega
  rintro (hown | ⟨hle, -⟩)
  · exact hd.own _ hown (Or.inl ⟨hlow, by omega⟩)
  · omega

variable {c : Coroutine} {eof : Nat}

theorem Front.keeps {R : Region} (h : Front n fx prog c rows s) (hkeeps : s.Keeps R t)
    (hown : c.own.Apart R) (haddr : c.addr ∉ R.regs)
    (hblock : ∀ r ∈ blockSet c.block c.ncol, r ∉ R.regs) : Front n fx prog c rows t := by
  cases rows with
  | nil => trivial
  | cons row rows =>
      obtain ⟨hrow, hready⟩ := h
      exact ⟨(rowAt_keeps hkeeps hblock).trans hrow, hready.keeps hkeeps hown haddr⟩

theorem Front.clear (h : Front n fx prog e.arm rows s) (hclear : d.Clear m e)
    (hkeeps : s.Keeps (m.reach d) t) : Front n fx prog e.arm rows t :=
  h.keeps hkeeps hclear.own hclear.addr hclear.block

theorem runs_outIf (hprog : prog.length < 2 ^ 63) (hplaced : m.Placed) (hd : d.Fits m)
    (hseg : Seg prog s.pc (if outs then [.new .gosub d.regOut d.out 0] else []))
    (hsub : outs → Seg prog d.out
      (m.emitOutSubroutine d.arm.block d.out labelEnd ++ [.new .return_ d.regOut 0 1]))
    (h : m.Holds st s) :
    ∃ t, s.Runs n fx prog (m.outIf outs st (s.rowAt d.arm.block d.arm.ncol)).1 t ∧
      s.Keeps (Region.ofRegs (m.work ∪ {d.regOut})) t ∧
      m.Lands (m.outIf outs st (s.rowAt d.arm.block d.arm.ncol)).2
        (s.pc + if outs then 1 else 0) labelEnd t := by
  cases outs with
  | false => exact ⟨s, .refl s, .refl _ s, rfl, h⟩
  | true =>
      have hgosub : prog[s.pc]? = some (.new .gosub d.regOut d.out 0) := (Seg.cons_iff.mp hseg).1
      have hpc : s.pc + 1 < 2 ^ 63 := by
        have := (List.getElem?_eq_some_iff.mp hgosub).1
        omega
      obtain ⟨hbody, hreturn⟩ := Seg.append_iff.mp (hsub rfl)
      obtain ⟨hreturn, -⟩ := Seg.cons_iff.mp hreturn
      have hout : d.regOut ∉ m.work := work_of_low hplaced hd.regOut_low hd.regOut_high
      have hcalled : s.Keeps (Region.ofRegs {d.regOut}) _ :=
        keeps_setCounter rfl (address (s.pc + 1)) d.out
      have hholds : m.Holds st ((s.set d.regOut (address (s.pc + 1))).goto d.out) :=
        h.keeps hcalled (by rintro r hr rfl; exact hout hr)
      have hout' : ∀ r ∈ blockSet d.arm.block m.ncol, r ∉ (Region.ofRegs {d.regOut}).regs := by
        rintro r ⟨hle, -⟩ rfl
        exact absurd hd.low (by have := hd.regOut_high; omega)
      have hrow := rowAt_keeps hcalled hout'
      obtain ⟨t, hruns, hkeeps, hlands⟩ := runs_emitOut n fx hplaced hbody hholds
        (by have := hd.low; omega) hd.high
      rw [hrow, ← hd.ncol] at hruns hlands
      have hin : s.Runs n fx prog _ t := (Machine.Runs.one hgosub (exec_gosub _ _)).trans hruns
      have hwork : s.Keeps (Region.ofRegs (m.work ∪ {d.regOut})) t :=
        (hcalled.widen Set.subset_union_right).trans (hkeeps.widen Set.subset_union_left)
      rw [outIf, if_pos rfl]
      cases hnext : (m.outRow st (s.rowAt d.arm.block d.arm.ncol)).2 with
      | none =>
          rw [hnext] at hlands
          exact ⟨t, hin, hwork, hlands⟩
      | some st' =>
          rw [hnext] at hlands
          obtain ⟨hback, hholds'⟩ : t.pc = d.out + m.outLength ∧ m.Holds st' t := hlands
          rw [length_emitOutSubroutine, ← hback] at hreturn
          have haddr : t.regs d.regOut = address (s.pc + 1) :=
            (hkeeps.regs _ hout).trans (Function.update_self ..)
          exact ⟨_, hin.goesOn (.one hreturn (exec_return hpc haddr)), hwork.goto _, rfl,
            hholds'.goto _⟩

theorem runs_yield (hprog : prog.length < 2 ^ 63) (hd : d.Fits m)
    (hfetch : prog[s.pc]? = some (.new .yield d.arm.addr eof 0))
    (hnext : ¬Coroutine.EndsAt prog (s.pc + 1)) (hready : d.arm.Ready n fx prog rows s) :
    ∃ t, s.Runs n fx prog [] t ∧ s.Keeps d.arm.resumed t ∧
      Arrives n fx prog d.arm (s.pc + 1) eof rows t := by
  cases rows with
  | nil =>
      obtain ⟨t, hruns, hkeeps, hpc⟩ := yield_done hprog hd.addr_not_mem_inside hfetch hready
      exact ⟨t, hruns, hkeeps, hpc, trivial⟩
  | cons row rows =>
      obtain ⟨t, hruns, hkeeps, hpc, hrow, hrest⟩ :=
        yield_row hprog hd.addr_not_mem_inside hfetch hnext hready
      exact ⟨t, hruns, hkeeps, hpc, hrow, hrest⟩

theorem Front.goto (h : Front n fx prog c rows s) (pc : Nat) :
    Front n fx prog c rows (s.goto pc) := by
  refine h.keeps ((Machine.Keeps.refl (Region.ofRegs ∅) s).goto pc) ?_ id fun _ _ => id
  exact Region.apart_ofRegs fun _ _ => id

theorem not_endsAt {pc : Nat} {i : Instruction} (h : prog[pc]? = some i)
    (hop : i.opcode ≠ .endCoroutine) : ¬Coroutine.EndsAt prog pc := by
  rw [Coroutine.EndsAt, h, Option.map_some, Option.some.injEq]
  exact hop

theorem work_apart_resumed (hplaced : m.Placed) (hd : d.Fits m) :
    ∀ r ∈ m.work, r ∉ d.arm.resumed.regs := by
  rintro r hr ((hown | hblock) | haddr)
  · exact hd.own r hown (work_subset_registers hr)
  · exact hd.block_not_mem_work hplaced hblock hr
  · obtain rfl : r = d.arm.addr := haddr
    exact work_of_low hplaced hd.addr_low hd.addr_high hr

theorem runs_handler (hprog : prog.length < 2 ^ 63) (hplaced : m.Placed) (hd : d.Fits m)
    (hclear : d.arm.addr ≠ d.regOut) {next : Nat}
    (hseg : Seg prog s.pc (handler outs d.regOut d.out d.arm.addr eof next))
    (hsub : outs → Seg prog d.out
      (m.emitOutSubroutine d.arm.block d.out labelEnd ++ [.new .return_ d.regOut 0 1]))
    (h : m.Holds st s) (hfront : Front n fx prog d.arm (row :: rows) s) :
    ∃ t, s.Runs n fx prog (m.outIf outs st row).1 t ∧ s.Keeps (m.reach d) t ∧
      (m.outIf outs st row).2.elim (t.pc = labelEnd) fun st' =>
        m.Holds st' t ∧ Arrives n fx prog d.arm next eof rows t := by
  obtain ⟨rfl, hready⟩ := hfront
  obtain ⟨hcall, hrest⟩ := Seg.append_iff.mp hseg
  obtain ⟨t, hruns, hkeeps, hlands⟩ := runs_outIf hprog hplaced hd hcall hsub h
  have hreach : s.Keeps (m.reach d) t :=
    hkeeps.mono Set.subset_union_right (Set.empty_subset _) (Set.empty_subset _)
  cases hnext : (m.outIf outs st (s.rowAt d.arm.block d.arm.ncol)).2 with
  | none =>
      rw [hnext] at hlands
      exact ⟨t, hruns, hreach, hlands⟩
  | some st' =>
      rw [hnext] at hlands
      obtain ⟨hpc, hholds⟩ : t.pc = s.pc + (if outs then 1 else 0) ∧ m.Holds st' t := hlands
      have hlen : (if outs then [Instruction.new .gosub d.regOut d.out 0] else []).length =
          if outs then 1 else 0 := by cases outs <;> rfl
      rw [hlen, ← hpc] at hrest
      obtain ⟨hyield, hgoto⟩ := Seg.cons_iff.mp hrest
      obtain ⟨hgoto, -⟩ := Seg.cons_iff.mp hgoto
      have hready' : d.arm.Ready n fx prog rows t := by
        refine hready.keeps hkeeps (Region.apart_ofRegs ?_) ?_
        · rintro r hr (hwork | rfl)
          · exact hd.own r hr (work_subset_registers hwork)
          · exact hd.own _ hr (Or.inl ⟨hd.regOut_low, by
              have := hd.regOut_high
              unfold top
              split <;> omega⟩)
        · rintro (hwork | haddr)
          · exact work_of_low hplaced hd.addr_low hd.addr_high hwork
          · exact hclear haddr
      obtain ⟨u, hruns', hkeeps', hpc', hfront⟩ :=
        runs_yield hprog hd hyield (not_endsAt hgoto Opcode.noConfusion) hready'
      have hholds' : m.Holds st' u := hholds.keeps hkeeps' (work_apart_resumed hplaced hd)
      have hreach' : s.Keeps (m.reach d) u := hreach.trans (hkeeps'.withRegs _)
      cases rows with
      | nil => exact ⟨u, hruns.goesOn hruns', hreach', hholds', hpc', hfront⟩
      | cons row' rows =>
          have hgoto' : prog[u.pc]? = some (.new .goto 0 next 0) := hpc' ▸ hgoto
          exact ⟨_, hruns.goesOn (hruns'.goesOn (.one hgoto' (exec_goto next))), hreach'.goto next,
            hholds'.goto next, rfl, hfront.goto next⟩

end Side

/-! ## The control flow in a program -/

structure Stands (m : Merge) (prog : List Instruction) (l : MergeLabels) : Prop where
  outA : Seg prog l.outA (m.outA l)
  outB : Seg prog l.outB (m.outB l)
  eofA : Seg prog l.eofA (m.eofA l)
  eofANoB : Seg prog l.eofANoB (m.eofANoB l)
  eofB : Seg prog l.eofB (m.eofB l)
  altB : Seg prog l.altB (m.altB l)
  aeqB : Seg prog l.aeqB (m.aeqB l)
  agtB : Seg prog l.agtB (m.agtB l)
  init : Seg prog l.init (m.init l)
  cmpr : Seg prog l.cmpr (m.cmpr l)
  cmpr_eq : l.cmpr = l.init + 2
  halt : prog[l.labelEnd]? = some (.new .halt 0 0 0)

theorem length_handler (outs : Bool) (regOut : Int) (out : Nat) (regAddr : Int) (eof next : Nat) :
    (handler outs regOut out regAddr eof next).length = handlerLength outs := by
  cases outs <;> rfl

theorem length_outA (l : MergeLabels) : (m.outA l).length = m.outLength + 1 := by
  rw [outA, List.length_append, length_emitOutSubroutine]
  rfl

theorem length_outB (l : MergeLabels) :
    (m.outB l).length = if m.op.emitsOutB then m.outLength + 1 else 0 := by
  unfold outB
  split
  · rw [List.length_append, length_emitOutSubroutine]
    rfl
  · rfl

theorem length_eofA (l : MergeLabels) : (m.eofA l).length = if m.op.emitsOutB then 3 else 1 := by
  unfold eofA
  split <;> rfl

theorem length_eofANoB (l : MergeLabels) :
    (m.eofANoB l).length = if m.op.emitsOutB then 2 else 1 := by
  unfold eofANoB
  split <;> rfl

theorem length_eofB (l : MergeLabels) : (m.eofB l).length = if m.op = .intersect then 1 else 3 := by
  unfold eofB
  split <;> rfl

theorem stands_of_seg {base : Nat} (h : Seg prog base (m.emitMergeControl base)) :
    m.Stands prog (m.labels base) := by
  obtain ⟨houtA, h⟩ := Seg.append_iff.mp h
  rw [length_outA] at h
  obtain ⟨houtB, h⟩ := Seg.append_iff.mp h
  have heofAEq :
      base + (m.outLength + 1) + (m.outB (m.labels base)).length = (m.labels base).eofA := by
    rw [length_outB]
    simp only [labels]
    split <;> omega
  rw [heofAEq] at h
  obtain ⟨heofA, h⟩ := Seg.append_iff.mp h
  rw [length_eofA] at h
  obtain ⟨heofANoB, h⟩ := Seg.append_iff.mp h
  rw [length_eofANoB] at h
  obtain ⟨heofB, h⟩ := Seg.append_iff.mp h
  rw [length_eofB] at h
  obtain ⟨haltB, h⟩ := Seg.append_iff.mp h
  rw [altB, length_handler] at h
  obtain ⟨haeqB, h⟩ := Seg.append_iff.mp h
  rw [aeqB, length_handler] at h
  obtain ⟨hagtB, h⟩ := Seg.append_iff.mp h
  rw [agtB, length_handler] at h
  obtain ⟨hinit, h⟩ := Seg.append_iff.mp h
  obtain ⟨hcmpr, h⟩ := Seg.append_iff.mp h
  exact ⟨houtA, houtB, heofA, heofANoB, heofB, haltB, haeqB, hagtB, hinit, hcmpr, rfl,
    (Seg.cons_iff.mp h).1⟩

/-! ## The loop -/

def sideA (m : Merge) (out : Nat) (own : Region) : Side :=
  ⟨m.regOutA, out, ⟨m.regAddrA, m.regBlockA, m.ncol, own⟩⟩

def sideB (m : Merge) (out : Nat) (own : Region) : Side :=
  ⟨m.regOutB, out, ⟨m.regAddrB, m.regBlockB, m.ncol, own⟩⟩

structure Arms (m : Merge) (ownA ownB : Region) : Prop where
  apart : ownA.Apart ownB
  a : ∀ r ∈ ownA.regs, r ∉ m.registers
  b : ∀ r ∈ ownB.regs, r ∉ m.registers

theorem fits_sideA (h : ∀ r ∈ own.regs, r ∉ m.registers) (out : Nat) :
    (m.sideA out own).Fits m := by
  refine ⟨rfl, ?_, ?_, ?_, ?_, ?_, ?_, h⟩ <;>
    simp only [sideA, regOutA, regAddrA, regBlockA] <;> omega

theorem fits_sideB (h : ∀ r ∈ own.regs, r ∉ m.registers) (out : Nat) :
    (m.sideB out own).Fits m := by
  refine ⟨rfl, ?_, ?_, ?_, ?_, ?_, ?_, h⟩ <;>
    simp only [sideB, regOutB, regAddrB, regBlockB] <;> omega

theorem Side.clear {e : Side} (hplaced : m.Placed) (hd : d.Fits m) (he : e.Fits m)
    (hapart : e.arm.own.Apart d.arm.own) (haddr : e.arm.addr ≠ d.arm.addr)
    (hregOut : e.arm.addr ≠ d.regOut)
    (hblock : ∀ r ∈ blockSet e.arm.block e.arm.ncol, r ∉ blockSet d.arm.block d.arm.ncol) :
    d.Clear m e := by
  have htop : m.first + 4 + 2 * m.ncol ≤ m.top := by
    unfold top
    split <;> omega
  have hwithin : ∀ r ∈ (m.reach d).regs, r ∈ d.arm.own.regs ∨ r ∈ m.registers := by
    have hncol := hd.ncol
    have hhigh := hd.high
    have hlow := hd.low
    have haddr_low := hd.addr_low
    have haddr_high := hd.addr_high
    have hregOut_low := hd.regOut_low
    have hregOut_high := hd.regOut_high
    rintro r (((hown | ⟨hle, hlt⟩) | rfl) | (hwork | rfl))
    · exact .inl hown
    · exact .inr (.inl ⟨by omega, by omega⟩)
    · exact .inr (.inl ⟨haddr_low, by omega⟩)
    · exact .inr (work_subset_registers hwork)
    · exact .inr (.inl ⟨hregOut_low, by omega⟩)
  refine ⟨⟨fun r hr hin => ?_, hapart.cursors, hapart.onces⟩, ?_, ?_⟩
  · rcases hwithin r hin with hown | hreg
    · exact hapart.regs r hr hown
    · exact he.own r hr hreg
  · have haddr_low := he.addr_low
    have haddr_high := he.addr_high
    have hlow := hd.low
    rintro (((hown | ⟨hle, -⟩) | heq) | (hwork | heq))
    · exact hd.own _ hown (.inl ⟨haddr_low, by omega⟩)
    · omega
    · exact haddr heq
    · exact work_of_low hplaced haddr_low haddr_high hwork
    · exact hregOut heq
  · intro r hr
    have hnot := he.block_not_mem_work hplaced hr
    obtain ⟨hle, hlt⟩ := hr
    have hncol := he.ncol
    have hhigh := he.high
    have hlow := he.low
    have haddr_high := hd.addr_high
    have hregOut_high := hd.regOut_high
    rintro (((hown | hin) | rfl) | (hwork | rfl))
    · exact hd.own _ hown (.inl ⟨by omega, by omega⟩)
    · exact hblock r ⟨hle, hlt⟩ hin
    · omega
    · exact hnot hwork
    · omega

theorem rowAt_take (s : Machine A C W) (first : Int) {k k' : Nat} (h : k ≤ k') :
    (s.rowAt first k').take k = s.rowAt first k := by
  rw [Machine.rowAt, Machine.rowAt, ← List.map_take, Vdbe.block, Vdbe.block, ← List.map_take,
    List.take_range, Nat.min_eq_left h]

theorem compareKeys_take (keys : List KeyField) (as bs : List Value) :
    Machine.compareKeys keys (as.take keys.length) (bs.take keys.length) =
      Machine.compareKeys keys as bs := by
  induction keys generalizing as bs with
  | nil => rw [List.length_nil, List.take_zero, List.take_zero]; rfl
  | cons key keys ih =>
      cases as with
      | nil => rfl
      | cons a as =>
          cases bs with
          | nil => rfl
          | cons b bs => exact congrArg (Ordering.then _) (ih as bs)

section Loop

variable {l : MergeLabels} {ownA ownB : Region}

theorem returns_end (hstands : m.Stands prog l) (h : s.pc = l.labelEnd) :
    s.Returns n fx prog [] := by
  have hhalt : prog[s.pc]? = some (.new .halt 0 0 0) := h ▸ hstands.halt
  exact ⟨s, .refl s, Machine.step_eq hhalt⟩

def rule (m : Merge) : MergeRule := ⟨m.op.outsAltB, m.op.emitsOutB, m.op.outsAeqB⟩

def keyOrder (m : Merge) : List Value → List Value → Ordering := Machine.compareKeys m.keyInfo

def mergePc (l : MergeLabels) (as bs : List (List Value)) : Nat :=
  if as.isEmpty then l.eofA else if bs.isEmpty then l.eofB else l.cmpr

structure Merging (n : Numerals) (fx : Effects A C W) (prog : List Instruction) (m : Merge)
    (l : MergeLabels) (ownA ownB : Region) (as bs : List (List Value)) (st : OutState)
    (s : Machine A C W) : Prop where
  pc : s.pc = mergePc l as bs
  a : Front n fx prog (m.sideA l.outA ownA).arm as s
  b : Front n fx prog (m.sideB l.outB ownB).arm bs s
  some : as ≠ [] ∨ bs ≠ []
  holds : m.Holds st s

theorem returns_keepIf (hstands : m.Stands prog l) {next : OutState → Prop}
    (hruns : s.Runs n fx prog (m.outIf outs st row).1 t)
    (hnext : (m.outIf outs st row).2.elim (t.pc = l.labelEnd) next)
    (hrest : ∀ st', next st' → t.Returns n fx prog (m.outRows st' rows)) :
    s.Returns n fx prog (m.outRows st (keepIf outs row rows)) := by
  rw [outRows_keepIf]
  refine hruns.returns ?_
  cases hst : (m.outIf outs st row).2 with
  | none =>
      rw [hst] at hnext
      exact returns_end hstands hnext
  | some st' =>
      rw [hst] at hnext
      exact hrest st' hnext

variable {pos : Nat}

theorem returns_drain (hprog : prog.length < 2 ^ 63) (hplaced : m.Placed)
    (hstands : m.Stands prog l) (hd : d.Fits m) (hclear : d.arm.addr ≠ d.regOut)
    (hseg : Seg prog pos (handler true d.regOut d.out d.arm.addr l.labelEnd pos))
    (hsub : Seg prog d.out
      (m.emitOutSubroutine d.arm.block d.out l.labelEnd ++ [.new .return_ d.regOut 0 1]))
    (hpc : s.pc = if rows.isEmpty then l.labelEnd else pos) (hfront : Front n fx prog d.arm rows s)
    (h : m.Holds st s) : s.Returns n fx prog (m.outRows st rows) := by
  induction rows generalizing st s with
  | nil => exact returns_end hstands hpc
  | cons row rows ih =>
      have hhere : Seg prog s.pc (handler true d.regOut d.out d.arm.addr l.labelEnd pos) :=
        (show s.pc = pos from hpc).symm ▸ hseg
      obtain ⟨t, hruns, -, hnext⟩ :=
        runs_handler hprog hplaced hd hclear hhere (fun _ => hsub) h hfront
      exact returns_keepIf hstands hruns hnext fun st' hst' => ih hst'.2.1 hst'.2.2 hst'.1

section Both

variable (hprog : prog.length < 2 ^ 63) (hplaced : m.Placed) (hstands : m.Stands prog l)
  (harms : m.Arms ownA ownB)

include hstands in
theorem seg_outA (own : Region) : Seg prog (m.sideA l.outA own).out
    (m.emitOutSubroutine (m.sideA l.outA own).arm.block (m.sideA l.outA own).out l.labelEnd ++
      [.new .return_ (m.sideA l.outA own).regOut 0 1]) := hstands.outA

include hstands in
theorem seg_outB (hout : m.op.emitsOutB) (own : Region) : Seg prog (m.sideB l.outB own).out
    (m.emitOutSubroutine (m.sideB l.outB own).arm.block (m.sideB l.outB own).out l.labelEnd ++
      [.new .return_ (m.sideB l.outB own).regOut 0 1]) := by
  have h := hstands.outB
  rw [outB, if_pos hout] at h
  exact h

include hplaced harms in
theorem clear_sideA : (m.sideA l.outA ownA).Clear m (m.sideB l.outB ownB) := by
  refine Side.clear hplaced (fits_sideA harms.a _) (fits_sideB harms.b _) harms.apart.symm ?_ ?_ ?_
  · simp only [sideA, sideB, regAddrA, regAddrB]
    omega
  · simp only [sideA, sideB, regOutA, regAddrB]
    omega
  · rintro r ⟨hle, -⟩ ⟨-, hlt⟩
    simp only [sideA, sideB, regBlockA, regBlockB] at hle hlt
    omega

include hplaced harms in
theorem clear_sideB : (m.sideB l.outB ownB).Clear m (m.sideA l.outA ownA) := by
  refine Side.clear hplaced (fits_sideB harms.b _) (fits_sideA harms.a _) harms.apart ?_ ?_ ?_
  · simp only [sideA, sideB, regAddrA, regAddrB]
    omega
  · simp only [sideA, sideB, regOutB, regAddrA]
    omega
  · rintro r ⟨-, hlt⟩ ⟨hle, -⟩
    simp only [sideA, sideB, regBlockA, regBlockB] at hle hlt
    omega

include hstands in
theorem runs_goto_end (hseg : Seg prog pos [.new .goto 0 l.labelEnd 0]) (hpc : s.pc = pos) :
    s.Returns n fx prog [] := by
  have hgoto : prog[s.pc]? = some (.new .goto 0 l.labelEnd 0) := hpc ▸ (Seg.cons_iff.mp hseg).1
  exact (Machine.Runs.one hgoto (exec_goto l.labelEnd)).returns (returns_end hstands rfl)

variable {bs as : List (List Value)}

include hprog hplaced hstands harms in
theorem returns_eofA (hbs : bs ≠ []) (hpc : s.pc = l.eofA)
    (hb : Front n fx prog (m.sideB l.outB ownB).arm bs s) (h : m.Holds st s) :
    s.Returns n fx prog (m.outRows st (mergeBy m.keyOrder m.rule [] bs)) := by
  have hseg := hstands.eofA
  rw [mergeBy_nil_left]
  by_cases hout : m.op.emitsOutB
  · rw [eofA, if_pos hout] at hseg
    have hright : m.rule.right = true := hout
    rw [if_pos hright]
    refine returns_drain hprog hplaced hstands (fits_sideB harms.b _) ?_ hseg
      (seg_outB hstands hout ownB) ?_ hb h
    · simp only [sideB, regOutB, regAddrB]
      omega
    · rw [hpc, if_neg (mt List.isEmpty_iff.mp hbs)]
  · rw [eofA, if_neg hout] at hseg
    have hright : ¬m.rule.right = true := hout
    rw [if_neg hright]
    exact runs_goto_end hstands hseg hpc

include hprog hplaced hstands harms in
theorem returns_eofB (has : as ≠ []) (hpc : s.pc = l.eofB)
    (ha : Front n fx prog (m.sideA l.outA ownA).arm as s) (h : m.Holds st s) :
    s.Returns n fx prog (m.outRows st (mergeBy m.keyOrder m.rule as [])) := by
  have hseg := hstands.eofB
  rw [mergeBy_nil_right]
  by_cases hop : m.op = .intersect
  · rw [eofB, if_pos hop] at hseg
    have hleft : ¬m.rule.left = true := by
      rw [rule, hop]
      exact Bool.false_ne_true
    rw [if_neg hleft]
    exact runs_goto_end hstands hseg hpc
  · rw [eofB, if_neg hop] at hseg
    have hleft : m.rule.left = true := by
      rw [rule]
      cases hop' : m.op with
      | intersect => exact absurd hop' hop
      | union | unionAll | except => rfl
    rw [if_pos hleft]
    refine returns_drain hprog hplaced hstands (fits_sideA harms.a _) ?_ hseg
      (seg_outA hstands ownA) ?_ ha h
    · simp only [sideA, regOutA, regAddrA]
      omega
    · rw [hpc, if_neg (mt List.isEmpty_iff.mp has)]

include hstands in
theorem runs_cmpr (hkeys : m.nkey ≤ m.ncol) {a b : List Value}
    (h : Merging n fx prog m l ownA ownB (a :: as) (b :: bs) st s) :
    ∃ t, s.Runs n fx prog [] t ∧ t.pc = branch (m.keyOrder a b) l.altB l.aeqB l.agtB ∧
      Front n fx prog (m.sideA l.outA ownA).arm (a :: as) t ∧
      Front n fx prog (m.sideB l.outB ownB).arm (b :: bs) t ∧ m.Holds st t := by
  have hcmpr : Seg prog s.pc (m.cmpr l) := (show s.pc = l.cmpr from h.pc).symm ▸ hstands.cmpr
  obtain ⟨hcompare, hjump⟩ := Seg.cons_iff.mp hcmpr
  obtain ⟨hjump, -⟩ := Seg.cons_iff.mp hjump
  obtain ⟨t, hruns, hkeeps, hpc⟩ := runs_compare hcompare hjump
  have hnone : ∀ R : Region, R.Apart (Region.ofRegs ∅) := fun R => Region.apart_ofRegs fun _ _ => id
  have ha : s.rowAt m.regBlockA m.ncol = a := h.a.1
  have hb : s.rowAt m.regBlockB m.ncol = b := h.b.1
  rw [← rowAt_take s m.regBlockA hkeys, ← rowAt_take s m.regBlockB hkeys, ha, hb, nkey,
    compareKeys_take] at hpc
  exact ⟨t, hruns, hpc, h.a.keeps hkeeps (hnone _) id fun _ _ => id,
    h.b.keeps hkeeps (hnone _) id fun _ _ => id, h.holds.keeps hkeeps fun _ _ => id⟩

include hprog hplaced hstands harms in
theorem returns_merging (hkeys : m.nkey ≤ m.ncol) (h : Merging n fx prog m l ownA ownB as bs st s) :
    s.Returns n fx prog (m.outRows st (mergeBy m.keyOrder m.rule as bs)) := by
  have hfitsA : (m.sideA l.outA ownA).Fits m := fits_sideA harms.a _
  have hfitsB : (m.sideB l.outB ownB).Fits m := fits_sideB harms.b _
  have hneA : (m.sideA l.outA ownA).arm.addr ≠ (m.sideA l.outA ownA).regOut := by
    simp only [sideA, regOutA, regAddrA]
    omega
  have hneB : (m.sideB l.outB ownB).arm.addr ≠ (m.sideB l.outB ownB).regOut := by
    simp only [sideB, regOutB, regAddrB]
    omega
  induction as, bs using merge_induction m.keyOrder generalizing st s with
  | left bs =>
      have hbs : bs ≠ [] := h.some.resolve_left (not_not_intro rfl)
      exact returns_eofA hprog hplaced hstands harms hbs h.pc h.b h.holds
  | right as =>
      have has : as ≠ [] := h.some.resolve_right (not_not_intro rfl)
      have hpc : s.pc = l.eofB := h.pc.trans (if_neg (mt List.isEmpty_iff.mp has))
      exact returns_eofB hprog hplaced hstands harms has hpc h.a h.holds
  | lt a as b bs hab ih =>
      obtain ⟨t, hcmpr, hpc, ha, hb, hst⟩ := runs_cmpr hstands hkeys h
      replace hpc : t.pc = l.altB := hpc.trans (by rw [hab]; rfl)
      obtain ⟨u, hruns, hkeeps, hnext⟩ := runs_handler hprog hplaced hfitsA hneA
        (hpc.symm ▸ hstands.altB) (fun _ => seg_outA hstands ownA) hst ha
      rw [mergeBy_lt hab]
      refine hcmpr.returns (returns_keepIf hstands hruns hnext ?_)
      rintro st' ⟨hst', hpc', ha'⟩
      exact ih ⟨hpc', ha', hb.clear (clear_sideA hplaced harms) hkeeps,
        .inr (List.cons_ne_nil b bs), hst'⟩
  | eq a as b bs hab ih =>
      obtain ⟨t, hcmpr, hpc, ha, hb, hst⟩ := runs_cmpr hstands hkeys h
      replace hpc : t.pc = l.aeqB := hpc.trans (by rw [hab]; rfl)
      obtain ⟨u, hruns, hkeeps, hnext⟩ := runs_handler hprog hplaced hfitsA hneA
        (hpc.symm ▸ hstands.aeqB) (fun _ => seg_outA hstands ownA) hst ha
      rw [mergeBy_eq hab]
      refine hcmpr.returns (returns_keepIf hstands hruns hnext ?_)
      rintro st' ⟨hst', hpc', ha'⟩
      exact ih ⟨hpc', ha', hb.clear (clear_sideA hplaced harms) hkeeps,
        .inr (List.cons_ne_nil b bs), hst'⟩
  | gt a as b bs hab ih =>
      obtain ⟨t, hcmpr, hpc, ha, hb, hst⟩ := runs_cmpr hstands hkeys h
      replace hpc : t.pc = l.agtB := hpc.trans (by rw [hab]; rfl)
      obtain ⟨u, hruns, hkeeps, hnext⟩ := runs_handler hprog hplaced hfitsB hneB
        (hpc.symm ▸ hstands.agtB) (fun hout => seg_outB hstands hout ownB) hst hb
      rw [mergeBy_gt hab]
      refine hcmpr.returns (returns_keepIf hstands hruns hnext ?_)
      rintro st' ⟨hst', hpc', hb'⟩
      exact ih ⟨hpc', ha.clear (clear_sideB hplaced harms) hkeeps, hb',
        .inl (List.cons_ne_nil a as), hst'⟩

include hprog hplaced hstands harms in
theorem returns_init (hkeys : m.nkey ≤ m.ncol) (hpc : s.pc = l.init)
    (ha : (m.sideA l.outA ownA).arm.Ready n fx prog as s)
    (hb : (m.sideB l.outB ownB).arm.Ready n fx prog bs s) (hst : m.Holds st s) :
    s.Returns n fx prog (m.outRows st (mergeBy m.keyOrder m.rule as bs)) := by
  have hfitsA : (m.sideA l.outA ownA).Fits m := fits_sideA harms.a _
  have hfitsB : (m.sideB l.outB ownB).Fits m := fits_sideB harms.b _
  have hclearA : (m.sideA l.outA ownA).Clear m (m.sideB l.outB ownB) := clear_sideA hplaced harms
  have hclearB : (m.sideB l.outB ownB).Clear m (m.sideA l.outA ownA) := clear_sideB hplaced harms
  obtain ⟨hyieldA, hyieldB⟩ := Seg.cons_iff.mp hstands.init
  obtain ⟨hyieldB, -⟩ := Seg.cons_iff.mp hyieldB
  obtain ⟨hcompare, -⟩ := Seg.cons_iff.mp hstands.cmpr
  rw [hstands.cmpr_eq] at hcompare
  rw [← hpc] at hyieldA hyieldB hcompare
  obtain ⟨t, hruns, hkeeps, hpc', hfrontA⟩ :=
    runs_yield hprog hfitsA hyieldA (not_endsAt hyieldB Opcode.noConfusion) ha
  have hreach : s.Keeps (m.reach (m.sideA l.outA ownA)) t := hkeeps.withRegs _
  have hb' : (m.sideB l.outB ownB).arm.Ready n fx prog bs t :=
    hb.keeps hreach hclearA.own hclearA.addr
  have hst' : m.Holds st t := hst.keeps hkeeps (work_apart_resumed hplaced hfitsA)
  refine hruns.returns ?_
  cases as with
  | nil =>
      have hseg := hstands.eofANoB
      by_cases hout : m.op.emitsOutB
      · rw [eofANoB, if_pos hout, show l.eofANoB = t.pc from hpc'.symm] at hseg
        obtain ⟨hyield, hgoto⟩ := Seg.cons_iff.mp hseg
        obtain ⟨hgoto, -⟩ := Seg.cons_iff.mp hgoto
        obtain ⟨u, hruns', hkeeps', hpc'', hfrontB⟩ :=
          runs_yield hprog hfitsB hyield (not_endsAt hgoto Opcode.noConfusion) hb'
        have hst'' : m.Holds st u := hst'.keeps hkeeps' (work_apart_resumed hplaced hfitsB)
        refine hruns'.returns ?_
        cases bs with
        | nil =>
            rw [mergeBy_nil_left, ite_self]
            exact returns_end hstands hpc''
        | cons b bs =>
            have hgoto' := (congrArg (fun k => prog[k]?) hpc'').trans hgoto
            exact (Machine.Runs.one hgoto' (exec_goto l.eofA)).returns
              (returns_eofA hprog hplaced hstands harms (List.cons_ne_nil b bs) rfl
                (hfrontB.goto l.eofA) (hst''.goto l.eofA))
      · rw [eofANoB, if_neg hout] at hseg
        have hright : ¬m.rule.right = true := hout
        rw [mergeBy_nil_left, if_neg hright]
        exact runs_goto_end hstands hseg hpc'
  | cons a as =>
      replace hpc' : t.pc = s.pc + 1 := hpc'
      rw [← hpc'] at hyieldB
      have hcompare' := (congrArg (fun k => prog[k + 1]?) hpc').trans hcompare
      obtain ⟨u, hruns', hkeeps', hpc'', hfrontB⟩ :=
        runs_yield hprog hfitsB hyieldB (not_endsAt hcompare' Opcode.noConfusion) hb'
      have hreach' : t.Keeps (m.reach (m.sideB l.outB ownB)) u := hkeeps'.withRegs _
      have hcmpr : u.pc = mergePc l (a :: as) bs := by
        rw [hpc'', hpc', hpc, mergePc, hstands.cmpr_eq]
        rfl
      have hmerging : Merging n fx prog m l ownA ownB (a :: as) bs st u :=
        ⟨hcmpr, hfrontA.clear hclearB hreach', hfrontB, .inl (List.cons_ne_nil a as),
          hst'.keeps hkeeps' (work_apart_resumed hplaced hfitsB)⟩
      exact hruns'.returns (returns_merging hprog hplaced hstands harms hkeys hmerging)

end Both

end Loop

end Merge

/-! ## What the merge returns -/

def rowsOf (ncol : Nat) (V : Set Value) : Set (List Value) :=
  {row | row.length = ncol ∧ ∀ v ∈ row, v ∈ V}

variable {V : Set Value}

theorem preorderOn_compareKeys {keys : List KeyField} {ncol : Nat} (hkeys : keys.length ≤ ncol)
    (h : ∀ key ∈ keys, PreorderOn (memCompare · · key.collation) V) :
    PreorderOn (Machine.compareKeys keys) (rowsOf ncol V) := by
  induction keys generalizing ncol with
  | nil => exact ⟨fun _ _ => rfl, fun _ _ _ _ => .inl rfl, fun _ _ _ _ _ _ _ _ => rfl,
      fun _ _ _ _ => rfl⟩
  | cons key keys ih =>
      rw [List.forall_mem_cons] at h
      obtain ⟨k, rfl⟩ : ∃ k, ncol = k + 1 := ⟨ncol - 1, by simp at hkeys; omega⟩
      have hcol : PreorderOn
          (fun a b => if key.desc then (memCompare a b key.collation).swap
            else memCompare a b key.collation) V := by
        cases key.desc
        · exact h.1
        · exact h.1.reverse
      have hhead : ∀ row ∈ rowsOf (k + 1) V, row.headD .null ∈ V := by
        rintro row ⟨hlen, hall⟩
        obtain ⟨v, row, rfl⟩ := List.exists_cons_of_length_eq_add_one hlen
        exact hall v List.mem_cons_self
      have htail : ∀ row ∈ rowsOf (k + 1) V, row.tail ∈ rowsOf k V := by
        rintro row ⟨hlen, hall⟩
        obtain ⟨v, row, rfl⟩ := List.exists_cons_of_length_eq_add_one hlen
        exact ⟨Nat.succ.inj hlen, fun w hw => hall w (List.mem_cons_of_mem _ hw)⟩
      have hrest := (ih (Nat.le_of_succ_le_succ hkeys) h.2).comap _ htail
      refine ((hcol.comap _ hhead).lex hrest).congr ?_
      rintro a ⟨ha, -⟩ b ⟨hb, -⟩
      obtain ⟨v, a, rfl⟩ := List.exists_cons_of_length_eq_add_one ha
      obtain ⟨w, b, rfl⟩ := List.exists_cons_of_length_eq_add_one hb
      rfl

def CompoundOperator.Member (op : CompoundOperator) (inA inB : Prop) : Prop :=
  match op with
  | .union | .unionAll => inA ∨ inB
  | .intersect => inA ∧ inB
  | .except => inA ∧ ¬inB

namespace Merge

variable {m : Merge}

theorem rule_keeps (m : Merge) (inA inB : Prop) : m.rule.Keeps inA inB ↔ m.op.Member inA inB := by
  unfold MergeRule.Keeps rule
  cases m.op <;>
    simp [CompoundOperator.Member, CompoundOperator.outsAltB, CompoundOperator.emitsOutB,
      CompoundOperator.outsAeqB] <;> tauto

structure Starts (n : Numerals) (fx : Effects A C W) (prog : List Instruction) (m : Merge)
    (base : Nat) (ownA ownB : Region) (as bs : List (List Value)) (skip : Nat) (left : Option Nat)
    (s : Machine A C W) : Prop where
  short : prog.length < 2 ^ 63
  code : Seg prog base (m.emitMergeControl base)
  placed : m.Placed
  arms : m.Arms ownA ownB
  pc : s.pc = (m.labels base).init
  a : (m.sideA (m.labels base).outA ownA).arm.Ready n fx prog as s
  b : (m.sideB (m.labels base).outB ownB).arm.Ready n fx prog bs s
  holds : m.Holds ⟨none, skip, left⟩ s

variable {base : Nat} {ownA ownB : Region} {as bs : List (List Value)} {skip : Nat}
  {left : Option Nat} {s : Machine A C W}

section

variable (h : Starts n fx prog m base ownA ownB as bs skip left s)

include h

theorem Starts.returns (hkeys : m.nkey ≤ m.ncol) :
    s.Returns n fx prog (slice skip left (m.fresh none (mergeBy m.keyOrder m.rule as bs))) := by
  have hleft : left ≠ some 0 := fun hzero => (h.holds.left_pos 0 hzero).1.ne rfl
  have hreturns := returns_init h.short h.placed (stands_of_seg h.code) h.arms hkeys h.pc h.a h.b
    h.holds
  rwa [m.outRows_eq hleft] at hreturns

theorem Starts.length_a : ∀ row ∈ as, row.length = m.ncol := by
  obtain ⟨k, own, hprod, -⟩ := h.a
  have haddr := (fits_sideA h.arms.a (m.labels base).outA).addr_not_mem_inside
  exact hprod.length fun hin => haddr (Or.inl hin)

theorem Starts.length_b : ∀ row ∈ bs, row.length = m.ncol := by
  obtain ⟨k, own, hprod, -⟩ := h.b
  have haddr := (fits_sideB h.arms.b (m.labels base).outB).addr_not_mem_inside
  exact hprod.length fun hin => haddr (Or.inl hin)

theorem returns_setOperation (hplain : m.keyInfo = List.replicate m.ncol ascBinary)
    (hop : m.op ≠ .unionAll) (horder : PreorderOn (memCompare · · .binary) V)
    (hvalues : ∀ row ∈ as ++ bs, ∀ v ∈ row, v ∈ V) (hascA : Ascending (rowOrder m.ncol) as)
    (hascB : Ascending (rowOrder m.ncol) bs) :
    ∃ rows, s.Returns n fx prog (slice skip left rows) ∧
      ListsInOrder (rowOrder m.ncol) (rowsOf m.ncol V)
        (fun row => m.op.Member (LevelIn (rowOrder m.ncol) as row)
          (LevelIn (rowOrder m.ncol) bs row)) rows := by
  have hkey : m.keyOrder = rowOrder m.ncol := by
    rw [keyOrder, hplain]
    rfl
  have hrows : PreorderOn (rowOrder m.ncol) (rowsOf m.ncol V) := by
    refine preorderOn_compareKeys (by rw [List.length_replicate]) fun key hkey => ?_
    rw [List.eq_of_mem_replicate hkey]
    exact horder
  have hreturns := h.returns (by rw [nkey, hplain, List.length_replicate])
  have hdedup : m.needsDedup = true := decide_eq_true hop
  rw [fresh, if_pos hdedup, distinctAfter_none, hkey] at hreturns
  refine ⟨_, hreturns, ?_⟩
  have hlists := listsInOrder_merge m.rule hrows.transCmp
    (fun row hrow => ⟨h.length_a row hrow, hvalues row (List.mem_append_left _ hrow)⟩)
    (fun row hrow => ⟨h.length_b row hrow, hvalues row (List.mem_append_right _ hrow)⟩) hascA hascB
  exact ⟨hlists.ascending, fun row hrow => (hlists.level row hrow).trans (m.rule_keeps _ _)⟩

/--
A UNION ALL of two arms that are sorted by keys on the first columns returns
all the rows, sorted by these keys, but for OFFSET and LIMIT.
-/
theorem returns_unionAll (hop : m.op = .unionAll) (hkeys : m.nkey ≤ m.ncol)
    (horder : ∀ key ∈ m.keyInfo, PreorderOn (memCompare · · key.collation) V)
    (hvalues : ∀ row ∈ as ++ bs, ∀ v ∈ row, v ∈ V) (hascA : Ascending m.keyOrder as)
    (hascB : Ascending m.keyOrder bs) :
    ∃ rows, s.Returns n fx prog (slice skip left rows) ∧ rows.Perm (as ++ bs) ∧
      Ascending m.keyOrder rows := by
  have hrows : PreorderOn m.keyOrder (rowsOf m.ncol V) := preorderOn_compareKeys hkeys horder
  have hplain : ¬m.needsDedup := by
    rw [needsDedup, hop]
    decide
  have hrule : m.rule = ⟨true, true, true⟩ := by
    rw [rule, hop]
    rfl
  have hreturns := h.returns hkeys
  rw [fresh, if_neg hplain] at hreturns
  refine ⟨_, hreturns, hrule ▸ mergeBy_perm as bs, ?_⟩
  exact ascending_merge_on m.rule hrows.transCmp
    (fun row hrow => ⟨h.length_a row hrow, hvalues row (List.mem_append_left _ hrow)⟩)
    (fun row hrow => ⟨h.length_b row hrow, hvalues row (List.mem_append_right _ hrow)⟩) hascA hascB

end

end Merge

end Rustqlite.Codegen
