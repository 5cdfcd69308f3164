import Rustqlite.Types.Error
import Rustqlite.Vdbe.Opcode

/-!
# The program builder

Instructions are emitted one after another.  A jump ahead goes to a label, and
its operand is filled in when the program is finished.
-/

namespace Rustqlite.Codegen

open Vdbe

structure Label where
  index : ℕ
  deriving DecidableEq

structure ProgramBuilder where
  insts : List Instruction
  nextReg : Int
  labelAddr : List (Option ℕ)
  fixups : List (ℕ × Label)
  reserved : 0 < nextReg
  emitted : ∀ f ∈ fixups, f.1 < insts.length

namespace ProgramBuilder

def new : ProgramBuilder := ⟨[], 1, [], [], Int.one_pos, nofun⟩

def curAddr (b : ProgramBuilder) : ℕ := b.insts.length

def allocReg (b : ProgramBuilder) : Int × ProgramBuilder :=
  (b.nextReg, { b with nextReg := b.nextReg + 1, reserved := Int.lt_add_one_of_le b.reserved.le })

def allocRegs (b : ProgramBuilder) (n : ℕ) : Int × ProgramBuilder :=
  (b.nextReg, { b with nextReg := b.nextReg + n, reserved := by have := b.reserved; omega })

def newLabel (b : ProgramBuilder) : Label × ProgramBuilder :=
  (⟨b.labelAddr.length⟩, { b with labelAddr := b.labelAddr ++ [none] })

def resolve (b : ProgramBuilder) (label : Label) : ProgramBuilder :=
  { b with labelAddr := b.labelAddr.set label.index (some b.curAddr) }

def append (b : ProgramBuilder) (inst : Instruction) : ProgramBuilder where
  insts := b.insts ++ [inst]
  nextReg := b.nextReg
  labelAddr := b.labelAddr
  fixups := b.fixups
  reserved := b.reserved
  emitted f hf := by simpa using Nat.lt_succ_of_lt (b.emitted f hf)

def emit (b : ProgramBuilder) (opcode : Opcode) (p1 p2 p3 : Int) : ℕ × ProgramBuilder :=
  (b.curAddr, b.append (.new opcode p1 p2 p3))

def emitJump (b : ProgramBuilder) (opcode : Opcode) (p1 : Int) (label : Label) (p3 : Int) :
    ℕ × ProgramBuilder :=
  (b.curAddr,
    { insts := b.insts ++ [.new opcode p1 0 p3]
      nextReg := b.nextReg
      labelAddr := b.labelAddr
      fixups := b.fixups ++ [(b.curAddr, label)]
      reserved := b.reserved
      emitted := by
        intro f hf
        rcases List.mem_append.mp hf with hold | hnew
        · simpa using Nat.lt_succ_of_lt (b.emitted f hold)
        · obtain rfl := List.mem_singleton.mp hnew
          simp [curAddr] })

def setP4 (b : ProgramBuilder) (idx : ℕ) (p4 : P4) : ProgramBuilder where
  insts := b.insts.modify idx fun i => { i with p4 := p4 }
  nextReg := b.nextReg
  labelAddr := b.labelAddr
  fixups := b.fixups
  reserved := b.reserved
  emitted f hf := by simpa using b.emitted f hf

def setP5 (b : ProgramBuilder) (idx : ℕ) (p5 : UInt8) : ProgramBuilder where
  insts := b.insts.modify idx fun i => { i with p5 := p5 }
  nextReg := b.nextReg
  labelAddr := b.labelAddr
  fixups := b.fixups
  reserved := b.reserved
  emitted f hf := by simpa using b.emitted f hf

/-- The first fixup of an instruction is for `p2`, the second for `p1` and the third for `p3`. -/
def patch (count : ℕ) (target : ℕ) (i : Instruction) : Option Instruction :=
  match count with
  | 0 => some { i with p2 := target }
  | 1 => some { i with p1 := target }
  | 2 => some { i with p3 := target }
  | _ => none

def addrOf (b : ProgramBuilder) (label : Label) : Option ℕ := b.labelAddr[label.index]?.join

/-- Fill in the fixups in the order in which they were made; `counts` has those already done. -/
def patchAll (addr : Label → Option ℕ) : List (ℕ × Label) → (ℕ → ℕ) → List Instruction →
    Option (List Instruction)
  | [], _, insts => some insts
  | (idx, label) :: fixups, counts, insts => do
      let target ← addr label
      let inst ← insts[idx]?
      let inst ← patch (counts idx) target inst
      patchAll addr fixups (Function.update counts idx (counts idx + 1)) (insts.set idx inst)

/-- A label that is not resolved, or a fourth fixup of one instruction, is a panic. -/
def finish (b : ProgramBuilder) : Option (List Instruction) :=
  patchAll b.addrOf b.fixups (fun _ => 0) b.insts

/-! ## What is settled once it has been emitted -/

def waitsFor (b : ProgramBuilder) (idx : ℕ) : List Label :=
  (b.fixups.filter fun f => f.1 = idx).map Prod.snd

/-- More has been emitted, and the labels that were there have been left alone. -/
structure Grows (b b' : ProgramBuilder) : Prop where
  insts : b.insts <+: b'.insts
  fixups : ∃ rest, b'.fixups = b.fixups ++ rest ∧ ∀ f ∈ rest, b.insts.length ≤ f.1
  labels : b.labelAddr <+: b'.labelAddr
  regs : b.nextReg ≤ b'.nextReg

/-- More has been emitted, and no label that had an address has lost it. -/
structure Extends (b b' : ProgramBuilder) : Prop where
  insts : b.insts <+: b'.insts
  fixups : ∃ rest, b'.fixups = b.fixups ++ rest ∧ ∀ f ∈ rest, b.insts.length ≤ f.1
  labels : ∀ label a, b.addrOf label = some a → b'.addrOf label = some a

structure Placed (b : ProgramBuilder) (prog : List Instruction) (addr : Label → ℕ) : Prop where
  plain : ∀ idx < b.insts.length, b.waitsFor idx = [] → prog[idx]? = b.insts[idx]?
  jump : ∀ idx < b.insts.length, ∀ label, b.waitsFor idx = [label] →
    prog[idx]? = b.insts[idx]?.map fun i => { i with p2 := addr label }
  labels : ∀ label a, b.addrOf label = some a → addr label = a

variable {b b' b'' : ProgramBuilder}

theorem Grows.refl (b : ProgramBuilder) : b.Grows b :=
  ⟨List.prefix_rfl, ⟨[], by simp⟩, List.prefix_rfl, le_rfl⟩

theorem fixups_trans (hlen : b.insts.length ≤ b'.insts.length)
    (h : ∃ rest, b'.fixups = b.fixups ++ rest ∧ ∀ f ∈ rest, b.insts.length ≤ f.1)
    (h' : ∃ rest, b''.fixups = b'.fixups ++ rest ∧ ∀ f ∈ rest, b'.insts.length ≤ f.1) :
    ∃ rest, b''.fixups = b.fixups ++ rest ∧ ∀ f ∈ rest, b.insts.length ≤ f.1 := by
  obtain ⟨rest, hrest, hge⟩ := h
  obtain ⟨rest', hrest', hge'⟩ := h'
  refine ⟨rest ++ rest', by rw [hrest', hrest, List.append_assoc], fun f hf => ?_⟩
  rcases List.mem_append.mp hf with hf | hf
  · exact hge f hf
  · exact hlen.trans (hge' f hf)

theorem Grows.trans (h : b.Grows b') (h' : b'.Grows b'') : b.Grows b'' where
  insts := h.insts.trans h'.insts
  fixups := fixups_trans h.insts.length_le h.fixups h'.fixups
  labels := h.labels.trans h'.labels
  regs := h.regs.trans h'.regs

theorem Extends.trans (h : b.Extends b') (h' : b'.Extends b'') : b.Extends b'' where
  insts := h.insts.trans h'.insts
  fixups := fixups_trans h.insts.length_le h.fixups h'.fixups
  labels label a ha := h'.labels label a (h.labels label a ha)

variable {label : Label} {idx : ℕ} {prog : List Instruction} {addr : Label → ℕ}

theorem addrOf_eq_some {a : ℕ} :
    b.addrOf label = some a ↔ b.labelAddr[label.index]? = some (some a) := by
  unfold addrOf
  cases b.labelAddr[label.index]? with
  | none => simp
  | some o => simp

theorem Grows.addrOf (h : b.Grows b') (hlt : label.index < b.labelAddr.length) :
    b'.addrOf label = b.addrOf label := by
  unfold ProgramBuilder.addrOf
  obtain ⟨rest, hrest⟩ := h.labels
  rw [← hrest, List.getElem?_append_left hlt]

theorem Grows.extends (h : b.Grows b') : b.Extends b' where
  insts := h.insts
  fixups := h.fixups
  labels label a ha := by
    rw [h.addrOf]
    · exact ha
    · exact (List.getElem?_eq_some_iff.mp ((addrOf_eq_some).mp ha)).1

theorem Extends.waitsFor (h : b.Extends b') (hidx : idx < b.insts.length) :
    b'.waitsFor idx = b.waitsFor idx := by
  obtain ⟨rest, hrest, hge⟩ := h.fixups
  have hnone : rest.filter (fun f => f.1 = idx) = [] := by
    rw [List.filter_eq_nil_iff]
    intro f hf
    have hle := hge f hf
    simp
    omega
  unfold ProgramBuilder.waitsFor
  rw [hrest, List.filter_append, hnone, List.append_nil]

theorem Extends.getElem? (h : b.Extends b') (hidx : idx < b.insts.length) :
    b'.insts[idx]? = b.insts[idx]? := by
  obtain ⟨rest, hrest⟩ := h.insts
  rw [← hrest, List.getElem?_append_left hidx]

theorem Placed.of_extends (h : b'.Placed prog addr) (hext : b.Extends b') : b.Placed prog addr where
  plain idx hidx hnone := by
    have hlt := hidx.trans_le hext.insts.length_le
    rw [h.plain idx hlt (by rw [hext.waitsFor hidx, hnone]), hext.getElem? hidx]
  jump idx hidx label hone := by
    have hlt := hidx.trans_le hext.insts.length_le
    rw [h.jump idx hlt label (by rw [hext.waitsFor hidx, hone]), hext.getElem? hidx]
  labels label a ha := h.labels label a (hext.labels label a ha)

/-! ## The finished program -/

section
variable {addr : Label → Option ℕ} {fixups : List (ℕ × Label)} {counts : ℕ → ℕ}
  {insts prog : List Instruction} {idx : ℕ}

theorem patchAll_cons (h : patchAll addr ((idx, label) :: fixups) counts
    insts = some prog) :
    ∃ target inst inst', addr label = some target ∧ insts[idx]? = some inst ∧
      patch (counts idx) target inst = some inst' ∧
      patchAll addr fixups (Function.update counts idx (counts idx + 1)) (insts.set idx inst') =
        some prog := by
  simpa [patchAll, Option.bind_eq_some_iff] using h

theorem patchAll_of_filter_nil (h : patchAll addr fixups counts insts = some prog)
    (hnone : fixups.filter (fun f => f.1 = idx) = []) : prog[idx]? = insts[idx]? := by
  induction fixups generalizing counts insts with
  | nil =>
      cases h
      rfl
  | cons f fixups ih =>
      obtain ⟨target, inst, inst', -, -, -, hrest⟩ := patchAll_cons h
      rw [List.filter_cons] at hnone
      split at hnone
      · cases hnone
      next hne =>
        rw [ih hrest hnone, List.getElem?_set_ne (by simpa using hne)]

theorem patchAll_of_filter_single (h : patchAll addr fixups counts insts = some prog)
    (hcount : counts idx = 0) (hone : (fixups.filter fun f => f.1 = idx).map Prod.snd = [label]) :
    prog[idx]? = insts[idx]?.map fun i => { i with p2 := ((addr label).getD 0 : ℕ) } := by
  induction fixups generalizing counts insts with
  | nil => cases hone
  | cons f fixups ih =>
      obtain ⟨target, inst, inst', haddr, hinst, hpatch, hrest⟩ := patchAll_cons h
      rw [List.filter_cons] at hone
      split at hone
      next heq =>
        obtain rfl : f.1 = idx := by simpa using heq
        rw [List.map_cons, List.cons.injEq, List.map_eq_nil_iff] at hone
        rcases hone with ⟨rfl, hnil⟩
        rw [hcount] at hpatch
        cases hpatch
        have hlt := (List.getElem?_eq_some_iff.mp hinst).1
        rw [patchAll_of_filter_nil hrest hnil, List.getElem?_set_self hlt, hinst, haddr]
        rfl
      next hne =>
        have hidx : f.1 ≠ idx := by simpa using hne
        rw [ih hrest (by rw [Function.update_of_ne hidx.symm, hcount]) hone,
          List.getElem?_set_ne hidx]

end

theorem placed_of_finish (h : b.finish = some prog) :
    b.Placed prog fun label => (b.addrOf label).getD 0 where
  plain _ _ hnone := patchAll_of_filter_nil h (List.map_eq_nil_iff.mp hnone)
  jump _ _ _ hone := patchAll_of_filter_single h rfl hone
  labels _ _ ha := by rw [ha, Option.getD_some]

/-! ## What the builder's calls do -/

theorem grows_allocReg (b : ProgramBuilder) : b.Grows b.allocReg.2 where
  insts := List.prefix_rfl
  fixups := ⟨[], by simp [allocReg]⟩
  labels := List.prefix_rfl
  regs := by simp [allocReg]

theorem grows_allocRegs (b : ProgramBuilder) (n : ℕ) : b.Grows (b.allocRegs n).2 where
  insts := List.prefix_rfl
  fixups := ⟨[], by simp [allocRegs]⟩
  labels := List.prefix_rfl
  regs := by simp [allocRegs]

theorem grows_newLabel (b : ProgramBuilder) : b.Grows b.newLabel.2 where
  insts := List.prefix_rfl
  fixups := ⟨[], by simp [newLabel]⟩
  labels := ⟨[none], rfl⟩
  regs := le_rfl

structure Emits (b b' : ProgramBuilder) (i : Instruction) : Prop where
  insts : b'.insts = b.insts ++ [i]
  fixups : b'.fixups = b.fixups
  labels : b'.labelAddr = b.labelAddr
  regs : b'.nextReg = b.nextReg

structure EmitsJump (b b' : ProgramBuilder) (label : Label) (i : Instruction) : Prop where
  insts : b'.insts = b.insts ++ [i]
  fixups : b'.fixups = b.fixups ++ [(b.curAddr, label)]
  labels : b'.labelAddr = b.labelAddr
  regs : b'.nextReg = b.nextReg

theorem emitsJump (b : ProgramBuilder) (opcode : Opcode) (p1 : Int) (label : Label) (p3 : Int) :
    b.EmitsJump (b.emitJump opcode p1 label p3).2 label (.new opcode p1 0 p3) :=
  ⟨rfl, rfl, rfl, rfl⟩

theorem emits (b : ProgramBuilder) (opcode : Opcode) (p1 p2 p3 : Int) :
    b.Emits (b.emit opcode p1 p2 p3).2 (.new opcode p1 p2 p3) :=
  ⟨rfl, rfl, rfl, rfl⟩

theorem filter_fixups_curAddr (b : ProgramBuilder) :
    b.fixups.filter (fun f => f.1 = b.curAddr) = [] := by
  rw [List.filter_eq_nil_iff]
  intro f hf
  exact fun heq => absurd (of_decide_eq_true heq) (b.emitted f hf).ne

namespace Emits

variable {i : Instruction}

theorem setP4 (h : b.Emits b' i) (p4 : P4) :
    b.Emits (b'.setP4 b.curAddr p4) { i with p4 := p4 } where
  insts := by simp [ProgramBuilder.setP4, h.insts, curAddr, List.modify_eq_take_cons_drop]
  fixups := h.fixups
  labels := h.labels
  regs := h.regs

theorem grows (h : b.Emits b' i) : b.Grows b' where
  insts := by
    rw [h.insts]
    exact List.prefix_append _ _
  fixups := ⟨[], by simp [h.fixups]⟩
  labels := by rw [h.labels]
  regs := h.regs.ge

theorem curAddr (h : b.Emits b' i) : b'.curAddr = b.curAddr + 1 := by
  simp [ProgramBuilder.curAddr, h.insts]

theorem placed (h : b.Emits b' i) (hplaced : b'.Placed prog addr) : prog[b.curAddr]? = some i := by
  have hlt : b.curAddr < b'.insts.length := by
    rw [h.insts]
    simp [ProgramBuilder.curAddr]
  have hwaits : b'.waitsFor b.curAddr = [] := by
    rw [waitsFor, h.fixups, filter_fixups_curAddr, List.map_nil]
  rw [hplaced.plain _ hlt hwaits, h.insts]
  simp [ProgramBuilder.curAddr]

end Emits

namespace EmitsJump

variable {label : Label} {i : Instruction}

section

variable (h : b.EmitsJump b' label i)

include h

theorem setP4 (p4 : P4) :
    b.EmitsJump (b'.setP4 b.curAddr p4) label { i with p4 := p4 } where
  insts := by simp [ProgramBuilder.setP4, h.insts, curAddr, List.modify_eq_take_cons_drop]
  fixups := h.fixups
  labels := h.labels
  regs := h.regs

theorem setP5 (p5 : UInt8) :
    b.EmitsJump (b'.setP5 b.curAddr p5) label { i with p5 := p5 } where
  insts := by simp [ProgramBuilder.setP5, h.insts, curAddr, List.modify_eq_take_cons_drop]
  fixups := h.fixups
  labels := h.labels
  regs := h.regs

theorem grows : b.Grows b' where
  insts := by
    rw [h.insts]
    exact List.prefix_append _ _
  fixups := ⟨[(b.curAddr, label)], h.fixups, by simp [curAddr]⟩
  labels := by rw [h.labels]
  regs := h.regs.ge

theorem curAddr : b'.curAddr = b.curAddr + 1 := by
  simp [ProgramBuilder.curAddr, h.insts]

theorem placed (hplaced : b'.Placed prog addr) :
    prog[b.curAddr]? = some { i with p2 := addr label } := by
  have hwaits : b'.waitsFor b.curAddr = [label] := by
    unfold waitsFor
    rw [h.fixups, List.filter_append, filter_fixups_curAddr]
    simp
  have hlt : b.curAddr < b'.insts.length := by
    rw [h.insts]
    simp [ProgramBuilder.curAddr]
  rw [hplaced.jump _ hlt label hwaits, h.insts]
  simp [ProgramBuilder.curAddr]

end

end EmitsJump

end ProgramBuilder

end Rustqlite.Codegen
