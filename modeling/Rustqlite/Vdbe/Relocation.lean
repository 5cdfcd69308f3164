import Rustqlite.Vdbe.Coroutine

/-!
# Programs at other places

Code that has been moved works on other registers, cursors and addresses than
before.  What an instruction does depends on the contents of its operands only,
so the moved code does the same.
-/

namespace Rustqlite.Vdbe

open Foundation

variable {A C W : Type} {n : Numerals} {fx : Effects A C W} {prog : List Instruction}

def Uses.relocate (f g target : Int → Int) (u : Uses) : Uses where
  reads := u.reads.map f
  writes := u.writes.map f
  accs := u.accs.map f
  cursors := u.cursors.map g
  plain := u.plain
  target := u.target.map target

structure Instruction.Relocates (f g target : Int → Int) (i i' : Instruction) : Prop where
  opcode : i'.opcode = i.opcode
  p4 : i'.p4 = i.p4
  p5 : i'.p5 = i.p5
  uses : i'.uses = i.uses.relocate f g target

def Opcode.isPlain : Opcode → Bool
  | .init | .goto | .once | .gosub | .return_ | .initCoroutine | .endCoroutine | .yield | .compare
  | .jump | .halt | .resultRow | .program | .param | .openPseudo => false
  | _ => true

variable {f : Int → Int} {rs : List Int} {r : Int}

theorem setAll_map {β : Type} (hf : Function.Injective f) {h h' : Int → β} {vs : List β}
    (hsame : h' (f r) = h r) : setAll h' ((rs.map f).zip vs) (f r) = setAll h (rs.zip vs) r := by
  induction rs generalizing h h' vs with
  | nil => exact hsame
  | cons q rs ih =>
      cases vs with
      | nil => exact hsame
      | cons v vs =>
          refine ih ?_
          by_cases hq : r = q
          · subst hq
            rw [Function.update_self, Function.update_self]
          · rw [Function.update_of_ne hq, Function.update_of_ne (mt (fun h => hf h) hq), hsame]

namespace Machine

variable {s t u : Machine A C W}

theorem exec_plain {i : Instruction} (h : i.opcode.isPlain) :
    u.exec n fx prog i = (u.outcome n fx i).elim .error fun o => .next (u.after i o) := by
  cases hout : u.outcome n fx i <;> cases hop : i.opcode <;> first
    | (rw [hop] at h; cases h; done)
    | simp only [exec, hop, hout, Option.elim_none, Option.elim_some]

variable {i : Instruction} {o : Outcome A C W}

theorem target_of_jumps {values : List Value} {jumps : Bool}
    (h : registerEffect n i.opcode i.p4 i.p5 i.uses.plain (i.uses.reads.map u.regs) =
      some (values, jumps)) (hjumps : jumps) : i.uses.target ≠ none := by
  subst hjumps
  obtain ⟨op, p1, p2, p3, p4, p5⟩ := i
  cases op with
  | eq | ne | lt | le | gt | ge =>
      by_cases hstore : p5 &&& p5StoreP2 = 0
      · simp [Instruction.uses, Instruction.comparisonUses, hstore]
      · simp [Instruction.uses, Instruction.comparisonUses, hstore, registerEffect,
          Opcode.cmpOp?] at h
  | function | aggStep | aggInverse =>
      simp only [Instruction.uses] at h
      generalize (block p2 p5.toNat).map u.regs = args at h
      rcases args with _ | ⟨a, _ | ⟨b, _ | _⟩⟩ <;> simp [registerEffect, Opcode.cmpOp?] at h
  | _ =>
      first
        | exact Option.some_ne_none _
        | (simp [Instruction.uses, registerEffect, Opcode.cmpOp?] at h)

def ReadOnly (fx : Effects A C W) (code : List Instruction) : Prop :=
  ∀ i ∈ code, ∀ inp o, fx i.opcode inp = some o →
    o.world = inp.world ∧ (o.jumps → i.uses.target ≠ none)

theorem ReadOnly.outcome {code : List Instruction} (h : ReadOnly fx code) (hi : i ∈ code)
    (ho : u.outcome n fx i = some o) : o.world = u.world ∧ (o.jumps → i.uses.target ≠ none) := by
  rw [Machine.outcome] at ho
  split at ho
  · rename_i values jumps heq
    cases ho
    refine ⟨rfl, fun hjumps => target_of_jumps heq ?_⟩
    exact hjumps
  · exact h i hi _ o ho

structure Within (R : Region) (u : Uses) : Prop where
  reads : ∀ r ∈ u.reads, r ∈ R.regs
  writes : ∀ r ∈ u.writes, r ∈ R.regs
  accs : ∀ r ∈ u.accs, r ∈ R.regs
  cursors : ∀ c ∈ u.cursors, c ∈ R.cursors

structure Moved (f g : Int → Int) (R : Region) (u s : Machine A C W) : Prop where
  regs : ∀ r ∈ R.regs, s.regs (f r) = u.regs r
  accs : ∀ r ∈ R.regs, s.accs (f r) = u.accs r
  cursors : ∀ c ∈ R.cursors, s.cursors (g c) = u.cursors c
  world : s.world = u.world

def movedTo (f g : Int → Int) (R : Region) : Region := ⟨f '' R.regs, g '' R.cursors, ∅⟩

theorem setAll_moved {β : Type} {h : Int → β} {S : Set Int} {vs : List β} (hrs : ∀ r ∈ rs, r ∈ S)
    (hr : r ∉ f '' S) : setAll h ((rs.map f).zip vs) r = h r := by
  refine setAll_of_not_mem fun hin => ?_
  obtain ⟨p, hp, rfl⟩ := List.mem_map.mp hin
  obtain ⟨q, hq, hqp⟩ := List.mem_map.mp (List.of_mem_zip hp).1
  exact hr ⟨q, hrs q hq, hqp⟩

section Step

variable {f g target : Int → Int} {R : Region} {i i' : Instruction}

theorem Moved.outcome (h : Moved f g R u s) (hi : Instruction.Relocates f g target i i')
    (hin : Within R i.uses) : s.outcome n fx i' = u.outcome n fx i := by
  have hreads : (i.uses.reads.map f).map s.regs = i.uses.reads.map u.regs := by
    rw [List.map_map]
    exact List.map_congr_left fun r hr => h.regs r (hin.reads r hr)
  have haccs : (i.uses.accs.map f).map s.accs = i.uses.accs.map u.accs := by
    rw [List.map_map]
    exact List.map_congr_left fun r hr => h.accs r (hin.accs r hr)
  have hcursors : (i.uses.cursors.map g).map s.cursors = i.uses.cursors.map u.cursors := by
    rw [List.map_map]
    exact List.map_congr_left fun c hc => h.cursors c (hin.cursors c hc)
  simp only [Machine.outcome, inputs, hi.opcode, hi.p4, hi.p5, hi.uses, Uses.relocate, hreads,
    haccs, hcursors, h.world]

theorem Moved.after (hf : Function.Injective f) (hg : Function.Injective g) (h : Moved f g R u s)
    (hi : Instruction.Relocates f g target i i') (o : Outcome A C W) :
    Moved f g R (u.after i o) (s.after i' o) where
  regs r hr := by
    simp only [Machine.after, hi.uses, Uses.relocate]
    exact setAll_map hf (h.regs r hr)
  accs r hr := by
    simp only [Machine.after, hi.uses, Uses.relocate]
    exact setAll_map hf (h.accs r hr)
  cursors c hc := by
    simp only [Machine.after, hi.uses, Uses.relocate]
    exact setAll_map hg (h.cursors c hc)
  world := rfl

theorem keeps_moved (hi : Instruction.Relocates f g target i i') (hin : Within R i.uses)
    (hworld : o.world = s.world) :
    s.Keeps (movedTo f g R) (s.after i' o) where
  regs r hr := by
    simp only [Machine.after, hi.uses, Uses.relocate]
    exact setAll_moved hin.writes hr
  accs r hr := by
    simp only [Machine.after, hi.uses, Uses.relocate]
    exact setAll_moved hin.accs hr
  cursors c hc := by
    simp only [Machine.after, hi.uses, Uses.relocate]
    exact setAll_moved hin.cursors hc
  onces _ _ := rfl
  world := hworld

end Step

end Machine

end Rustqlite.Vdbe
