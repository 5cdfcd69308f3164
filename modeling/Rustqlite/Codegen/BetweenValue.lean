import Rustqlite.Codegen.ThreeValued

/-!
# BETWEEN as a value

The value form jumps out of the range where a comparison is true, and past both
comparisons where the left operand is NULL.  Each way ends at the same label.
-/

namespace Rustqlite.Codegen

open Foundation Rustqlite.Parser Vdbe

section
variable {S W : Type} (ctx : Ctx S W) (compileExpr : CompileExpr S W)

end

/-! ## What is stored -/

variable {negated : Bool} {b : ProgramBuilder} {label : Label} {prog : List Instruction}
  {addr : Label → ℕ}

section
variable {A C W : Type} {n : Numerals} {fx : Effects A C W} {b : ProgramBuilder}

open Machine

structure SameStore (s t : Machine A C W) : Prop where
  regs : t.regs = s.regs
  cursors : t.cursors = s.cursors
  world : t.world = s.world

variable {s : Machine A C W} {b₁ b' : ProgramBuilder} {target : Int} {destOut : Label}

theorem SameStore.goto {t : Machine A C W} (h : SameStore s t) (pc : ℕ) : SameStore s (t.goto pc) :=
  ⟨h.regs, h.cursors, h.world⟩

section
variable {S W' : Type} {compileExpr : CompileExpr S W'} {Live : Machine A C W → Prop}

end

end

/-! ## BETWEEN of literals -/

end Rustqlite.Codegen
