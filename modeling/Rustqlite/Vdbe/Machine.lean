import Rustqlite.Vdbe.Comparison
import Rustqlite.Vdbe.Opcode

/-!
# The virtual machine

One step of a program and runs of it.  The opcodes that only move the program
counter, load constants, copy, compare and count are spelled out; what the
others put into registers, accumulators and cursors is a parameter, which sees
the contents that an instruction uses and not where they are.
-/

namespace Rustqlite.Vdbe

open Foundation

variable {A C W : Type}

/-- The registers with the accumulators kept under their numbers, the cursors, and the rest. -/
structure Machine (A C W : Type) where
  pc : Nat
  regs : Int → Value
  accs : Int → Option A
  cursors : Int → Option C
  world : W
  onceDone : Nat → Bool
  lastCompare : Ordering

structure Outcome (A C W : Type) where
  values : List Value
  accs : List (Option A)
  cursors : List (Option C)
  world : W
  jumps : Bool

/-- What the executor reads of an instruction besides the places it works on. -/
structure Inputs (A C W : Type) where
  p4 : P4
  p5 : UInt8
  plain : List Int
  values : List Value
  accs : List (Option A)
  cursors : List (Option C)
  world : W

abbrev Effects (A C W : Type) := Opcode → Inputs A C W → Option (Outcome A C W)

def setAll {β : Type} (f : Int → β) : List (Int × β) → Int → β
  | [] => f
  | (r, v) :: rest => setAll (Function.update f r v) rest

/-! ## Values as integers and addresses -/

def address (n : Nat) : Value := .int (Int64.ofNat n)

def address? : Value → Option Nat
  | .int i => some i.toInt.toNat
  | _ => none

def asI64 (n : Numerals) : Value → Int64
  | .int i => i
  | .real r => Double.toInt64 r
  | .text s => prefixI64 (n.numericPrefix s).1
  | .blob b => prefixI64 (n.numericPrefix (fromUtf8Lossy b)).1
  | .null => 0
where
  prefixI64 : Option Value → Int64
    | some (.int i) => i
    | some (.real r) => Double.toInt64 r
    | _ => 0

/-! ## The opcodes that need only registers -/

def Opcode.cmpOp? : Opcode → Option CmpOp
  | .eq => some .eq
  | .ne => some .ne
  | .lt => some .lt
  | .le => some .le
  | .gt => some .gt
  | .ge => some .ge
  | _ => none

def p5ToAff (p5 : UInt8) : Option Affinity :=
  match (p5 &&& 7).toNat with
  | 1 => some .blob
  | 2 => some .text
  | 3 => some .numeric
  | 4 => some .integer
  | 5 => some .real
  | _ => none

def collationOf : P4 → Collation
  | .symbol name => (Collation.fromName name).getD .binary
  | _ => .binary

def bool3ToValue : Option Bool → Value
  | none => .null
  | some b => .int (if b then 1 else 0)

def and3 : Option Bool → Option Bool → Option Bool
  | some false, _ | _, some false => some false
  | some true, some true => some true
  | _, _ => none

def or3 : Option Bool → Option Bool → Option Bool
  | some true, _ | _, some true => some true
  | some false, some false => some false
  | _, _ => none

def registerEffect (n : Numerals) (op : Opcode) (p4 : P4) (p5 : UInt8) (plain : List Int)
    (values : List Value) : Option (List Value × Bool) :=
  match op, plain, values with
  | .integer, [i], [] => some ([.int (Int64.ofInt i)], false)
  | .int64, [], [] => some ([.int (match p4 with | .int i => i | _ => 0)], false)
  | .real, [], [] => some ([.real (match p4 with | .real r => r | _ => 0)], false)
  | .string8, [], [] => some ([.text (match p4 with | .text s | .symbol s => s | _ => "")], false)
  | .blob, [], [] => some ([.blob (match p4 with | .blob b => b | _ => [])], false)
  | .sCopy, [], [v] => some ([v], false)
  | .and, [], [a, b] => some ([bool3ToValue (and3 (truth n a) (truth n b))], false)
  | .or, [], [a, b] => some ([bool3ToValue (or3 (truth n a) (truth n b))], false)
  | .not, [], [a] => some ([bool3ToValue ((truth n a).map (!·))], false)
  | .isNull, [], [a] => some ([], a = .null)
  | .notNull, [], [a] => some ([], a ≠ .null)
  | .if_, [p3], [a] => some ([], (truth n a).getD (p3 ≠ 0))
  | .ifNot, [p3], [a] => some ([], ((truth n a).map (!·)).getD (p3 ≠ 0))
  | .decrJumpZero, [], [a] =>
      let v := asI64 n a - 1
      some ([.int v], v = 0)
  | .ifPos, [p3], [a] =>
      let v := asI64 n a
      if 0 < v then some ([.int (v - Int64.ofInt p3)], true) else some ([a], false)
  | op, [], [left, right] =>
      op.cmpOp?.map fun cmp =>
        let rules : CompareRules :=
          ⟨p5ToAff p5, collationOf p4, p5 &&& p5NullEq ≠ 0⟩
        let res := compareOperands n rules cmp left right
        if p5 &&& p5StoreP2 ≠ 0 then ([bool3ToValue res], false)
        else ([], res.getD (p5 &&& p5JumpIfNull ≠ 0))
  | _, _, _ => none

/-! ## One step -/

inductive StepResult (A C W : Type) where
  | next (s : Machine A C W)
  | row (values : List Value) (s : Machine A C W)
  | done
  | error

namespace Machine

variable (n : Numerals) (fx : Effects A C W) (prog : List Instruction)

def compareKeys : List KeyField → List Value → List Value → Ordering
  | key :: keys, a :: as, b :: bs =>
      let o := memCompare a b key.collation
      ((if key.desc then o.swap else o).then (compareKeys keys as bs))
  | _, _, _ => .eq

def inputs (s : Machine A C W) (i : Instruction) : Inputs A C W :=
  ⟨i.p4, i.p5, i.uses.plain, i.uses.reads.map s.regs, i.uses.accs.map s.accs,
    i.uses.cursors.map s.cursors, s.world⟩

/-- The opcodes that touch registers only, and otherwise those of the parameter. -/
def outcome (s : Machine A C W) (i : Instruction) : Option (Outcome A C W) :=
  match registerEffect n i.opcode i.p4 i.p5 i.uses.plain (i.uses.reads.map s.regs) with
  | some (values, jumps) => some ⟨values, i.uses.accs.map s.accs, i.uses.cursors.map s.cursors,
      s.world, jumps⟩
  | none => fx i.opcode (s.inputs i)

def after (s : Machine A C W) (i : Instruction) (o : Outcome A C W) : Machine A C W where
  pc := if o.jumps then (i.uses.target.getD 0).toNat else s.pc + 1
  regs := setAll s.regs (i.uses.writes.zip o.values)
  accs := setAll s.accs (i.uses.accs.zip o.accs)
  cursors := setAll s.cursors (i.uses.cursors.zip o.cursors)
  world := o.world
  onceDone := s.onceDone
  lastCompare := s.lastCompare

def goto (s : Machine A C W) (pc : Nat) : Machine A C W := { s with pc := pc }

def set (s : Machine A C W) (r : Int) (v : Value) : Machine A C W :=
  { s with regs := Function.update s.regs r v }

def yieldTarget (i : Instruction) (dest : Nat) : Nat :=
  if (prog[dest]?.map Instruction.opcode) = some .endCoroutine then i.p2.toNat else dest

def exec (s : Machine A C W) (i : Instruction) : StepResult A C W :=
  match i.opcode with
  | .init | .goto => .next (s.goto i.p2.toNat)
  | .once =>
      if s.onceDone s.pc then .next (s.goto i.p2.toNat)
      else .next { s with pc := s.pc + 1, onceDone := Function.update s.onceDone s.pc true }
  | .gosub => .next ((s.set i.p1 (address (s.pc + 1))).goto i.p2.toNat)
  | .return_ =>
      match address? (s.regs i.p1) with
      | some a => .next (s.goto a)
      | none => if i.p3 = 0 then .error else .next (s.goto (s.pc + 1))
  | .initCoroutine =>
      .next ((s.set i.p1 (address i.p3.toNat)).goto
        (if i.p2 = 0 then s.pc + 1 else i.p2.toNat))
  | .endCoroutine =>
      match address? (s.regs i.p1) with
      | none => .error
      | some a =>
          match prog[a - 1]? with
          | some caller =>
              if caller.opcode = .yield then
                .next ((s.set i.p1 (address s.pc)).goto caller.p2.toNat)
              else .error
          | none => .error
  | .yield =>
      match address? (s.regs i.p1) with
      | some dest => .next ((s.set i.p1 (address (s.pc + 1))).goto (yieldTarget prog i dest))
      | none => .error
  | .compare =>
      match i.p4 with
      | .keyInfo keys =>
          .next { s with
            pc := s.pc + 1
            lastCompare := compareKeys keys ((block i.p1 i.p3.toNat).map s.regs)
              ((block i.p2 i.p3.toNat).map s.regs) }
      | _ => .error
  | .jump =>
      .next (s.goto (match s.lastCompare with | .lt => i.p1 | .eq => i.p2 | .gt => i.p3).toNat)
  | .halt => if i.p1 = 0 then .done else .error
  | .resultRow => .row ((block i.p1 i.p2.toNat).map s.regs) (s.goto (s.pc + 1))
  | .program | .param | .openPseudo => .error
  | _ =>
      match s.outcome n fx i with
      | some o => .next (s.after i o)
      | none => .error

def step (s : Machine A C W) : StepResult A C W :=
  match prog[s.pc]? with
  | some i => s.exec n fx prog i
  | none => .error

/-! ## Runs -/

inductive Runs : Machine A C W → List (List Value) → Machine A C W → Prop where
  | refl (s : Machine A C W) : Runs s [] s
  | next {s t u : Machine A C W} {rows : List (List Value)} :
      s.step n fx prog = .next t → Runs t rows u → Runs s rows u
  | row {s t u : Machine A C W} {vs : List Value} {rows : List (List Value)} :
      s.step n fx prog = .row vs t → Runs t rows u → Runs s (vs :: rows) u

def Returns (s : Machine A C W) (rows : List (List Value)) : Prop :=
  ∃ t, Runs n fx prog s rows t ∧ t.step n fx prog = .done

def rowsWithin : Nat → Machine A C W → Option (List (List Value))
  | 0, _ => none
  | fuel + 1, s =>
      match s.step n fx prog with
      | .next t => rowsWithin fuel t
      | .row vs t => (rowsWithin fuel t).map (vs :: ·)
      | .done => some []
      | .error => none

end Machine

end Rustqlite.Vdbe
