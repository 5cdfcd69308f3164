import Rustqlite.Types.Value

/-!
# Instructions

The instructions of the virtual machine, and what each makes of its operands:
the registers it reads and writes, the accumulators and the cursors it works
on, the numbers it takes as they are, and where it may jump.
-/

namespace Rustqlite.Vdbe

open Foundation

inductive Opcode where
  | init | goto | halt | gosub | return_ | initCoroutine | endCoroutine | yield | once
  | program | param | compare | jump
  | transaction | autoCommit | savepoint | setCookie | parseSchema | createBtree | destroy | clear
  | openRead | openWrite | openWriteReg | close
  | rewind | next | notExists | nullRow
  | rowid | column | resultRow
  | makeRecord | newRowid | insert | delete | idxInsert | idxDelete | idxRowid
  | seekGE | seekGT | seekLE | seekLT | idxGE | idxGT | idxLE | idxLT
  | found | notFound | noConflict
  | integer | int64 | real | string8 | null | blob
  | add | subtract | multiply | divide | remainder | concat
  | bitAnd | bitOr | shiftLeft | shiftRight | bitNot
  | eq | ne | lt | le | gt | ge
  | and | or | not | isNull | notNull | if_ | ifNot
  | copy | sCopy | move
  | affinity | mustBeInt | realAffinity | function
  | sorterOpen | sorterInsert | sorterSort | sorterData | sorterNext
  | openEphemeral | openPseudo | openDup | rowData
  | decrJumpZero | ifPos
  | aggStep | aggInverse | aggFinal | aggValue
  | haltIfNull | addImm | memMax | seekRowid | resetSorter | last | prev | checkpoint | fkCheck
  deriving DecidableEq

/-- The typed operand; a check of a foreign key shows only its number of columns. -/
inductive P4 where
  | none
  | int (i : Int64)
  | real (bits : UInt64)
  | text (s : String)
  | blob (b : Bytes)
  | symbol (s : String)
  | keyInfo (fields : List KeyField)
  | funcDef (kind : String)
  | fkCheck (columns : Nat)
  deriving DecidableEq

structure Instruction where
  opcode : Opcode
  p1 : Int
  p2 : Int
  p3 : Int
  p4 : P4
  p5 : UInt8
  deriving DecidableEq

/-- An instruction with neither `p4` nor `p5`. -/
def Instruction.new (opcode : Opcode) (p1 p2 p3 : Int) :
    Instruction := ⟨opcode, p1, p2, p3, .none, 0⟩

def p5JumpIfNull : UInt8 := 0x10

/-- A comparison stores its result in `r[p2]` and does not jump. -/
def p5StoreP2 : UInt8 := 0x20

def p5NullEq : UInt8 := 0x80

def p4Len : P4 → Nat
  | .int n => n.toInt.toNat
  | _ => 0

/-! ## Operands -/

/-- The `n` numbers from `first` on. -/
def block (first : Int) (n : Nat) : List Int := (List.range n).map fun j : Nat => first + (j : Int)

structure Uses where
  reads : List Int := []
  writes : List Int := []
  accs : List Int := []
  cursors : List Int := []
  plain : List Int := []
  target : Option Int := none
  deriving DecidableEq

namespace Instruction

def comparisonUses (i : Instruction) : Uses :=
  if i.p5 &&& p5StoreP2 ≠ 0 then { reads := [i.p3, i.p1], writes := [i.p2] }
  else { reads := [i.p3, i.p1], target := some i.p2 }

/--
What the executor makes of the operands that it does not jump by itself with.
`Clear` is on an ephemeral cursor here, and `Column` on a cursor other than a
pseudo one; see `operands` and `targets` for the rest.
-/
def uses (i : Instruction) : Uses :=
  match i.opcode with
  | .init | .goto | .once => { target := some i.p2 }
  | .halt => { plain := [i.p1, i.p2] }
  | .gosub | .initCoroutine => { writes := [i.p1], target := some i.p2 }
  | .return_ => { reads := [i.p1], plain := [i.p3] }
  | .endCoroutine => { reads := [i.p1], writes := [i.p1] }
  | .yield => { reads := [i.p1], writes := [i.p1], target := some i.p2 }
  | .program => { target := some i.p2 }
  | .param => { writes := [i.p2], plain := [i.p1] }
  | .compare => { reads := block i.p1 i.p3.toNat ++ block i.p2 i.p3.toNat, plain := [i.p3] }
  | .jump => {}
  | .transaction => { plain := [i.p2] }
  | .autoCommit => { plain := [i.p1, i.p2] }
  | .savepoint => { plain := [i.p1] }
  | .setCookie => { plain := [i.p3] }
  | .parseSchema => {}
  | .createBtree => { writes := [i.p2], plain := [i.p3] }
  | .destroy => { plain := [i.p1] }
  | .clear => { cursors := [i.p1] }
  | .openRead | .openWrite => { cursors := [i.p1], plain := [i.p2] }
  | .openWriteReg => { reads := [i.p2], cursors := [i.p1], plain := [i.p3] }
  | .close | .nullRow | .resetSorter => { cursors := [i.p1] }
  | .rewind | .next | .sorterSort | .sorterNext | .last | .prev =>
      { cursors := [i.p1], target := some i.p2 }
  | .notExists | .seekRowid => { reads := [i.p3], cursors := [i.p1], target := some i.p2 }
  | .rowid | .newRowid | .idxRowid | .rowData => { writes := [i.p2], cursors := [i.p1] }
  | .column => { writes := [i.p3], cursors := [i.p1], plain := [i.p2] }
  | .resultRow => { reads := block i.p1 i.p2.toNat, plain := [i.p2] }
  | .makeRecord => { reads := block i.p1 i.p2.toNat, writes := [i.p3], plain := [i.p2] }
  | .insert => { reads := [i.p2, i.p3], cursors := [i.p1] }
  | .delete => { cursors := [i.p1] }
  | .idxInsert | .sorterInsert => { reads := [i.p2], cursors := [i.p1] }
  | .idxDelete => { reads := block i.p2 i.p3.toNat, cursors := [i.p1], plain := [i.p3] }
  | .seekGE | .seekGT | .seekLE | .seekLT | .idxGE | .idxGT | .idxLE | .idxLT
  | .found | .notFound | .noConflict =>
      { reads := block i.p3 (p4Len i.p4), cursors := [i.p1], target := some i.p2 }
  | .integer => { writes := [i.p2], plain := [i.p1] }
  | .int64 | .real | .string8 | .blob => { writes := [i.p2] }
  | .null => { writes := block i.p2 ((i.p3 - i.p2).toNat + 1),
               accs := block i.p2 ((i.p3 - i.p2).toNat + 1) }
  | .add | .subtract | .multiply | .divide | .remainder | .concat
  | .bitAnd | .bitOr | .shiftLeft | .shiftRight => { reads := [i.p2, i.p1], writes := [i.p3] }
  | .bitNot | .not | .sCopy => { reads := [i.p1], writes := [i.p2] }
  | .eq | .ne | .lt | .le | .gt | .ge => i.comparisonUses
  | .and | .or => { reads := [i.p1, i.p2], writes := [i.p3] }
  | .isNull | .notNull => { reads := [i.p1], target := some i.p2 }
  | .if_ | .ifNot => { reads := [i.p1], plain := [i.p3], target := some i.p2 }
  | .copy => { reads := block i.p1 (i.p3 + 1).toNat, writes := block i.p2 (i.p3 + 1).toNat,
               plain := [i.p3] }
  | .move => { reads := block i.p1 i.p3.toNat,
               writes := block i.p1 i.p3.toNat ++ block i.p2 i.p3.toNat, plain := [i.p3] }
  | .affinity => { reads := block i.p1 i.p2.toNat, writes := block i.p1 i.p2.toNat,
                   plain := [i.p2] }
  | .mustBeInt => { reads := [i.p1], writes := [i.p1], target := some i.p2 }
  | .realAffinity => { reads := [i.p1], writes := [i.p1] }
  | .function => { reads := block i.p2 i.p5.toNat, writes := [i.p3] }
  | .sorterOpen => { cursors := [i.p1] }
  | .sorterData => { cursors := [i.p1] }
  | .openEphemeral => { cursors := [i.p1], plain := [i.p2] }
  | .openPseudo => { reads := [i.p2], cursors := [i.p1] }
  | .openDup => { cursors := [i.p1, i.p2] }
  | .decrJumpZero => { reads := [i.p1], writes := [i.p1], target := some i.p2 }
  | .ifPos => { reads := [i.p1], writes := [i.p1], plain := [i.p3], target := some i.p2 }
  | .aggStep | .aggInverse => { reads := block i.p2 i.p5.toNat, accs := [i.p3] }
  | .aggFinal => { writes := [i.p1], accs := [i.p1] }
  | .aggValue => { writes := [i.p3], accs := [i.p1] }
  | .haltIfNull => { reads := [i.p3], plain := [i.p2] }
  | .addImm => { reads := [i.p1], writes := [i.p1], plain := [i.p2] }
  | .memMax => { reads := [i.p1, i.p2], writes := [i.p1] }
  | .checkpoint => { writes := block i.p3 3, plain := [i.p2] }
  | .fkCheck => { reads := block i.p1 (match i.p4 with | .fkCheck n => n | _ => 0),
                  target := some i.p2 }

/-- Where `Clear` finds no ephemeral cursor its operand is a root page. -/
def operands (i : Instruction) (ephemeral : Bool) : Uses :=
  if i.opcode = .clear ∧ ephemeral = false then { plain := [i.p1] } else i.uses

/-- The addresses of the program among the operands. -/
def targets (i : Instruction) : List Int :=
  match i.opcode with
  | .jump => [i.p1, i.p2, i.p3]
  | .initCoroutine => [i.p2, i.p3]
  | _ => i.uses.target.toList

end Instruction

end Rustqlite.Vdbe
