import Rustqlite.Codegen.CompoundMerge
import Rustqlite.Vdbe.Relocation

/-!
# Inlining the arms of a compound SELECT

The scan code of a compiled arm is copied into the program of the compound.  Its
registers and cursors are moved, its rows are handed over by `Yield`, and its
jumps are patched by a map of the addresses.
-/

namespace Rustqlite.Codegen

open Foundation Vdbe

namespace Inlining

def rebaseOperands (i : Instruction) (regOffset cursorOffset : Int) : Instruction :=
  let r (x : Int) : Int := x + regOffset
  let c (x : Int) : Int := x + cursorOffset
  match i.opcode with
  | .goto | .init | .once => i
  | .gosub | .return_ | .if_ | .ifNot | .isNull | .notNull | .ifPos | .decrJumpZero =>
      { i with p1 := r i.p1 }
  | .eq | .ne | .lt | .le | .gt | .ge => { i with p1 := r i.p1, p3 := r i.p3 }
  | .rewind | .next => { i with p1 := c i.p1 }
  | .notExists | .seekGE | .seekGT | .seekLE | .seekLT | .idxGE | .idxGT | .idxLE | .idxLT
  | .found | .notFound | .noConflict => { i with p1 := c i.p1, p3 := r i.p3 }
  | .sorterSort | .sorterNext => { i with p1 := c i.p1 }
  | .openRead | .openWrite | .openWriteReg | .openEphemeral | .close => { i with p1 := c i.p1 }
  | .openPseudo => { i with p1 := c i.p1, p2 := r i.p2 }
  | .rowData => { i with p1 := c i.p1, p2 := r i.p2 }
  | .column => { i with p1 := c i.p1, p3 := r i.p3 }
  | .rowid => { i with p1 := c i.p1, p2 := r i.p2 }
  | .nullRow | .clear | .destroy => { i with p1 := c i.p1 }
  | .idxInsert | .idxDelete | .idxRowid => { i with p1 := c i.p1, p2 := r i.p2 }
  | .sorterOpen => { i with p1 := c i.p1 }
  | .sorterInsert | .sorterData => { i with p1 := c i.p1, p2 := r i.p2 }
  | .openDup => { i with p1 := c i.p1, p2 := c i.p2 }
  | .resetSorter | .last | .prev => { i with p1 := c i.p1 }
  | .makeRecord => { i with p1 := r i.p1, p3 := r i.p3 }
  | .newRowid => { i with p1 := c i.p1, p2 := r i.p2 }
  | .insert => { i with p1 := c i.p1, p2 := r i.p2, p3 := r i.p3 }
  | .delete => { i with p1 := c i.p1, p2 := r i.p2 }
  | .integer | .int64 | .real | .string8 | .blob => { i with p2 := r i.p2 }
  | .null => { i with p2 := r i.p2, p3 := if 0 < i.p3 then r i.p3 else i.p3 }
  | .add | .subtract | .multiply | .divide | .remainder | .concat | .bitAnd | .bitOr | .shiftLeft
  | .shiftRight => { i with p1 := r i.p1, p2 := r i.p2, p3 := r i.p3 }
  | .bitNot | .not | .and | .or | .sCopy | .move | .copy => { i with p1 := r i.p1, p2 := r i.p2 }
  | .affinity | .realAffinity | .mustBeInt => { i with p1 := r i.p1 }
  | .function | .aggStep | .aggInverse => { i with p2 := r i.p2, p3 := r i.p3 }
  | .aggFinal => { i with p1 := r i.p1 }
  | .aggValue => { i with p3 := r i.p3 }
  | .haltIfNull => { i with p3 := r i.p3 }
  | .addImm => { i with p1 := r i.p1 }
  | .memMax => { i with p1 := r i.p1, p2 := r i.p2 }
  | .seekRowid => { i with p1 := c i.p1, p3 := r i.p3 }
  | .compare | .jump | .transaction | .autoCommit | .savepoint | .setCookie | .parseSchema
  | .createBtree | .halt | .checkpoint => i
  | .resultRow | .initCoroutine | .endCoroutine | .yield => { i with p1 := r i.p1 }
  | .program => i
  | .param => { i with p2 := r i.p2 }
  | .fkCheck => { i with p1 := r i.p1 }

def isAbsoluteJump (i : Instruction) : Bool :=
  match i.opcode with
  | .goto | .init | .gosub | .if_ | .ifNot | .isNull | .notNull | .ifPos | .decrJumpZero
  | .eq | .ne | .lt | .le | .gt | .ge | .rewind | .next | .notExists | .seekGE | .seekGT | .seekLE
  | .seekLT | .idxGE | .idxGT | .idxLE | .idxLT | .found | .notFound | .noConflict | .sorterSort
  | .sorterNext | .yield | .jump | .initCoroutine | .seekRowid | .last | .prev | .fkCheck => true
  | _ => false

def patchJump (mapTarget : Int → Int) (i : Instruction) : Instruction :=
  if i.opcode = .jump then
    { i with p1 := mapTarget i.p1, p2 := mapTarget i.p2, p3 := mapTarget i.p3 }
  else if i.opcode = .initCoroutine then { i with p2 := mapTarget i.p2, p3 := mapTarget i.p3 }
  else if isAbsoluteJump i then { i with p2 := mapTarget i.p2 }
  else i

def movesAll (i : Instruction) : Bool :=
  match i.opcode with
  | .eq | .ne | .lt | .le | .gt | .ge => i.p5 &&& p5StoreP2 = 0
  | .null => 0 < i.p3 || i.p3 ≤ i.p2
  | .compare => i.p3 ≤ 0
  | .once | .mustBeInt | .program | .openWriteReg | .destroy | .createBtree | .and | .or | .aggValue
  | .checkpoint => false
  | _ => true

theorem block_zero (first : Int) : block first 0 = [] := rfl

theorem block_add (first k : Int) (m : Nat) :
    block (first + k) m = (block first m).map (· + k) := by
  simp only [block, List.map_map]
  refine List.map_congr_left fun j _ => ?_
  simp only [Function.comp_apply]
  omega

variable {ro : Int} {i : Instruction} {idx : Nat} {prog : List Instruction}

/-- The last register of a range of NULLs is moved with the first, unless it is not there. -/
theorem null_length {p2 p3 : Int} (hro : 0 ≤ ro) (h : 0 < p3 ∨ p3 ≤ p2) :
    ((if 0 < p3 then p3 + ro else p3) - (p2 + ro)).toNat = (p3 - p2).toNat := by
  split <;> omega

theorem uses_inlined (h : movesAll i) (hro : 0 ≤ ro) (co : Int) (mapTarget : Int → Int) :
    (patchJump mapTarget (rebaseOperands i ro co)).uses =
      i.uses.relocate (· + ro) (· + co) mapTarget := by
  obtain ⟨op, p1, p2, p3, p4, p5⟩ := i
  cases op with
  | compare =>
      have hp3 : p3.toNat = 0 := Int.toNat_of_nonpos (of_decide_eq_true h)
      simp [patchJump, rebaseOperands, isAbsoluteJump, Instruction.uses, Uses.relocate, hp3,
        block_zero]
  | null =>
      have hp3 : 0 < p3 ∨ p3 ≤ p2 := by simpa [movesAll] using h
      simp [patchJump, rebaseOperands, isAbsoluteJump, Instruction.uses, Uses.relocate, block_add,
        null_length hro hp3]
  | eq | ne | lt | le | gt | ge =>
      have hstore : p5 &&& p5StoreP2 = 0 := of_decide_eq_true h
      simp [patchJump, rebaseOperands, isAbsoluteJump, Instruction.uses, Instruction.comparisonUses,
        Uses.relocate, hstore]
  | _ =>
      first
        | exact absurd h Bool.false_ne_true
        | rfl
        | simp [patchJump, rebaseOperands, isAbsoluteJump, Instruction.uses, Uses.relocate,
            block_add]

theorem block_ne {first k : Int} (hk : 0 < k) {m : Nat} (hm : 0 < m) (rest rest' : List Int) :
    block first m ++ rest ≠ (block first m).map (· + k) ++ rest' := by
  obtain ⟨j, rfl⟩ : ∃ j, m = j + 1 := ⟨m - 1, by omega⟩
  intro h
  have hhead := congrArg List.head? h
  simp [block, List.range_succ_eq_map] at hhead
  omega

theorem movesAll_of_uses {co : Int} (hro : 0 < ro) (hco : 0 < co)
    (h : ∀ mapTarget, (patchJump mapTarget (rebaseOperands i ro co)).uses =
      i.uses.relocate (· + ro) (· + co) mapTarget) : movesAll i := by
  obtain ⟨op, p1, p2, p3, p4, p5⟩ := i
  have hmap := h fun x => x + (ro + 1)
  cases op with
  | compare =>
      by_contra hpos
      have hp3 : 0 < p3.toNat := by
        simp [movesAll] at hpos
        omega
      have hreads := congrArg Uses.reads hmap
      simp only [Uses.relocate, Instruction.uses, List.map_append] at hreads
      exact block_ne hro hp3 _ _ hreads
  | null =>
      by_contra hpos
      have hlen := congrArg List.length (congrArg Uses.writes hmap)
      simp [movesAll] at hpos
      simp [patchJump, rebaseOperands, isAbsoluteJump, Instruction.uses, Uses.relocate,
        block] at hlen
      omega
  | checkpoint =>
      have hwrites := congrArg (fun u : Uses => u.writes ++ []) hmap
      exact absurd hwrites (block_ne hro (Nat.succ_pos 2) [] [])
  | eq | ne | lt | le | gt | ge =>
      by_contra hstore
      have hstore' : p5 &&& p5StoreP2 ≠ 0 := fun hzero => hstore (decide_eq_true hzero)
      simp [patchJump, rebaseOperands, isAbsoluteJump, Instruction.uses, Instruction.comparisonUses,
        Uses.relocate, hstore'] at hmap
  | _ =>
      first
        | rfl
        | (simp [patchJump, rebaseOperands, isAbsoluteJump, Instruction.uses, Uses.relocate] at hmap
           try omega)

theorem opcode_inlined (mapTarget : Int → Int) (i : Instruction) (ro co : Int) :
    (patchJump mapTarget (rebaseOperands i ro co)).opcode = i.opcode ∧
      (patchJump mapTarget (rebaseOperands i ro co)).p4 = i.p4 ∧
      (patchJump mapTarget (rebaseOperands i ro co)).p5 = i.p5 := by
  obtain ⟨op, p1, p2, p3, p4, p5⟩ := i
  cases op <;> exact ⟨rfl, rfl, rfl⟩

theorem targets_inlined (h : movesAll i) (hro : 0 ≤ ro) (co : Int) (mapTarget : Int → Int) :
    (patchJump mapTarget (rebaseOperands i ro co)).targets =
      i.targets.map mapTarget := by
  have htarget := congrArg Uses.target (uses_inlined h hro co mapTarget)
  have hlist : ((patchJump mapTarget (rebaseOperands i ro co)).uses.target).toList =
      i.uses.target.toList.map mapTarget := by
    rw [htarget]
    cases hopt : i.uses.target <;> simp [Uses.relocate, hopt]
  unfold Instruction.targets
  rw [(opcode_inlined mapTarget i ro co).1]
  obtain ⟨op, p1, p2, p3, p4, p5⟩ := i
  cases op with
  | jump | initCoroutine => rfl
  | _ => exact hlist

/--
Which instructions the inliner moves with all their registers, cursors and
addresses, and nothing else.
-/
theorem movesAll_iff {ro co : Int} (hro : 0 < ro) (hco : 0 < co) (i : Instruction)
    (ephemeral : Bool) :
    movesAll i ∧ (i.opcode = .clear → ephemeral) ↔ ∀ mapTarget,
      (patchJump mapTarget (rebaseOperands i ro co)).operands ephemeral =
          (i.operands ephemeral).relocate (· + ro) (· + co) mapTarget ∧
        (patchJump mapTarget (rebaseOperands i ro co)).targets = i.targets.map mapTarget := by
  have hop (mapTarget : Int → Int) := (opcode_inlined mapTarget i ro co).1
  by_cases hroot : i.opcode = .clear ∧ ephemeral = false
  · obtain ⟨op, p1, p2, p3, p4, p5⟩ := i
    obtain ⟨rfl, rfl⟩ := hroot
    constructor
    · rintro ⟨-, hclear⟩
      exact absurd (hclear rfl) Bool.false_ne_true
    · intro h
      have hplain := congrArg Uses.plain (h id).1
      simp [Instruction.operands, patchJump, rebaseOperands, isAbsoluteJump,
        Uses.relocate] at hplain
      omega
  · have hoperands (mapTarget : Int → Int) :
        (patchJump mapTarget (rebaseOperands i ro co)).operands ephemeral =
          (patchJump mapTarget (rebaseOperands i ro co)).uses := by
      rw [Instruction.operands, hop, if_neg hroot]
    have hown : i.operands ephemeral = i.uses := if_neg hroot
    simp only [hoperands, hown]
    constructor
    · rintro ⟨h, -⟩ mapTarget
      exact ⟨uses_inlined h hro.le co mapTarget, targets_inlined h hro.le co mapTarget⟩
    · intro h
      refine ⟨movesAll_of_uses hro hco fun mapTarget => (h mapTarget).1, fun hclear => ?_⟩
      by_contra hfalse
      exact hroot ⟨hclear, Bool.not_eq_true _ ▸ hfalse⟩

theorem movesAll_iff_coroutine :
    (patchJump (· + 20) (rebaseOperands (.new .initCoroutine 1 2 9) 7 3)).operands false =
        ((Instruction.new .initCoroutine 1 2 9).operands false).relocate (· + 7) (· + 3) (· + 20) ∧
      (patchJump (· + 20) (rebaseOperands (.new .initCoroutine 1 2 9) 7 3)).targets =
        (Instruction.new .initCoroutine 1 2 9).targets.map (· + 20) :=
  (movesAll_iff (by decide) (by decide) _ false).mp ⟨rfl, fun h => Opcode.noConfusion h⟩ (· + 20)

theorem relocates_inlined (h : movesAll i) (hro : 0 ≤ ro) (co : Int) (mapTarget : Int → Int) :
    Instruction.Relocates (· + ro) (· + co) mapTarget i
      (patchJump mapTarget (rebaseOperands i ro co)) := by
  obtain ⟨hop, hp4, hp5⟩ := opcode_inlined mapTarget i ro co
  exact ⟨hop, hp4, hp5, uses_inlined h hro co mapTarget⟩

/-! ## The code of an arm -/

structure Arm where
  prog : List Instruction
  numRegisters : Nat
  numCursors : Nat

structure Place where
  regOffset : Int
  cursorOffset : Int
  outBlock : Int
  ncol : Nat
  yieldReg : Int
  start : Nat

/-- The code for an instruction, before the jumps are patched. -/
def inlineInst (p : Place) (i : Instruction) : List Instruction :=
  match i.opcode with
  | .resultRow =>
      Merge.copies (p.regOffset + i.p1) p.outBlock p.ncol ++ [.new .yield p.yieldReg 0 0]
  | .halt => [.new .endCoroutine p.yieldReg 0 0]
  | _ => [rebaseOperands i p.regOffset p.cursorOffset]

def inlineFrom (f : Instruction → List Instruction) : Nat → Nat → List Instruction →
    List Instruction × List (Int × Int)
  | _, _, [] => ([], [])
  | idx, addr, i :: rest =>
      let (code, addrMap) := inlineFrom f (idx + 1) (addr + (f i).length) rest
      (f i ++ code, ((idx : Int), (addr : Int)) :: addrMap)

def mapTarget (haltIdx : Nat) (endAddr : Int) (addrMap : List (Int × Int)) (target : Int) : Int :=
  if target = haltIdx then endAddr - 1
  else
    match addrMap.lookup target with
    | some inlined => inlined
    | none => if target = 0 then 0 else target

namespace Arm

variable (arm : Arm)

def haltIdx : Nat := arm.prog.findIdx fun i => i.opcode = .halt

def scan : List Instruction := (arm.prog.take (arm.haltIdx + 1)).drop 1

def unpatched (p : Place) : List Instruction × List (Int × Int) :=
  inlineFrom (inlineInst p) 1 p.start arm.scan

def target (p : Place) : Int → Int :=
  mapTarget arm.haltIdx (p.start + (arm.unpatched p).1.length) (arm.unpatched p).2

def inline (p : Place) : List Instruction := (arm.unpatched p).1.map (patchJump (arm.target p))

def addrIn (f : Instruction → List Instruction) (start idx : Nat) : Nat :=
  start + ((arm.scan.take (idx - 1)).flatMap f).length

def addrOf (p : Place) : Nat → Nat := arm.addrIn (inlineInst p) p.start

def region : Region :=
  ⟨{r | 0 < r ∧ r ≤ arm.numRegisters}, {c | 0 ≤ c ∧ c < arm.numCursors}, ∅⟩

structure Inlines (ncol : Nat) (i : Instruction) : Prop where
  kind : (∃ p1, i = .new .resultRow p1 ncol 0) ∨ i.opcode = .goto ∨
    (i.opcode.isPlain ∧ movesAll i)
  within : Machine.Within arm.region i.uses
  target : ∀ t, i.uses.target = some t → 0 < t ∧ t ≤ arm.haltIdx

structure Scans (ncol : Nat) : Prop where
  pos : 0 < arm.haltIdx
  halt : ∃ i, arm.prog[arm.haltIdx]? = some i ∧ i.opcode = .halt ∧ i.p1 = 0
  body : ∀ idx i, 0 < idx → idx < arm.haltIdx → arm.prog[idx]? = some i → arm.Inlines ncol i

end Arm

/-! ## Where the code stands -/

section Code

variable {f : Instruction → List Instruction}

theorem inlineFrom_code (idx addr : Nat) (l : List Instruction) :
    (inlineFrom f idx addr l).1 = l.flatMap f := by
  induction l generalizing idx addr with
  | nil => rfl
  | cons i l ih => rw [inlineFrom, List.flatMap_cons, ← ih]

theorem lookup_inlineFrom (idx addr : Nat) {l : List Instruction} {j : Nat} (hj : j < l.length) :
    (inlineFrom f idx addr l).2.lookup ((idx + j : Nat) : Int) =
      some (((addr + ((l.take j).flatMap f).length : Nat)) : Int) := by
  induction l generalizing idx addr j with
  | nil => cases hj
  | cons i l ih =>
      cases j with
      | zero => simp [inlineFrom]
      | succ j =>
          have hne : (((idx + (j + 1) : Nat) : Int) == (idx : Int)) = false := by
            rw [beq_eq_false_iff_ne]
            push_cast
            omega
          have hrest := ih (idx + 1) (addr + (f i).length) (Nat.lt_of_succ_lt_succ hj)
          rw [show idx + 1 + j = idx + (j + 1) by omega, Nat.add_assoc] at hrest
          rw [inlineFrom, List.lookup_cons, hne, List.take_succ_cons, List.flatMap_cons,
            List.length_append]
          exact hrest

theorem lookup_inlineFrom_zero (hidx : 0 < idx) (addr : Nat) (l : List Instruction) :
    (inlineFrom f idx addr l).2.lookup 0 = none := by
  induction l generalizing idx addr with
  | nil => rfl
  | cons i l ih =>
      have hne : ((0 : Int) == (idx : Int)) = false := by
        rw [beq_eq_false_iff_ne]
        omega
      rw [inlineFrom, List.lookup_cons, hne]
      exact ih (Nat.succ_pos idx) _

theorem seg_flatMap {g : Instruction → Instruction} {pos : Nat} {l : List Instruction}
    (h : Seg prog pos ((l.flatMap f).map g)) {j : Nat} (hi : l[j]? = some i) :
    Seg prog (pos + ((l.take j).flatMap f).length) ((f i).map g) := by
  induction l generalizing pos j with
  | nil => cases hi
  | cons i' l ih =>
      rw [List.flatMap_cons, List.map_append] at h
      obtain ⟨hfirst, hrest⟩ := Seg.append_iff.mp h
      cases j with
      | zero =>
          obtain rfl : i' = i := Option.some.inj hi
          exact hfirst
      | succ j =>
          rw [List.length_map] at hrest
          rw [List.take_succ_cons, List.flatMap_cons, List.length_append, ← Nat.add_assoc]
          exact ih hrest hi

end Code

namespace Arm

variable {arm : Arm} {p : Place} {ncol : Nat}

theorem Scans.haltIdx_lt (h : arm.Scans ncol) : arm.haltIdx < arm.prog.length := by
  obtain ⟨i, hi, -⟩ := h.halt
  exact (List.getElem?_eq_some_iff.mp hi).1

theorem Scans.length_scan (h : arm.Scans ncol) : arm.scan.length = arm.haltIdx := by
  have hlt := h.haltIdx_lt
  rw [scan, List.length_drop, List.length_take]
  omega

theorem getElem?_scan (hpos : 0 < idx) (hle : idx ≤ arm.haltIdx) :
    arm.scan[idx - 1]? = arm.prog[idx]? := by
  rw [scan, List.getElem?_drop, List.getElem?_take_of_lt (by omega)]
  congr 1
  omega

theorem seg_addrOf (hseg : Seg prog p.start (arm.inline p)) (hpos : 0 < idx)
    (hle : idx ≤ arm.haltIdx) (hi : arm.prog[idx]? = some i) :
    Seg prog (arm.addrOf p idx) ((inlineInst p i).map (patchJump (arm.target p))) := by
  rw [inline, unpatched, inlineFrom_code] at hseg
  exact seg_flatMap hseg ((getElem?_scan hpos hle).trans hi)

theorem addrIn_succ (f : Instruction → List Instruction) (start : Nat) (hpos : 0 < idx)
    (hle : idx ≤ arm.haltIdx) (hi : arm.prog[idx]? = some i) :
    arm.addrIn f start (idx + 1) = arm.addrIn f start idx + (f i).length := by
  have hscan : arm.scan[idx - 1]? = some i := (getElem?_scan hpos hle).trans hi
  obtain ⟨k, rfl⟩ : ∃ k, idx = k + 1 := ⟨idx - 1, by omega⟩
  simp only [addrIn, Nat.add_sub_cancel] at hscan ⊢
  rw [List.take_add_one, hscan]
  simp [Nat.add_assoc]

theorem addrIn_end (h : arm.Scans ncol) (f : Instruction → List Instruction) (start : Nat) :
    arm.addrIn f start (arm.haltIdx + 1) = start + (inlineFrom f 1 start arm.scan).1.length := by
  rw [addrIn, inlineFrom_code, Nat.add_sub_cancel, ← h.length_scan, List.take_length]

theorem mapTarget_inside (h : arm.Scans ncol) (f : Instruction → List Instruction) (start : Nat)
    (endAddr : Int) (hpos : 0 < idx) (hlt : idx < arm.haltIdx) :
    mapTarget arm.haltIdx endAddr (inlineFrom f 1 start arm.scan).2 idx =
      arm.addrIn f start idx := by
  have hlook := @lookup_inlineFrom f 1 start arm.scan (idx - 1) (by rw [h.length_scan]; omega)
  rw [show 1 + (idx - 1) = idx by omega] at hlook
  rw [mapTarget, if_neg (by omega), hlook]
  rfl

theorem target_eq (h : arm.Scans ncol) (hpos : 0 < idx) (hle : idx ≤ arm.haltIdx) :
    arm.target p idx = arm.addrOf p idx := by
  rcases Nat.lt_or_ge idx arm.haltIdx with hlt | hge
  · exact mapTarget_inside h (inlineInst p) p.start _ hpos hlt
  · obtain rfl : idx = arm.haltIdx := by omega
    obtain ⟨i, hi, hop, -⟩ := h.halt
    have hone : (inlineInst p i).length = 1 := by
      rw [inlineInst, hop]
      rfl
    have hnext := addrIn_succ (inlineInst p) p.start hpos le_rfl hi
    have hend := addrIn_end h (inlineInst p) p.start
    rw [target, mapTarget, if_pos rfl, unpatched, addrOf]
    omega

theorem target_zero (h : arm.Scans ncol) : arm.target p 0 = 0 := by
  have hpos := h.pos
  rw [target, mapTarget, if_neg (by omega), unpatched, lookup_inlineFrom_zero Nat.one_pos]
  rfl

/-! ## What the code of an arm does -/

section Simulation

variable {A C W : Type} {n : Numerals} {fx : Effects A C W} {prog : List Instruction}
  {u v s : Machine A C W}

/-- Where the instructions have been copied to, and where a jump to the `Halt` goes. -/
structure Copy where
  regOffset : Int
  cursorOffset : Int
  addrOf : Nat → Nat
  stop : Nat
  target : Int → Int

structure Copy.Stands (k : Copy) (arm : Arm) (prog : List Instruction) : Prop where
  offset : 0 ≤ k.regOffset
  inst : ∀ idx i, 0 < idx → idx < arm.haltIdx → arm.prog[idx]? = some i →
    (i.opcode = .goto ∨ i.opcode.isPlain) →
    prog[k.addrOf idx]? = some (patchJump k.target (rebaseOperands i k.regOffset k.cursorOffset)) ∧
      k.addrOf (idx + 1) = k.addrOf idx + 1
  inside : ∀ idx, 0 < idx → idx < arm.haltIdx → (k.target (idx : Nat)).toNat = k.addrOf idx
  stop : (k.target (arm.haltIdx : Nat)).toNat = k.stop

structure Follows (arm : Arm) (k : Copy) (u s : Machine A C W) : Prop where
  pos : 0 < u.pc
  le : u.pc ≤ arm.haltIdx
  pc : s.pc = k.addrOf u.pc ∨ (u.pc = arm.haltIdx ∧ s.pc = k.stop)
  moved : Machine.Moved (· + k.regOffset) (· + k.cursorOffset) arm.region u s

def Copy.own (k : Copy) (arm : Arm) : Region :=
  Machine.movedTo (· + k.regOffset) (· + k.cursorOffset) arm.region

variable {k : Copy}

theorem Follows.pc_of_lt (h : arm.Follows k u s) (hlt : u.pc < arm.haltIdx) :
    s.pc = k.addrOf u.pc :=
  h.pc.resolve_right fun hend => absurd hend.1 hlt.ne

theorem Copy.Stands.goes (h : k.Stands arm prog) {t : Int} (hpos : 0 < t) (hle : t ≤ arm.haltIdx) :
    (k.target t).toNat = k.addrOf t.toNat ∨
      (t.toNat = arm.haltIdx ∧ (k.target t).toNat = k.stop) := by
  obtain ⟨idx, rfl⟩ : ∃ idx : Nat, t = idx := ⟨t.toNat, by omega⟩
  rw [Int.toNat_natCast]
  rcases Nat.lt_or_ge idx arm.haltIdx with hlt | hge
  · exact .inl (h.inside idx (by omega) hlt)
  · obtain rfl : idx = arm.haltIdx := by omega
    exact .inr ⟨rfl, h.stop⟩

theorem inlineInst_of_ne (hrow : i.opcode ≠ .resultRow) (hhalt : i.opcode ≠ .halt) (p : Place) :
    inlineInst p i = [rebaseOperands i p.regOffset p.cursorOffset] := by
  rw [inlineInst]
  split
  · exact absurd ‹_› hrow
  · exact absurd ‹_› hhalt
  · rfl

theorem opcode_ne {op : Opcode} (h : op = .goto ∨ op.isPlain) :
    op ≠ .resultRow ∧ op ≠ .halt ∧ op ≠ .endCoroutine ∧ op ≠ .jump ∧ op ≠ .initCoroutine := by
  rcases h with rfl | hplain
  · decide
  · refine ⟨?_, ?_, ?_, ?_, ?_⟩ <;>
      · rintro rfl
        cases hplain

theorem map_row (hscans : arm.Scans ncol) (p1 : Int) :
    (inlineInst p (.new .resultRow p1 ncol 0)).map (patchJump (arm.target p)) =
      Merge.copies (p.regOffset + p1) p.outBlock p.ncol ++ [.new .yield p.yieldReg 0 0] := by
  have hcopies : (Merge.copies (p.regOffset + p1) p.outBlock p.ncol).map
      (patchJump (arm.target p)) = Merge.copies (p.regOffset + p1) p.outBlock p.ncol := by
    rw [Merge.copies, List.map_map]
    rfl
  have hyield : patchJump (arm.target p) (.new .yield p.yieldReg 0 0) =
      .new .yield p.yieldReg 0 0 := by
    simp [patchJump, Instruction.new, isAbsoluteJump, target_zero hscans]
  have hinline : inlineInst p (.new .resultRow p1 ncol 0) =
      Merge.copies (p.regOffset + p1) p.outBlock p.ncol ++ [.new .yield p.yieldReg 0 0] := rfl
  rw [hinline, List.map_append, hcopies, List.map_singleton, hyield]

theorem length_row (p : Place) (p1 : Int) (ncol : Nat) :
    (inlineInst p (.new .resultRow p1 ncol 0)).length = p.ncol + 1 := by
  simp [inlineInst, Instruction.new, Merge.length_copies]

theorem step_halt (hscans : arm.Scans ncol) (hpc : u.pc = arm.haltIdx) :
    u.step n fx arm.prog = .done := by
  obtain ⟨i, hi, hop, hp1⟩ := hscans.halt
  rw [Machine.step_eq (hpc ▸ hi), Machine.exec, hop]
  exact if_pos hp1

theorem exists_inst (hscans : arm.Scans ncol) (hpos : 0 < u.pc) (hle : u.pc ≤ arm.haltIdx)
    (hgoes : u.step n fx arm.prog ≠ .done) :
    u.pc < arm.haltIdx ∧ ∃ i, arm.prog[u.pc]? = some i ∧ arm.Inlines ncol i := by
  have hlt : u.pc < arm.haltIdx := lt_of_le_of_ne hle fun heq => hgoes (step_halt hscans heq)
  have hi := List.getElem?_eq_getElem (hlt.trans hscans.haltIdx_lt)
  exact ⟨hlt, _, hi, hscans.body u.pc _ hpos hlt hi⟩

theorem follows_next (hscans : arm.Scans ncol) (hstands : k.Stands arm prog)
    (hread : Machine.ReadOnly fx arm.scan) (h : arm.Follows k u s)
    (hstep : u.step n fx arm.prog = .next v) :
    ∃ t, s.Runs n fx prog [] t ∧ s.Keeps (k.own arm) t ∧ arm.Follows k v t := by
  have hgoes : u.step n fx arm.prog ≠ .done := by
    intro hdone
    rw [hstep] at hdone
    cases hdone
  obtain ⟨hlt, i, hi, hin⟩ := exists_inst hscans h.pos h.le hgoes
  have hpc := h.pc_of_lt hlt
  have hmem : i ∈ arm.scan := List.mem_of_getElem? ((getElem?_scan h.pos h.le).trans hi)
  rw [Machine.step_eq hi] at hstep
  rcases hin.kind with ⟨p1, rfl⟩ | hop | ⟨hplain, hmoves⟩
  · cases hstep
  · obtain ⟨hcode, -⟩ := hstands.inst u.pc i h.pos hlt hi (.inl hop)
    obtain ⟨op, p1, p2, p3, p4, p5⟩ := i
    obtain rfl : op = .goto := hop
    obtain ⟨hpos, hle⟩ := hin.target p2 rfl
    obtain rfl : u.goto p2.toNat = v := StepResult.next.inj hstep
    rw [← hpc] at hcode
    refine ⟨s.goto (k.target p2).toNat, .one hcode rfl, (Machine.Keeps.refl _ s).goto _, ?_⟩
    exact ⟨by change 0 < p2.toNat; omega, by change p2.toNat ≤ arm.haltIdx; omega,
      hstands.goes hpos hle, ⟨h.moved.regs, h.moved.accs, h.moved.cursors, h.moved.world⟩⟩
  · obtain ⟨hcode, hsucc⟩ := hstands.inst u.pc i h.pos hlt hi (.inr hplain)
    rw [Machine.exec_plain hplain] at hstep
    obtain ⟨o, ho⟩ : ∃ o, u.outcome n fx i = some o := by
      cases hout : u.outcome n fx i with
      | none =>
          rw [hout] at hstep
          cases hstep
      | some o => exact ⟨o, rfl⟩
    obtain ⟨hworld, hjumps⟩ := hread.outcome hmem ho
    rw [ho] at hstep
    obtain rfl : u.after i o = v := StepResult.next.inj hstep
    obtain ⟨i', hfetch, hrel⟩ : ∃ i', prog[s.pc]? = some i' ∧ Instruction.Relocates
        (· + k.regOffset) (· + k.cursorOffset) k.target i i' := by
      rw [hpc]
      exact ⟨_, hcode, relocates_inlined hmoves hstands.offset _ _⟩
    have hout : s.outcome n fx i' = some o := (h.moved.outcome hrel hin.within).trans ho
    have hplain' : i'.opcode.isPlain := by
      rw [hrel.opcode]
      exact hplain
    have hexec : s.exec n fx prog i' = .next (s.after i' o) := by
      rw [Machine.exec_plain hplain', hout]
      rfl
    refine ⟨_, .one hfetch hexec, Machine.keeps_moved hrel hin.within
      (hworld.trans h.moved.world.symm), ?_⟩
    have hmoved := h.moved.after (add_left_injective _) (add_left_injective _) hrel o
    by_cases hjump : o.jumps
    · obtain ⟨t, ht⟩ := Option.ne_none_iff_exists'.mp (hjumps hjump)
      obtain ⟨hpos, hle⟩ := hin.target t ht
      have hupc : (u.after i o).pc = t.toNat := by
        simp only [Machine.after, hjump, if_true, ht, Option.getD_some]
      have hspc : (s.after i' o).pc = (k.target t).toNat := by
        simp only [Machine.after, hjump, if_true, hrel.uses, Uses.relocate, ht, Option.map_some,
          Option.getD_some]
      exact ⟨by omega, by omega, by rw [hspc, hupc]; exact hstands.goes hpos hle, hmoved⟩
    · have hupc : (u.after i o).pc = u.pc + 1 := if_neg hjump
      have hspc : (s.after i' o).pc = s.pc + 1 := if_neg hjump
      exact ⟨by omega, by omega, .inl (by rw [hspc, hupc, hsucc, hpc]), hmoved⟩

theorem follows_silent (hscans : arm.Scans ncol) (hstands : k.Stands arm prog)
    (hread : Machine.ReadOnly fx arm.scan) (hruns : u.Runs n fx arm.prog [] v)
    (h : arm.Follows k u s) :
    ∃ t, s.Runs n fx prog [] t ∧ s.Keeps (k.own arm) t ∧ arm.Follows k v t := by
  generalize hnone : ([] : List (List Value)) = rows at hruns
  induction hruns generalizing s with
  | refl => exact ⟨s, .refl s, .refl _ s, h⟩
  | next hstep _ ih =>
      obtain ⟨t, hfirst, hkeeps, hfollows⟩ := follows_next hscans hstands hread h hstep
      obtain ⟨w, hrest, hkeeps', hfollows'⟩ := ih hfollows hnone
      exact ⟨w, hfirst.trans hrest, hkeeps.trans hkeeps', hfollows'⟩
  | row => cases hnone

def copy (arm : Arm) (p : Place) : Copy :=
  ⟨p.regOffset, p.cursorOffset, arm.addrOf p, arm.addrOf p arm.haltIdx, arm.target p⟩

def own (arm : Arm) (p : Place) : Region := (arm.copy p).own arm

theorem copy_stands (hscans : arm.Scans ncol) (hseg : Seg prog p.start (arm.inline p))
    (hoffset : 0 ≤ p.regOffset) : (arm.copy p).Stands arm prog where
  offset := hoffset
  inst idx i hpos hlt hi hop := by
    obtain ⟨hrow, hhalt, -⟩ := opcode_ne hop
    have hcode := seg_addrOf hseg hpos hlt.le hi
    have hsucc := addrIn_succ (inlineInst p) p.start hpos hlt.le hi
    rw [inlineInst_of_ne hrow hhalt] at hcode hsucc
    exact ⟨(Seg.cons_iff.mp hcode).1, hsucc⟩
  inside idx hpos hlt := by
    change (arm.target p idx).toNat = _
    rw [target_eq hscans hpos hlt.le]
    rfl
  stop := by
    change (arm.target p arm.haltIdx).toNat = _
    rw [target_eq hscans hscans.pos le_rfl]
    rfl

theorem Follows.pc_copy (h : arm.Follows (arm.copy p) u s) : s.pc = arm.addrOf p u.pc := by
  rcases h.pc with hpc | ⟨hend, hpc⟩
  · exact hpc
  · rw [hpc, hend]
    rfl

theorem exec_ne_row (h : i.opcode = .goto ∨ i.opcode.isPlain) (vs : List Value)
    (v : Machine A C W) :
    u.exec n fx prog i ≠ .row vs v := by
  intro hrow
  rcases h with hop | hplain
  · rw [Machine.exec, hop] at hrow
    cases hrow
  · rw [Machine.exec_plain hplain] at hrow
    cases hout : u.outcome n fx i with
    | none =>
        rw [hout] at hrow
        cases hrow
    | some o =>
        rw [hout] at hrow
        cases hrow

theorem exec_ne_done (h : i.opcode = .goto ∨ i.opcode.isPlain) : u.exec n fx prog i ≠ .done := by
  intro hdone
  rcases h with hop | hplain
  · rw [Machine.exec, hop] at hdone
    cases hdone
  · rw [Machine.exec_plain hplain] at hdone
    cases hout : u.outcome n fx i with
    | none =>
        rw [hout] at hdone
        cases hdone
    | some o =>
        rw [hout] at hdone
        cases hdone

theorem follows_row (hscans : arm.Scans p.ncol) (hseg : Seg prog p.start (arm.inline p))
    (hout : ∀ r ∈ blockSet p.outBlock p.ncol, r ∉ (arm.own p).regs) {vs : List Value}
    (h : arm.Follows (arm.copy p) u s) (hstep : u.step n fx arm.prog = .row vs v) :
    v = u.goto (u.pc + 1) ∧ u.pc < arm.haltIdx ∧
      ∃ t, s.Runs n fx prog [] t ∧ s.Keeps (Region.ofRegs (blockSet p.outBlock p.ncol)) t ∧
        t.pc + 1 = arm.addrOf p (u.pc + 1) ∧
        prog[t.pc]? = some (.new .yield p.yieldReg 0 0) ∧ t.rowAt p.outBlock p.ncol = vs := by
  have hgoes : u.step n fx arm.prog ≠ .done := by
    intro hdone
    rw [hstep] at hdone
    cases hdone
  obtain ⟨hlt, i, hi, hin⟩ := exists_inst hscans h.pos h.le hgoes
  have hpc' := h.pc_copy
  have hcode := seg_addrOf hseg h.pos h.le hi
  have hsucc := addrIn_succ (inlineInst p) p.start h.pos h.le hi
  rw [Machine.step_eq hi] at hstep
  rcases hin.kind with ⟨p1, rfl⟩ | hother
  · obtain ⟨hvs, hv⟩ := StepResult.row.inj hstep
    rw [map_row hscans] at hcode
    obtain ⟨hcopies, hyield⟩ := Seg.append_iff.mp hcode
    rw [← hpc'] at hcopies
    have hreads : ∀ r ∈ block (p1 + p.regOffset) p.ncol, r ∈ (arm.own p).regs := by
      intro r hr
      rw [block_add] at hr
      obtain ⟨q, hq, rfl⟩ := List.mem_map.mp hr
      exact ⟨q, hin.within.reads q hq, rfl⟩
    rw [Int.add_comm p.regOffset p1] at hcopies hyield
    obtain ⟨t, hruns, hkeeps, hpc, hrow⟩ := Merge.runs_copies n fx hcopies
      fun r hr hr' => hout r hr' (hreads r (mem_block.mpr hr))
    rw [Merge.length_copies, ← hpc', ← hpc] at hyield
    refine ⟨hv.symm, hlt, t, hruns, hkeeps, ?_, (Seg.cons_iff.mp hyield).1, ?_⟩
    · rw [addrOf, hsucc, hpc, hpc', length_row]
      rfl
    · rw [hrow, ← hvs, Machine.rowAt, block_add, List.map_map]
      exact List.map_congr_left fun r hr => h.moved.regs r (hin.within.reads r hr)
  · exact absurd hstep (exec_ne_row (hother.imp_right And.left) vs v)

/-! ## The arm as a coroutine -/

def Copy.here (k : Copy) (u : Machine A C W) : Machine A C W :=
  { u with
    regs := fun r => u.regs (r - k.regOffset)
    accs := fun r => u.accs (r - k.regOffset)
    cursors := fun c => u.cursors (c - k.cursorOffset) }

theorem Copy.agrees_here : (k.here u).Agrees (k.own arm) s ↔
    Machine.Moved (· + k.regOffset) (· + k.cursorOffset) arm.region u s := by
  constructor
  · intro h
    exact {
      regs := fun r hr => by
        simpa only [here, Int.add_sub_cancel] using h.regs (r + k.regOffset) ⟨r, hr, rfl⟩
      accs := fun r hr => by
        simpa only [here, Int.add_sub_cancel] using h.accs (r + k.regOffset) ⟨r, hr, rfl⟩
      cursors := fun c hc => by
        simpa only [here, Int.add_sub_cancel] using h.cursors (c + k.cursorOffset) ⟨c, hc, rfl⟩
      world := h.world }
  · intro h
    exact {
      regs := by
        rintro _ ⟨r, hr, rfl⟩
        simpa only [here, Int.add_sub_cancel] using h.regs r hr
      accs := by
        rintro _ ⟨r, hr, rfl⟩
        simpa only [here, Int.add_sub_cancel] using h.accs r hr
      cursors := by
        rintro _ ⟨c, hc, rfl⟩
        simpa only [here, Int.add_sub_cancel] using h.cursors c hc
      onces := fun _ ho => ho.elim
      world := h.world }

def coroutine (arm : Arm) (p : Place) : Coroutine := ⟨p.yieldReg, p.outBlock, p.ncol, arm.own p⟩

theorem eq_haltIdx_of_done (hscans : arm.Scans ncol) (hpos : 0 < u.pc) (hle : u.pc ≤ arm.haltIdx)
    (hdone : u.step n fx arm.prog = .done) : u.pc = arm.haltIdx := by
  by_contra hne
  have hlt : u.pc < arm.haltIdx := by omega
  obtain ⟨i, hi⟩ : ∃ i, arm.prog[u.pc]? = some i :=
    ⟨_, List.getElem?_eq_getElem (hlt.trans hscans.haltIdx_lt)⟩
  rw [Machine.step_eq hi] at hdone
  rcases (hscans.body u.pc i hpos hlt hi).kind with ⟨p1, rfl⟩ | hother
  · cases hdone
  · exact exec_ne_done (hother.imp_right And.left) hdone

/-- Only the code for the `Halt` starts with an `EndCoroutine`. -/
theorem starts_otherwise (hscans : arm.Scans p.ncol) (hi : arm.Inlines p.ncol i) :
    ∃ i' rest, (inlineInst p i).map (patchJump (arm.target p)) = i' :: rest ∧
      i'.opcode ≠ .endCoroutine := by
  rcases hi.kind with ⟨p1, rfl⟩ | hother
  · rw [map_row hscans]
    cases p.ncol with
    | zero => exact ⟨_, [], rfl, Opcode.noConfusion⟩
    | succ k =>
        rw [Merge.copies, List.range_succ_eq_map]
        refine ⟨_, _, rfl, ?_⟩
        exact Opcode.noConfusion
  · obtain ⟨hrow, hhalt, hend, -⟩ := opcode_ne (hother.imp_right And.left)
    refine ⟨_, [], by rw [inlineInst_of_ne hrow hhalt]; rfl, ?_⟩
    rw [(opcode_inlined _ i _ _).1]
    exact hend

theorem not_endsAt (hscans : arm.Scans p.ncol) (hseg : Seg prog p.start (arm.inline p))
    (hpos : 0 < idx) (hlt : idx < arm.haltIdx) : ¬Coroutine.EndsAt prog (arm.addrOf p idx) := by
  obtain ⟨i, hi⟩ : ∃ i, arm.prog[idx]? = some i :=
    ⟨_, List.getElem?_eq_getElem (hlt.trans hscans.haltIdx_lt)⟩
  obtain ⟨i', rest, hcons, hop⟩ := starts_otherwise hscans (hscans.body idx i hpos hlt hi)
  have hcode := seg_addrOf hseg hpos hlt.le hi
  rw [hcons] at hcode
  rw [Coroutine.EndsAt, (Seg.cons_iff.mp hcode).1]
  exact fun hends => hop (Option.some.inj hends)

theorem produces_inlined (hscans : arm.Scans p.ncol) (hseg : Seg prog p.start (arm.inline p))
    (hoffset : 0 ≤ p.regOffset) (hread : Machine.ReadOnly fx arm.scan)
    (hout : ∀ r ∈ blockSet p.outBlock p.ncol, r ∉ (arm.own p).regs) {rows : List (List Value)}
    (hpos : 0 < u.pc) (hle : u.pc ≤ arm.haltIdx) (h : u.Returns n fx arm.prog rows) :
    (arm.coroutine p).Produces n fx prog (arm.addrOf p u.pc) ((arm.copy p).here u) rows := by
  have hstands : (arm.copy p).Stands arm prog := copy_stands hscans hseg hoffset
  induction rows generalizing u with
  | nil =>
      obtain ⟨v, hruns, hdone⟩ := h
      refine .done fun s _ hpc hagrees _ => ?_
      obtain ⟨t, hsilent, hkeeps, hfollows⟩ := follows_silent hscans hstands hread hruns
        ⟨hpos, hle, .inl hpc, Copy.agrees_here.mp hagrees⟩
      have hend := eq_haltIdx_of_done hscans hfollows.pos hfollows.le hdone
      obtain ⟨i, hi, hop, -⟩ := hscans.halt
      have hcode := seg_addrOf hseg hscans.pos le_rfl hi
      rw [← hend, ← hfollows.pc_copy] at hcode
      refine ⟨t, hsilent, hkeeps.withRegs _, ?_⟩
      rw [inlineInst, hop] at hcode
      exact (Seg.cons_iff.mp hcode).1
  | cons row rows ih =>
      obtain ⟨w, hall, hdone⟩ := h
      obtain ⟨v, v', hruns, hrow, hrest⟩ := hall.first
      -- The way of the copy to the row does not depend on where the copy is run.
      have hway : ∀ s : Machine A C W, arm.Follows (arm.copy p) u s → ∃ t, s.Runs n fx prog [] t ∧
          s.Keeps (arm.coroutine p).inside t ∧ t.pc + 1 = arm.addrOf p v'.pc ∧
          prog[t.pc]? = some (.new .yield p.yieldReg 0 0) ∧ t.rowAt p.outBlock p.ncol = row ∧
          ((arm.copy p).here v').Agrees (arm.own p) t ∧ 0 < v'.pc ∧ v'.pc ≤ arm.haltIdx := by
        intro s hs
        obtain ⟨t, hsilent, hkeeps, hfollows⟩ :=
          follows_silent hscans hstands hread hruns hs
        obtain ⟨rfl, hlt, t', hcopies, hkeeps', hpc, hyield, hrowAt⟩ :=
          follows_row hscans hseg hout hfollows hrow
        have hagrees : ((arm.copy p).here v).Agrees (arm.own p) t' :=
          (Copy.agrees_here.mpr hfollows.moved).keeps hkeeps'
            (Region.apart_ofRegs fun r hr hr' => hout r hr' hr)
        refine ⟨t', hsilent.trans hcopies, (hkeeps.withRegs _).trans ?_, hpc, hyield, hrowAt, ?_,
          Nat.succ_pos _, hlt⟩
        · exact hkeeps'.mono Set.subset_union_right (Set.empty_subset _) (Set.empty_subset _)
        · exact ⟨hagrees.regs, hagrees.accs, hagrees.cursors, hagrees.onces, hagrees.world⟩
      obtain ⟨-, -, -, -, -, -, -, hpos', hle'⟩ :=
        hway (((arm.copy p).here u).goto (arm.addrOf p u.pc))
        ⟨hpos, hle, .inl rfl, Copy.agrees_here.mp
          ⟨fun _ _ => rfl, fun _ _ => rfl, fun _ _ => rfl, fun _ _ => rfl, rfl⟩⟩
      have hlt : u.pc < arm.haltIdx := by
        refine lt_of_le_of_ne hle fun heq => ?_
        have hstop : u.step n fx arm.prog = .done := step_halt hscans heq
        generalize hnone : ([] : List (List Value)) = none at hruns
        cases hruns with
        | refl => rw [hstop] at hrow; cases hrow
        | next hstep _ => rw [hstop] at hstep; cases hstep
        | row hstep _ => cases hnone
      refine .row (not_endsAt hscans hseg hpos hlt) (fun s _ hpc hagrees _ => ?_)
        (ih hpos' hle' ⟨w, hrest, hdone⟩)
      obtain ⟨t, hruns', hkeeps, hpc', hyield, hrowAt, hown, -⟩ :=
        hway s ⟨hpos, hle, .inl hpc, Copy.agrees_here.mp hagrees⟩
      exact ⟨t, hruns', hkeeps, hpc', hyield, hrowAt, hown⟩

end Simulation

end Arm

end Inlining

end Rustqlite.Codegen
