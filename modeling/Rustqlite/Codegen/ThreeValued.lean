import Rustqlite.Codegen.CompileJump

/-!
# The jumps of a condition are its three-valued logic

Every piece of code is followed from the first of its instructions to the label
it jumps to or to the instruction after it.
-/

namespace Rustqlite.Codegen

open Foundation Rustqlite.Parser Schema Vdbe

/-! ## One jump -/

theorem p5ToAff_or (aff : Option Affinity) (nulleq jumpIfNull : Bool) :
    let p5 := if nulleq then affToP5 aff ||| p5NullEq else jumpIfNullP5 aff jumpIfNull
    p5ToAff p5 = aff ∧ p5 &&& p5StoreP2 = 0 ∧ decide (p5 &&& p5NullEq ≠ 0) = nulleq ∧
      decide (p5 &&& p5JumpIfNull ≠ 0) = (!nulleq && jumpIfNull) := by
  cases aff with
  | none => cases nulleq <;> cases jumpIfNull <;> decide
  | some a => cases a <;> cases nulleq <;> cases jumpIfNull <;> decide

theorem collationOf_collationName (coll : Collation) :
    collationOf (.symbol (collationName coll)) = coll := by
  cases coll <;> decide

variable {jumpIfTrue jumpIfNull negated : Bool} {rules : CompareRules} {op : CmpOp} {l r v : Value}
  {a c : Option Bool} {p1 p3 : Int} {p4 : P4} {p5 : UInt8}

theorem getD_compareOperands {n : Numerals} :
    (compareOperands n rules (if jumpIfTrue then op else negateCmp op) l r).getD
        (!rules.nulleq && jumpIfNull) =
      jumpsOn (compareOperands n rules op l r) jumpIfTrue jumpIfNull := by
  cases hnull : rules.nulleq with
  | true =>
      rw [compareOperands_nulleq hnull, compareOperands_nulleq hnull]
      cases jumpIfTrue with
      | true => simp [jumpsOn]
      | false => simp [jumpsOn, CmpOp.holds_negateCmp]
  | false =>
      cases jumpIfTrue with
      | true =>
          rw [if_pos rfl]
          cases compareOperands n rules op l r <;> simp [jumpsOn]
      | false =>
          rw [if_neg (by decide), compareOperands_negateCmp]
          cases compareOperands n rules op l r <;> simp [jumpsOn]

theorem jumpsOn_eq_true_iff {result : Option Bool} :
    jumpsOn result jumpIfTrue jumpIfNull = true ↔
      result = some jumpIfTrue ∨ result = none ∧ jumpIfNull = true := by
  revert result jumpIfTrue jumpIfNull
  decide

theorem jumpsOn_and_true :
    jumpsOn (and3 a c) true jumpIfNull =
      (!jumpsOn a false (!jumpIfNull) && jumpsOn c true jumpIfNull) := by
  revert a c jumpIfNull
  decide

theorem jumpsOn_and_false :
    jumpsOn (and3 a c) false jumpIfNull =
      (jumpsOn a false jumpIfNull || jumpsOn c false jumpIfNull) := by
  revert a c jumpIfNull
  decide

theorem jumpsOn_or_true :
    jumpsOn (or3 a c) true jumpIfNull =
      (jumpsOn a true jumpIfNull || jumpsOn c true jumpIfNull) := by
  revert a c jumpIfNull
  decide

theorem jumpsOn_or_false :
    jumpsOn (or3 a c) false jumpIfNull =
      (!jumpsOn a true (!jumpIfNull) && jumpsOn c false jumpIfNull) := by
  revert a c jumpIfNull
  decide

theorem jumpsOn_not :
    jumpsOn (a.map (!·)) jumpIfTrue jumpIfNull = jumpsOn a (!jumpIfTrue) jumpIfNull := by
  revert a jumpIfTrue jumpIfNull
  decide

theorem jumpsOn_between {ge le : Option Bool} :
    jumpsOn (if negated then (and3 ge le).map (!·) else and3 ge le) jumpIfTrue jumpIfNull =
      if negated = jumpIfTrue then (ge.map (!·)).getD jumpIfNull || (le.map (!·)).getD jumpIfNull
      else !(ge.map (!·)).getD (!jumpIfNull) && le.getD jumpIfNull := by
  revert ge le negated jumpIfTrue jumpIfNull
  decide

section
variable {A C W : Type} {n : Numerals} {fx : Effects A C W} {prog : List Instruction}
  {s : Machine A C W}

open Machine

variable (fx) in
theorem runs_comparison {target : ℕ} (h : prog[s.pc]? = some ⟨opcodeOf op, p1, target, p3, p4, p5⟩)
    (hrules : (⟨p5ToAff p5, collationOf p4, p5 &&& p5NullEq ≠ 0⟩ : CompareRules) = rules)
    (hstore : p5 &&& p5StoreP2 = 0) (hnull : decide (p5 &&& p5JumpIfNull ≠ 0) = jumpIfNull)
    (hl : s.regs p3 = l) (hr : s.regs p1 = r) :
    Runs n fx prog s []
      (s.goto (if (compareOperands n rules op l r).getD jumpIfNull then target else s.pc + 1)) := by
  subst hrules hnull hl hr
  apply Runs.one h
  cases op <;>
    simp [exec, outcome, opcodeOf, Instruction.uses, Instruction.comparisonUses, hstore,
      registerEffect, Opcode.cmpOp?, after, goto, setAll]

variable (fx) in
theorem runs_if {target : ℕ}
    (h : prog[s.pc]? = some ⟨if jumpIfTrue then .if_ else .ifNot, p1, target,
      if jumpIfNull then 1 else 0, .none, 0⟩) (hv : s.regs p1 = v) :
    Runs n fx prog s []
      (s.goto (if jumpsOn (truth n v) jumpIfTrue jumpIfNull then target else s.pc + 1)) := by
  subst hv
  apply Runs.one h
  cases jumpIfTrue <;> cases jumpIfNull <;> cases htruth : truth n (s.regs p1) <;>
    simp [exec, outcome, Instruction.uses, registerEffect, after, goto, setAll, htruth, jumpsOn]

end

/-! ## Pieces of code -/

section
variable {A C W : Type} (n : Numerals) (fx : Effects A C W) (Live : Machine A C W → Prop)

open Machine

structure Reaches (prog : List Instruction) (below : Int) (s t : Machine A C W) : Prop where
  runs : Runs n fx prog s [] t
  live : Live t
  regs : ∀ q < below, t.regs q = s.regs q

/-- The code from `b` to `b'`, run while `Live` holds, jumps to the label or falls through. -/
structure JumpCode (b b' : ProgramBuilder) (label : Label) (jumps : Bool) : Prop where
  grows : b.Grows b'
  reaches : ∀ prog addr, b'.Placed prog addr → ∀ s, Live s → s.pc = b.curAddr →
    ∃ t, Reaches n fx Live prog b.nextReg s t ∧
      t.pc = if jumps then addr label else b'.curAddr

variable {n fx Live} {b b' b'' : ProgramBuilder}

variable {prog : List Instruction} {below' : Int} {label : Label} {first second : Bool}

theorem Reaches.trans {below : Int} {s t u : Machine A C W} (h : Reaches n fx Live prog below s t)
    (h' : Reaches n fx Live prog below' t u) (hle : below ≤ below') :
    Reaches n fx Live prog below s u where
  runs := h.runs.trans h'.runs
  live := h'.live
  regs q hq := (h'.regs q (hq.trans_le hle)).trans (h.regs q hq)

theorem JumpCode.both (h : JumpCode n fx Live b b' label first)
    (h' : JumpCode n fx Live b' b'' label second) :
    JumpCode n fx Live b b'' label (first || second) where
  grows := h.grows.trans h'.grows
  reaches prog addr hplaced s hlive hpc := by
    obtain ⟨t, hst, ht⟩ := h.reaches prog addr (hplaced.of_extends h'.grows.extends) s hlive hpc
    cases first with
    | true => exact ⟨t, hst, ht⟩
    | false =>
        obtain ⟨u, htu, hu⟩ := h'.reaches prog addr hplaced t hst.live ht
        exact ⟨u, hst.trans htu h.grows.regs, hu⟩

theorem grows_resolve (h : b.Grows b') (hlabel : b.labelAddr.length ≤ label.index) :
    b.Grows (b'.resolve label) where
  insts := h.insts
  fixups := h.fixups
  labels := by
    obtain ⟨rest, hrest⟩ := h.labels
    unfold ProgramBuilder.resolve
    rw [← hrest, List.set_append_right _ _ hlabel]
    exact List.prefix_append _ _
  regs := h.regs

theorem addrOf_resolve (h : label.index < b.labelAddr.length) :
    (b.resolve label).addrOf label = some b.curAddr := by
  rw [ProgramBuilder.addrOf_eq_some]
  simp [ProgramBuilder.resolve, h]

theorem extends_resolve (h : b.addrOf label = none) :
    b.Extends (b.resolve label) where
  insts := List.prefix_rfl
  fixups := ⟨[], by simp [ProgramBuilder.resolve]⟩
  labels other a ha := by
    have hne : label.index ≠ other.index := by
      rintro heq
      rw [ProgramBuilder.addrOf, heq, ← ProgramBuilder.addrOf, ha] at h
      cases h
    rw [ProgramBuilder.addrOf_eq_some] at ha ⊢
    simpa [ProgramBuilder.resolve, List.getElem?_set_ne hne] using ha

/-! A label that is bound where the code since it was made ends. -/

theorem addrOf_closes (h : b.newLabel.2.Grows b') : b'.addrOf b.newLabel.1 = none := by
  rw [h.addrOf (by simp [ProgramBuilder.newLabel])]
  simp [ProgramBuilder.addrOf, ProgramBuilder.newLabel]

theorem grows_closes (h : b.newLabel.2.Grows b') : b.Grows (b'.resolve b.newLabel.1) :=
  grows_resolve ((b.grows_newLabel).trans h) le_rfl

theorem placed_closes (h : b.newLabel.2.Grows b') {addr : Label → ℕ}
    (hplaced : (b'.resolve b.newLabel.1).Placed prog addr) :
    b'.Placed prog addr ∧ addr b.newLabel.1 = b'.curAddr := by
  have hlt : b.newLabel.1.index < b'.labelAddr.length := by
    have hle := h.labels.length_le
    simp [ProgramBuilder.newLabel] at hle ⊢
    omega
  exact ⟨hplaced.of_extends (extends_resolve (addrOf_closes h)),
    hplaced.labels _ _ (addrOf_resolve hlt)⟩

theorem JumpCode.past (h : JumpCode n fx Live b.newLabel.2 b' b.newLabel.1 first)
    (h' : JumpCode n fx Live b' b'' label second) :
    JumpCode n fx Live b (b''.resolve b.newLabel.1) label (!first && second) := by
  have hgrows := h.grows.trans h'.grows
  refine ⟨grows_closes hgrows, ?_⟩
  intro prog addr hplaced s hlive hpc
  obtain ⟨hplaced', hend⟩ := placed_closes hgrows hplaced
  obtain ⟨t, hst, ht⟩ := h.reaches prog addr (hplaced'.of_extends h'.grows.extends) s hlive hpc
  cases first with
  | true => exact ⟨t, hst, ht.trans hend⟩
  | false =>
      obtain ⟨u, htu, hu⟩ := h'.reaches prog addr hplaced' t hst.live ht
      exact ⟨u, hst.trans htu h.grows.regs, hu⟩

/-! ## Operands -/

section
variable {S W' : Type} (n fx Live) (compileExpr : CompileExpr S W')

/-- The code of the expression leaves this value in the register it is given. -/
def Computes (e : Expr S W') (v : Value) : Prop :=
  ∀ b r b', 0 < r → r < b.nextReg → compileExpr b e r = .ok b' → b.Grows b' ∧
    ∀ prog addr, b'.Placed prog addr → ∀ s : Machine A C W, Live s → s.pc = b.curAddr →
      ∃ t, Runs n fx prog s [] t ∧ Live t ∧ t.pc = b'.curAddr ∧ t.regs r = v ∧
        ∀ q < b.nextReg, q ≠ r → t.regs q = s.regs q

/-- The same with a register of its own, for code that comes after `below` has been allocated. -/
def ComputesOperand (below : Int) (e : Expr S W') (v : Value) : Prop :=
  ∀ b r b', below ≤ b.nextReg → compileOperand compileExpr b e = .ok (r, b') →
    b.Grows b' ∧ r < b'.nextReg ∧
      ∀ prog addr, b'.Placed prog addr → ∀ s : Machine A C W, Live s → s.pc = b.curAddr →
        ∃ t, Reaches n fx Live prog b.nextReg s t ∧ t.pc = b'.curAddr ∧ t.regs r = v

variable {n fx Live compileExpr} {below : Int} {e : Expr S W'} {v : Value}

theorem Computes.operand (he : Computes n fx Live compileExpr e v) (below : Int) :
    ComputesOperand n fx Live compileExpr below e v := by
  intro b r b' _ h
  obtain ⟨b₁, hcode, hret⟩ := Result.bind_eq_ok.mp h
  obtain ⟨rfl, rfl⟩ : b.allocReg.1 = r ∧ b₁ = b' := by
    cases hret
    exact ⟨rfl, rfl⟩
  have hlt : b.nextReg < b.allocReg.2.nextReg := by
    simp [ProgramBuilder.allocReg]
  obtain ⟨hgrows, hruns⟩ := he _ _ _ b.reserved hlt hcode
  refine ⟨(b.grows_allocReg).trans hgrows, hlt.trans_le hgrows.regs, ?_⟩
  intro prog addr hplaced s hlive hpc
  obtain ⟨t, hst, hlive', ht, hv, hkeep⟩ := hruns prog addr hplaced s hlive hpc
  exact ⟨t, ⟨hst, hlive', fun q hq => hkeep q (hq.trans hlt) hq.ne⟩, ht, hv⟩

theorem ComputesOperand.keeping (he : ComputesOperand n fx Live compileExpr below e v) {q : Int}
    {w : Value} (hle : below ≤ below') (hq : q < below') :
    ComputesOperand n fx (fun s => Live s ∧ s.regs q = w) compileExpr below' e v := by
  intro b r b' hb h
  obtain ⟨hgrows, hr, hruns⟩ := he b r b' (hle.trans hb) h
  refine ⟨hgrows, hr, ?_⟩
  intro prog addr hplaced s hlive hpc
  obtain ⟨t, hst, ht, hv⟩ := hruns prog addr hplaced s hlive.1 hpc
  have hkept := (hst.regs q (hq.trans_le hb)).trans hlive.2
  exact ⟨t, ⟨hst.runs, ⟨hst.live, hkept⟩, hst.regs⟩, ht, hv⟩

theorem JumpCode.after_operand (he : ComputesOperand n fx Live compileExpr below e v)
    (hb : below ≤ b.nextReg) {r : Int} (h : compileOperand compileExpr b e = .ok (r, b'))
    {jumps : Bool} (h' : JumpCode n fx (fun s => Live s ∧ s.regs r = v) b' b'' label jumps) :
    JumpCode n fx Live b b'' label jumps := by
  obtain ⟨hgrows, -, hruns⟩ := he b r b' hb h
  refine ⟨hgrows.trans h'.grows, ?_⟩
  intro prog addr hplaced s hlive hpc
  obtain ⟨t, hst, ht, hv⟩ := hruns prog addr (hplaced.of_extends h'.grows.extends) s hlive hpc
  obtain ⟨u, htu, hu⟩ := h'.reaches prog addr hplaced t ⟨hst.live, hv⟩ ht
  exact ⟨u, hst.trans ⟨htu.runs, htu.live.1, htu.regs⟩ hgrows.regs, hu⟩

end

/-! ## The code of one condition -/

section
variable (hgoto : ∀ s pc, Live s → Live (s.goto pc))
include hgoto

theorem jumpCode_comparison (h : b.EmitsJump b' label ⟨opcodeOf op, p1, 0, p3, p4, p5⟩)
    (hrules : (⟨p5ToAff p5, collationOf p4, p5 &&& p5NullEq ≠ 0⟩ : CompareRules) = rules)
    (hstore : p5 &&& p5StoreP2 = 0) (hnull : decide (p5 &&& p5JumpIfNull ≠ 0) = jumpIfNull)
    (hl : ∀ s, Live s → s.regs p3 = l) (hr : ∀ s, Live s → s.regs p1 = r) :
    JumpCode n fx Live b b' label ((compareOperands n rules op l r).getD jumpIfNull) := by
  refine ⟨h.grows, ?_⟩
  intro prog addr hplaced s hlive hpc
  have hinst := h.placed hplaced
  rw [← hpc] at hinst
  have hjump := runs_comparison (n := n) fx hinst hrules hstore hnull (hl s hlive)
    (hr s hlive)
  refine ⟨_, ⟨hjump, hgoto _ _ hlive, fun q _ => rfl⟩, ?_⟩
  rw [h.curAddr, ← hpc]
  rfl

theorem jumpCode_emitComparison {aff : Option Affinity} (hl : ∀ s, Live s → s.regs p3 = l)
    (hr : ∀ s, Live s → s.regs p1 = r) :
    JumpCode n fx Live b (emitComparison b op p1 label p3 (jumpIfNullP5 aff jumpIfNull)) label
      ((compareOperands n ⟨aff, .binary, false⟩ op l r).getD jumpIfNull) := by
  have hp5 := p5ToAff_or aff false jumpIfNull
  refine jumpCode_comparison hgoto ((b.emitsJump (opcodeOf op) p1 label p3).setP5 _) ?_ hp5.2.1
    hp5.2.2.2 hl hr
  exact congrArg₂ (fun a n => (⟨a, .binary, n⟩ : CompareRules)) hp5.1 hp5.2.2.1

theorem jumpCode_if {r : Int} (hv : ∀ s, Live s → s.regs r = v) :
    JumpCode n fx Live b
      (b.emitJump (if jumpIfTrue then .if_ else .ifNot) r label (if jumpIfNull then 1 else 0)).2
      label (jumpsOn (truth n v) jumpIfTrue jumpIfNull) := by
  have h := b.emitsJump (if jumpIfTrue then .if_ else .ifNot) r label (if jumpIfNull then 1 else 0)
  refine ⟨h.grows, ?_⟩
  intro prog addr hplaced s hlive hpc
  have hinst := h.placed hplaced
  rw [← hpc] at hinst
  have hjump := runs_if (n := n) fx hinst (hv s hlive)
  refine ⟨_, ⟨hjump, hgoto _ _ hlive, fun q _ => rfl⟩, ?_⟩
  rw [h.curAddr, ← hpc]
  rfl

section
variable {S W' : Type} {compileExpr : CompileExpr S W'} {label : Label}
    {jumpIfTrue jumpIfNull : Bool}

variable {e : Expr S W'} {ctx : Ctx S W'} {lo hi : Value}

theorem jumpCode_truth (he : Computes n fx Live compileExpr e v)
    (h : compileTruth compileExpr b e label jumpIfTrue jumpIfNull = .ok b') :
    JumpCode n fx Live b b' label (jumpsOn (truth n v) jumpIfTrue jumpIfNull) := by
  obtain ⟨⟨r, b₁⟩, hoperand, hret⟩ := Result.bind_eq_ok.mp h
  cases hret
  apply JumpCode.after_operand (he.operand b.nextReg) le_rfl hoperand
  exact jumpCode_if (fun s pc hs => ⟨hgoto s pc hs.1, hs.2⟩) fun s hs => hs.2

theorem jumpCode_compare {nulleq : Bool} {left right : Expr S W'}
    (hleft : Computes ctx.numerals fx Live compileExpr left l)
    (hright : Computes ctx.numerals fx Live compileExpr right r)
    (h : ctx.compileComparison compileExpr b op nulleq left right label jumpIfTrue jumpIfNull =
      .ok b') :
    JumpCode ctx.numerals fx Live b b' label
      (jumpsOn (compareOperands ctx.numerals (ctx.binaryRules nulleq left right) op l r) jumpIfTrue
        jumpIfNull) := by
  obtain ⟨⟨rl, b₁⟩, hcodeL, h⟩ := Result.bind_eq_ok.mp h
  obtain ⟨⟨rr, b₂⟩, hcodeR, h⟩ := Result.bind_eq_ok.mp h
  have hrl := (hleft.operand b.nextReg b rl b₁ le_rfl hcodeL).2.1
  apply JumpCode.after_operand (hleft.operand b.nextReg) le_rfl hcodeL
  apply JumpCode.after_operand ((hright.operand b₁.nextReg).keeping le_rfl hrl) le_rfl hcodeR
  have hp5 := p5ToAff_or (ctx.comparisonAffinity left right) nulleq jumpIfNull
  have hemits := (b₂.emitsJump (opcodeOf (if jumpIfTrue then op else negateCmp op)) rr label
      rl).setP5
    (if nulleq then affToP5 (ctx.comparisonAffinity left right) ||| p5NullEq
      else jumpIfNullP5 (ctx.comparisonAffinity left right) jumpIfNull)
  have hnulleq : (ctx.binaryRules nulleq left right).nulleq = nulleq := rfl
  rw [← getD_compareOperands, hnulleq]
  have hgoto' : ∀ s pc, (Live s ∧ s.regs rl = l) ∧ s.regs rr = r →
      (Live (s.goto pc) ∧ (s.goto pc).regs rl = l) ∧ (s.goto pc).regs rr = r :=
    fun s pc hs => ⟨⟨hgoto s pc hs.1.1, hs.1.2⟩, hs.2⟩
  cases hcoll : ctx.comparisonCollation left right with
  | none =>
      rw [hcoll] at h
      cases h
      refine jumpCode_comparison hgoto' hemits ?_ hp5.2.1 hp5.2.2.2 (fun s hs => hs.1.2)
        fun s hs => hs.2
      rw [hp5.1, hp5.2.2.1, Ctx.binaryRules, hcoll]
      rfl
  | some coll =>
      rw [hcoll] at h
      cases h
      refine jumpCode_comparison hgoto' (hemits.setP4 _) ?_ hp5.2.1 hp5.2.2.2 (fun s hs => hs.1.2)
        fun s hs => hs.2
      rw [hp5.1, hp5.2.2.1, Ctx.binaryRules, hcoll, collationOf_collationName]
      rfl

omit hgoto in
theorem betweenJumps_eq :
    ctx.betweenJumps rules v lo hi negated jumpIfTrue jumpIfNull =
      jumpsOn (if negated then
          (and3 (compareOperands ctx.numerals rules .ge v lo)
            (compareOperands ctx.numerals rules .le v hi)).map (!·)
        else and3 (compareOperands ctx.numerals rules .ge v lo)
          (compareOperands ctx.numerals rules .le v hi)) jumpIfTrue jumpIfNull := by
  rw [jumpsOn_between, ← compareOperands_negateCmp, ← compareOperands_negateCmp]
  rfl

theorem jumpCode_between {low high : Expr S W'} (he : Computes ctx.numerals fx Live compileExpr e v)
    (hlow : Computes ctx.numerals fx Live compileExpr low lo)
    (hhigh : Computes ctx.numerals fx Live compileExpr high hi)
    (h : ctx.compileBetween compileExpr b e low high negated label jumpIfTrue jumpIfNull =
      .ok b') :
    JumpCode ctx.numerals fx Live b b' label
      (ctx.betweenJumps (ctx.betweenRules e low high) v lo hi negated jumpIfTrue jumpIfNull) := by
  obtain ⟨⟨r, b₁⟩, hcode, h⟩ := Result.bind_eq_ok.mp h
  obtain ⟨⟨rlo, b₂⟩, hcodeLo, h⟩ := Result.bind_eq_ok.mp h
  obtain ⟨⟨rhi, b₃⟩, hcodeHi, h⟩ := Result.bind_eq_ok.mp h
  have hr := (he.operand b.nextReg b r b₁ le_rfl hcode).2.1
  have hoperandLo := (hlow.operand b₁.nextReg).keeping (w := v) le_rfl hr
  have hlo := hoperandLo b₁ rlo b₂ le_rfl hcodeLo
  have hoperandHi := ((hhigh.operand b₁.nextReg).keeping (w := v) le_rfl hr).keeping (w := lo)
    hlo.1.regs hlo.2.1
  apply JumpCode.after_operand (he.operand b.nextReg) le_rfl hcode
  apply JumpCode.after_operand hoperandLo le_rfl hcodeLo
  apply JumpCode.after_operand hoperandHi le_rfl hcodeHi
  have hgoto' : ∀ s pc, ((Live s ∧ s.regs r = v) ∧ s.regs rlo = lo) ∧ s.regs rhi = hi →
      ((Live (s.goto pc) ∧ (s.goto pc).regs r = v) ∧ (s.goto pc).regs rlo = lo) ∧
        (s.goto pc).regs rhi = hi :=
    fun s pc hs => ⟨⟨⟨hgoto s pc hs.1.1.1, hs.1.1.2⟩, hs.1.2⟩, hs.2⟩
  have hlower : ∀ b (op : CmpOp) label jn, JumpCode ctx.numerals fx
      (fun s => ((Live s ∧ s.regs r = v) ∧ s.regs rlo = lo) ∧ s.regs rhi = hi) b
      (emitComparison b op rlo label r (jumpIfNullP5
        ((ctx.comparisonAffinity e low).or (ctx.comparisonAffinity e high)) jn)) label
      ((compareOperands ctx.numerals (ctx.betweenRules e low high) op v lo).getD jn) :=
    fun b op label jn =>
      jumpCode_emitComparison hgoto' (fun s hs => hs.1.1.2) fun s hs => hs.1.2
  have hupper : ∀ b (op : CmpOp) label jn, JumpCode ctx.numerals fx
      (fun s => ((Live s ∧ s.regs r = v) ∧ s.regs rlo = lo) ∧ s.regs rhi = hi) b
      (emitComparison b op rhi label r (jumpIfNullP5
        ((ctx.comparisonAffinity e low).or (ctx.comparisonAffinity e high)) jn)) label
      ((compareOperands ctx.numerals (ctx.betweenRules e low high) op v hi).getD jn) :=
    fun b op label jn =>
      jumpCode_emitComparison hgoto' (fun s hs => hs.1.1.2) fun s hs => hs.2
  cases negated <;> cases jumpIfTrue
  case false.false | true.true =>
    cases h
    exact (hlower b₃ .lt label jumpIfNull).both (hupper _ .gt label jumpIfNull)
  case false.true | true.false =>
    cases h
    exact (hlower b₃.newLabel.2 .lt b₃.newLabel.1 (!jumpIfNull)).past
      (hupper _ .le label jumpIfNull)

theorem jumpCode_compileJump (ctx : Ctx S W') {value : Expr S W' → Value} (e : Expr S W')
    (he : ∀ o ∈ operands e, Computes ctx.numerals fx Live compileExpr o (value o))
    (h : ctx.compileJump compileExpr b e label jumpIfTrue jumpIfNull = .ok b') :
    JumpCode ctx.numerals fx Live b b' label
      (jumpsOn (ctx.threeValued value e) jumpIfTrue jumpIfNull) := by
  fun_induction Ctx.threeValued ctx value e generalizing b b' label jumpIfTrue jumpIfNull with
  | case1 left right ihl ihr =>
      have hl := fun o ho => he o (List.mem_append_left _ ho)
      have hr := fun o ho => he o (List.mem_append_right _ ho)
      cases jumpIfTrue with
      | true =>
          obtain ⟨b₁, hcodeL, h⟩ := Result.bind_eq_ok.mp h
          obtain ⟨b₂, hcodeR, h⟩ := Result.bind_eq_ok.mp h
          cases h
          rw [jumpsOn_and_true]
          exact (ihl hl hcodeL).past (ihr hr hcodeR)
      | false =>
          obtain ⟨b₁, hcodeL, hcodeR⟩ := Result.bind_eq_ok.mp h
          rw [jumpsOn_and_false]
          exact (ihl hl hcodeL).both (ihr hr hcodeR)
  | case2 left right ihl ihr =>
      have hl := fun o ho => he o (List.mem_append_left _ ho)
      have hr := fun o ho => he o (List.mem_append_right _ ho)
      cases jumpIfTrue with
      | true =>
          obtain ⟨b₁, hcodeL, hcodeR⟩ := Result.bind_eq_ok.mp h
          rw [jumpsOn_or_true]
          exact (ihl hl hcodeL).both (ihr hr hcodeR)
      | false =>
          obtain ⟨b₁, hcodeL, h⟩ := Result.bind_eq_ok.mp h
          obtain ⟨b₂, hcodeR, h⟩ := Result.bind_eq_ok.mp h
          cases h
          rw [jumpsOn_or_false]
          exact (ihl hl hcodeL).past (ihr hr hcodeR)
  | case3 e ih =>
      rw [jumpsOn_not]
      exact ih he h
  | case4 e low high =>
      have hcode := jumpCode_between hgoto (he e (by simp [operands]))
        (he low (by simp [operands])) (he high (by simp [operands])) h
      rwa [betweenJumps_eq, if_pos rfl] at hcode
  | case5 e low high negated =>
      rename_i hneg
      have hcode := jumpCode_between hgoto (he e (by simp [operands]))
        (he low (by simp [operands])) (he high (by simp [operands])) h
      rwa [betweenJumps_eq, if_neg hneg] at hcode
  | case6 op left right _ _ cmp nulleq hop =>
      obtain ⟨hcompile, hoperands⟩ : ctx.compileJump compileExpr b (.binary op left right) label
            jumpIfTrue jumpIfNull =
          ctx.compileComparison compileExpr b cmp nulleq left right label jumpIfTrue jumpIfNull ∧
          operands (.binary op left right) = [left, right] := by
        cases op <;> cases hop <;> exact ⟨rfl, rfl⟩
      rw [hoperands] at he
      exact jumpCode_compare hgoto (he left (by simp)) (he right (by simp)) (hcompile ▸ h)
  | case7 op left right hand hor hop =>
      obtain ⟨hcompile, hoperands⟩ : ctx.compileJump compileExpr b (.binary op left right) label
            jumpIfTrue jumpIfNull =
          compileTruth compileExpr b (.binary op left right) label jumpIfTrue jumpIfNull ∧
          operands (.binary op left right) = [.binary op left right] := by
        cases op with
        | and => exact (hand rfl).elim
        | or => exact (hor rfl).elim
        | eq | ne | lt | le | gt | ge | is | isNot => cases hop
        | _ => exact ⟨rfl, rfl⟩
      exact jumpCode_truth hgoto (he _ (by simp [hoperands])) (hcompile ▸ h)
  | case8 e _ _ hnot hbetween hbinary =>
      obtain ⟨hcompile, hoperands⟩ : ctx.compileJump compileExpr b e label jumpIfTrue jumpIfNull =
          compileTruth compileExpr b e label jumpIfTrue jumpIfNull ∧ operands e = [e] := by
        cases e with
        | binary op left right => exact (hbinary op left right rfl).elim
        | between e low high negated => exact (hbetween e low high negated rfl).elim
        | unary op e =>
            cases op with
            | not => exact (hnot e rfl).elim
            | _ => exact ⟨rfl, rfl⟩
        | _ => exact ⟨rfl, rfl⟩
      exact jumpCode_truth hgoto (he e (by simp [hoperands])) (hcompile ▸ h)

/--
In a finished program the code of a condition jumps to its label if and only if
the condition comes to the truth value asked for, or is unknown and a jump on
NULL is asked for.
-/
theorem compileJump_jumps_iff (ctx : Ctx S W') {value : Expr S W' → Value} (e : Expr S W')
    (he : ∀ o ∈ operands e, Computes ctx.numerals fx Live compileExpr o (value o))
    (h : ctx.compileJump compileExpr b e label jumpIfTrue jumpIfNull = .ok b')
    {final : ProgramBuilder} (hfinal : b'.Extends final) {prog : List Instruction}
    (hprog : final.finish = some prog) {s : Machine A C W} (hlive : Live s)
    (hpc : s.pc = b.curAddr) :
    ∃ t, Runs ctx.numerals fx prog s [] t ∧ Live t ∧ (∀ q < b.nextReg, t.regs q = s.regs q) ∧
      t.pc =
        if ctx.threeValued value e = some jumpIfTrue ∨
            ctx.threeValued value e = none ∧ jumpIfNull = true then
          (final.addrOf label).getD 0
        else b'.curAddr := by
  have hplaced := (ProgramBuilder.placed_of_finish hprog).of_extends hfinal
  obtain ⟨t, hst, ht⟩ := (jumpCode_compileJump hgoto ctx e he h).reaches prog _ hplaced s hlive hpc
  refine ⟨t, hst.runs, hst.live, hst.regs, ?_⟩
  simpa only [jumpsOn_eq_true_iff] using ht

end

end

end

/-! ## Literals -/

section
variable {A C W : Type} {n : Numerals} {fx : Effects A C W} {Live : Machine A C W → Prop}
  {S W' : Type} {other : CompileExpr S W'}

open Machine

/-- The effect of `Null` on the registers and accumulators that it clears. -/
def nullOutcome (i : Inputs A C W) : Outcome A C W :=
  ⟨List.replicate i.accs.length .null, i.accs.map fun _ => none, i.cursors, i.world, false⟩

def loadLiteral (lit : Literal) (target : Int) : Instruction :=
  match lit with
  | .null => .new .null 0 target 0
  | .integer n =>
      if -2 ^ 31 ≤ n.toInt ∧ n.toInt < 2 ^ 31 then .new .integer n.toInt target 0
      else { Instruction.new .int64 0 target 0 with p4 := .int n }
  | .real r => { Instruction.new .real 0 target 0 with p4 := .real r.bits }
  | .text s => { Instruction.new .string8 0 target 0 with p4 := .text s }
  | .blob bytes => { Instruction.new .blob 0 target 0 with p4 := .blob bytes }
  | .bool bl => .new .integer (if bl then 1 else 0) target 0

theorem emits_compileLiteral (b : ProgramBuilder) (lit : Literal) (target : Int) :
    b.Emits (compileLiteral b lit target) (loadLiteral lit target) := by
  cases lit with
  | null => exact b.emits _ _ _ _
  | integer n =>
      unfold compileLiteral loadLiteral
      dsimp only
      split
      · exact b.emits _ _ _ _
      · exact (b.emits _ _ _ _).setP4 _
  | bool bl => exact b.emits _ _ _ _
  | _ => exact (b.emits _ _ _ _).setP4 _

theorem exec_loadLiteral (hnull : ∀ i, fx .null i = some (nullOutcome i))
    (prog : List Instruction) (s : Machine A C W) (lit : Literal) {target : Int}
    (hpos : 0 < target) :
    ∃ accs, s.exec n fx prog (loadLiteral lit target) =
      .next { s with
        pc := s.pc + 1
        regs := Function.update s.regs target (literalToValue lit)
        accs := accs } := by
  cases lit with
  | null =>
      have hzero : (-target).toNat = 0 := by omega
      simp [hzero, loadLiteral, exec, outcome, Instruction.new, Instruction.uses,
          registerEffect, hnull,
        nullOutcome, inputs, after, setAll, block, literalToValue]
  | integer i =>
      unfold loadLiteral
      dsimp only
      split <;>
        simp [exec, outcome, Instruction.new, Instruction.uses, registerEffect, after, setAll,
          literalToValue]
  | bool bl =>
      cases bl <;>
        simp [loadLiteral, exec, outcome, Instruction.new, Instruction.uses, registerEffect, after,
          setAll, literalToValue]
  | _ =>
      simp [loadLiteral, exec, outcome, Instruction.new, Instruction.uses, registerEffect, after,
        setAll, literalToValue]

theorem computes_literal (hnull : ∀ i, fx .null i = some (nullOutcome i))
    (hlive : ∀ s t : Machine A C W, t.cursors = s.cursors → t.world = s.world → Live s → Live t)
    (lit : Literal) :
    Computes n fx Live (compileExpr other) (.literal lit) (literalToValue lit) := by
  intro b r b' hpos _ h
  cases h
  have hemits := emits_compileLiteral b lit r
  refine ⟨hemits.grows, ?_⟩
  intro prog addr hplaced s hs hpc
  obtain ⟨accs, hexec⟩ := exec_loadLiteral (n := n) hnull prog s lit hpos
  have hinst := hemits.placed hplaced
  rw [← hpc] at hinst
  refine ⟨_, Runs.one hinst hexec, hlive s _ rfl rfl hs, ?_, Function.update_self .., ?_⟩
  · rw [hemits.curAddr, ← hpc]
  · intro q _ hq
    exact Function.update_of_ne hq ..

end

/-! ## A condition of literals -/

def literalCtx : Ctx Empty Empty where
  table := ⟨"t", [], none, false⟩
  numerals := ⟨fun _ => "", fun _ => (none, false)⟩
  outer _ _ := none
  otherValue _ _ := none

def nullEffects : Effects Unit Unit Unit
  | .null, i => some (nullOutcome i)
  | _, _ => none

def nullOrNot : Expr Empty Empty :=
  .binary .or (.binary .and (.literal .null) (.literal (.integer 1)))
    (.unary .not (.literal (.integer 2)))

def literalValue : Expr Empty Empty → Value
  | .literal lit => literalToValue lit
  | _ => .null

def literalCode : CompileExpr Empty Empty :=
  compileExpr fun _ _ _ => .error (.msg "not a literal")

def oneLabel : ProgramBuilder := ProgramBuilder.new.newLabel.2

def skipsOnNull : ProgramBuilder :=
  match literalCtx.compileJump literalCode oneLabel nullOrNot ⟨0⟩ false true with
  | .ok b => b
  | .error _ => oneLabel

/-- The code is followed by one more instruction, and then by its label. -/
def skipsOnNullFinal : ProgramBuilder := (skipsOnNull.emit .halt 0 0 0).2.resolve ⟨0⟩

def blankMachine : Machine Unit Unit Unit :=
  ⟨0, fun _ => .null, fun _ => none, fun _ => none, (), fun _ => false, .eq⟩

theorem computes_of_literal : ∀ o ∈ operands nullOrNot,
    Computes literalCtx.numerals nullEffects (fun _ => True) literalCode o (literalValue o) := by
  intro o ho
  obtain rfl | rfl | rfl : o = .literal .null ∨ o = .literal (.integer 1) ∨
      o = .literal (.integer 2) := by
    simpa [operands, nullOrNot] using ho
  all_goals exact computes_literal (fun _ => rfl) (fun _ _ _ _ h => h) _

theorem compileJump_jumps_on_null :
    ∃ t, Machine.Runs literalCtx.numerals nullEffects (skipsOnNullFinal.finish.getD [])
        blankMachine [] t ∧
      t.pc = 7 := by
  have hext : skipsOnNull.Extends skipsOnNullFinal :=
    ((skipsOnNull.emits .halt 0 0 0).grows.extends).trans (extends_resolve (by decide))
  have hcode : literalCtx.compileJump literalCode oneLabel nullOrNot ⟨0⟩ false true =
      .ok skipsOnNull := rfl
  have hprog : skipsOnNullFinal.finish = some (skipsOnNullFinal.finish.getD []) := rfl
  have hpc : blankMachine.pc = oneLabel.curAddr := rfl
  obtain ⟨t, hruns, -, -, ht⟩ := compileJump_jumps_iff (fun _ _ h => h) literalCtx nullOrNot
    computes_of_literal hcode hext hprog trivial hpc
  exact ⟨t, hruns, ht⟩

end Rustqlite.Codegen
