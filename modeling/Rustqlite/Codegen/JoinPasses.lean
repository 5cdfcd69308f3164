import Rustqlite.Codegen.JoinRows

/-!
# The program of a join

The second pass of a FULL JOIN, the whole program, and when it returns the rows
of the join.
-/

namespace Rustqlite.Codegen.Join

open Foundation Rustqlite.Parser Schema Vdbe

section

variable {A W : Type} {n : Numerals} {tables : W → Int → List Row}
  {other : Effects A TableCursor W} {outer inner : JoinTable} {code : ExprCode} {m : Meaning}
  {c d : TableCursor} {onPredicate whereClause : Option SqlExpr} {outputs : List SqlExpr}

/-! ## The search for a partner -/

variable {prog : List Instruction} {s : Machine A TableCursor W} {b b' b₁ b₂ : ProgramBuilder}
  {flag : Int} {leftEmpty rjInner : Label} {addr : Label → ℕ} {as : List Row} {r : Row}
  {leftJoin fullJoin : Bool}

theorem runs_goto {fx : Effects A TableCursor W} {p1 p3 : Int} {target : ℕ} {p4 : P4} {p5 : UInt8}
    (h : prog[s.pc]? = some ⟨.goto, p1, target, p3, p4, p5⟩) :
    Machine.Runs n fx prog s [] (s.goto target) :=
  .one h (by simp [Machine.exec])

theorem runs_emitTest (himpl : Implements n (scanEffects tables other) outer inner code m)
    (hflag : flag < b.nextReg) (h : emitTest code onPredicate b flag leftEmpty rjInner = .ok b') :
    b.Grows b' ∧ ∀ prog addr, b'.Placed prog addr → ∀ as a rest r d, OnRow inner d (some r) →
      ∀ s : Machine A TableCursor W, At (cursorOn outer as (a :: rest)) d s → s.pc = b.curAddr →
        ∃ t, Machine.Runs n (scanEffects tables other) prog s [] t ∧
          (∀ q < flag, t.regs q = s.regs q) ∧
          if onRows outer inner m onPredicate a r then
            At (cursorOn outer as (a :: rest)) d t ∧ t.pc = addr leftEmpty ∧ t.regs flag = .int 1
          else
            At (cursorOn outer as rest) d t ∧
              t.pc = (if rest = [] then addr leftEmpty else addr rjInner) ∧
              t.regs flag = s.regs flag := by
  cases onPredicate with
  | none =>
      have hset := b.emits .integer 1 flag 0
      have hgoto := (b.emit .integer 1 flag 0).2.emitsJump .goto 0 leftEmpty 0
      cases h
      refine ⟨hset.grows.trans hgoto.grows, ?_⟩
      intro prog addr hplaced as a rest r d _ s hs hpc
      obtain ⟨t, hst, ht, htpc, htkeep, htflag⟩ := runs_setFlag n tables other b (some flag) 1 prog
        addr (hplaced.of_extends hgoto.grows.extends) s hs hpc
      have hinst := hgoto.placed hplaced
      have htpc' : (b.emit .integer 1 flag 0).2.curAddr = t.pc := htpc.symm
      rw [htpc'] at hinst
      refine ⟨_, hst.trans (runs_goto hinst), ?_, ?_⟩
      · intro q hq
        exact htkeep q (by
          rintro mf ⟨⟩
          exact hq.ne)
      · have htrue : onRows outer inner m none a r = true := rfl
        rw [if_pos htrue]
        exact ⟨ht.goto _, rfl, htflag flag rfl⟩
  | some e =>
      obtain ⟨b₁, hjump, hret⟩ : ∃ b₁, code.jump b.newLabel.2 e b.newLabel.1 true false = .ok b₁ ∧
          b' = ((((((b₁.emitJump .next 0 rjInner 0).2.emitJump .goto 0 leftEmpty 0).2.resolve
            b.newLabel.1).emit .integer 1 flag 0).2).emitJump .goto 0 leftEmpty 0).2 := by
        obtain ⟨b₁, hjump, hret⟩ := Result.bind_eq_ok.mp h
        exact ⟨b₁, hjump, (Except.ok.inj hret).symm⟩
      have hnext := b₁.emitsJump .next 0 rjInner 0
      have hgoto := (b₁.emitJump .next 0 rjInner 0).2.emitsJump .goto 0 leftEmpty 0
      have hgrowsJump : b.newLabel.2.Grows b₁ :=
        (himpl.jump _ _ (some ⟨0, []⟩, some ⟨0, []⟩) (onRow_cursorOn outer [] _ [])
          (onRow_cursorOn inner [] _ []) _ _ _ _ _ _ hjump).grows
      have hbody := hgrowsJump.trans (hnext.grows.trans hgoto.grows)
      have hset := (((b₁.emitJump .next 0 rjInner 0).2.emitJump .goto 0 leftEmpty 0).2.resolve
        b.newLabel.1).emits .integer 1 flag 0
      have hlast := ((((b₁.emitJump .next 0 rjInner 0).2.emitJump .goto 0 leftEmpty 0).2.resolve
        b.newLabel.1).emit .integer 1 flag 0).2.emitsJump .goto 0 leftEmpty 0
      subst hret
      refine ⟨(grows_closes hbody).trans (hset.grows.trans hlast.grows), ?_⟩
      intro prog addr hplaced as a rest r d hd s hs hpc
      have hplacedSet := hplaced.of_extends hlast.grows.extends
      have hplacedBody := hplacedSet.of_extends hset.grows.extends
      obtain ⟨hplacedGoto, hend⟩ := placed_closes hbody hplacedBody
      have hplacedNext := hplacedGoto.of_extends hgoto.grows.extends
      have hcode := himpl.jump _ d (some a, some r) (onRow_cursorOn outer as a rest) hd _ _ _ _ _ _
        hjump
      obtain ⟨t, hst, htpc⟩ := hcode.reaches prog addr
        (hplacedNext.of_extends hnext.grows.extends) s hs hpc
      have hjumps : jumpsOn (m.truth e (reading outer inner (.int 0) (some a, some r))) true false =
          onRows outer inner m (some e) a r := by
        rw [onRows, reading_some outer inner .null (.int 0), Meaning.holds, Option.all_some]
        rcases m.truth e (reading outer inner (.int 0) (some a, some r)) with _ | _ | _ <;> rfl
      rw [hjumps] at htpc
      cases hon : onRows outer inner m (some e) a r with
      | true =>
          rw [hon, if_pos rfl, hend] at htpc
          obtain ⟨u, htu, hu, hupc, hukeep, huflag⟩ := runs_setFlag n tables other _ (some flag) 1
            prog addr hplacedSet t hst.live htpc
          have hinst := hlast.placed hplaced
          have hupc' : ((((b₁.emitJump .next 0 rjInner 0).2.emitJump .goto 0 leftEmpty 0).2.resolve
              b.newLabel.1).emit .integer 1 flag 0).2.curAddr = u.pc := hupc.symm
          rw [hupc'] at hinst
          refine ⟨_, hst.runs.trans (htu.trans (runs_goto hinst)), ?_, ?_⟩
          · intro q hq
            have hkeep := hukeep q (by
              rintro mf ⟨⟩
              exact hq.ne)
            exact hkeep.trans (hst.regs q (hq.trans hflag))
          · rw [if_pos rfl]
            exact ⟨hu.goto _, rfl, huflag flag rfl⟩
      | false =>
          rw [hon, if_neg (by decide)] at htpc
          have hinst := hnext.placed hplacedNext
          rw [← htpc] at hinst
          obtain ⟨u, htu, hu, hupc, huregs⟩ := runs_nextOuter n tables other hinst hst.live
          have hkept : ∀ q < b.nextReg, u.regs q = s.regs q := fun q hq => by
            rw [huregs]
            exact hst.regs q hq
          cases rest with
          | nil =>
              rw [if_pos rfl] at hupc
              have hinst' := hgoto.placed hplacedGoto
              rw [hnext.curAddr, ← htpc, ← hupc] at hinst'
              refine ⟨_, hst.runs.trans (htu.trans (runs_goto hinst')),
                fun q hq => hkept q (hq.trans hflag), ?_⟩
              rw [if_neg (by decide), if_pos rfl]
              exact ⟨hu.goto _, rfl, hkept flag hflag⟩
          | cons a' rest =>
              rw [if_neg (by simp)] at hupc
              refine ⟨u, hst.runs.trans htu, fun q hq => hkept q (hq.trans hflag), ?_⟩
              rw [if_neg (by decide), if_neg (by simp)]
              exact ⟨hu, hupc, hkept flag hflag⟩

theorem runs_search (himpl : Implements n (scanEffects tables other) outer inner code m)
    (hflag : flag < b.nextReg) (h : emitTest code onPredicate b flag leftEmpty rjInner = .ok b')
    (hplaced : b'.Placed prog addr) (hloop : addr rjInner = b.curAddr) {a : Row} {rest : List Row}
    (hd : OnRow inner d (some r)) (hs : At (cursorOn outer as (a :: rest)) d s)
    (hpc : s.pc = b.curAddr) :
    ∃ t c', Machine.Runs n (scanEffects tables other) prog s [] t ∧ Scans outer as c' ∧
      Reached flag s c' d (addr leftEmpty) t ∧
      t.regs flag = if (a :: rest).any (onRows outer inner m onPredicate · r) then .int 1
        else s.regs flag := by
  induction rest generalizing a s with
  | nil =>
      obtain ⟨t, hst, hkeep, ht⟩ :=
        (runs_emitTest himpl hflag h).2 prog addr hplaced as a [] r d hd s hs hpc
      simp only [List.any_cons, List.any_nil, Bool.or_false]
      split_ifs at ht ⊢ with hon
      · exact ⟨t, _, hst, scans_cursorOn .., ⟨ht.1, ht.2.1, hkeep⟩, ht.2.2⟩
      · exact ⟨t, _, hst, scans_cursorOn .., ⟨ht.1, ht.2.1, hkeep⟩, ht.2.2⟩
      · exact absurd rfl ‹_›
  | cons a' rest ih =>
      obtain ⟨t, hst, hkeep, ht⟩ :=
        (runs_emitTest himpl hflag h).2 prog addr hplaced as a (a' :: rest) r d hd s hs hpc
      rw [List.any_cons (a := a)]
      cases hon : onRows outer inner m onPredicate a r with
      | true =>
          rw [hon, if_pos rfl] at ht
          exact ⟨t, _, hst, scans_cursorOn .., ⟨ht.1, ht.2.1, hkeep⟩, ht.2.2⟩
      | false =>
          rw [hon, if_neg (by decide), if_neg (by simp), hloop] at ht
          obtain ⟨u, c', htu, hc', hu, huflag⟩ := ih ht.1 ht.2.1
          refine ⟨u, c', hst.trans htu, hc', ⟨hu.cursors, hu.pc, ?_⟩, ?_⟩
          · intro q hq
            rw [hu.regs q hq, hkeep q hq]
          · rw [huflag, ht.2.2, Bool.false_or]

theorem emitSearch_ok (h : emitSearch code onPredicate b flag = .ok b') :
    ∃ b₁ b₂ b₃, b₁ = setFlag b (some flag) 0 ∧
      b₂ = (b₁.newLabel.2.emitJump .rewind 0 b₁.newLabel.1 0).2 ∧
      emitTest code onPredicate (b₂.newLabel.2.resolve b₂.newLabel.1) flag b₁.newLabel.1
        b₂.newLabel.1 = .ok b₃ ∧
      b' = b₃.resolve b₁.newLabel.1 := by
  obtain ⟨b₃, htest, hret⟩ := Result.bind_eq_ok.mp h
  exact ⟨_, _, b₃, rfl, rfl, htest, (Except.ok.inj hret).symm⟩

theorem runs_emitSearch (himpl : Implements n (scanEffects tables other) outer inner code m)
    (hflag : flag < b.nextReg) (h : emitSearch code onPredicate b flag = .ok b') :
    b.Grows b' ∧ ∀ prog addr, b'.Placed prog addr → ∀ as r c d, Scans outer as c →
      OnRow inner d (some r) → ∀ s : Machine A TableCursor W, At c d s → s.pc = b.curAddr →
        ∃ t c', Machine.Runs n (scanEffects tables other) prog s [] t ∧ Scans outer as c' ∧
          Reached flag s c' d b'.curAddr t ∧
          t.regs flag =
            .int (if as.any (onRows outer inner m onPredicate · r) then 1 else 0) := by
  obtain ⟨b₁, b₂, b₃, hb₁, hb₂, htest, rfl⟩ := emitSearch_ok h
  have hgrowsFlag : b.Grows b₁ := hb₁ ▸ grows_setFlag b (some flag) 0
  have hrewind := b₁.newLabel.2.emitsJump .rewind 0 b₁.newLabel.1 0
  rw [← hb₂] at hrewind
  have hstart : b₂.Grows (b₂.newLabel.2.resolve b₂.newLabel.1) := grows_closes (.refl _)
  have hflag' : flag < (b₂.newLabel.2.resolve b₂.newLabel.1).nextReg :=
    hflag.trans_le (hgrowsFlag.regs.trans (hrewind.grows.regs.trans hstart.regs))
  have hgrowsTest := (runs_emitTest himpl hflag' htest).1
  have hbody := hrewind.grows.trans (hstart.trans hgrowsTest)
  refine ⟨hgrowsFlag.trans (grows_closes hbody), ?_⟩
  intro prog addr hplaced as r c d hc hd s hs hpc
  obtain ⟨hplaced₃, hend⟩ := placed_closes hbody hplaced
  have hplacedStart := hplaced₃.of_extends hgrowsTest.extends
  have hplaced₂ := hplacedStart.of_extends hstart.extends
  have hloop : addr b₂.newLabel.1 = b₂.curAddr := (placed_closes (.refl _) hplacedStart).2
  have hplaced₁ : b₁.Placed prog addr :=
    hplaced₂.of_extends ((b₁.grows_newLabel).trans hrewind.grows).extends
  obtain ⟨t, hst, ht, htpc, htkeep, htflag⟩ := runs_setFlag n tables other b (some flag) 0 prog addr
    (hb₁ ▸ hplaced₁) s hs hpc
  have hkept : ∀ q < flag, t.regs q = s.regs q := fun q hq => htkeep q (by
    rintro mf ⟨⟩
    exact hq.ne)
  have hinst := hrewind.placed hplaced₂
  have htpc' : b₁.newLabel.2.curAddr = t.pc := by
    rw [htpc, hb₁]
    rfl
  rw [htpc'] at hinst
  obtain ⟨u, htu, hu, hupc, huregs⟩ := runs_rewindOuter n tables other hinst ht hc
  have hnext : t.pc + 1 = (b₂.newLabel.2.resolve b₂.newLabel.1).curAddr := by
    rw [← htpc', ← hrewind.curAddr]
    rfl
  cases as with
  | nil =>
      rw [if_pos rfl, hend] at hupc
      refine ⟨u, _, hst.trans htu, scans_cursorOn .., ⟨hu, hupc, fun q hq => ?_⟩, ?_⟩
      · rw [huregs, hkept q hq]
      · rw [huregs]
        exact htflag flag rfl
  | cons a rest =>
      rw [if_neg (by simp), hnext] at hupc
      obtain ⟨w, c', huw, hc', hw, hwflag⟩ :=
        runs_search himpl hflag' htest hplaced₃ hloop hd hu hupc
      refine ⟨w, c', hst.trans (htu.trans huw), hc', ⟨hw.cursors, hw.pc.trans hend, ?_⟩, ?_⟩
      · intro q hq
        rw [hw.regs q hq, huregs, hkept q hq]
      · rw [hwflag, huregs, htflag flag rfl]
        split_ifs
        · rfl
        · rfl

/-! ## The second pass -/

def rightRows (outer inner : JoinTable) (m : Meaning) (onPredicate whereClause : Option SqlExpr)
    (outputs : List SqlExpr) (as : List Row) (r : Row) : List (List Value) :=
  if as.any (onRows outer inner m onPredicate · r) then []
  else project outer inner m whereClause outputs (.int 0) (none, some r)

def rightFails (outer inner : JoinTable) (m : Meaning) (onPredicate : Option SqlExpr)
    (as : List Row) (r : Row) : Prop :=
  as.any (onRows outer inner m onPredicate · r) = false ∧ outer.table.withoutRowid = true

theorem leads_rightBody (himpl : Implements n (scanEffects tables other) outer inner code m)
    (hflag : flag < b.nextReg) (hsearch : emitSearch code onPredicate b flag = .ok b₁)
    (hnull : emitNullRow outer inner code whereClause outputs b₁ flag 0 = .ok b₂)
    (hplaced : b₂.Placed prog addr) (hc : Scans outer as c) (hd : OnRow inner d (some r))
    (hs : At c d s) (hpc : s.pc = b.curAddr) :
    Machine.Leads n (scanEffects tables other) prog (rightFails outer inner m onPredicate as r) s
      (rightRows outer inner m onPredicate whereClause outputs as r)
      fun t => ∃ c', Scans outer as c' ∧ At c' d t ∧ t.pc = b₂.curAddr := by
  have hgrowsNull := grows_emitNullRow himpl hnull
  obtain ⟨t, c', hst, hc', ht, htflag⟩ := (runs_emitSearch himpl hflag hsearch).2 prog addr
    (hplaced.of_extends hgrowsNull.extends) as r c d hc hd s hs hpc
  have hnullRow : OnRow outer { c' with nullRow := true } none := ⟨hc'.index, rfl, nofun⟩
  have hset (pc : ℕ) : At { c' with nullRow := true } d
      (t.setCursor 0 { c' with nullRow := true } pc) := by
    refine ⟨Machine.setCursor_self 0 _, ?_⟩
    rw [Machine.setCursor_of_ne (by decide)]
    exact ht.cursors.inner
  have hlast := leads_emitNullRow (none, some r) himpl hnull prog addr hplaced t ht.cursors
    ht.pc _ htflag c' ht.cursors.outer _ d hset hnullRow hd
  refine (Machine.Leads.after hst hlast).imp ?_ rfl ?_
  · rw [hc'.index]
    rfl
  · rintro u (hu | hu)
    · exact ⟨c', hc', hu.cursors, hu.pc⟩
    · exact ⟨{ c' with nullRow := true }, ⟨hc'.index, hc'.rows⟩, hu.cursors, hu.pc⟩

theorem emitRightPass_ok
    (h : emitRightPass outer inner code onPredicate whereClause outputs b = .ok b') :
    ∃ b₁ b₂ start b₃ b₄, b₁ = b.allocReg.2 ∧
      b₂ = (b₁.newLabel.2.emitJump .rewind 1 b₁.newLabel.1 0).2 ∧
      start = b₂.newLabel.2.resolve b₂.newLabel.1 ∧
      emitSearch code onPredicate start b.nextReg = .ok b₃ ∧
      emitNullRow outer inner code whereClause outputs b₃ b.nextReg 0 = .ok b₄ ∧
      b' = (b₄.emitJump .next 1 b₂.newLabel.1 0).2.resolve b₁.newLabel.1 := by
  obtain ⟨b₃, hsearch, h⟩ := Result.bind_eq_ok.mp h
  obtain ⟨b₄, hnull, hret⟩ := Result.bind_eq_ok.mp h
  exact ⟨_, _, _, b₃, b₄, rfl, rfl, rfl, hsearch, hnull, (Except.ok.inj hret).symm⟩

theorem leads_emitRightPass (himpl : Implements n (scanEffects tables other) outer inner code m)
    (h : emitRightPass outer inner code onPredicate whereClause outputs b = .ok b') :
    b.Grows b' ∧ ∀ prog addr, b'.Placed prog addr → ∀ as bs c d, Scans outer as c →
      Scans inner bs d → ∀ s : Machine A TableCursor W, At c d s → s.pc = b.curAddr →
        Machine.Leads n (scanEffects tables other) prog
          (∃ r ∈ bs, rightFails outer inner m onPredicate as r) s
          (bs.flatMap (rightRows outer inner m onPredicate whereClause outputs as))
          fun t => t.pc = b'.curAddr := by
  obtain ⟨b₁, b₂, start, b₃, b₄, hb₁, hb₂, hdef, hsearch, hnull, rfl⟩ := emitRightPass_ok h
  have hrewind := b₁.newLabel.2.emitsJump .rewind 1 b₁.newLabel.1 0
  rw [← hb₂] at hrewind
  have hstart : b₂.Grows start := hdef ▸ grows_closes (.refl _)
  have hflag : b.nextReg < start.nextReg := by
    have hle : b₁.nextReg ≤ start.nextReg := hrewind.grows.regs.trans hstart.regs
    rw [hb₁] at hle
    exact (Int.lt_succ _).trans_le hle
  have hgrowsSearch := (runs_emitSearch himpl hflag hsearch).1
  have hgrowsNull := grows_emitNullRow himpl hnull
  have hnext := b₄.emitsJump .next 1 b₂.newLabel.1 0
  have hloopGrows := hgrowsSearch.trans (hgrowsNull.trans hnext.grows)
  have hbody := hrewind.grows.trans (hstart.trans hloopGrows)
  have halloc : b.Grows b₁ := hb₁ ▸ b.grows_allocReg
  refine ⟨halloc.trans (grows_closes hbody), ?_⟩
  intro prog addr hplaced as bs c d hc hd s hs hpc
  obtain ⟨hplacedNext, hend⟩ := placed_closes hbody hplaced
  have hplaced₄ := hplacedNext.of_extends hnext.grows.extends
  have hplacedStart := hplacedNext.of_extends hloopGrows.extends
  have hplaced₂ := hplacedStart.of_extends hstart.extends
  have hloop : addr b₂.newLabel.1 = start.curAddr := by
    rw [hdef]
    exact (placed_closes (.refl _) (hdef ▸ hplacedStart)).2
  have hpass : ∀ r rest c, Scans outer as c → ∀ t : Machine A TableCursor W,
      At c (cursorOn inner bs (r :: rest)) t → t.pc = start.curAddr →
      Machine.Leads n (scanEffects tables other) prog
        (∃ r' ∈ r :: rest, rightFails outer inner m onPredicate as r') t
        ((r :: rest).flatMap (rightRows outer inner m onPredicate whereClause outputs as))
        fun u => u.pc = (b₄.emitJump .next 1 b₂.newLabel.1 0).2.curAddr := by
    intro r rest
    induction rest generalizing r with
    | nil =>
        intro c hc t ht htpc
        have hfirst := leads_rightBody himpl hflag hsearch hnull hplaced₄ hc
          (onRow_cursorOn inner bs r []) ht htpc
        refine (hfirst.bind False []
          (fun u => u.pc = (b₄.emitJump .next 1 b₂.newLabel.1 0).2.curAddr) ?_).imp ?_ ?_
          fun u hu => hu
        · rintro u ⟨c', hc', hu, hupc⟩
          have hinst := hnext.placed hplacedNext
          rw [← hupc] at hinst
          obtain ⟨v, huv, -, hvpc, -⟩ := runs_nextInner n tables other hinst hu
          rw [if_pos rfl, hupc] at hvpc
          exact huv.leads _ (hvpc.trans hnext.curAddr.symm)
        · simp
        · simp
    | cons r' rest ih =>
        intro c hc t ht htpc
        have hfirst := leads_rightBody himpl hflag hsearch hnull hplaced₄ hc
          (onRow_cursorOn inner bs r (r' :: rest)) ht htpc
        refine (hfirst.bind
          (∃ x ∈ r' :: rest, rightFails outer inner m onPredicate as x)
          ((r' :: rest).flatMap
            (rightRows outer inner m onPredicate whereClause outputs as))
          (fun u => u.pc = (b₄.emitJump .next 1 b₂.newLabel.1 0).2.curAddr) ?_).imp ?_ ?_
          fun u hu => hu
        · rintro u ⟨c', hc', hu, hupc⟩
          have hinst := hnext.placed hplacedNext
          rw [← hupc] at hinst
          obtain ⟨v, huv, hv, hvpc, -⟩ := runs_nextInner n tables other hinst hu
          rw [if_neg (by simp), hloop] at hvpc
          exact (Machine.Leads.after huv (ih r' c' hc' v hv hvpc)).imp Iff.rfl rfl fun w hw => hw
        · simp
        · simp
  have hinst := hrewind.placed hplaced₂
  have hpc' : b₁.newLabel.2.curAddr = s.pc := by
    rw [hpc, hb₁]
    rfl
  rw [hpc'] at hinst
  obtain ⟨t, hst, ht, htpc, -⟩ := runs_rewindInner n tables other
    hinst hs hd
  cases bs with
  | nil =>
      rw [if_pos rfl, hend] at htpc
      exact (hst.leads (fun t => t.pc = _) htpc).imp (by simp) rfl fun t ht => ht
  | cons r rest =>
      have hnextPc : s.pc + 1 = start.curAddr := by
        rw [← hpc', ← hrewind.curAddr, hdef]
        rfl
      rw [if_neg (by simp), hnextPc] at htpc
      refine (Machine.Leads.after hst (hpass r rest c hc t ht htpc)).imp Iff.rfl rfl ?_
      intro u hu
      exact hu

/-! ## The whole program -/

def started (w : W) : Machine A TableCursor W :=
  ⟨0, fun _ => .null, fun _ => none, fun _ => none, w, fun _ => false, .eq⟩

def programRows (outer inner : JoinTable) (m : Meaning) (onPredicate whereClause : Option SqlExpr)
    (outputs : List SqlExpr) (leftJoin fullJoin : Bool) (as bs : List Row) : List (List Value) :=
  as.flatMap (outerRows outer inner m onPredicate whereClause outputs leftJoin bs) ++
    if fullJoin && !as.isEmpty then
      bs.flatMap (rightRows outer inner m onPredicate whereClause outputs as)
    else []

def programFails (outer inner : JoinTable) (m : Meaning) (onPredicate : Option SqlExpr)
    (leftJoin fullJoin : Bool) (as bs : List Row) : Prop :=
  (∃ a ∈ as, outerFails outer inner m onPredicate leftJoin bs a) ∨
    (fullJoin && !as.isEmpty) = true ∧ ∃ r ∈ bs, rightFails outer inner m onPredicate as r

theorem leads_loops (himpl : Implements n (scanEffects tables other) outer inner code m)
    {label : Label} (hloop : emitOuterLoop outer inner code onPredicate whereClause outputs
      (b.emitJump .rewind 0 label 0).2 leftJoin = .ok b₁)
    (hpass : (if fullJoin then emitRightPass outer inner code onPredicate whereClause outputs b₁
      else .ok b₁) = .ok b₂) :
    b.Grows b₂ ∧ ∀ prog addr, b₂.Placed prog addr → addr label = b₂.curAddr →
      ∀ as bs c d, Scans outer as c → Scans inner bs d → ∀ s : Machine A TableCursor W, At c d s →
        s.pc = b.curAddr →
        Machine.Leads n (scanEffects tables other) prog
          (programFails outer inner m onPredicate leftJoin fullJoin as bs) s
          (programRows outer inner m onPredicate whereClause outputs leftJoin fullJoin as bs)
          fun t => t.pc = b₂.curAddr := by
  have hrewind := b.emitsJump .rewind 0 label 0
  obtain ⟨hgrowsLoop, hleads⟩ := leads_emitOuterLoop himpl hloop
  have hgrowsPass : b₁.Grows b₂ := by
    cases fullJoin with
    | true => exact (leads_emitRightPass himpl hpass).1
    | false =>
        cases hpass
        exact .refl _
  refine ⟨hrewind.grows.trans (hgrowsLoop.trans hgrowsPass), ?_⟩
  intro prog addr hplaced hend as bs c d hc hd s hs hpc
  have hplaced₁ := hplaced.of_extends hgrowsPass.extends
  have hinst := hrewind.placed (hplaced₁.of_extends hgrowsLoop.extends)
  rw [← hpc] at hinst
  obtain ⟨t, hst, ht, htpc, -⟩ := runs_rewindOuter n tables other
    hinst hs hc
  cases as with
  | nil =>
      rw [if_pos rfl, hend] at htpc
      refine (hst.leads (fun t => t.pc = b₂.curAddr) htpc).imp ?_ ?_ fun t ht => ht
      · simp [programFails]
      · simp [programRows]
  | cons a rest =>
      have hstartPc : t.pc = (b.emitJump .rewind 0 label 0).2.curAddr := by
        rw [htpc, if_neg (by simp), hrewind.curAddr, hpc]
      have hfirst := hleads prog addr hplaced₁ (a :: rest) bs a rest d hd t ht hstartPc
      refine (Machine.Leads.after hst (hfirst.bind
        (fullJoin = true ∧
          ∃ r ∈ bs, rightFails outer inner m onPredicate (a :: rest) r)
        (if fullJoin then
            bs.flatMap (rightRows outer inner m onPredicate whereClause outputs (a :: rest))
          else [])
        (fun t => t.pc = b₂.curAddr) ?_)).imp ?_ ?_ fun t ht => ht
      · rintro u ⟨d', hd', hu⟩
        cases fullJoin with
        | true =>
            obtain ⟨-, hleads'⟩ := leads_emitRightPass himpl hpass
            refine (hleads' prog addr hplaced (a :: rest) bs _ d' (scans_cursorOn ..) hd' u
              hu.cursors hu.pc).imp (by simp) (by simp) fun t ht => ht
        | false =>
            cases hpass
            exact ((Machine.Runs.refl u).leads (fun t => t.pc = _) hu.pc).imp (by simp)
              (by simp) fun t ht => ht
      · simp [programFails]
      · simp [programRows]

theorem compileCrossJoin_ok
    (h : compileCrossJoin outer inner code onPredicate whereClause outputs leftJoin fullJoin =
      .ok (some prog)) :
    ∃ b₀ b₁ b₂ b₃ b₄ b₅ b₆, b₀ = ProgramBuilder.new ∧
      b₁ = (b₀.newLabel.2.emitJump .init 0 b₀.newLabel.1 0).2 ∧
      b₂ = openTable b₁ 0 outer ∧ b₃ = openTable b₂ 1 inner ∧
      emitOuterLoop outer inner code onPredicate whereClause outputs
        (b₃.newLabel.2.emitJump .rewind 0 b₃.newLabel.1 0).2 leftJoin = .ok b₄ ∧
      (if fullJoin then emitRightPass outer inner code onPredicate whereClause outputs b₄
        else .ok b₄) = .ok b₅ ∧
      b₆ = ((b₅.resolve b₃.newLabel.1).emit .halt 0 0 0).2 ∧
      (((b₆.resolve b₀.newLabel.1).emit .transaction 0 0 0).2.emit .goto 0 b₁.curAddr 0).2.finish =
        some prog := by
  obtain ⟨b₄, hloop, h⟩ := Result.bind_eq_ok.mp h
  obtain ⟨b₅, hpass, hret⟩ := Result.bind_eq_ok.mp h
  exact ⟨_, _, _, _, b₄, b₅, _, rfl, rfl, rfl, rfl, hloop, hpass, rfl, Except.ok.inj hret⟩

theorem exists_placed (h : b.finish = some prog) : ∃ addr, b.Placed prog addr :=
  ⟨_, ProgramBuilder.placed_of_finish h⟩

theorem emits_openTable (b : ProgramBuilder) (cursor : Int) (t : JoinTable) :
    b.Emits (openTable b cursor t) ⟨.openRead, cursor, t.rootpage, 0,
      if t.table.withoutRowid then .keyInfo t.keyInfo
        else .int (Int64.ofNat t.table.columns.length), 0⟩ :=
  (b.emits .openRead cursor t.rootpage 0).setP4 _

theorem scans_opened (t : JoinTable) (rows : List Row) :
    Scans t rows (.opened (P4.isKeyInfo (if t.table.withoutRowid then .keyInfo t.keyInfo
      else .int (Int64.ofNat t.table.columns.length))) rows) := by
  refine ⟨?_, rfl⟩
  rw [TableCursor.opened]
  cases t.table.withoutRowid with
  | true => rfl
  | false => rfl

variable (n tables other) in
theorem runs_openTable {cursor : Int} {t : JoinTable}
    (hplaced : (openTable b cursor t).Placed prog addr) (hpc : s.pc = b.curAddr) :
    ∃ u c, Machine.Runs n (scanEffects tables other) prog s [] u ∧
      u.pc = (openTable b cursor t).curAddr ∧ u.world = s.world ∧ u.cursors cursor = some c ∧
      Scans t (tables s.world t.rootpage) c ∧ ∀ k, k ≠ cursor → u.cursors k = s.cursors k := by
  have hopen := emits_openTable b cursor t
  have hinst := hopen.placed hplaced
  rw [← hpc] at hinst
  refine ⟨_, _, Machine.runs_openRead hinst, ?_, rfl, Machine.setCursor_self .., scans_opened t _,
    ?_⟩
  · rw [Machine.setCursor_pc, hopen.curAddr, hpc]
  · intro k hk
    exact Machine.setCursor_of_ne hk _

theorem leads_program (himpl : Implements n (scanEffects tables other) outer inner code m)
    (h : compileCrossJoin outer inner code onPredicate whereClause outputs leftJoin fullJoin =
      .ok (some prog)) (w : W) :
    Machine.Leads n (scanEffects tables other) prog
      (programFails outer inner m onPredicate leftJoin fullJoin (tables w outer.rootpage)
        (tables w inner.rootpage)) (started w)
      (programRows outer inner m onPredicate whereClause outputs leftJoin fullJoin
        (tables w outer.rootpage) (tables w inner.rootpage))
      fun t => t.step n (scanEffects tables other) prog = .done := by
  obtain ⟨b₀, b₁, b₂, b₃, b₄, b₅, b₆, hb₀, hb₁, hb₂, hb₃, hloop, hpass, hb₆, hprog⟩ :=
    compileCrossJoin_ok h
  have hinit := b₀.newLabel.2.emitsJump .init 0 b₀.newLabel.1 0
  rw [← hb₁] at hinit
  have hopen : b₁.Grows b₂ := hb₂ ▸ (emits_openTable b₁ 0 outer).grows
  have hopen' : b₂.Grows b₃ := hb₃ ▸ (emits_openTable b₂ 1 inner).grows
  obtain ⟨hgrowsLoops, hleads⟩ := leads_loops himpl hloop hpass
  have hhalt := (b₅.resolve b₃.newLabel.1).emits .halt 0 0 0
  rw [← hb₆] at hhalt
  have hloops := grows_closes hgrowsLoops
  have hbody := hinit.grows.trans (hopen.trans (hopen'.trans (hloops.trans hhalt.grows)))
  have htransaction := (b₆.resolve b₀.newLabel.1).emits .transaction 0 0 0
  have hgoto := ((b₆.resolve b₀.newLabel.1).emit .transaction 0 0 0).2.emits .goto 0 b₁.curAddr 0
  obtain ⟨addr, hplaced⟩ := exists_placed hprog
  have hplacedTrans := hplaced.of_extends hgoto.grows.extends
  obtain ⟨hplaced₆, hsetup⟩ :=
    placed_closes hbody (hplacedTrans.of_extends htransaction.grows.extends)
  have hplaced₅' := hplaced₆.of_extends hhalt.grows.extends
  obtain ⟨hplaced₅, hend⟩ := placed_closes hgrowsLoops hplaced₅'
  have hplaced₃ := hplaced₅'.of_extends hloops.extends
  have hplaced₂ := hplaced₃.of_extends hopen'.extends
  have hplaced₁ := hplaced₂.of_extends hopen.extends
  -- Init goes to the setup at the end, and that back to the code after Init.
  have hinst := hinit.placed hplaced₁
  have hstep₁ : Machine.Runs n (scanEffects tables other) prog (started (A := A) w) []
      ((started w).goto b₆.curAddr) := by
    have hpc₀ : b₀.newLabel.2.curAddr = (started (A := A) w).pc := by
      rw [hb₀]
      rfl
    rw [hpc₀, hsetup] at hinst
    exact .one hinst (by simp [Machine.exec, Instruction.new])
  have hstep₂ : Machine.Runs n (scanEffects tables other) prog
      ((started (A := A) w).goto b₆.curAddr) [] ((started w).goto (b₆.curAddr + 1)) :=
    Machine.runs_transaction (htransaction.placed hplacedTrans)
  have hstep₃ : Machine.Runs n (scanEffects tables other) prog
      ((started (A := A) w).goto (b₆.curAddr + 1)) [] ((started w).goto b₁.curAddr) := by
    have hinst := hgoto.placed hplaced
    rw [htransaction.curAddr] at hinst
    exact runs_goto hinst
  obtain ⟨t, c, hst, htpc, htworld, htc, hc, -⟩ := runs_openTable n tables other (hb₂ ▸ hplaced₂)
    (s := (started (A := A) w).goto b₁.curAddr) rfl
  obtain ⟨u, d, htu, hupc, huworld, hud, hd, hukeep⟩ := runs_openTable n tables other
    (hb₃ ▸ hplaced₃) (htpc.trans (congrArg ProgramBuilder.curAddr hb₂.symm))
  have huc : u.cursors 0 = some c := (hukeep 0 (by decide)).trans htc
  rw [htworld] at hd
  have hpc₃ : u.pc = b₃.newLabel.2.curAddr := by
    rw [hupc, hb₃]
    rfl
  have hlast := hleads prog addr hplaced₅ hend (tables w outer.rootpage) (tables w inner.rootpage)
    c d hc hd u ⟨huc, hud⟩ hpc₃
  have hruns := hstep₁.trans (hstep₂.trans (hstep₃.trans (hst.trans htu)))
  refine (Machine.Leads.after hruns hlast).imp Iff.rfl rfl ?_
  intro t ht
  have hinst := hhalt.placed hplaced₆
  have htpc : (b₅.resolve b₃.newLabel.1).curAddr = t.pc := ht.symm
  rw [htpc] at hinst
  rw [Machine.step_eq hinst]
  rfl

end

end Rustqlite.Codegen.Join
