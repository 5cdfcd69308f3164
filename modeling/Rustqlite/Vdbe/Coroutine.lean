import Mathlib.Data.Set.Lattice
import Rustqlite.Vdbe.Runs

/-!
# Coroutines

A coroutine runs between the yields of its caller.  It works in a region of its
own and hands over a row in a block of registers; what it produces does not
depend on what the caller does elsewhere in the meantime.
-/

namespace Rustqlite.Vdbe

open Foundation

variable {A C W : Type}

/-- Registers, cursors and the addresses of `Once` opcodes. -/
structure Region where
  regs : Set Int
  cursors : Set Int
  onces : Set Nat

variable {R R' : Region} {regs : Set Int} {r first : Int} {t own : Machine A C W} {k : Nat}

namespace Region

def ofRegs (regs : Set Int) : Region := ⟨regs, ∅, ∅⟩

def withRegs (R : Region) (regs : Set Int) : Region := { R with regs := R.regs ∪ regs }

structure Apart (R R' : Region) : Prop where
  regs : ∀ r ∈ R.regs, r ∉ R'.regs
  cursors : ∀ c ∈ R.cursors, c ∉ R'.cursors
  onces : ∀ p ∈ R.onces, p ∉ R'.onces

theorem Apart.symm (h : R.Apart R') : R'.Apart R :=
  ⟨fun r hr hr' => h.regs r hr' hr, fun c hc hc' => h.cursors c hc' hc,
    fun p hp hp' => h.onces p hp' hp⟩

theorem apart_ofRegs (h : ∀ r ∈ R.regs, r ∉ regs) : R.Apart (ofRegs regs) :=
  ⟨h, fun _ _ hc => hc, fun _ _ hp => hp⟩

end Region

namespace Machine

structure Keeps (R : Region) (s t : Machine A C W) : Prop where
  regs : ∀ r ∉ R.regs, t.regs r = s.regs r
  accs : ∀ r ∉ R.regs, t.accs r = s.accs r
  cursors : ∀ c ∉ R.cursors, t.cursors c = s.cursors c
  onces : ∀ p ∉ R.onces, t.onceDone p = s.onceDone p
  world : t.world = s.world

structure Agrees (R : Region) (s t : Machine A C W) : Prop where
  regs : ∀ r ∈ R.regs, t.regs r = s.regs r
  accs : ∀ r ∈ R.regs, t.accs r = s.accs r
  cursors : ∀ c ∈ R.cursors, t.cursors c = s.cursors c
  onces : ∀ p ∈ R.onces, t.onceDone p = s.onceDone p
  world : t.world = s.world

namespace Keeps

variable {R R' : Region} {s t u : Machine A C W}

theorem refl (R : Region) (s : Machine A C W) : Keeps R s s :=
  ⟨fun _ _ => rfl, fun _ _ => rfl, fun _ _ => rfl, fun _ _ => rfl, rfl⟩

theorem trans (h : Keeps R s t) (h' : Keeps R t u) : Keeps R s u where
  regs r hr := (h'.regs r hr).trans (h.regs r hr)
  accs r hr := (h'.accs r hr).trans (h.accs r hr)
  cursors c hc := (h'.cursors c hc).trans (h.cursors c hc)
  onces p hp := (h'.onces p hp).trans (h.onces p hp)
  world := h'.world.trans h.world

theorem mono (h : Keeps R s t) (hregs : R.regs ⊆ R'.regs) (hcursors : R.cursors ⊆ R'.cursors)
    (honces : R.onces ⊆ R'.onces) : Keeps R' s t where
  regs r hr := h.regs r fun hr' => hr (hregs hr')
  accs r hr := h.accs r fun hr' => hr (hregs hr')
  cursors c hc := h.cursors c fun hc' => hc (hcursors hc')
  onces p hp := h.onces p fun hp' => hp (honces hp')
  world := h.world

theorem widen {regs' : Set Int} (h : Keeps (Region.ofRegs regs) s t) (hsub : regs ⊆ regs') :
    Keeps (Region.ofRegs regs') s t :=
  h.mono hsub subset_rfl subset_rfl

theorem withRegs (h : Keeps R s t) (regs : Set Int) : Keeps (R.withRegs regs) s t :=
  h.mono Set.subset_union_left subset_rfl subset_rfl

theorem goto (h : Keeps R s t) (pc : Nat) : Keeps R s (t.goto pc) :=
  ⟨h.regs, h.accs, h.cursors, h.onces, h.world⟩

theorem set (h : Keeps R s t) (hr : r ∈ R.regs) (v : Value) : Keeps R s (t.set r v) where
  regs r' hr' := by
    have hne : r' ≠ r := fun heq => hr' (heq ▸ hr)
    exact (Function.update_of_ne hne _ _).trans (h.regs r' hr')
  accs := h.accs
  cursors := h.cursors
  onces := h.onces
  world := h.world

end Keeps

theorem Agrees.refl (R : Region) (s : Machine A C W) : Agrees R s s :=
  ⟨fun _ _ => rfl, fun _ _ => rfl, fun _ _ => rfl, fun _ _ => rfl, rfl⟩

theorem Agrees.keeps {s u : Machine A C W} (h : Agrees R s t) (hkeeps : Keeps R' t u)
    (hapart : R.Apart R') : Agrees R s u where
  regs r hr := (hkeeps.regs r (hapart.regs r hr)).trans (h.regs r hr)
  accs r hr := (hkeeps.accs r (hapart.regs r hr)).trans (h.accs r hr)
  cursors c hc := (hkeeps.cursors c (hapart.cursors c hc)).trans (h.cursors c hc)
  onces p hp := (hkeeps.onces p (hapart.onces p hp)).trans (h.onces p hp)
  world := hkeeps.world.trans h.world

end Machine

/-! ## What a coroutine produces -/

structure Coroutine where
  addr : Int
  block : Int
  ncol : Nat
  own : Region

def blockSet (first : Int) (n : Nat) : Set Int := {r | first ≤ r ∧ r < first + n}

theorem mem_block {n : Nat} : r ∈ block first n ↔ r ∈ blockSet first n := by
  unfold block
  rw [List.mem_map]
  constructor
  · rintro ⟨j, hj, rfl⟩
    rw [List.mem_range] at hj
    exact ⟨by omega, by omega⟩
  · rintro ⟨hle, hlt⟩
    exact ⟨(r - first).toNat, List.mem_range.mpr (by omega), by omega⟩

def Machine.rowAt (s : Machine A C W) (first : Int) (n : Nat) : List Value :=
  (block first n).map s.regs

section Rows

variable {n : Numerals} {fx : Effects A C W} {prog : List Instruction} {s t : Machine A C W}

open Machine

theorem rowAt_keeps (h : s.Keeps R t) (hout : ∀ r ∈ blockSet first k, r ∉ R.regs) :
    t.rowAt first k = s.rowAt first k :=
  List.map_congr_left fun r hr => h.regs r (hout r (mem_block.mp hr))

theorem exec_compare (keys : List KeyField) (a b : Int) (k : Nat) :
    s.exec n fx prog { Instruction.new .compare a b k with p4 := .keyInfo keys } =
      .next { s with
        pc := s.pc + 1
        lastCompare := Machine.compareKeys keys (s.rowAt a k) (s.rowAt b k) } := rfl

def branch (o : Ordering) (lt eq gt : Nat) : Nat :=
  match o with
  | .lt => lt
  | .eq => eq
  | .gt => gt

theorem exec_jump (lt eq gt : Nat) :
    s.exec n fx prog (.new .jump lt eq gt) = .next (s.goto (branch s.lastCompare lt eq gt)) := by
  simp only [exec, Instruction.new]
  cases s.lastCompare <;> rfl

theorem runs_compare {keys : List KeyField} {a b : Int} {lt eq gt : Nat} (hcompare : prog[s.pc]? =
      some { Instruction.new .compare a b k with p4 := .keyInfo keys })
    (hjump : prog[s.pc + 1]? = some (.new .jump lt eq gt)) :
    ∃ t, s.Runs n fx prog [] t ∧ s.Keeps (Region.ofRegs ∅) t ∧
      t.pc = branch (Machine.compareKeys keys (s.rowAt a k) (s.rowAt b k)) lt eq gt := by
  have hfirst : s.Runs n fx prog [] _ := .one hcompare (exec_compare keys a b k)
  exact ⟨_, hfirst.trans (.one hjump (exec_jump lt eq gt)),
    ⟨fun _ _ => rfl, fun _ _ => rfl, fun _ _ => rfl, fun _ _ => rfl, rfl⟩, rfl⟩

theorem exec_resultRow (first : Int) (k : Nat) :
    s.exec n fx prog (.new .resultRow first k 0) = .row (s.rowAt first k) (s.goto (s.pc + 1)) := rfl

end Rows

namespace Coroutine

variable (n : Numerals) (fx : Effects A C W) (prog : List Instruction)

def inside (c : Coroutine) : Region := c.own.withRegs (blockSet c.block c.ncol)

def EndsAt (prog : List Instruction) (k : Nat) : Prop :=
  prog[k]?.map Instruction.opcode = some .endCoroutine

/--
From the address on, with its own region as in the machine given, the coroutine
produces these rows, one for each time it is resumed, and then ends.
-/
inductive Produces (c : Coroutine) : Nat → Machine A C W → List (List Value) → Prop where
  | done {k : Nat} {own : Machine A C W}
      (run : ∀ (s : Machine A C W) (ret : Nat), s.pc = k → own.Agrees c.own s →
        s.regs c.addr = address ret →
        ∃ t, s.Runs n fx prog [] t ∧ s.Keeps c.inside t ∧
          prog[t.pc]? = some (Instruction.new .endCoroutine c.addr 0 0)) :
      Produces c k own []
  | row {k k' : Nat} {own own' : Machine A C W} {vs : List Value} {rows : List (List Value)}
      (goes : ¬EndsAt prog k)
      (run : ∀ (s : Machine A C W) (ret : Nat), s.pc = k → own.Agrees c.own s →
        s.regs c.addr = address ret →
        ∃ t, s.Runs n fx prog [] t ∧ s.Keeps c.inside t ∧ t.pc + 1 = k' ∧
          prog[t.pc]? = some (Instruction.new .yield c.addr 0 0) ∧
          t.rowAt c.block c.ncol = vs ∧ own'.Agrees c.own t)
      (rest : Produces c k' own' rows) :
      Produces c k own (vs :: rows)

def Ready (c : Coroutine) (rows : List (List Value)) (s : Machine A C W) : Prop :=
  ∃ k own, c.Produces n fx prog k own rows ∧ own.Agrees c.own s ∧ s.regs c.addr = address k ∧
    k ≤ prog.length

/-- What a `Yield` of the caller changes. -/
def resumed (c : Coroutine) : Region := c.inside.withRegs {c.addr}

end Coroutine

section Yield

variable {n : Numerals} {fx : Effects A C W} {prog : List Instruction} {c : Coroutine}
  {s : Machine A C W} {after : Int} {rows : List (List Value)}

theorem Coroutine.Ready.keeps (h : c.Ready n fx prog rows s) (hkeeps : s.Keeps R t)
    (hapart : c.own.Apart R) (haddr : c.addr ∉ R.regs) : c.Ready n fx prog rows t := by
  obtain ⟨k, own, hprod, hagrees, hk, hle⟩ := h
  exact ⟨k, own, hprod, hagrees.keeps hkeeps hapart, (hkeeps.regs _ haddr).trans hk, hle⟩

theorem yieldTarget_of_goes (i : Instruction) (h : ¬Coroutine.EndsAt prog k) :
    Machine.yieldTarget prog i k = k := if_neg h

theorem yieldTarget_of_ends (i : Instruction) (h : Coroutine.EndsAt prog k) :
    Machine.yieldTarget prog i k = i.p2.toNat := if_pos h

theorem keeps_address (c : Coroutine) (s : Machine A C W) (v : Value) (pc : Nat) :
    s.Keeps c.resumed ((s.set c.addr v).goto pc) :=
  ((Machine.Keeps.refl _ s).set (Or.inr rfl) v).goto pc

theorem exists_resumed (hprog : prog.length < 2 ^ 63) (haddr : c.addr ∉ c.inside.regs)
    (hfetch : prog[s.pc]? = some (.new .yield c.addr after 0)) (hgoes : ¬Coroutine.EndsAt prog k)
    (hagrees : own.Agrees c.own s) (hk : s.regs c.addr = address k) (hle : k ≤ prog.length) :
    ∃ t, s.Runs n fx prog [] t ∧ s.Keeps c.resumed t ∧ t.pc = k ∧ own.Agrees c.own t ∧
      t.regs c.addr = address (s.pc + 1) := by
  have hexec : s.exec n fx prog (.new .yield c.addr after 0) =
      .next ((s.set c.addr (address (s.pc + 1))).goto k) := by
    simp only [Machine.exec, Instruction.new, hk, address?_address (Nat.lt_of_le_of_lt hle hprog)]
    rw [yieldTarget_of_goes _ hgoes]
  have hkeeps : s.Keeps (Region.ofRegs {c.addr}) ((s.set c.addr (address (s.pc + 1))).goto k) :=
    ((Machine.Keeps.refl _ s).set rfl _).goto k
  refine ⟨_, .one hfetch hexec, keeps_address c s _ k, rfl, hagrees.keeps hkeeps ?_, ?_⟩
  · refine Region.apart_ofRegs ?_
    rintro r hr rfl
    exact haddr (Or.inl hr)
  · exact Function.update_self ..

theorem yield_row (hprog : prog.length < 2 ^ 63) (haddr : c.addr ∉ c.inside.regs)
    (hfetch : prog[s.pc]? = some (.new .yield c.addr after 0))
    (hnext : ¬Coroutine.EndsAt prog (s.pc + 1)) {vs : List Value}
    (h : c.Ready n fx prog (vs :: rows) s) :
    ∃ t, s.Runs n fx prog [] t ∧ s.Keeps c.resumed t ∧ t.pc = s.pc + 1 ∧
      t.rowAt c.block c.ncol = vs ∧ c.Ready n fx prog rows t := by
  obtain ⟨k, own, hprod, hagrees, hk, hle⟩ := h
  cases hprod with
  | row hgoes run rest =>
      obtain ⟨t, hin, hkin, hpc, hown, hret⟩ :=
        exists_resumed (n := n) hprog haddr hfetch hgoes hagrees hk hle
      obtain ⟨u, hruns, hkeeps, rfl, hyield, hrow, hown'⟩ := run t _ hpc hown hret
      have hlt : s.pc < prog.length := (List.getElem?_eq_some_iff.mp hfetch).1
      have hback : u.regs c.addr = address (s.pc + 1) := (hkeeps.regs _ haddr).trans hret
      have hexec : u.exec n fx prog (.new .yield c.addr 0 0) =
          .next ((u.set c.addr (address (u.pc + 1))).goto (s.pc + 1)) := by
        simp only [Machine.exec, Instruction.new, hback,
            address?_address (by omega : s.pc + 1 < 2 ^ 63)]
        rw [yieldTarget_of_goes _ hnext]
      have haway : u.Keeps (Region.ofRegs {c.addr})
          ((u.set c.addr (address (u.pc + 1))).goto (s.pc + 1)) :=
        ((Machine.Keeps.refl _ u).set rfl _).goto _
      have hapart : c.own.Apart (Region.ofRegs {c.addr}) := by
        refine Region.apart_ofRegs ?_
        rintro r hr rfl
        exact haddr (Or.inl hr)
      refine ⟨_, (hin.trans hruns).trans (.one hyield hexec),
        (hkin.trans (hkeeps.withRegs _)).trans (keeps_address c u _ _), rfl, ?_, ?_⟩
      · rw [← hrow]
        refine List.map_congr_left fun r hr => haway.regs r ?_
        rintro rfl
        exact haddr (Or.inr ((mem_block).mp hr))
      · exact ⟨_, _, rest, hown'.keeps haway hapart, Function.update_self ..,
          (List.getElem?_eq_some_iff.mp hyield).1⟩

theorem yield_done (hprog : prog.length < 2 ^ 63) (haddr : c.addr ∉ c.inside.regs)
    (hfetch : prog[s.pc]? = some (.new .yield c.addr after 0)) (h : c.Ready n fx prog [] s) :
    ∃ t, s.Runs n fx prog [] t ∧ s.Keeps c.resumed t ∧ t.pc = after.toNat := by
  obtain ⟨k, own, hprod, hagrees, hk, hle⟩ := h
  by_cases hends : Coroutine.EndsAt prog k
  · have hexec : s.exec n fx prog (.new .yield c.addr after 0) =
        .next ((s.set c.addr (address (s.pc + 1))).goto after.toNat) := by
      simp only [Machine.exec, Instruction.new, hk, address?_address (Nat.lt_of_le_of_lt hle hprog)]
      rw [yieldTarget_of_ends _ hends]
    exact ⟨_, .one hfetch hexec, keeps_address c s _ _, rfl⟩
  · cases hprod with
    | done run =>
        obtain ⟨t, hin, hkin, hpc, hown, hret⟩ :=
          exists_resumed (n := n) hprog haddr hfetch hends hagrees hk hle
        obtain ⟨u, hruns, hkeeps, hend⟩ := run t _ hpc hown hret
        have hlt : s.pc < prog.length := (List.getElem?_eq_some_iff.mp hfetch).1
        have hback : u.regs c.addr = address (s.pc + 1) := (hkeeps.regs _ haddr).trans hret
        have hexec : u.exec n fx prog (.new .endCoroutine c.addr 0 0) =
            .next ((u.set c.addr (address u.pc)).goto after.toNat) := by
          simp only [Machine.exec, Instruction.new, hback,
            address?_address (by omega : s.pc + 1 < 2 ^ 63), Nat.add_sub_cancel, hfetch, if_true]
        exact ⟨_, (hin.trans hruns).trans (.one hend hexec),
          (hkin.trans (hkeeps.withRegs _)).trans (keeps_address c u _ _), rfl⟩

end Yield

theorem Coroutine.Produces.length {n : Numerals} {fx : Effects A C W} {prog : List Instruction}
    {c : Coroutine} (haddr : c.addr ∉ c.own.regs) {rows : List (List Value)}
    (h : c.Produces n fx prog k own rows) : ∀ row ∈ rows, row.length = c.ncol := by
  induction h with
  | done run =>
      intro row hrow
      cases hrow
  | row goes run rest ih =>
      rename_i k k' own own' vs rows
      refine List.forall_mem_cons.mpr ⟨?_, ih⟩
      have hkeeps : own.Keeps (Region.ofRegs {c.addr}) ((own.set c.addr (address 0)).goto k) :=
        ((Machine.Keeps.refl _ own).set rfl _).goto k
      have hagrees : own.Agrees c.own ((own.set c.addr (address 0)).goto k) := by
        refine (Machine.Agrees.refl c.own own).keeps hkeeps (Region.apart_ofRegs ?_)
        rintro r hr rfl
        exact haddr hr
      obtain ⟨t, -, -, -, -, rfl, -⟩ := run _ 0 rfl hagrees (Function.update_self ..)
      rw [Machine.rowAt, Vdbe.block, List.length_map, List.length_map, List.length_range]

end Rustqlite.Vdbe
