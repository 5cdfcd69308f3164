import Rustqlite.Vdbe.Machine

/-!
# Runs of the virtual machine

How runs compose, where a piece of code stands in a program, and what the
instructions that only need registers do.
-/

namespace Rustqlite.Vdbe

open Foundation

variable {A C W : Type}

/-! ## Pieces of a program -/

def Seg (prog : List Instruction) (pos : Nat) (piece : List Instruction) : Prop :=
  ∀ j < piece.length, prog[pos + j]? = piece[j]?

namespace Seg

variable {prog p q : List Instruction} {pos : Nat}

theorem append_iff : Seg prog pos (p ++ q) ↔ Seg prog pos p ∧ Seg prog (pos + p.length) q := by
  constructor
  · intro h
    constructor
    · intro j hj
      rw [h j (by simp; omega), List.getElem?_append_left hj]
    · intro j hj
      rw [Nat.add_assoc, h (p.length + j) (by simp; omega), List.getElem?_append_right (by omega),
        Nat.add_sub_cancel_left]
  · rintro ⟨hp, hq⟩ j hj
    rcases Nat.lt_or_ge j p.length with hlt | hge
    · rw [hp j hlt, List.getElem?_append_left hlt]
    · have h := hq (j - p.length) (by simp at hj; omega)
      rwa [Nat.add_assoc, Nat.add_sub_cancel' hge, ← List.getElem?_append_right hge] at h

theorem cons_iff {i : Instruction} :
    Seg prog pos (i :: p) ↔ prog[pos]? = some i ∧ Seg prog (pos + 1) p := by
  rw [← List.singleton_append, append_iff]
  refine and_congr_left' ⟨fun h => h 0 (by simp), fun h j hj => ?_⟩
  obtain rfl : j = 0 := by simpa using hj
  exact h

end Seg

/-! ## Addresses -/

variable {k : Nat} {r : Int}

theorem address?_address (h : k < 2 ^ 63) : address? (address k) = some k := by
  simp only [address, address?, Int64.toInt_ofNat_of_lt h, Int.toNat_natCast]

/-! ## Writing several places -/

theorem setAll_of_not_mem {β : Type} {f : Int → β} {ps : List (Int × β)} (h : r ∉ ps.map Prod.fst) :
    setAll f ps r = f r := by
  induction ps generalizing f with
  | nil => rfl
  | cons p ps ih =>
      rw [List.map_cons, List.mem_cons, not_or] at h
      rw [setAll, ih h.2, Function.update_of_ne h.1]

namespace Machine

variable {n : Numerals} {fx : Effects A C W} {prog : List Instruction}

/-! ## Composing runs -/

variable {s t u : Machine A C W} {rows rows' : List (List Value)} {vs : List Value} {bad : Prop}
  {post : Machine A C W → Prop}

theorem Runs.trans (h : Runs n fx prog s rows t) (h' : Runs n fx prog t rows' u) :
    Runs n fx prog s (rows ++ rows') u := by
  induction h with
  | refl => exact h'
  | next hstep _ ih => exact .next hstep (ih h')
  | row hstep _ ih => exact .row hstep (ih h')

theorem Runs.goesOn (h : Runs n fx prog s rows t) (h' : Runs n fx prog t [] u) :
    Runs n fx prog s rows u := by
  simpa only [List.append_nil] using h.trans h'

theorem Runs.returns (h : Runs n fx prog s rows t) (h' : t.Returns n fx prog rows') :
    s.Returns n fx prog (rows ++ rows') := by
  obtain ⟨u, hruns, hdone⟩ := h'
  exact ⟨u, h.trans hruns, hdone⟩

theorem step_eq {i : Instruction} (h : prog[s.pc]? = some i) :
    s.step n fx prog = s.exec n fx prog i := by
  rw [step, h]

theorem Runs.one {s t : Machine A C W} {i : Instruction} (h : prog[s.pc]? = some i)
    (hexec : s.exec n fx prog i = .next t) : Runs n fx prog s [] t :=
  .next ((step_eq h).trans hexec) (.refl t)

theorem Runs.emit {i : Instruction} (h : prog[s.pc]? = some i)
    (hexec : s.exec n fx prog i = .row vs t) : Runs n fx prog s [vs] t :=
  .row ((step_eq h).trans hexec) (.refl t)

theorem Runs.first (h : Runs n fx prog s (vs :: rows) t) :
    ∃ u v, Runs n fx prog s [] u ∧ u.step n fx prog = .row vs v ∧ Runs n fx prog v rows t := by
  generalize hall : vs :: rows = all at h
  induction h with
  | refl => cases hall
  | next hstep _ ih =>
      obtain ⟨u, v, hruns, hrow, hrest⟩ := ih hall
      exact ⟨u, v, .next hstep hruns, hrow, hrest⟩
  | row hstep hrest _ =>
      cases hall
      exact ⟨_, _, .refl _, hstep, hrest⟩

theorem Returns.unique (h : s.Returns n fx prog rows) (h' : s.Returns n fx prog rows') :
    rows = rows' := by
  obtain ⟨t, hruns, hdone⟩ := h
  induction hruns generalizing rows' with
  | refl =>
      obtain ⟨t', hruns', -⟩ := h'
      cases hruns' with
      | refl => rfl
      | next hstep _ => rw [hdone] at hstep; cases hstep
      | row hstep _ => rw [hdone] at hstep; cases hstep
  | next hstep _ ih =>
      obtain ⟨t', hruns', hdone'⟩ := h'
      cases hruns' with
      | refl => rw [hdone'] at hstep; cases hstep
      | next hstep' hrest =>
          rw [hstep] at hstep'
          cases hstep'
          exact ih ⟨t', hrest, hdone'⟩ hdone
      | row hstep' _ => rw [hstep] at hstep'; cases hstep'
  | row hstep _ ih =>
      obtain ⟨t', hruns', hdone'⟩ := h'
      cases hruns' with
      | refl => rw [hdone'] at hstep; cases hstep
      | next hstep' _ => rw [hstep] at hstep'; cases hstep'
      | row hstep' hrest =>
          rw [hstep] at hstep'
          cases hstep'
          rw [ih ⟨t', hrest, hdone'⟩ hdone]

theorem returns_of_rowsWithin {fuel : Nat} (h : rowsWithin n fx prog fuel s = some rows) :
    s.Returns n fx prog rows := by
  induction fuel generalizing s rows with
  | zero => cases h
  | succ fuel ih =>
      rw [rowsWithin] at h
      cases hstep : s.step n fx prog with
      | next t =>
          rw [hstep] at h
          obtain ⟨u, hruns, hdone⟩ := ih h
          exact ⟨u, .next hstep hruns, hdone⟩
      | row vs t =>
          rw [hstep] at h
          obtain ⟨rest, hrest, rfl⟩ := Option.map_eq_some_iff.mp h
          obtain ⟨u, hruns, hdone⟩ := ih hrest
          exact ⟨u, .row hstep hruns, hdone⟩
      | done =>
          rw [hstep] at h
          cases h
          exact ⟨s, .refl s, hstep⟩
      | error =>
          rw [hstep] at h
          cases h

/-! ## Runs that come to an error -/

def Fails (n : Numerals) (fx : Effects A C W) (prog : List Instruction) (s : Machine A C W) :
    Prop :=
  ∃ t rows, Runs n fx prog s rows t ∧ t.step n fx prog = .error

theorem Runs.fails (h : Runs n fx prog s rows t) (hfails : t.Fails n fx prog) :
    s.Fails n fx prog := by
  obtain ⟨u, rows', hruns, herror⟩ := hfails
  exact ⟨u, rows ++ rows', h.trans hruns, herror⟩

theorem Fails.not_returns (h : s.Fails n fx prog) : ¬s.Returns n fx prog rows := by
  rintro ⟨t, hruns, hdone⟩
  obtain ⟨u, rows', hruns', herror⟩ := h
  induction hruns generalizing rows' with
  | refl =>
      cases hruns' with
      | refl => rw [hdone] at herror; cases herror
      | next hstep _ => rw [hdone] at hstep; cases hstep
      | row hstep _ => rw [hdone] at hstep; cases hstep
  | next hstep _ ih =>
      cases hruns' with
      | refl => rw [herror] at hstep; cases hstep
      | next hstep' hrest =>
          rw [hstep] at hstep'
          cases hstep'
          exact ih hdone _ hrest
      | row hstep' _ => rw [hstep] at hstep'; cases hstep'
  | row hstep _ ih =>
      cases hruns' with
      | refl => rw [herror] at hstep; cases hstep
      | next hstep' _ => rw [hstep] at hstep'; cases hstep'
      | row hstep' hrest =>
          rw [hstep] at hstep'
          cases hstep'
          exact ih hdone _ hrest

structure Leads (n : Numerals) (fx : Effects A C W) (prog : List Instruction) (bad : Prop)
    (s : Machine A C W) (rows : List (List Value)) (post : Machine A C W → Prop) : Prop where
  fails : bad → s.Fails n fx prog
  goes : ¬bad → ∃ t, Runs n fx prog s rows t ∧ post t

theorem Runs.leads (post : Machine A C W → Prop) (h : Runs n fx prog s rows t) (hpost : post t) :
    Leads n fx prog False s rows post :=
  ⟨False.elim, fun _ => ⟨t, h, hpost⟩⟩

theorem Leads.after (h : Runs n fx prog s rows t) (h' : Leads n fx prog bad t rows' post) :
    Leads n fx prog bad s (rows ++ rows') post where
  fails hbad := h.fails (h'.fails hbad)
  goes hgood := by
    obtain ⟨u, hruns, hu⟩ := h'.goes hgood
    exact ⟨u, h.trans hruns, hu⟩

theorem Leads.bind (h : Leads n fx prog bad s rows post) (bad' : Prop) (rows' : List (List Value))
    (post' : Machine A C W → Prop) (h' : ∀ t, post t → Leads n fx prog bad' t rows' post') :
    Leads n fx prog (bad ∨ bad') s (rows ++ rows') post' where
  fails hbad := by
    by_cases hfirst : bad
    · exact h.fails hfirst
    · obtain ⟨t, hruns, ht⟩ := h.goes hfirst
      exact (Leads.after hruns (h' t ht)).fails (hbad.resolve_left hfirst)
  goes hgood := by
    rw [not_or] at hgood
    obtain ⟨t, hruns, ht⟩ := h.goes hgood.1
    exact (Leads.after hruns (h' t ht)).goes hgood.2

theorem Leads.imp {bad' : Prop} {post' : Machine A C W → Prop} (h : Leads n fx prog bad s rows post)
    (hbad : bad' ↔ bad) (hrows : rows' = rows) (hpost : ∀ t, post t → post' t) :
    Leads n fx prog bad' s rows' post' where
  fails hb := h.fails (hbad.mp hb)
  goes hb := by
    obtain ⟨t, hruns, ht⟩ := h.goes fun hb' => hb (hbad.mpr hb')
    exact ⟨t, hrows ▸ hruns, hpost t ht⟩

theorem Leads.returns_iff (h : Leads n fx prog bad s rows fun t => t.step n fx prog = .done) :
    s.Returns n fx prog rows' ↔ ¬bad ∧ rows' = rows := by
  constructor
  · intro hreturns
    have hgood : ¬bad := fun hbad => (h.fails hbad).not_returns hreturns
    obtain ⟨t, hruns, hdone⟩ := h.goes hgood
    exact ⟨hgood, hreturns.unique ⟨t, hruns, hdone⟩⟩
  · rintro ⟨hgood, rfl⟩
    obtain ⟨t, hruns, hdone⟩ := h.goes hgood
    exact ⟨t, hruns, hdone⟩

/-! ## Single instructions -/

section Exec

variable {s : Machine A C W}

theorem exec_sCopy (src dst : Int) :
    s.exec n fx prog (.new .sCopy src dst 0) = .next ((s.set dst (s.regs src)).goto (s.pc + 1)) :=
  rfl

theorem exec_integer (k r : Int) :
    s.exec n fx prog (.new .integer k r 0) =
      .next ((s.set r (.int (Int64.ofInt k))).goto (s.pc + 1)) := rfl

variable {i : Int64} {target : Nat}

theorem exec_ifNot (h : s.regs r = .int i) :
    s.exec n fx prog (.new .ifNot r target 0) =
      .next (s.goto (if i = 0 then target else s.pc + 1)) := by
  have hrun : s.exec n fx prog (.new .ifNot r target 0) =
      .next (s.goto (if ((truth n (s.regs r)).map (!·)).getD false then target else s.pc + 1)) :=
    rfl
  rw [hrun, h]
  by_cases hi : i = 0
  · simp [hi, truth]
  · simp [hi, truth]

theorem exec_ifPos :
    s.exec n fx prog (.new .ifPos r target 1) =
      if 0 < asI64 n (s.regs r) then
        .next ((s.set r (.int (asI64 n (s.regs r) - 1))).goto target)
      else .next ((s.set r (s.regs r)).goto (s.pc + 1)) := by
  by_cases hi : 0 < asI64 n (s.regs r)
  · simp [exec, outcome, Instruction.new, Instruction.uses, registerEffect, after, goto, setAll, hi,
      Machine.set]
  · simp [exec, outcome, Instruction.new, Instruction.uses, registerEffect, after, goto, setAll, hi,
      Machine.set]

theorem exec_ifPos_pos (h : s.regs r = .int i) (hi : 0 < i) :
    s.exec n fx prog (.new .ifPos r target 1) = .next ((s.set r (.int (i - 1))).goto target) := by
  rw [exec_ifPos, h]
  exact if_pos hi

theorem exec_ifPos_zero (h : s.regs r = .int 0) :
    s.exec n fx prog (.new .ifPos r target 1) = .next ((s.set r (.int 0)).goto (s.pc + 1)) := by
  rw [exec_ifPos, h]
  rfl

theorem exec_decrJumpZero (h : s.regs r = .int i) :
    s.exec n fx prog (.new .decrJumpZero r target 0) =
      .next ((s.set r (.int (i - 1))).goto (if i - 1 = 0 then target else s.pc + 1)) := by
  have hrun : s.exec n fx prog (.new .decrJumpZero r target 0) =
      .next ((s.set r (.int (asI64 n (s.regs r) - 1))).goto
        (if decide (asI64 n (s.regs r) - 1 = 0) then target else s.pc + 1)) := rfl
  have hv : asI64 n (s.regs r) = i := congrArg (asI64 n) h
  rw [hrun, hv]
  by_cases hi : i - 1 = 0
  · rw [if_pos hi, decide_eq_true hi]
    rfl
  · rw [if_neg hi, decide_eq_false hi]
    rfl

theorem exec_goto (target : Nat) :
    s.exec n fx prog (.new .goto 0 target 0) = .next (s.goto target) := rfl

theorem exec_gosub (r : Int) (target : Nat) :
    s.exec n fx prog (.new .gosub r target 0) =
      .next ((s.set r (address (s.pc + 1))).goto target) := rfl

theorem exec_return (hk : k < 2 ^ 63) (h : s.regs r = address k) :
    s.exec n fx prog (.new .return_ r 0 1) = .next (s.goto k) := by
  simp only [exec, Instruction.new, h, address?_address hk]

end Exec

end Machine

end Rustqlite.Vdbe
