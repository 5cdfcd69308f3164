import Rustqlite.Btree.TableTree

/-!
# Leaf by leaf

A table cursor goes from leaf to leaf along its stack.  The stack says which
leaves are ahead, whatever cells they have, so it stays right while rows are
deleted.
-/

namespace Rustqlite.Btree

open Foundation Format Pager Reading

/--
The frames of a stack lead on to the leaves `leaves`.  No subtree reaches below
the depth `D`, and a frame has visited at least one child.
-/
inductive Ahead (view : UInt32 → Result Bytes) (inner : List UInt32) (D : Nat) :
    List Frame → List UInt32 → Prop where
  | nil : Ahead view inner D [] []
  | cons {f : Frame} {stack : List Frame} {cs : List UInt32} {ls : List (List UInt32)}
      {rest : List UInt32} {depth : Nat} (htype : f.hdr.pageType = .interiorTable)
      (hcs : NodeHolds tableKind f.page f.hdr cs) (hpos : 0 < f.next) (hle : f.next ≤ cs.length)
      (hdepth : depth + stack.length + 1 ≤ D)
      (hls : List.Forall₂ (Spine view inner depth) (cs.drop f.next) ls)
      (hrest : Ahead view inner D stack rest) : Ahead view inner D (f :: stack) (ls.flatten ++ rest)

def LastChild (f : Frame) (child : UInt32) : Prop :=
  ∃ cs, NodeHolds tableKind f.page f.hdr cs ∧ cs[f.next - 1]? = some child

structure OnLeaf (view : UInt32 → Result Bytes) (inner : List UInt32) (D : Nat) (c : TreePosition)
    (l : UInt32) (rest : List UInt32) : Prop where
  leafPgno : c.leafPgno = l
  ahead : Ahead view inner D c.stack rest
  last : ∀ f ∈ c.stack.head?, LastChild f l
  atEnd : c.atEnd = false
  leaf : ∃ page hdr, c.leaf = some (page, hdr) ∧ view l = .ok page ∧
    PageHeader.parse page (btreeHeaderOffset l) = .ok hdr

variable {depth usable : Nat} {pgno l : UInt32} {leaves rest ls : List UInt32} {c : TreePosition}
  {stored : UInt32 → List StoredRow}

theorem Spine.ne_nil {view : UInt32 → Result Bytes} {inner : List UInt32}
    (h : Spine view inner depth pgno leaves) : leaves ≠ [] := by
  induction depth generalizing pgno leaves with
  | zero => exact h.elim
  | succ depth ih =>
      obtain ⟨page, hdr, -, -, ⟨-, rfl⟩ | ⟨-, -, cs, ls, hcs, hls, rfl⟩⟩ := h
      · simp
      · have hlen := hcs.1
        cases hls with
        | nil => simp at hlen
        | cons hfirst _ => simp [ih hfirst]

namespace TreePosition

section Walk

variable {view : UInt32 → Result Bytes} {inner : List UInt32} {D : Nat}

theorem descendLeft_onLeaf (h : Spine view inner depth pgno leaves)
    (hahead : Ahead view inner D c.stack rest) (hlast : ∀ f ∈ c.stack.head?, LastChild f pgno)
    (hend : c.atEnd = false) (hD : depth + c.stack.length ≤ D) :
    ∃ c' l ls, leaves = l :: ls ∧ OnLeaf view inner D c' l (ls ++ rest) ∧ c'.cellIdx = 0 ∧
      c'.pendingAdvance = false ∧
      ∀ fuel ≥ depth, (descendLeft tableKind fuel c pgno).eval view = .ok c' := by
  induction depth generalizing pgno leaves rest c with
  | zero => exact h.elim
  | succ depth ih =>
      obtain ⟨page, hdr, hpage, hparse, ⟨htype, rfl⟩ | ⟨hmem, htype, cs, ls, hcs, hls, rfl⟩⟩ := h
      · refine ⟨{ c with
          leafPgno := pgno
          leaf := some (page, hdr)
          cellIdx := 0
          pendingAdvance := false }, pgno, [], rfl,
          ⟨rfl, hahead, hlast, hend, page, hdr, rfl, hpage, hparse⟩, rfl, rfl, fun fuel hfuel => ?_⟩
        obtain ⟨fuel, rfl⟩ : ∃ n, fuel = n + 1 := ⟨fuel - 1, by omega⟩
        simp [descendLeft, hpage, hparse, htype, tableKind]
      · have hlen := hcs.1
        cases hls with
        | nil => simp at hlen
        | cons hfirst hothers =>
            rename_i first leaves cs ls
            set c₁ : TreePosition := { c with stack := ⟨page, hdr, 1⟩ :: c.stack } with hc₁
            have hdepth : depth + c.stack.length + 1 ≤ D := by omega
            have hahead₁ : Ahead view inner D c₁.stack (ls.flatten ++ rest) :=
              .cons htype hcs (by simp) (by simp) hdepth
                (by simpa using hothers) hahead
            have hlast₁ : ∀ f ∈ c₁.stack.head?, LastChild f first := by
              intro f hf
              obtain rfl : ⟨page, hdr, 1⟩ = f := by simpa [hc₁] using hf
              exact ⟨first :: cs, hcs, rfl⟩
            have hD₁ : depth + c₁.stack.length ≤ D := by
              simp only [hc₁, List.length_cons]
              omega
            obtain ⟨c', l, ls', rfl, hon, hidx, hpending, hrun⟩ :=
              ih hfirst hahead₁ hlast₁ hend hD₁
            have hchild : interiorChild tableKind hdr page 0 = .ok (some first) :=
              hcs.2 0 (by simp)
            refine ⟨c', l, ls' ++ ls.flatten, by simp, by simpa using hon, hidx, hpending,
              fun fuel hfuel => ?_⟩
            obtain ⟨fuel, rfl⟩ : ∃ n, fuel = n + 1 := ⟨fuel - 1, by omega⟩
            rw [← hrun fuel (by omega)]
            have hne : ¬ hdr.pageType = tableKind.leaf := by
              rw [htype]
              decide
            have hint : hdr.pageType = tableKind.interior := htype
            simp only [descendLeft, eval_bind, eval_getPage, eval_lift, hpage, hparse,
              Result.ok_bind, hchild, if_neg hne, if_pos hint]
            rfl

variable {stack : List Frame}

theorem advance_hop (h : Ahead view inner D stack (l :: ls)) (hstack : c.stack = stack)
    (hend : c.atEnd = false) :
    ∃ c', OnLeaf view inner D c' l ls ∧ c'.cellIdx = 0 ∧ c'.pendingAdvance = false ∧
      ∃ k ≤ stack.length, ∀ fuel ≥ D, (advanceToNextLeaf tableKind (fuel + k) c).eval view =
        if 0 < c'.leafCells then .ok c' else (advanceToNextLeaf tableKind fuel c').eval view := by
  generalize hall : l :: ls = all at h
  induction h generalizing c with
  | nil => cases hall
  | cons htype hcs hpos hle hdepth hls hrest ih =>
      rename_i f stack cs lss rest depth
      cases lss with
      | nil =>
          -- the frame has no child left
          have hnil : cs.drop f.next = [] := List.forall₂_nil_right_iff.mp hls
          have hchild := interiorChild_length hcs (List.drop_eq_nil_iff.mp hnil)
          obtain ⟨c', hon, hidx, hpending, k, hk, hrun⟩ :=
            ih (c := { c with stack := stack }) rfl hend (by simpa using hall)
          refine ⟨c', hon, hidx, hpending, k + 1, by simpa using hk, fun fuel hfuel => ?_⟩
          rw [← hrun fuel hfuel, ← Nat.add_assoc, advanceToNextLeaf, hstack]
          simp only [hchild, eval_bind, eval_lift, Result.ok_bind]
      | cons m lss =>
          obtain ⟨child, others, hm, hothers, hdrop⟩ := List.forall₂_cons_right_iff.mp hls
          have hlt : f.next < cs.length := by
            by_contra hge
            rw [List.drop_eq_nil_iff.mpr (by omega)] at hdrop
            cases hdrop
          rw [List.drop_eq_getElem_cons hlt, List.cons.injEq] at hdrop
          obtain ⟨rfl, rfl⟩ := hdrop
          set c₁ : TreePosition := { c with stack := { f with next := f.next + 1 } :: stack }
            with hc₁
          have hahead : Ahead view inner D c₁.stack (lss.flatten ++ rest) :=
            .cons (f := { f with next := f.next + 1 }) htype hcs (Nat.succ_pos _) hlt hdepth
              hothers hrest
          have hlast : ∀ g ∈ c₁.stack.head?, LastChild g cs[f.next] := by
            intro g hg
            obtain rfl : { f with next := f.next + 1 } = g := by simpa [hc₁] using hg
            exact ⟨cs, hcs, by simp⟩
          obtain ⟨c', l', ls', rfl, hon, hidx, hpending, hrun⟩ :=
            descendLeft_onLeaf hm hahead hlast hend (by simp only [hc₁, List.length_cons]; omega)
          simp only [List.flatten_cons, List.cons_append, List.append_assoc,
              List.cons.injEq] at hall
          obtain ⟨rfl, rfl⟩ := hall
          refine ⟨c', hon, hidx, hpending, 1, by simp, fun fuel hfuel => ?_⟩
          have hdesc := hrun fuel (by omega)
          rw [hc₁] at hdesc
          rw [advanceToNextLeaf, hstack]
          simp only [eval_bind, eval_lift, hcs.2 f.next hlt, Result.ok_bind, hdesc]
          split_ifs <;> rfl

theorem advance_end (h : Ahead view inner D stack []) (hstack : c.stack = stack) {fuel : Nat}
    (hfuel : stack.length < fuel) :
    (advanceToNextLeaf tableKind fuel c).eval view =
      .ok { c with stack := [], atEnd := true, leaf := none } := by
  generalize hall : ([] : List UInt32) = all at h
  induction h generalizing c fuel with
  | nil =>
      obtain ⟨fuel, rfl⟩ : ∃ n, fuel = n + 1 := ⟨fuel - 1, by omega⟩
      rw [advanceToNextLeaf, hstack]
      simp
  | cons htype hcs hpos hle hdepth hls hrest ih =>
      rename_i f stack cs lss rest depth
      obtain ⟨hlss, hrest'⟩ := List.append_eq_nil_iff.mp hall.symm
      obtain ⟨fuel, rfl⟩ : ∃ n, fuel = n + 1 := ⟨fuel - 1, by omega⟩
      have hexhausted : cs.length ≤ f.next := by
        by_contra hlt
        rw [List.drop_eq_getElem_cons (by omega)] at hls
        obtain ⟨m, ms, hm, -, rfl⟩ := List.forall₂_cons_left_iff.mp hls
        obtain ⟨rfl, -⟩ := List.append_eq_nil_iff.mp ((List.flatten_cons ..).symm.trans hlss)
        exact absurd hm.ne_nil (by simp)
      rw [advanceToNextLeaf, hstack]
      simp only [interiorChild_length hcs hexhausted, eval_bind, eval_lift, Result.ok_bind]
      exact ih rfl (by simpa using hfuel) hrest'.symm

theorem length_stack_le (h : Ahead view inner D stack leaves) : stack.length ≤ D := by
  cases h with
  | nil => simp
  | cons _ _ _ _ hdepth =>
      simp only [List.length_cons]
      omega

inductive Arrived (view : UInt32 → Result Bytes) (inner : List UInt32) (D : Nat)
    (stored : UInt32 → List StoredRow) (ls : List UInt32) (c : TreePosition) : Prop where
  | done (hend : c.atEnd = true) (hleaf : c.leaf = none) (hempty : ∀ l ∈ ls, stored l = [])
  | here {skipped rest : List UInt32} {l : UInt32} (hls : ls = skipped ++ l :: rest)
      (hempty : ∀ l ∈ skipped, stored l = []) (hne : stored l ≠ [])
      (hon : OnLeaf view inner D c l rest) (hidx : c.cellIdx = 0)
      (hpending : c.pendingAdvance = false)

def walkFuel (D leaves : Nat) : Nat := D + 1 + leaves * (D + 1)

theorem leafCells_onLeaf (h : OnLeaf view inner D c l rest) {page : Bytes} {hdr : PageHeader}
    (hl : LeafAt usable view l (stored l) page hdr) :
    c.leaf = some (page, hdr) ∧ c.leafCells = (stored l).length := by
  obtain ⟨page', hdr', hleaf, hpage, hparse⟩ := h.leaf
  cases hpage.symm.trans hl.shown
  cases hparse.symm.trans hl.parse
  exact ⟨hleaf, by rw [leafCells, hleaf, hl.numCells]⟩

theorem advance_arrived (hleaf : ∀ l ∈ ls, ∃ page hdr, LeafAt usable view l (stored l) page hdr)
    (h : Ahead view inner D c.stack ls) (hend : c.atEnd = false) :
    ∃ c', Arrived view inner D stored ls c' ∧ ∀ fuel ≥ walkFuel D ls.length,
      (advanceToNextLeaf tableKind fuel c).eval view = .ok c' := by
  induction ls generalizing c with
  | nil =>
      refine ⟨_, .done rfl rfl (by simp), fun fuel hfuel => advance_end h rfl ?_⟩
      have := length_stack_le h
      rw [walkFuel] at hfuel
      omega
  | cons l ls ih =>
      obtain ⟨c₁, hon, hidx, hpending, k, hk, hrun⟩ := advance_hop h rfl hend
      obtain ⟨page, hdr, hl⟩ := hleaf l (by simp)
      obtain ⟨-, hcells⟩ := leafCells_onLeaf hon hl
      have hstack := length_stack_le h
      by_cases hempty : stored l = []
      · obtain ⟨c', harr, hrun'⟩ := ih (fun l hl => hleaf l (by simp [hl])) hon.ahead hon.atEnd
        refine ⟨c', ?_, fun fuel hfuel => ?_⟩
        · cases harr with
          | done hend hleaf hnil =>
              refine .done hend hleaf fun x hx => ?_
              rcases List.mem_cons.mp hx with rfl | hx
              · exact hempty
              · exact hnil x hx
          | here hls hnil hne hon hidx hpending =>
              rename_i skipped rest l'
              have hls' : l :: ls = (l :: skipped) ++ l' :: rest := by rw [hls, List.cons_append]
              refine .here hls' ?_ hne hon hidx hpending
              intro x hx
              rcases List.mem_cons.mp hx with rfl | hx
              · exact hempty
              · exact hnil x hx
        · have hcost : walkFuel D (l :: ls).length = walkFuel D ls.length + (D + 1) := by
            simp only [walkFuel, List.length_cons, Nat.succ_mul]
            omega
          have hD : D ≤ walkFuel D ls.length := by
            rw [walkFuel]
            omega
          obtain ⟨fuel, rfl⟩ : ∃ n, fuel = n + k := ⟨fuel - k, by omega⟩
          rw [hrun fuel (by omega), hcells, if_neg (by simp [hempty])]
          exact hrun' fuel (by omega)
      · have hls : l :: ls = [] ++ l :: ls := rfl
        refine ⟨c₁, .here hls (by simp) hempty hon hidx hpending, fun fuel hfuel => ?_⟩
        simp only [walkFuel, List.length_cons, Nat.succ_mul] at hfuel
        obtain ⟨fuel, rfl⟩ : ∃ n, fuel = n + k := ⟨fuel - k, by omega⟩
        rw [hrun fuel (by omega), hcells, if_pos (List.length_pos_of_ne_nil hempty)]

end Walk

end TreePosition

/-! ## Rows behind and ahead -/

inductive Stands (view : UInt32 → Result Bytes) (inner leaves : List UInt32) (D : Nat)
    (stored : UInt32 → List StoredRow) (c : TreePosition) :
    List (Int64 × Bytes) → List (Int64 × Bytes) → Prop where
  | done (hend : c.atEnd = true) (hleaf : c.leaf = none) :
      Stands view inner leaves D stored c (rowsOf leaves stored) []
  | here {before rest : List UInt32} {l : UInt32} (hleaves : leaves = before ++ l :: rest)
      (hon : OnLeaf view inner D c l rest) (hidx : c.cellIdx < (stored l).length)
      (hpending : c.pendingAdvance = false) :
      Stands view inner leaves D stored c
        (rowsOf before stored ++ ((stored l).take c.cellIdx).map StoredRow.row)
        (((stored l).drop c.cellIdx).map StoredRow.row ++ rowsOf rest stored)

theorem rowsOf_eq_nil (h : ∀ l ∈ ls, stored l = []) : rowsOf ls stored = [] := by
  rw [rowsOf, List.flatMap_eq_nil_iff]
  intro l hl
  rw [h l hl, List.map_nil]

theorem rowsOf_cons (l : UInt32) (ls : List UInt32) (stored : UInt32 → List StoredRow) :
    rowsOf (l :: ls) stored = (stored l).map StoredRow.row ++ rowsOf ls stored :=
  List.flatMap_cons

section Stands

variable {view : UInt32 → Result Bytes} {inner leaves : List UInt32} {D : Nat}
  {stored : UInt32 → List StoredRow}

variable {before : List UInt32}

theorem TreePosition.Arrived.stands (h : TreePosition.Arrived view inner D stored ls c)
    (hleaves : leaves = before ++ ls) :
    Stands view inner leaves D stored c (rowsOf before stored) (rowsOf ls stored) := by
  cases h with
  | done hend hleaf hempty =>
      have hnil := rowsOf_eq_nil hempty
      have hall : rowsOf leaves stored = rowsOf before stored := by
        rw [hleaves, rowsOf_append, hnil, List.append_nil]
      rw [hnil, ← hall]
      exact .done hend hleaf
  | here hls hempty hne hon hidx hpending =>
      rename_i skipped rest l
      have hnil := rowsOf_eq_nil hempty
      have hleaves' : leaves = (before ++ skipped) ++ l :: rest := by
        rw [hleaves, hls, List.append_assoc]
      have hst := Stands.here hleaves' hon (by rw [hidx]; exact List.length_pos_of_ne_nil hne)
        hpending
      rw [hidx, List.take_zero, List.drop_zero, rowsOf_append, hnil, List.map_nil, List.append_nil,
        List.append_nil] at hst
      rw [hls, rowsOf_append, hnil, List.nil_append, rowsOf_cons]
      exact hst

theorem next_stands (hleaf : ∀ l ∈ leaves, ∃ page hdr, LeafAt usable view l (stored l) page hdr)
    (hleaves : leaves = before ++ l :: rest) (hon : OnLeaf view inner D c l rest) {j : Nat}
    (hj : j = if c.pendingAdvance then c.cellIdx else c.cellIdx + 1) (hle : j ≤ (stored l).length) :
    ∃ c', Stands view inner leaves D stored c'
        (rowsOf before stored ++ ((stored l).take j).map StoredRow.row)
        (((stored l).drop j).map StoredRow.row ++ rowsOf rest stored) ∧
      ∀ fuel ≥ TreePosition.walkFuel D leaves.length, (c.next tableKind fuel).eval view = .ok
          c' := by
  set c₁ : TreePosition := { c with cellIdx := j, pendingAdvance := false } with hc₁
  obtain ⟨page, hdr, hl⟩ := hleaf l (by simp [hleaves])
  have hon₁ : OnLeaf view inner D c₁ l rest :=
    ⟨hon.leafPgno, hon.ahead, hon.last, hon.atEnd, hon.leaf⟩
  obtain ⟨-, hcells⟩ := TreePosition.leafCells_onLeaf hon₁ hl
  have hstep : ∀ fuel, (c.next tableKind fuel).eval view =
      if j < (stored l).length then .ok c₁
      else (TreePosition.advanceToNextLeaf tableKind fuel c₁).eval view := by
    intro fuel
    have hnext : c.next tableKind fuel = if c₁.cellIdx < c₁.leafCells then pure c₁
        else TreePosition.advanceToNextLeaf tableKind fuel c₁ := by
      rw [TreePosition.next, if_neg (by simp [hon.atEnd])]
      cases hp : c.pendingAdvance with
      | true =>
          have hidx : j = c.cellIdx := by rw [hj, hp, if_pos rfl]
          simp only [hc₁, hidx, if_true]
      | false =>
          have hidx : j = c.cellIdx + 1 := by rw [hj, hp, if_neg (by simp)]
          simp only [hc₁, hidx, Bool.false_eq_true, if_false]
    rw [hnext, hcells]
    split_ifs <;> rfl
  by_cases hlt : j < (stored l).length
  · refine ⟨c₁, Stands.here (c := c₁) hleaves hon₁ hlt rfl, fun fuel _ => ?_⟩
    rw [hstep, if_pos hlt]
  · have hfull : j = (stored l).length := by omega
    obtain ⟨c', harr, hrun⟩ := TreePosition.advance_arrived
      (fun x hx => hleaf x (by simp [hleaves, hx])) hon₁.ahead hon₁.atEnd
    refine ⟨c', ?_, fun fuel hfuel => ?_⟩
    · have hleaves' : leaves = (before ++ [l]) ++ rest := by simp [hleaves]
      have hst := harr.stands hleaves'
      rw [rowsOf_append, rowsOf_cons, rowsOf] at hst
      rw [hfull, List.take_length, List.drop_length]
      simpa [rowsOf] using hst
    · rw [hstep, if_neg hlt]
      refine hrun fuel (le_trans ?_ hfuel)
      have : rest.length ≤ leaves.length := by simp [hleaves]; omega
      simp only [TreePosition.walkFuel]
      have := Nat.mul_le_mul_right (D + 1) this
      omega

theorem rewind_stands {root : UInt32} (h : Spine view inner D root leaves)
    (hleaf : ∀ l ∈ leaves, ∃ page hdr, LeafAt usable view l (stored l) page hdr) :
    ∃ c, Stands view inner leaves D stored c [] (rowsOf leaves stored) ∧
      ∀ fuel ≥ TreePosition.walkFuel D leaves.length,
        (TreePosition.rewind tableKind fuel root).eval view = .ok c := by
  obtain ⟨c, l, ls, rfl, hon, hidx, hpending, hrun⟩ :=
    TreePosition.descendLeft_onLeaf (D := D) (c := TreePosition.start) h .nil
      (by simp [TreePosition.start]) rfl (by simp [TreePosition.start])
  rw [List.append_nil] at hon
  obtain ⟨page, hdr, hl⟩ := hleaf l (by simp)
  obtain ⟨-, hcells⟩ := TreePosition.leafCells_onLeaf hon hl
  by_cases hempty : stored l = []
  · obtain ⟨c', harr, hrun'⟩ := TreePosition.advance_arrived
      (fun x hx => hleaf x (by simp [hx])) hon.ahead hon.atEnd
    refine ⟨c', ?_, fun fuel hfuel => ?_⟩
    · have hleaves' : l :: ls = [l] ++ ls := rfl
      have hst := harr.stands hleaves'
      simpa [rowsOf_cons, hempty, rowsOf] using hst
    · have hD : D ≤ fuel ∧ TreePosition.walkFuel D ls.length ≤ fuel := by
        simp only [TreePosition.walkFuel, List.length_cons, Nat.succ_mul] at hfuel ⊢
        omega
      simp only [TreePosition.rewind, eval_bind, hrun fuel hD.1, Result.ok_bind, hcells, hempty,
        List.length_nil, if_true, hrun' fuel hD.2]
  · refine ⟨c, ?_, fun fuel hfuel => ?_⟩
    · have hleaves' : l :: ls = [] ++ l :: ls := rfl
      have hst := Stands.here hleaves' hon (by rw [hidx]; exact List.length_pos_of_ne_nil hempty)
        hpending
      rw [hidx] at hst
      simpa [rowsOf] using hst
    · have hD : D ≤ fuel := by
        simp only [TreePosition.walkFuel, List.length_cons, Nat.succ_mul] at hfuel
        omega
      simp [TreePosition.rewind, hrun fuel hD, hcells, hempty]

end Stands

end Rustqlite.Btree
