import Rustqlite.Btree.Cell
import Rustqlite.Pager.Reading

/-!
# Cursors

The cursors of tables and of indexes share the way in which they walk the
leaves: a stack of the interior pages above the current leaf, each with the
number of the child to visit next.
-/

namespace Rustqlite.Btree

open Foundation Pager Reading

structure TreeKind where
  leaf : PageType
  interior : PageType
  /-- The left child in the interior cell at an offset. -/
  leftChild : Bytes → Nat → Result UInt32
  noChildren : String
  wrongPage : String
  leaf_ne_interior : leaf ≠ interior

structure Frame where
  page : Bytes
  hdr : PageHeader
  next : Nat

structure TreePosition where
  /-- The innermost frame comes first. -/
  stack : List Frame
  leaf : Option (Bytes × PageHeader)
  leafPgno : UInt32
  cellIdx : Nat
  atEnd : Bool
  pendingAdvance : Bool

/-- What a loop that never ends comes to when its fuel is used up. -/
def endless : Error := .panic "the walk does not end"

namespace TreePosition

def new : TreePosition := ⟨[], none, 0, 0, true, false⟩

def start : TreePosition := ⟨[], none, 0, 0, false, false⟩

def leafCells (c : TreePosition) : Nat :=
  match c.leaf with
  | some (_, hdr) => hdr.numCells
  | none => 0

def isValid (c : TreePosition) : Bool :=
  !c.atEnd && c.leaf.isSome && c.cellIdx < c.leafCells

variable (kind : TreeKind)

def interiorChild (hdr : PageHeader) (page : Bytes) (k : Nat) : Result (Option UInt32) :=
  if k < hdr.numCells then do
    let off ← hdr.cellPointer page k
    return some (← kind.leftChild page off)
  else if k = hdr.numCells then return hdr.rightMostPointer
  else return none

def descendLeft : Nat → TreePosition → UInt32 → Reading TreePosition
  | 0, _, _ => fail endless
  | fuel + 1, c, pgno => do
      let page ← getPage pgno
      let hdr ← PageHeader.parse page (btreeHeaderOffset pgno)
      if hdr.pageType = kind.leaf then
        return { c with
          leafPgno := pgno
          leaf := some (page, hdr)
          cellIdx := 0
          pendingAdvance := false }
      else if hdr.pageType = kind.interior then do
        match ← (interiorChild kind hdr page 0 : Result _) with
        | none => fail (.corrupt kind.noChildren)
        | some first =>
            descendLeft fuel { c with stack := ⟨page, hdr, 1⟩ :: c.stack } first
      else fail (.corrupt kind.wrongPage)

def advanceToNextLeaf : Nat → TreePosition → Reading TreePosition
  | 0, _ => fail endless
  | fuel + 1, c =>
      match c.stack with
      | [] => return { c with atEnd := true, leaf := none }
      | f :: rest => do
          match ← (interiorChild kind f.hdr f.page f.next : Result _) with
          | some child => do
              let c ← descendLeft kind fuel
                { c with stack := { f with next := f.next + 1 } :: rest } child
              if 0 < c.leafCells then return c else advanceToNextLeaf fuel c
          | none => advanceToNextLeaf fuel { c with stack := rest }

def rewind (fuel : Nat) (root : UInt32) : Reading TreePosition := do
  let c ← descendLeft kind fuel start root
  if c.leafCells = 0 then advanceToNextLeaf kind fuel c else return c

/-- Go to the next entry; after a deletion the cursor is there already. -/
def next (fuel : Nat) (c : TreePosition) : Reading TreePosition :=
  if c.atEnd then return c
  else
    let c :=
      if c.pendingAdvance then { c with pendingAdvance := false }
      else { c with cellIdx := c.cellIdx + 1 }
    if c.cellIdx < c.leafCells then return c else advanceToNextLeaf kind fuel c

end TreePosition

/-! ## The leaves of a tree -/

section Leaves

variable {E : Type} (kind : TreeKind) (view : UInt32 → Result Bytes)
  (entry : Bytes → PageHeader → Nat → Result E)

def LeafHolds (page : Bytes) (hdr : PageHeader) (es : List E) : Prop :=
  es.length = hdr.numCells ∧ ∀ i (h : i < es.length), entry page hdr i = .ok es[i]

def NodeHolds (page : Bytes) (hdr : PageHeader) (cs : List UInt32) : Prop :=
  cs.length = hdr.numCells + 1 ∧
    ∀ i (h : i < cs.length), TreePosition.interiorChild kind hdr page i = .ok (some cs[i])

def Leaves : Nat → UInt32 → List E → Prop
  | 0, _, _ => False
  | depth + 1, pgno, xs => ∃ page hdr, view pgno = .ok page ∧
      PageHeader.parse page (btreeHeaderOffset pgno) = .ok hdr ∧
      (hdr.pageType = kind.leaf ∧ LeafHolds entry page hdr xs ∨
        hdr.pageType = kind.interior ∧ ∃ cs xss, NodeHolds kind page hdr cs ∧
          List.Forall₂ (Leaves depth) cs xss ∧ xs = xss.flatten)

inductive Rest : List Frame → List E → Prop where
  | nil : Rest [] []
  | cons {f : Frame} {stack : List Frame} {cs : List UInt32} {xss : List (List E)} {ys : List E}
      {depth : Nat} (hcs : NodeHolds kind f.page f.hdr cs)
      (hxss : List.Forall₂ (Leaves kind view entry depth) (cs.drop f.next) xss)
      (hys : Rest stack ys) : Rest (f :: stack) (xss.flatten ++ ys)

inductive At (c : TreePosition) : List E → Prop where
  | done (hend : c.atEnd = true) (hleaf : c.leaf = none) : At c []
  | here {page : Bytes} {hdr : PageHeader} {es zs : List E} (hend : c.atEnd = false)
      (hleaf : c.leaf = some (page, hdr)) (hes : LeafHolds entry page hdr es)
      (hidx : c.cellIdx < es.length) (hpending : c.pendingAdvance = false)
      (hrest : Rest kind view entry c.stack zs) : At c (es.drop c.cellIdx ++ zs)

end Leaves

variable {c : TreePosition}

namespace TreePosition

section Walk

variable {E : Type} {kind : TreeKind} {view : UInt32 → Result Bytes}
  {entry : Bytes → PageHeader → Nat → Result E}

variable {cs : List UInt32} {stack : List Frame} {ys xs : List E} {depth : Nat}

theorem interiorChild_length {page : Bytes} {hdr : PageHeader} (h : NodeHolds kind page hdr cs)
    {k : Nat} (hk : cs.length ≤ k) : interiorChild kind hdr page k = .ok none := by
  have hlen := h.1
  rw [interiorChild, if_neg (by omega), if_neg (by omega)]
  rfl

def enter (kind : TreeKind) (fuel fuel' : Nat) (c : TreePosition) (pgno : UInt32) :
    Reading TreePosition := do
  let c ← descendLeft kind fuel c pgno
  if 0 < c.leafCells then return c else advanceToNextLeaf kind fuel' c

structure GoesOn (kind : TreeKind) (view : UInt32 → Result Bytes)
    (entry : Bytes → PageHeader → Nat → Result E) (stack : List Frame) (ys : List E) : Prop where
  rest : Rest kind view entry stack ys
  run : ∀ c : TreePosition, c.stack = stack → c.atEnd = false → c.pendingAdvance = false →
    ∃ c', At kind view entry c' ys ∧
      ∃ N, ∀ fuel ≥ N, (advanceToNextLeaf kind fuel c).eval view = .ok c'

theorem goesOn_nil : GoesOn kind view entry [] [] where
  rest := .nil
  run := by
    intro c hstack _ _
    refine ⟨{ c with atEnd := true, leaf := none }, .done rfl rfl, 1, fun fuel hfuel => ?_⟩
    obtain ⟨fuel, rfl⟩ : ∃ n, fuel = n + 1 := ⟨fuel - 1, by omega⟩
    rw [advanceToNextLeaf, hstack]
    rfl

def Enters (kind : TreeKind) (view : UInt32 → Result Bytes)
    (entry : Bytes → PageHeader → Nat → Result E) (pgno : UInt32) (xs : List E) : Prop :=
  ∀ stack ys, GoesOn kind view entry stack ys → ∀ c : TreePosition, c.stack = stack →
    c.atEnd = false → ∃ c', At kind view entry c' (xs ++ ys) ∧
      ∃ N, ∀ fuel ≥ N, ∀ fuel' ≥ N, (enter kind fuel fuel' c pgno).eval view = .ok c'

theorem goesOn_cons {f : Frame} {xss : List (List E)} (hcs : NodeHolds kind f.page f.hdr cs)
    (hxss : List.Forall₂ (Leaves kind view entry depth) (cs.drop f.next) xss)
    (henter : ∀ pgno xs, Leaves kind view entry depth pgno xs → Enters kind view entry pgno xs)
    (hys : GoesOn kind view entry stack ys) :
    GoesOn kind view entry (f :: stack) (xss.flatten ++ ys) := by
  induction xss generalizing f with
  | nil =>
      have hnil : cs.drop f.next = [] := List.forall₂_nil_right_iff.mp hxss
      have hchild := interiorChild_length hcs (List.drop_eq_nil_iff.mp hnil)
      refine ⟨.cons hcs hxss hys.rest, fun c hstack hend hpending => ?_⟩
      obtain ⟨c', hat, N, hN⟩ := hys.run { c with stack := stack } rfl hend hpending
      refine ⟨c', hat, N + 1, fun fuel hfuel => ?_⟩
      obtain ⟨fuel, rfl⟩ : ∃ n, fuel = n + 1 := ⟨fuel - 1, by omega⟩
      simpa [advanceToNextLeaf, hstack, hchild] using hN fuel (by omega)
  | cons x xss ih =>
      obtain ⟨child, rest, hchild, hrest, hdrop⟩ := List.forall₂_cons_right_iff.mp hxss
      have hlt : f.next < cs.length := by
        by_contra hge
        rw [List.drop_eq_nil_iff.mpr (by omega)] at hdrop
        cases hdrop
      rw [List.drop_eq_getElem_cons hlt, List.cons.injEq] at hdrop
      obtain ⟨rfl, rfl⟩ := hdrop
      have hgo := ih (f := { f with next := f.next + 1 }) hcs hrest
      refine ⟨.cons hcs hxss hys.rest, fun c hstack hend hpending => ?_⟩
      obtain ⟨c', hat, N, hN⟩ := henter _ _ hchild _ _ hgo
        { c with stack := { f with next := f.next + 1 } :: stack } rfl hend
      refine ⟨c', by simpa using hat, N + 1, fun fuel hfuel => ?_⟩
      obtain ⟨fuel, rfl⟩ : ∃ n, fuel = n + 1 := ⟨fuel - 1, by omega⟩
      simpa [advanceToNextLeaf, hstack, hcs.2 f.next hlt, enter] using
        hN fuel (by omega) fuel (by omega)

theorem enters_of_leaves {pgno : UInt32} (h : Leaves kind view entry depth pgno xs) :
    Enters kind view entry pgno xs := by
  induction depth generalizing pgno xs with
  | zero => exact h.elim
  | succ depth ih =>
      intro stack ys hys c hstack hend
      obtain ⟨page, hdr, hpage, hparse, ⟨htype, hleaf⟩ | ⟨htype, cs, xss, hcs, hxss, rfl⟩⟩ := h
      · set c₁ : TreePosition := { c with
          leafPgno := pgno, leaf := some (page, hdr), cellIdx := 0, pendingAdvance := false }
          with hc₁
        have hcells : c₁.leafCells = xs.length := hleaf.1.symm
        have hdesc : ∀ fuel, (descendLeft kind (fuel + 1) c pgno).eval view = .ok c₁ := by
          intro fuel
          simp [descendLeft, hpage, hparse, htype, hc₁]
        by_cases hpos : 0 < xs.length
        · have hrest : Rest kind view entry c₁.stack ys := by
            rw [hc₁]
            exact hstack ▸ hys.rest
          refine ⟨c₁, At.here hend rfl hleaf hpos rfl hrest, 1, fun fuel hfuel fuel' _ => ?_⟩
          obtain ⟨fuel, rfl⟩ : ∃ n, fuel = n + 1 := ⟨fuel - 1, by omega⟩
          simp [enter, hdesc, hcells, hpos]
        · have hnil : xs = [] := List.length_eq_zero_iff.mp (by omega)
          obtain ⟨c', hat, N, hN⟩ := hys.run c₁ hstack hend rfl
          refine ⟨c', by simpa [hnil] using hat, N + 1, fun fuel hfuel fuel' hfuel' => ?_⟩
          obtain ⟨fuel, rfl⟩ : ∃ n, fuel = n + 1 := ⟨fuel - 1, by omega⟩
          simp [enter, hdesc, hcells, hpos, hN fuel' (by omega)]
      · have hlen := hcs.1
        cases hxss with
        | nil => simp at hlen
        | cons hfirst hothers =>
            rename_i first xs cs xss
            have hgo : GoesOn kind view entry (⟨page, hdr, 1⟩ :: stack) (xss.flatten ++ ys) :=
              goesOn_cons hcs (by simpa using hothers) (fun _ _ => ih) hys
            obtain ⟨c', hat, N, hN⟩ := ih hfirst _ _ hgo
              { c with stack := ⟨page, hdr, 1⟩ :: stack } rfl hend
            have hchild : interiorChild kind hdr page 0 = .ok (some first) := hcs.2 0 (by simp)
            refine ⟨c', by simpa using hat, N + 1, fun fuel hfuel fuel' hfuel' => ?_⟩
            obtain ⟨fuel, rfl⟩ : ∃ n, fuel = n + 1 := ⟨fuel - 1, by omega⟩
            rw [← hN fuel (by omega) fuel' (by omega)]
            simp [enter, descendLeft, hpage, hparse, htype, kind.leaf_ne_interior.symm, hchild,
              hstack]

theorem goesOn_of_rest (h : Rest kind view entry stack ys) : GoesOn kind view entry stack ys := by
  induction h with
  | nil => exact goesOn_nil
  | cons hcs hxss _ ih => exact goesOn_cons hcs hxss (fun _ _ => enters_of_leaves) ih

theorem rewind_at {root : UInt32} (h : Leaves kind view entry depth root xs) :
    ∃ c, At kind view entry c xs ∧ ∃ N, ∀ fuel ≥ N, (rewind kind fuel root).eval view = .ok c := by
  obtain ⟨c, hat, N, hN⟩ := enters_of_leaves h [] [] goesOn_nil start rfl rfl
  refine ⟨c, by simpa using hat, N, fun fuel hfuel => ?_⟩
  rw [← hN fuel hfuel fuel hfuel]
  simp only [rewind, enter, eval_bind]
  congr 1
  funext c
  by_cases hc : c.leafCells = 0
  · simp [hc]
  · simp [hc, Nat.pos_of_ne_zero hc]

theorem next_at {y : E} (h : At kind view entry c (y :: ys)) :
    ∃ c', At kind view entry c' ys ∧ ∃ N, ∀ fuel ≥ N, (next kind fuel c).eval view = .ok c' := by
  generalize hl : y :: ys = l at h
  cases h with
  | done => cases hl
  | here hend hleaf hes hidx hpending hrest =>
      rename_i page hdr es zs
      rw [List.drop_eq_getElem_cons hidx, List.cons_append, List.cons.injEq] at hl
      obtain ⟨-, rfl⟩ := hl
      by_cases hlast : c.cellIdx + 1 < es.length
      · refine ⟨{ c with cellIdx := c.cellIdx + 1 }, ?_, 0, fun fuel _ => ?_⟩
        · exact At.here hend hleaf hes hlast hpending hrest
        · simp [next, hend, hpending, leafCells, hleaf, ← hes.1, hlast]
      · obtain ⟨c', hat, N, hN⟩ := (goesOn_of_rest hrest).run
          { c with cellIdx := c.cellIdx + 1 } rfl hend hpending
        refine ⟨c', ?_, N, fun fuel hfuel => ?_⟩
        · rwa [List.drop_eq_nil_iff.mpr (by omega)]
        · simpa [next, hend, hpending, leafCells, hleaf, ← hes.1, hlast] using hN fuel hfuel

end Walk

end TreePosition

section Current

variable {E : Type} {kind : TreeKind} {view : UInt32 → Result Bytes}
  {entry : Bytes → PageHeader → Nat → Result E}

theorem At.current {y : E} {ys : List E} (h : At kind view entry c (y :: ys)) :
    c.isValid = true ∧ ∃ page hdr, c.leaf = some (page, hdr) ∧
      entry page hdr c.cellIdx = .ok y := by
  generalize hl : y :: ys = l at h
  cases h with
  | done => cases hl
  | here hend hleaf hes hidx hpending hrest =>
      rename_i page hdr es zs
      rw [List.drop_eq_getElem_cons hidx, List.cons_append, List.cons.injEq] at hl
      constructor
      · simp [TreePosition.isValid, hend, hleaf, TreePosition.leafCells, ← hes.1, hidx]
      · exact ⟨page, hdr, hleaf, by rw [hes.2 _ hidx, hl.1]⟩

theorem At.isValid_nil (h : At kind view entry c []) : c.isValid = false := by
  generalize hl : ([] : List E) = l at h
  cases h with
  | done hend => simp [TreePosition.isValid, hend]
  | here hend hleaf hes hidx hpending hrest =>
      rw [List.drop_eq_getElem_cons hidx] at hl
      cases hl

end Current

end Rustqlite.Btree
