import Rustqlite.Btree.IndexSeek
import Rustqlite.Btree.TableScan
import Rustqlite.Btree.TableTree
import Rustqlite.Foundation.Separators

/-!
# Seeking in a table

A seek goes down to the leaf that has a rowid.  The frames that it pushes start
over with their first child, so the steps after a seek read the pages above the
leaf once more.
-/

namespace Rustqlite.Btree

open Foundation Format Pager Reading

section Seek

variable (usable : Nat) (target : Int64)

def pickChildForRowidFrom (page : Bytes) (hdr : PageHeader) : Nat → Nat → Result UInt32
  | 0, _ =>
      match hdr.rightMostPointer with
      | some right => .ok right
      | none => .error (.corrupt "interior table page has no right pointer")
  | left + 1, i => do
      let off ← hdr.cellPointer page i
      let cell ← parseTableInteriorCell page off
      if target ≤ cell.rowid then return cell.leftChild
      else pickChildForRowidFrom page hdr left (i + 1)

def pickChildForRowid (page : Bytes) (hdr : PageHeader) : Result UInt32 :=
  pickChildForRowidFrom target page hdr hdr.numCells 0

namespace TableCursor

def leafIndexForRowid (page : Bytes) (hdr : PageHeader) : Reading Nat :=
  bisectM (fun mid => do
      let off ← (hdr.cellPointer page mid : Result _)
      let cell ← parseTableLeafCell page off usable
      return decide (cell.rowid < target))
    hdr.numCells 0 hdr.numCells

def descendToTarget : Nat → TreePosition → UInt32 → Reading TreePosition
  | 0, _, _ => fail endless
  | fuel + 1, c, pgno => do
      let page ← getPage pgno
      let hdr ← PageHeader.parse page (btreeHeaderOffset pgno)
      match hdr.pageType with
      | .leafTable => do
          let idx ← leafIndexForRowid usable target page hdr
          return { c with
            leafPgno := pgno
            leaf := some (page, hdr)
            cellIdx := idx
            pendingAdvance := false }
      | .interiorTable => do
          let child ← pickChildForRowid target page hdr
          descendToTarget fuel { c with stack := ⟨page, hdr, 0⟩ :: c.stack } child
      | _ => fail (.corrupt "expected a table b-tree page during seek")

/-- Also tells whether the row exists; if it does not, the cursor is on no row. -/
def seekRowid (fuel : Nat) (c : TableCursor) : Reading (TableCursor × Bool) := do
  let pos ← descendToTarget usable target fuel TreePosition.start c.root
  let c := { c with toTreePosition := pos, nullRow := false }
  if c.isValid then do
    let cell ← (c.currentCell usable : Result _)
    if cell.rowid = target then return (c, true)
    else return ({ c with atEnd := true, leaf := none, leafPgno := 0, cellIdx := 0 }, false)
  else return (c, false)

def seekWalk (fuel : Nat) (root : UInt32) : Reading (List (Int64 × Bytes)) := do
  let (c, _) ← (new root).seekRowid usable target fuel
  let c ← c.next fuel
  c.visits usable fuel fuel

end TableCursor

end Seek

/-! ## Search trees -/

def dividerRowid (page : Bytes) (hdr : PageHeader) (i : Nat) : Result Int64 := do
  let off ← hdr.cellPointer page i
  let cell ← parseTableInteriorCell page off
  return cell.rowid

def DividersAre (page : Bytes) (hdr : PageHeader) (ks : List Int64) : Prop :=
  ks.length = hdr.numCells ∧ ∀ i (h : i < ks.length), dividerRowid page hdr i = .ok ks[i]

def SearchTree (usable : Nat) (view : UInt32 → Result Bytes) :
    Nat → Option Int64 → Option Int64 → UInt32 → List (Int64 × Bytes) → Prop
  | 0, _, _, _, _ => False
  | depth + 1, lo, hi, pgno, rows => ∃ page hdr, view pgno = .ok page ∧
      PageHeader.parse page (btreeHeaderOffset pgno) = .ok hdr ∧
      (hdr.pageType = .leafTable ∧ LeafHolds (tableRowAt usable view) page hdr rows ∧
          rows.Pairwise (fun a b => a.1 < b.1) ∧ (∀ row ∈ rows, Within lo hi row.1) ∨
        hdr.pageType = .interiorTable ∧ ∃ ks cs xss, DividersAre page hdr ks ∧
          NodeHolds tableKind page hdr cs ∧ Parted (SearchTree usable view depth) lo hi ks cs xss ∧
          rows = xss.flatten)

def IsTableLeaf (view : UInt32 → Result Bytes) (pgno : UInt32) : Prop :=
  ∃ page hdr, view pgno = .ok page ∧ PageHeader.parse page (btreeHeaderOffset pgno) = .ok hdr ∧
    hdr.pageType = .leafTable

variable {page : Bytes} {hdr : PageHeader}

theorem LaidOut.dividersAre {base : Nat} {right : UInt32} {dividers : List (UInt32 × Int64)}
    (h : LaidOut page base .interiorTable (some right)
      (dividers.map fun d => buildTableInteriorCell d.1 d.2) hdr) :
    DividersAre page hdr (dividers.map Prod.snd) := by
  have hnum : hdr.numCells = dividers.length := by simpa using h.numCells
  refine ⟨by simp [hnum], fun i hi => ?_⟩
  have hlt : i < dividers.length := by simpa using hi
  obtain ⟨off, hoff, hstands⟩ := h.cells i (by simpa using hlt)
  rw [List.getElem_map] at hstands
  have hcell := hstands.parseTableInteriorCell (by simp [buildTableInteriorCell])
    (parseTableInteriorCell_build _ _)
  simp only [dividerRowid, hoff, hcell, Result.ok_bind, List.getElem_map]
  rfl

section Spec

variable {usable : Nat} {view : UInt32 → Result Bytes} {depth : Nat} {lo hi : Option Int64}
  {pgno : UInt32} {rows : List (Int64 × Bytes)}

theorem SearchTree.within (h : SearchTree usable view depth lo hi pgno rows) :
    ∀ row ∈ rows, Within lo hi row.1 := by
  induction depth generalizing lo hi pgno rows with
  | zero => exact h.elim
  | succ depth ih =>
      obtain ⟨page, hdr, -, -, ⟨-, -, -, hin⟩ | ⟨-, ks, cs, xss, -, -, hparted, rfl⟩⟩ := h
      · exact hin
      · exact hparted.within fun _ _ _ _ => ih

theorem SearchTree.ascending (h : SearchTree usable view depth lo hi pgno rows) :
    rows.Pairwise fun a b => a.1 < b.1 := by
  induction depth generalizing lo hi pgno rows with
  | zero => exact h.elim
  | succ depth ih =>
      obtain ⟨page, hdr, -, -, ⟨-, -, hasc, -⟩ | ⟨-, ks, cs, xss, -, -, hparted, rfl⟩⟩ := h
      · exact hasc
      · exact hparted.ascending (fun _ _ _ _ => SearchTree.within) fun _ _ _ _ => ih

theorem SearchTree.leaves (h : SearchTree usable view depth lo hi pgno rows) :
    Leaves tableKind view (tableRowAt usable view) depth pgno rows := by
  induction depth generalizing lo hi pgno rows with
  | zero => exact h.elim
  | succ depth ih =>
      obtain ⟨page, hdr, hpage, hparse, ⟨htype, hholds, -⟩ |
        ⟨htype, ks, cs, xss, -, hcs, hparted, rfl⟩⟩ := h
      · exact ⟨page, hdr, hpage, hparse, .inl ⟨htype, hholds⟩⟩
      · exact ⟨page, hdr, hpage, hparse,
          .inr ⟨htype, cs, xss, hcs, hparted.forall₂ fun _ _ _ _ => ih, rfl⟩⟩

theorem searchTree_leaf (hscan : (visitTable usable 1 pgno).eval view = .ok rows)
    (hasc : rows.Pairwise fun a b => a.1 < b.1) (hin : ∀ row ∈ rows, Within lo hi row.1) :
    IsTableLeaf view pgno ∧ SearchTree usable view 1 lo hi pgno rows := by
  obtain ⟨page, hdr, hpage, hparse, ⟨htype, hholds⟩ | ⟨-, cs, xss, hcs, hxss, -⟩⟩ :=
    leaves_of_visitTable hscan
  · exact ⟨⟨page, hdr, hpage, hparse, htype⟩, page, hdr, hpage, hparse,
      .inl ⟨htype, hholds, hasc, hin⟩⟩
  · have hlen := hcs.1
    cases hxss with
    | nil => simp at hlen
    | cons hfirst _ => exact hfirst.elim

/-! ## The choice of a child -/

variable {target : Int64} {ks : List Int64} {cs : List UInt32} {i : Nat} {c : UInt32}
  {payload : Bytes}

theorem pickChildForRowidFrom_ok (hks : DividersAre page hdr ks)
    (hcs : NodeHolds tableKind page hdr cs) {left : Nat} (hn : i + left = hdr.numCells)
    (hc : cs[i + (ks.drop i).findIdx fun k => decide (target ≤ k)]? = some c) :
    pickChildForRowidFrom target page hdr left i = .ok c := by
  induction left generalizing i with
  | zero =>
      obtain ⟨init, right, rfl, hright, hinit, -⟩ := hcs.split
      have hnil : ks.drop i = [] := List.drop_eq_nil_iff.mpr (by rw [hks.1]; omega)
      rw [hnil, List.findIdx_nil, Nat.add_zero, List.getElem?_append_right (by omega)] at hc
      have hright' : right = c := by simpa [show i - init.length = 0 by omega] using hc
      rw [pickChildForRowidFrom, hright, hright']
  | succ left ih =>
      have hlt : i < ks.length := by
        rw [hks.1]
        omega
      have hlt' : i < cs.length := by
        rw [hcs.1]
        omega
      obtain ⟨off, cell, hoff, hcell, hleft⟩ := cell_of_interiorChild (by omega) (hcs.2 i hlt')
      have hkey := hks.2 i hlt
      simp only [dividerRowid, hoff, hcell, Result.ok_bind] at hkey
      have hrowid : cell.rowid = ks[i] := Except.ok.inj hkey
      rw [List.drop_eq_getElem_cons hlt, List.findIdx_cons] at hc
      simp only [pickChildForRowidFrom, hoff, hcell, Result.ok_bind, hrowid]
      split_ifs with hle
      · rw [decide_eq_true hle, cond_true, Nat.add_zero, List.getElem?_eq_getElem hlt'] at hc
        rw [hleft]
        exact congrArg Except.ok (Option.some.inj hc)
      · refine ih (by omega) ?_
        rwa [decide_eq_false hle, cond_false, Nat.add_comm _ 1, ← Nat.add_assoc] at hc

theorem pickChildForRowid_ok (hks : DividersAre page hdr ks) (hcs : NodeHolds tableKind page hdr cs)
    (hc : cs[ks.findIdx fun k => decide (target ≤ k)]? = some c) :
    pickChildForRowid target page hdr = .ok c :=
  pickChildForRowidFrom_ok hks hcs (Nat.zero_add _) (by simpa using hc)

/-! ## The search of a leaf -/

theorem eval_beforeTarget (h : LeafHolds (tableRowAt usable view) page hdr rows) :
    ∀ j < hdr.numCells, (do
      let off ← (hdr.cellPointer page j : Result _)
      let cell ← parseTableLeafCell page off usable
      return decide (cell.rowid < target) : Reading Bool).eval view =
      .ok (rows[j]?.any fun row => decide (row.1 < target)) := by
  intro j hj
  have hlt : j < rows.length := h.1 ▸ hj
  have hrow := h.2 j hlt
  simp only [tableRowAt, tableLeafRow, eval_bind, eval_lift, Result.bind_eq_ok] at hrow
  obtain ⟨off, hoff, cell, hcell, payload, -, hrow⟩ := hrow
  have hrowid : cell.rowid = rows[j].1 := congrArg Prod.fst (Except.ok.inj hrow)
  simp [hoff, hcell, hrowid, hlt]

theorem eval_leafIndexForRowid (h : LeafHolds (tableRowAt usable view) page hdr rows)
    (hasc : rows.Pairwise fun a b => a.1 < b.1) (hi : i < rows.length)
    (htarget : rows[i].1 = target) :
    (TableCursor.leafIndexForRowid usable target page hdr).eval view = .ok i := by
  rw [TableCursor.leafIndexForRowid, eval_bisectM (eval_beforeTarget h) le_rfl, ← h.1]
  have hbisect : bisect (fun j => rows[j]?.any fun row => decide (row.1 < target)) rows.length 0
      rows.length = i := bisect_eq (by omega) (Nat.zero_le i) (by omega)
          (fun j _ hj => ?_) fun j hj hlt => ?_
  · rw [hbisect]
  · have hlt := List.pairwise_iff_getElem.mp hasc j i (by omega) hi hj
    simpa [show j < rows.length by omega, ← htarget] using hlt
  · have hge : target ≤ rows[j].1 := by
      rcases Nat.eq_or_lt_of_le hj with rfl | hlt'
      · exact htarget ▸ Std.le_refl _
      · exact htarget ▸ Std.le_of_lt (List.pairwise_iff_getElem.mp hasc i j hi hlt hlt')
    simpa [hlt] using hge

/-! ## The descent -/

theorem drop_eq_filter (hasc : rows.Pairwise fun a b => a.1 < b.1) (hi : i < rows.length) :
    rows.drop (i + 1) = rows.filter fun row => rows[i].1 < row.1 := by
  have hrow := List.pairwise_iff_getElem.mp hasc
  have hsplit := List.filter_append (p := fun row => decide (rows[i].1 < row.1))
    (rows.take (i + 1)) (rows.drop (i + 1))
  rw [List.take_append_drop] at hsplit
  have hleft : (rows.take (i + 1)).filter (fun row => decide (rows[i].1 < row.1)) = [] := by
    rw [List.filter_eq_nil_iff]
    intro row hmem
    obtain ⟨j, hj, rfl⟩ := List.mem_iff_getElem.mp hmem
    rw [List.length_take] at hj
    rw [List.getElem_take, decide_eq_true_eq, Std.not_lt]
    rcases Nat.eq_or_lt_of_le (show j ≤ i by omega) with rfl | hlt
    · exact Std.le_refl _
    · exact Std.le_of_lt (hrow j i (by omega) hi hlt)
  have hright : (rows.drop (i + 1)).filter (fun row => decide (rows[i].1 < row.1)) =
      rows.drop (i + 1) := by
    rw [List.filter_eq_self]
    intro row hmem
    obtain ⟨j, hj, rfl⟩ := List.mem_iff_getElem.mp hmem
    rw [List.length_drop] at hj
    rw [List.getElem_drop]
    exact decide_eq_true (hrow i (i + 1 + j) hi (by omega) (by omega))
  rw [hsplit, hleft, hright, List.nil_append]

theorem descendToTarget_lands {zs : List (Int64 × Bytes)} {c : TreePosition}
    (h : SearchTree usable view depth lo hi pgno rows) (hrow : (target, payload) ∈ rows)
    (hzs : Rest tableKind view (tableRowAt usable view) c.stack zs) :
    ∃ leafPgno leaf leafHdr frames ws es i, LeafHolds (tableRowAt usable view) leaf leafHdr es ∧
      es.Pairwise (fun a b => a.1 < b.1) ∧ es[i]? = some (target, payload) ∧
      Rest tableKind view (tableRowAt usable view) (frames ++ c.stack) (ws ++ zs) ∧
      (IsTableLeaf view pgno ∧ es = rows ∧ ws = [] ∨ ¬IsTableLeaf view pgno ∧ es ⊆ ws) ∧
      ∃ N, ∀ fuel ≥ N, (TableCursor.descendToTarget usable target fuel c pgno).eval view =
        .ok (landing c leafPgno leaf leafHdr frames i) := by
  induction depth generalizing lo hi pgno rows zs c with
  | zero => exact h.elim
  | succ depth ih =>
      obtain ⟨page, hdr, hpage, hparse, ⟨htype, hholds, hasc, -⟩ |
        ⟨htype, ks, cs, xss, hks, hcs, hparted, rfl⟩⟩ := h
      · obtain ⟨i, hi, hget⟩ := List.mem_iff_getElem.mp hrow
        refine ⟨pgno, page, hdr, [], [], rows, i, hholds, hasc, by simp [hi, hget], hzs,
          .inl ⟨⟨page, hdr, hpage, hparse, htype⟩, rfl, rfl⟩, 1, fun fuel hfuel => ?_⟩
        obtain ⟨fuel, rfl⟩ : ∃ n, fuel = n + 1 := ⟨fuel - 1, by omega⟩
        have hidx := eval_leafIndexForRowid hholds hasc hi (congrArg Prod.fst hget)
        simp [TableCursor.descendToTarget, hpage, hparse, htype, hidx, landing]
      · obtain ⟨lo', hi', child, xs, hchild, hxs, hsub, hmem⟩ :=
          hparted.mem_child (fun _ _ _ _ => SearchTree.within) hrow
        have hpick := pickChildForRowid_ok hks hcs hchild
        have hleaves := hparted.forall₂ fun _ _ _ _ => SearchTree.leaves
        have hrest := Rest.cons (f := ⟨page, hdr, 0⟩) hcs (by simpa using hleaves) hzs
        obtain ⟨leafPgno, leaf, leafHdr, frames, ws, es, i, hholds, hasc, hi, hrest', hor, N, hN⟩ :=
          ih (c := { c with stack := ⟨page, hdr, 0⟩ :: c.stack }) hsub hmem hrest
        have hsubset : es ⊆ ws ++ xss.flatten := by
          rcases hor with ⟨-, rfl, rfl⟩ | ⟨-, hws⟩
          · exact (List.sublist_flatten_of_mem (List.mem_of_getElem? hxs)).subset
          · exact List.Subset.trans hws (List.subset_append_left _ _)
        have hroot : ¬IsTableLeaf view pgno := by
          rintro ⟨page', hdr', hpage', hparse', htype'⟩
          cases hpage.symm.trans hpage'
          cases hparse.symm.trans hparse'
          rw [htype] at htype'
          cases htype'
        refine ⟨leafPgno, leaf, leafHdr, frames ++ [⟨page, hdr, 0⟩], ws ++ xss.flatten, es,
            i, hholds,
          hasc, hi, by simpa using hrest', .inr ⟨hroot, hsubset⟩, N + 1, fun fuel hfuel => ?_⟩
        obtain ⟨fuel, rfl⟩ : ∃ n, fuel = n + 1 := ⟨fuel - 1, by omega⟩
        have hstep := hN fuel (by omega)
        simp [TableCursor.descendToTarget, hpage, hparse, htype, hpick, hstep, landing]

theorem seekWalk_lands_table (h : SearchTree usable view depth lo hi pgno rows)
    (hrow : (target, payload) ∈ rows) :
    ∃ es ws i, es[i]? = some (target, payload) ∧ es.Pairwise (fun a b => a.1 < b.1) ∧
      (IsTableLeaf view pgno ∧ es = rows ∧ ws = [] ∨ ¬IsTableLeaf view pgno ∧ es ⊆ ws) ∧
      ∃ N, ∀ fuel ≥ N, (TableCursor.seekWalk usable target fuel pgno).eval view =
        .ok (es.drop (i + 1) ++ ws) := by
  obtain ⟨leafPgno, leaf, leafHdr, frames, ws, es, i, hholds, hasc, hi, hrest, hor, N, hN⟩ :=
    descendToTarget_lands (c := TreePosition.start) h hrow .nil
  rw [List.append_nil] at hrest
  refine ⟨es, ws, i, hi, hasc, hor, ?_⟩
  obtain ⟨hlt, hget⟩ := List.getElem?_eq_some_iff.mp hi
  set pos := landing TreePosition.start leafPgno leaf leafHdr frames i with hpos
  set c : TableCursor := { TableCursor.new pgno with toTreePosition := pos, nullRow :=
      false } with hc
  have hat : AtTable usable view c (es.drop i ++ ws) := ⟨At.here rfl rfl hholds hlt rfl hrest, rfl⟩
  rw [List.drop_eq_getElem_cons hlt, List.cons_append, hget] at hat
  obtain ⟨hvalid, hrowid, -⟩ := hat.current
  obtain ⟨cell, hcell, hcellRowid⟩ : ∃ cell, c.currentCell usable = .ok cell ∧
      cell.rowid = target := by
    simp only [TableCursor.rowid, hc, Bool.false_eq_true, if_false, Result.bind_eq_ok] at hrowid
    obtain ⟨cell, hcell, heq⟩ := hrowid
    exact ⟨cell, hcell, Except.ok.inj heq⟩
  obtain ⟨c', hc', N₁, hN₁⟩ := next_atTable hat
  obtain ⟨N₂, hN₂⟩ := visits_atTable hc'
  refine ⟨max (max N N₁) (max N₂ ((es.drop (i + 1) ++ ws).length + 1)), fun fuel hfuel => ?_⟩
  have hdesc := hN fuel (by omega)
  have hseek : ((TableCursor.new pgno).seekRowid usable target fuel).eval view = .ok (c, true) := by
    have hstart : (TableCursor.descendToTarget usable target fuel TreePosition.start
        (TableCursor.new pgno).root).eval view = .ok pos := hdesc
    simp only [TableCursor.seekRowid, eval_bind, hstart, Result.ok_bind]
    rw [← hc, if_pos hvalid]
    simp [hcell, hcellRowid]
  have hnext := hN₁ fuel (by omega)
  have hvisits := hN₂ fuel (by omega) fuel (by omega)
  simp only [TableCursor.seekWalk, eval_bind, hseek, Result.ok_bind, hnext, hvisits]

end Spec

/-! ## Through a pager -/

/-- `seek_rowid`, and then `next` until the cursor is not on a row. -/
def seekTable (fuel : Nat) (target : Int64) (root : UInt32) : PagerM (List (Int64 × Bytes)) := do
  let s ← FileM.getState
  (TableCursor.seekWalk s.geometry.usableSize target fuel root).run

def SearchTable (p : PagerState × World DbFile) (root : UInt32) (rows : List (Int64 × Bytes)) :
    Prop :=
  ∃ depth, SearchTree p.1.geometry.usableSize (pageSeen p.1 p.2.disk) depth none none root rows

/--
Behind the row that a seek has found, the cursor visits exactly the rows with
larger rowids, if and only if the table is a single leaf.
-/
theorem seekTable_eq_larger_iff {p : PagerState × World DbFile} {root : UInt32}
    {rows : List (Int64 × Bytes)} {target : Int64} (hp : p.2.failAt = none)
    (h : SearchTable p root rows) (htarget : target ∈ rows.map Prod.fst) :
    (∃ N, ∀ fuel ≥ N, ∃ q, seekTable fuel target root p =
        .ok (rows.filter fun row => target < row.1) q) ↔
      IsTableLeaf (pageSeen p.1 p.2.disk) root := by
  obtain ⟨depth, htree⟩ := h
  obtain ⟨⟨_, payload⟩, hrow, rfl⟩ := List.mem_map.mp htarget
  obtain ⟨es, ws, i, hi, hasc, hor, N, hN⟩ := seekWalk_lands_table htree hrow
  obtain ⟨hlt, hget⟩ := List.getElem?_eq_some_iff.mp hi
  constructor
  · rintro ⟨N', hN'⟩
    rcases hor with ⟨hleaf, -⟩ | ⟨-, hsub⟩
    · exact hleaf
    · -- the row itself is visited once more
      exfalso
      have hwalk := (run_eq_ok_iff _ hp _).mp (hN' (max N N') (by omega))
      rw [hN (max N N') (by omega)] at hwalk
      have hmem := List.mem_append_right (es.drop (i + 1)) (hsub (List.mem_of_getElem? hi))
      rw [Except.ok.inj hwalk, List.mem_filter, decide_eq_true_eq] at hmem
      exact Std.lt_irrefl hmem.2
  · intro hleaf
    rcases hor with ⟨-, rfl, rfl⟩ | ⟨hnot, -⟩
    · refine ⟨N, fun fuel hfuel => (run_eq_ok_iff _ hp _).mpr ?_⟩
      rw [hN fuel hfuel, List.append_nil, drop_eq_filter hasc hlt, hget]
    · exact absurd hleaf hnot

def oneLeafTable : PagerState × World DbFile :=
  databaseWith [layOut .leafTable none [tableCell 1, tableCell 2, tableCell 3]]

set_option maxRecDepth 10000 in
theorem seekTable_eq_larger_oneLeaf :
    ∃ N, ∀ fuel ≥ N, ∃ q, seekTable fuel 2 2 oneLeafTable = .ok [(3, [3])] q := by
  have hscan : (visitTable 512 1 2).eval (pageSeen oneLeafTable.1 oneLeafTable.2.disk) =
      .ok [(1, [1]), (2, [2]), (3, [3])] := by decide
  obtain ⟨hleaf, htree⟩ := searchTree_leaf hscan (by decide)
    (show ∀ row : Int64 × Bytes, row ∈ _ → Within none none row.1 by simp [Within])
  exact (seekTable_eq_larger_iff rfl ⟨1, htree⟩ (by decide)).mpr hleaf

def twoLeafTable : PagerState × World DbFile := databaseWith [
  layOut .interiorTable (some 4) ([((3 : UInt32), (1 : Int64))].map fun d =>
    buildTableInteriorCell d.1 d.2),
  layOut .leafTable none [tableCell 1],
  layOut .leafTable none [tableCell 2, tableCell 3]]

set_option maxRecDepth 10000 in
theorem searchTable_twoLeafTable : SearchTable twoLeafTable 2 [(1, [1]), (2, [2]), (3, [3])] := by
  have hsize : (List.replicate 512 (0 : UInt8)).length ≤ 65536 := by decide
  obtain ⟨page, hdr, hrun, -, hlaid⟩ := writePageCells_spec 0 .interiorTable (some 4)
    ([((3 : UInt32), (1 : Int64))].map fun d => buildTableInteriorCell d.1 d.2) hsize
    (by decide) (by decide) (by decide)
  have hroot : pageSeen twoLeafTable.1 twoLeafTable.2.disk 2 = .ok page := by
    have hfile : pageSeen twoLeafTable.1 twoLeafTable.2.disk 2 =
        .ok (layOut .interiorTable (some 4) [buildTableInteriorCell 3 1]) := by decide
    rw [hfile, layOut]
    exact congrArg (fun r => Except.ok (r.toOption.getD [])) hrun
  have hleft : (visitTable 512 1 3).eval (pageSeen twoLeafTable.1 twoLeafTable.2.disk) =
      .ok [(1, [1])] := by decide
  have hright : (visitTable 512 1 4).eval (pageSeen twoLeafTable.1 twoLeafTable.2.disk) =
      .ok [(2, [2]), (3, [3])] := by decide
  refine ⟨2, page, hdr, hroot, hlaid.parse, .inr ⟨hlaid.pageType_eq, [1], [3, 4],
    [[(1, [1])], [(2, [2]), (3, [3])]], hlaid.dividersAre, hlaid.nodeHolds,
    .cons (by simp [Within]) ?_ (.last ?_), rfl⟩⟩
  · exact (searchTree_leaf hleft (by decide) (by simp [Within])).2
  · exact (searchTree_leaf hright (by decide) (by simp [Within])).2

set_option maxRecDepth 10000 in
/-- A seek of the row 2 is followed by the row 3, and then by all rows once more. -/
theorem seekTable_twoLeafTable : SearchTable twoLeafTable 2 [(1, [1]), (2, [2]), (3, [3])] ∧
    ∃ q, seekTable 8 2 2 twoLeafTable = .ok [(3, [3]), (1, [1]), (2, [2]), (3, [3])] q := by
  refine ⟨searchTable_twoLeafTable, ?_⟩
  obtain ⟨rows, q, hseek, htest⟩ := FileM.exists_of_endsWith (seekTable 8 2 2) twoLeafTable
    (fun rows _ => rows == [(3, [3]), (1, [1]), (2, [2]), (3, [3])]) (by decide)
  obtain rfl := beq_iff_eq.mp htest
  exact ⟨q, hseek⟩

end Rustqlite.Btree
