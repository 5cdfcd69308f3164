import Rustqlite.Btree.TableSeek

/-!
# Whether a seek finds

A seek in a table finds a rowid exactly when the table has it.  A seek in an
index ends on one leaf, on the first of its entries that is not below the key.
-/

namespace Rustqlite.Btree

open Foundation Format Pager Reading

/-! ## Tables -/

variable {fuel : Nat} {page : Bytes} {hdr : PageHeader}

section Table

variable {usable : Nat} {view : UInt32 → Result Bytes} {depth : Nat} {lo hi : Option Int64}
  {pgno : UInt32} {rows : List (Int64 × Bytes)} {target : Int64}

theorem SearchTree.visitTable_ok (h : SearchTree usable view depth lo hi pgno rows)
    (hfuel : depth ≤ fuel) : (visitTable usable fuel pgno).eval view = .ok rows := by
  induction depth generalizing lo hi pgno rows fuel with
  | zero => exact h.elim
  | succ depth ih =>
      obtain ⟨fuel, rfl⟩ : ∃ n, fuel = n + 1 := ⟨fuel - 1, by omega⟩
      obtain ⟨page, hdr, hpage, hparse, ⟨htype, hholds, -⟩ |
        ⟨htype, ks, cs, xss, -, hcs, hparted, rfl⟩⟩ := h
      · have hrows : (List.range hdr.numCells).mapM
            (fun i => (tableLeafRow usable page hdr i).eval view) = .ok rows := by
          rw [Result.mapM_eq_ok, List.forall₂_iff_get]
          refine ⟨by simp [hholds.1], fun i hi hi' => ?_⟩
          simpa [tableRowAt] using hholds.2 i hi'
        simp [visitTable, hpage, hparse, htype, eval_mapM, hrows]
      · have hall : List.Forall₂
            (fun c xs => (visitTable usable fuel c).eval view = .ok xs) cs xss :=
          hparted.forall₂ fun _ _ _ _ hc => ih hc (by omega)
        obtain ⟨init, right, rfl, hright, hnum, hchild⟩ := hcs.split
        obtain ⟨parts, last, rfl, hinit, hlast⟩ := forall₂_concat hall
        have hparts : (List.range hdr.numCells).mapM (fun i => do
            let off ← hdr.cellPointer page i
            let cell ← parseTableInteriorCell page off
            (visitTable usable fuel cell.leftChild).eval view) = .ok parts := by
          rw [Result.mapM_eq_ok, List.forall₂_iff_get]
          have hlen := hinit.length_eq
          refine ⟨by simp [← hnum, hlen], fun i hi hi' => ?_⟩
          have hi₀ : i < init.length := by omega
          obtain ⟨off, cell, hoff, hcell, hleft⟩ :=
            cell_of_interiorChild (by omega) (hchild i hi₀)
          have hsub := hinit.get hi₀ hi'
          simp only [List.get_eq_getElem, List.getElem_range, hoff, hcell, Result.ok_bind, hleft]
          exact hsub
        simp [visitTable, hpage, hparse, htype, eval_mapM, hparts, hright, hlast]

theorem leafIndexForRowid_ok (h : LeafHolds (tableRowAt usable view) page hdr rows) :
    ∃ i, (TableCursor.leafIndexForRowid usable target page hdr).eval view = .ok i := by
  exact ⟨_, eval_bisectM (eval_beforeTarget h) le_rfl⟩

theorem descendToTarget_reaches {c : TreePosition}
    (h : SearchTree usable view depth lo hi pgno rows) :
    ∃ leafPgno leaf leafHdr frames es i, LeafHolds (tableRowAt usable view) leaf leafHdr es ∧
      es ⊆ rows ∧ ∃ N, ∀ fuel ≥ N,
        (TableCursor.descendToTarget usable target fuel c pgno).eval view =
          .ok (landing c leafPgno leaf leafHdr frames i) := by
  induction depth generalizing lo hi pgno rows c with
  | zero => exact h.elim
  | succ depth ih =>
      obtain ⟨page, hdr, hpage, hparse, ⟨htype, hholds, -⟩ |
        ⟨htype, ks, cs, xss, hks, hcs, hparted, rfl⟩⟩ := h
      · obtain ⟨i, hi⟩ : ∃ i, (TableCursor.leafIndexForRowid usable target page hdr).eval
            view = .ok i :=
        leafIndexForRowid_ok hholds
        refine ⟨pgno, page, hdr, [], rows, i, hholds, List.Subset.refl _, 1, fun fuel hfuel => ?_⟩
        obtain ⟨fuel, rfl⟩ : ∃ n, fuel = n + 1 := ⟨fuel - 1, by omega⟩
        simp [TableCursor.descendToTarget, hpage, hparse, htype, hi, landing]
      · set k := ks.findIdx fun k => decide (target ≤ k) with hk
        have hlt : k < cs.length := by
          have hle : k ≤ ks.length := List.findIdx_le_length
          have hlen := hparted.length
          omega
        have hpick := pickChildForRowid_ok hks hcs (List.getElem?_eq_getElem hlt)
        have hall : List.Forall₂ (fun c xs => ∃ lo' hi',
            SearchTree usable view depth lo' hi' c xs) cs xss :=
          hparted.forall₂ fun lo' hi' _ _ hc => ⟨lo', hi', hc⟩
        have hlt' : k < xss.length := hall.length_eq ▸ hlt
        obtain ⟨lo', hi', hsub⟩ := hall.get hlt hlt'
        simp only [List.get_eq_getElem] at hsub
        obtain ⟨leafPgno, leaf, leafHdr, frames, es, i, hholds, hes, N, hN⟩ :=
          ih (c := { c with stack := ⟨page, hdr, 0⟩ :: c.stack }) hsub
        refine ⟨leafPgno, leaf, leafHdr, frames ++ [⟨page, hdr, 0⟩], es, i, hholds,
          List.Subset.trans hes (List.sublist_flatten_of_mem (List.getElem_mem hlt')).subset,
          N + 1, fun fuel hfuel => ?_⟩
        obtain ⟨fuel, rfl⟩ : ∃ n, fuel = n + 1 := ⟨fuel - 1, by omega⟩
        have hstep := hN fuel (by omega)
        simp [TableCursor.descendToTarget, hpage, hparse, htype, hpick, hstep, landing]

theorem seekRowid_of_landing {leafPgno : UInt32} {leaf : Bytes} {leafHdr : PageHeader}
    {frames : List Frame} {es : List (Int64 × Bytes)} {i : Nat}
    (hholds : LeafHolds (tableRowAt usable view) leaf leafHdr es)
    (hdesc : (TableCursor.descendToTarget usable target fuel TreePosition.start pgno).eval view =
      .ok (landing TreePosition.start leafPgno leaf leafHdr frames i)) :
    ∃ c, ((TableCursor.new pgno).seekRowid usable target fuel).eval view =
      .ok (c, es[i]?.any fun row => decide (row.1 = target)) := by
  set pos := landing TreePosition.start leafPgno leaf leafHdr frames i with hpos
  set c : TableCursor := { TableCursor.new pgno with toTreePosition := pos, nullRow :=
      false } with hc
  have hstart : (TableCursor.descendToTarget usable target fuel TreePosition.start
      (TableCursor.new pgno).root).eval view = .ok pos := hdesc
  have hleaf : c.leaf = some (leaf, leafHdr) := rfl
  have hidx : c.cellIdx = i := rfl
  have hvalid : c.isValid = decide (i < es.length) := by
    rw [hholds.1]
    rfl
  have hseek : ((TableCursor.new pgno).seekRowid usable target fuel).eval view =
      (if c.isValid then do
        let cell ← (c.currentCell usable : Result _)
        if cell.rowid = target then return (c, true)
        else return ({ c with atEnd := true, leaf := none, leafPgno := 0, cellIdx := 0 }, false)
      else return (c, false) : Reading (TableCursor × Bool)).eval view := by
    simp only [TableCursor.seekRowid, eval_bind, hstart, Result.ok_bind]
    rfl
  rw [hseek]
  clear_value c
  by_cases hlt : i < es.length
  · have hrow := hholds.2 i hlt
    simp only [tableRowAt, tableLeafRow, eval_bind, eval_lift, Result.bind_eq_ok] at hrow
    obtain ⟨off, hoff, cell, hcell, payload, -, hrow⟩ := hrow
    have hrowid : cell.rowid = es[i].1 := congrArg Prod.fst (Except.ok.inj hrow)
    have hcurrent : c.currentCell usable = .ok cell := by
      simp [TableCursor.currentCell, hvalid, hleaf, hidx, hoff, hcell, hlt]
    rw [if_pos (hvalid.trans (decide_eq_true hlt))]
    by_cases heq : es[i].1 = target
    · exact ⟨c, by simp [hcurrent, hrowid, heq, hlt]⟩
    · exact ⟨{ c with atEnd := true, leaf := none, leafPgno := 0, cellIdx := 0 },
        by simp [hcurrent, hrowid, heq, hlt]⟩
  · rw [hvalid, decide_eq_false hlt]
    exact ⟨c, by simp [hlt]⟩

theorem seekRowid_found (h : SearchTree usable view depth lo hi pgno rows) (target : Int64) :
    ∃ N, ∀ fuel ≥ N, ∃ c, ((TableCursor.new pgno).seekRowid usable target fuel).eval view =
      .ok (c, decide (target ∈ rows.map Prod.fst)) := by
  by_cases hmem : target ∈ rows.map Prod.fst
  · obtain ⟨⟨_, payload⟩, hrow, rfl⟩ := List.mem_map.mp hmem
    obtain ⟨leafPgno, leaf, leafHdr, frames, ws, es, i, hholds, -, hi, -, -, N, hN⟩ :=
      descendToTarget_lands (c := TreePosition.start) h hrow .nil
    refine ⟨N, fun fuel hfuel => ?_⟩
    have hseek := seekRowid_of_landing hholds (hN fuel hfuel)
    rwa [hi, Option.any_some, decide_eq_true rfl, ← decide_eq_true hmem] at hseek
  · obtain ⟨leafPgno, leaf, leafHdr, frames, es, i, hholds, hes, N, hN⟩ :=
      descendToTarget_reaches (c := TreePosition.start) h
    refine ⟨N, fun fuel hfuel => ?_⟩
    have hnone : (es[i]?.any fun row => decide (row.1 = target)) = false := by
      rw [Option.any_eq_false]
      intro row hrow
      rw [decide_eq_false_iff_not]
      rintro rfl
      exact hmem (List.mem_map_of_mem (hes (List.mem_of_getElem? hrow)))
    have hseek := seekRowid_of_landing hholds (hN fuel hfuel)
    rwa [hnone, ← decide_eq_false hmem] at hseek

end Table

/-! ## Indexes -/

section Index

variable {E : Type} {cls : E → Ordering} {es : List E}

variable {usable : Nat} {encoding : TextEncoding} {asI64 : Value → Int64}
  {keyInfo : List KeyField} {key : List Value} {view : UInt32 → Result Bytes} {root : UInt32}
  {depth : Nat}

theorem LeafHolds.unique {F : Type} {entry : Bytes → PageHeader → Nat → Result F} {xs ys : List F}
    (h : LeafHolds entry page hdr xs) (h' : LeafHolds entry page hdr ys) : xs = ys := by
  refine List.ext_getElem (h.1.trans h'.1.symm) fun i hi hi' => ?_
  exact Except.ok.inj ((h.2 i hi).symm.trans (h'.2 i hi'))

variable {xs : List (Bytes × Int64)}

end Index

end Rustqlite.Btree
