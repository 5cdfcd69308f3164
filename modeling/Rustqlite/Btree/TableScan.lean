import Rustqlite.Btree.IndexCursor
import Rustqlite.Btree.TableCursor

/-!
# Cursor and scan of a table

`scan_table` reads a table by recursion, and a cursor reads it by `rewind` and
`next`.  Both see the same rows: the stack of the cursor holds what the
recursion has yet to visit.
-/

namespace Rustqlite.Btree

open Foundation Format Pager Reading

namespace TableCursor

variable (usable : Nat)

def visits (fuel : Nat) : Nat → TableCursor → Reading (List (Int64 × Bytes))
  | 0, _ => fail endless
  | n + 1, c =>
      if c.isValid then do
        let rowid ← (c.rowid usable : Result _)
        let payload ← c.payload usable
        let c' ← c.next fuel
        let rest ← visits fuel n c'
        return (rowid, payload) :: rest
      else return []

def walk (fuel : Nat) (root : UInt32) : Reading (List (Int64 × Bytes)) := do
  let c ← (new root).rewind fuel
  c.visits usable fuel fuel

end TableCursor

/-! ## The walk -/

section Walk

variable {usable : Nat} {view : UInt32 → Result Bytes}

def tableRowAt (usable : Nat) (view : UInt32 → Result Bytes) (page : Bytes) (hdr : PageHeader)
    (i : Nat) : Result (Int64 × Bytes) :=
  (tableLeafRow usable page hdr i).eval view

structure AtTable (usable : Nat) (view : UInt32 → Result Bytes) (c : TableCursor)
    (ys : List (Int64 × Bytes)) : Prop where
  position : At tableKind view (tableRowAt usable view) c.toTreePosition ys
  nullRow : c.nullRow = false

variable {c : TableCursor} {y : Int64 × Bytes} {ys rows : List (Int64 × Bytes)} {depth : Nat}

theorem AtTable.current (h : AtTable usable view c (y :: ys)) :
    c.isValid = true ∧ c.rowid usable = .ok y.1 ∧ (c.payload usable).eval view = .ok y.2 := by
  obtain ⟨hvalid, page, hdr, hleaf, hrow⟩ := h.position.current
  simp only [tableRowAt, tableLeafRow, eval_bind, eval_lift, Result.bind_eq_ok] at hrow
  obtain ⟨off, hoff, cell, hcell, payload, hpayload, hy⟩ := hrow
  cases hy
  have hcurrent : c.currentCell usable = .ok cell := by
    simp [TableCursor.currentCell, hleaf, hvalid, hoff, hcell]
  refine ⟨hvalid, ?_, ?_⟩
  · simp [TableCursor.rowid, h.nullRow, hcurrent]
  · simp [TableCursor.payload, h.nullRow, hcurrent, hpayload]

theorem next_atTable (h : AtTable usable view c (y :: ys)) :
    ∃ c', AtTable usable view c' ys ∧ ∃ N, ∀ fuel ≥ N, (c.next fuel).eval view = .ok c' := by
  obtain ⟨hvalid, -⟩ := h.position.current
  have hend : c.atEnd = false := by
    simp only [TreePosition.isValid, Bool.and_eq_true, Bool.not_eq_true'] at hvalid
    exact hvalid.1.1
  obtain ⟨pos, hat, N, hN⟩ := TreePosition.next_at h.position
  refine ⟨{ c with toTreePosition := pos, nullRow := false }, ⟨hat, rfl⟩, N, fun fuel hfuel => ?_⟩
  simp [TableCursor.next, hend, hN fuel hfuel]

theorem visits_atTable (h : AtTable usable view c ys) :
    ∃ N, ∀ fuel ≥ N, ∀ n > ys.length, (c.visits usable fuel n).eval view = .ok ys := by
  induction ys generalizing c with
  | nil =>
      refine ⟨0, fun fuel _ n hn => ?_⟩
      obtain ⟨n, rfl⟩ : ∃ m, n = m + 1 := ⟨n - 1, by omega⟩
      simp [TableCursor.visits, h.position.isValid_nil]
  | cons y ys ih =>
      obtain ⟨hvalid, hrowid, hpayload⟩ := h.current
      obtain ⟨c', hc', N, hN⟩ := next_atTable h
      obtain ⟨N', hN'⟩ := ih hc'
      refine ⟨max N N', fun fuel hfuel n hn => ?_⟩
      obtain ⟨n, rfl⟩ : ∃ m, n = m + 1 := ⟨n - 1, by omega⟩
      have hstep := hN fuel (by omega)
      have hrest := hN' fuel (by omega) n (by simpa using hn)
      simp [TableCursor.visits, hvalid, hrowid, hpayload, hstep, hrest]

theorem walk_of_tableLeaves {root : UInt32}
    (h : Leaves tableKind view (tableRowAt usable view) depth root rows) :
    ∃ N, ∀ fuel ≥ N, (TableCursor.walk usable fuel root).eval view = .ok rows := by
  obtain ⟨pos, hat, N, hN⟩ := TreePosition.rewind_at h
  set c : TableCursor := { TableCursor.new root with toTreePosition := pos, nullRow := false }
    with hc
  have hc' : AtTable usable view c rows := ⟨hat, rfl⟩
  obtain ⟨N', hN'⟩ := visits_atTable hc'
  refine ⟨max (max N N') (rows.length + 1), fun fuel hfuel => ?_⟩
  have hrewind : ((TableCursor.new root).rewind fuel).eval view = .ok c := by
    have hstart : (TreePosition.rewind tableKind fuel (TableCursor.new root).root).eval view =
        .ok pos := hN fuel (by omega)
    simp only [TableCursor.rewind, eval_bind, hstart, Result.ok_bind, eval_pure, hc]
  have hvisits := hN' fuel (by omega) fuel (by omega)
  simp [TableCursor.walk, hrewind, hvisits]

theorem leaves_of_visitTable {pgno : UInt32}
    (h : (visitTable usable depth pgno).eval view = .ok rows) :
    Leaves tableKind view (tableRowAt usable view) depth pgno rows := by
  induction depth generalizing pgno rows with
  | zero => simp [visitTable] at h
  | succ depth ih =>
      simp only [visitTable, eval_bind, eval_getPage, eval_lift, Result.bind_eq_ok] at h
      obtain ⟨page, hpage, hdr, hparse, h⟩ := h
      split at h
      · rename_i htype
        rw [eval_mapM] at h
        exact ⟨page, hdr, hpage, hparse, .inl ⟨htype, leafHolds_of_mapM h⟩⟩
      · rename_i htype
        obtain ⟨right, hright⟩ := rightMostPointer_of_interior hparse (by rw [htype]; rfl)
        simp only [hright, eval_bind, eval_mapM, Result.bind_eq_ok] at h
        obtain ⟨parts, hparts, last, hlast, hrows⟩ := h
        cases hrows
        -- every part is the scan of the left child of a cell
        have hsplit : List.Forall₂ (fun i part => ∃ c xs,
            TreePosition.interiorChild tableKind hdr page i = .ok (some c) ∧
            Leaves tableKind view (tableRowAt usable view) depth c xs ∧ xs = part)
            (List.range hdr.numCells) parts := by
          have hall := (List.forall₂_and_left (p := (· < hdr.numCells)) _ _).mpr
            ⟨fun i hi => List.mem_range.mp hi, Result.mapM_eq_ok.mp hparts⟩
          refine hall.imp fun i part hi => ?_
          obtain ⟨hlt, hpart⟩ := hi
          simp only [eval_lift, Result.bind_eq_ok] at hpart
          obtain ⟨off, hoff, cell, hcell, hpart⟩ := hpart
          refine ⟨cell.leftChild, part, ?_, ih hpart, rfl⟩
          simp [TreePosition.interiorChild, hlt, hoff, tableKind, hcell]
        obtain ⟨cs, xss, hcs, hxss, heq⟩ := forall₂_split hsplit
        rw [List.forall₂_eq_eq_eq] at heq
        obtain rfl := heq
        exact ⟨page, hdr, hpage, hparse, .inr ⟨htype, cs ++ [right], xss ++ [last],
          nodeHolds_append hright hcs, List.rel_append hxss (.cons (ih hlast) .nil), by simp⟩⟩
      · simp at h

end Walk

/-! ## Through a pager -/

/-- `rewind`, and `next` until the cursor is not on a row. -/
def walkTable (fuel : Nat) (root : UInt32) : PagerM (List (Int64 × Bytes)) := do
  let s ← FileM.getState
  (TableCursor.walk s.geometry.usableSize fuel root).run

/--
A cursor visits exactly the rows that a scan of the table returns, whatever the
shape of the tree.
-/
theorem walkTable_eq_scanTable {depth : Nat} {root : UInt32} {p q : PagerState × World DbFile}
    {rows : List (Int64 × Bytes)} (hp : p.2.failAt = none)
    (hscan : scanTable depth root p = .ok rows q) :
    ∃ N, ∀ fuel ≥ N, ∃ q, walkTable fuel root p = .ok rows q := by
  have heval := (run_eq_ok_iff _ hp rows).mp ⟨q, hscan⟩
  obtain ⟨N, hN⟩ := walk_of_tableLeaves (leaves_of_visitTable heval)
  exact ⟨N, fun fuel hfuel => (run_eq_ok_iff _ hp rows).mpr (hN fuel hfuel)⟩

def tableCell (k : UInt8) : Bytes := [1, k, k]

def deepTable : PagerState × World DbFile := databaseWith [
  layOut .interiorTable (some 4) [buildTableInteriorCell 3 2],
  layOut .interiorTable (some 6) [buildTableInteriorCell 5 1],
  layOut .interiorTable (some 7) [],
  layOut .leafTable none [tableCell 1],
  layOut .leafTable none [],
  layOut .leafTable none [tableCell 3, tableCell 4]]

theorem walkTable_eq_scanTable_deepTable :
    ∃ N, ∀ fuel ≥ N, ∃ q, walkTable fuel 2 deepTable = .ok [(1, [1]), (3, [3]), (4, [4])] q := by
  obtain ⟨rows, q, hscan, htest⟩ := FileM.exists_of_endsWith (scanTable 3 2) deepTable
    (fun rows _ => rows == [(1, [1]), (3, [3]), (4, [4])]) (by decide +kernel)
  obtain rfl := beq_iff_eq.mp htest
  exact walkTable_eq_scanTable rfl hscan

end Rustqlite.Btree
