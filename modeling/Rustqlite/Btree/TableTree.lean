import Rustqlite.Btree.Layout
import Rustqlite.Btree.TableCursor

/-!
# Well-formed tables

The interior pages of a table lead to its leaves; each leaf has its own cells,
and each cell that spills its own chain of overflow pages.  No page has two
uses, so a change of one leaf leaves the rest of the table alone.
-/

namespace Rustqlite.Btree

open Foundation Format Pager Reading

/-! ## Chains of overflow pages -/

def Linked (view : UInt32 → Result Bytes) : UInt32 → List UInt32 → Prop
  | first, [] => first = 0
  | first, pgno :: chain => first = pgno ∧ pgno ≠ 0 ∧
      ∃ page, view pgno = .ok page ∧ Linked view (readBe32 page) chain

variable {usable i depth : Nat} {view view' : UInt32 → Result Bytes} {pgno : UInt32} {page : Bytes}
  {hdr : PageHeader} {inner leaves : List UInt32}

section Chain

variable {view view' : UInt32 → Result Bytes}

variable {chain : List UInt32}

theorem Linked.congr {first : UInt32} (h : Linked view first chain)
    (hsame : ∀ q ∈ chain, view' q = view q) : Linked view' first chain := by
  induction chain generalizing first with
  | nil => exact h
  | cons pgno chain ih =>
      obtain ⟨rfl, hne, page, hpage, hrest⟩ := h
      refine ⟨rfl, hne, page, (hsame _ (by simp)).trans hpage, ih hrest fun q hq => ?_⟩
      exact hsame q (by simp [hq])

theorem assembleLoop_congr {total left : Nat} {next : Option UInt32} {payload : Bytes}
    (h : Linked view (next.getD 0) chain) (hsame : ∀ q ∈ chain, view' q = view q) :
    (assembleLoop usable total left next payload).eval view' =
      (assembleLoop usable total left next payload).eval view := by
  induction left generalizing next payload chain with
  | zero => rfl
  | succ left ih =>
      rw [assembleLoop]
      by_cases hlt : payload.length < total
      · rw [if_pos hlt]
        cases hnext : next.filter (· ≠ 0) with
        | none => rfl
        | some pgno =>
            obtain ⟨rfl, hne⟩ : next = some pgno ∧ pgno ≠ 0 := by
              simpa using Option.filter_eq_some_iff.mp hnext
            cases chain with
            | nil => exact absurd h hne
            | cons q chain =>
                obtain ⟨heq, -, page, hpage, hrest⟩ := h
                obtain rfl : pgno = q := heq
                have hpage' : view' pgno = .ok page := (hsame pgno (by simp)).trans hpage
                have hnext' : Linked view
                    ((if readBe32 page = 0 then none else some (readBe32 page)).getD 0) chain := by
                  split_ifs with hzero
                  · simpa [hzero] using hrest
                  · exact hrest
                simp only [eval_bind, eval_getPage, hpage, hpage', Result.ok_bind]
                by_cases hshort : page.length < 4 + min (total - payload.length) (usable - 4)
                · simp only [if_pos hshort]
                  rfl
                · simp only [if_neg hshort]
                  exact ih hnext' fun q hq => hsame q (by simp [hq])
      · rw [if_neg hlt]
        rfl

theorem assemblePayload_congr {cell : TableLeafCell}
    (h : Linked view (cell.overflowPage.getD 0) chain) (hsame : ∀ q ∈ chain, view' q = view q) :
    (assemblePayload usable cell).eval view' = (assemblePayload usable cell).eval view := by
  simp only [assemblePayload, assemble, eval_bind, assembleLoop_congr h hsame]
  congr 1
  funext payload
  split_ifs <;> rfl

end Chain

/-! ## Leaves -/

/-- A cell of a leaf: its bytes, the row that they stand for, and its overflow pages. -/
structure StoredRow where
  bytes : Bytes
  row : Int64 × Bytes
  chain : List UInt32

structure StoredRow.Valid (usable : Nat) (view : UInt32 → Result Bytes) (r : StoredRow) : Prop where
  size : cellOnPageSize r.bytes 0 usable = .ok r.bytes.length
  decodes : ∃ cell, parseTableLeafCell r.bytes 0 usable = .ok cell ∧ cell.rowid = r.row.1 ∧
    Linked view (cell.overflowPage.getD 0) r.chain ∧
    (assemblePayload usable cell).eval view = .ok r.row.2

variable {r : StoredRow} {rs : List StoredRow}

theorem StoredRow.Valid.congr (h : r.Valid usable view) (hsame : ∀ q ∈ r.chain, view' q = view q) :
    r.Valid usable view' := by
  obtain ⟨cell, hcell, hrowid, hlinked, hpayload⟩ := h.decodes
  refine ⟨h.size, cell, hcell, hrowid, hlinked.congr hsame, ?_⟩
  rw [assemblePayload_congr hlinked hsame, hpayload]

theorem StoredRow.Valid.pos (h : r.Valid usable view) : 0 < r.bytes.length := by
  by_contra hzero
  have hnil : r.bytes = [] := List.length_eq_zero_iff.mp (by omega)
  have hsize := h.size
  rw [hnil] at hsize
  simp [cellOnPageSize, readVarintAt, readVarint, readVarintFrom] at hsize

structure LeafAt (usable : Nat) (view : UInt32 → Result Bytes) (pgno : UInt32)
    (rs : List StoredRow) (page : Bytes) (hdr : PageHeader) : Prop where
  shown : view pgno = .ok page
  parse : PageHeader.parse page (btreeHeaderOffset pgno) = .ok hdr
  pageType : hdr.pageType = .leafTable
  numCells : rs.length = hdr.numCells
  cells : ∀ i (h : i < rs.length), ∃ off, hdr.cellPointer page i = .ok off ∧
    StandsAt rs[i].bytes page off
  valid : ∀ r ∈ rs, r.Valid usable view
  /-- The cells fit side by side. -/
  fits : btreeHeaderOffset pgno + 8 + rs.length * 2 + (rs.map StoredRow.bytes).flatten.length ≤
    page.length

def chains (rs : List StoredRow) : List UInt32 := rs.flatMap StoredRow.chain

theorem LeafAt.congr (h : LeafAt usable view pgno rs page hdr) (hpage : view' pgno = view pgno)
    (hsame : ∀ q ∈ chains rs, view' q = view q) : LeafAt usable view' pgno rs page hdr :=
  { h with
    shown := hpage.trans h.shown
    valid := fun r hr => (h.valid r hr).congr fun q hq =>
      hsame q (List.mem_flatMap.mpr ⟨r, hr, hq⟩) }

theorem LeafAt.row (h : LeafAt usable view pgno rs page hdr) (hi : i < rs.length) :
    (tableLeafRow usable page hdr i).eval view = .ok rs[i].row := by
  obtain ⟨off, hoff, hstands⟩ := h.cells i hi
  have hvalid := h.valid rs[i] (List.getElem_mem hi)
  obtain ⟨cell, hcell, hrowid, -, hpayload⟩ := hvalid.decodes
  have hparse := hstands.parseTableLeafCell hvalid.pos hcell
  simp only [tableLeafRow, eval_bind, eval_lift, hoff, hparse, hpayload, Result.ok_bind, hrowid]
  rfl

/-! ## Interior pages -/

def Spine (view : UInt32 → Result Bytes) (inner : List UInt32) :
    Nat → UInt32 → List UInt32 → Prop
  | 0, _, _ => False
  | depth + 1, pgno, leaves => ∃ page hdr, view pgno = .ok page ∧
      PageHeader.parse page (btreeHeaderOffset pgno) = .ok hdr ∧
      (hdr.pageType = .leafTable ∧ leaves = [pgno] ∨
        pgno ∈ inner ∧ hdr.pageType = .interiorTable ∧ ∃ cs ls, NodeHolds tableKind page hdr cs ∧
          List.Forall₂ (Spine view inner depth) cs ls ∧ leaves = ls.flatten)

def IsLeaf (view : UInt32 → Result Bytes) (pgno : UInt32) : Prop :=
  ∃ page hdr, view pgno = .ok page ∧
    PageHeader.parse page (btreeHeaderOffset pgno) = .ok hdr ∧ hdr.pageType = .leafTable

theorem forall₂_imp_of_mem {α β : Type} {R S : α → List β → Prop} {l : List α}
    {ls : List (List β)} (h : List.Forall₂ R l ls) (himp : ∀ a m, m ∈ ls → R a m → S a m) :
    List.Forall₂ S l ls := by
  induction h with
  | nil => exact .nil
  | cons hab _ ih =>
      exact .cons (himp _ _ (by simp) hab) (ih fun a m hm => himp a m (by simp [hm]))

theorem Spine.congr (h : Spine view inner depth pgno leaves)
    (hinner : ∀ q ∈ inner, view' q = view q) (hleaves : ∀ l ∈ leaves, IsLeaf view' l) :
    Spine view' inner depth pgno leaves := by
  induction depth generalizing pgno leaves with
  | zero => exact h.elim
  | succ depth ih =>
      obtain ⟨page, hdr, hpage, hparse, ⟨htype, rfl⟩ | ⟨hmem, htype, cs, ls, hcs, hls, rfl⟩⟩ := h
      · obtain ⟨page', hdr', hpage', hparse', htype'⟩ := hleaves pgno (by simp)
        exact ⟨page', hdr', hpage', hparse', .inl ⟨htype', rfl⟩⟩
      · refine ⟨page, hdr, (hinner pgno hmem).trans hpage, hparse,
          .inr ⟨hmem, htype, cs, ls, hcs, ?_, rfl⟩⟩
        refine forall₂_imp_of_mem hls fun c m hm hc => ih hc fun l hl => ?_
        exact hleaves l (List.mem_flatten.mpr ⟨m, hm, hl⟩)

/-! ## Tables -/

def owned (leaves : List UInt32) (stored : UInt32 → List StoredRow) : List UInt32 :=
  leaves ++ leaves.flatMap fun l => chains (stored l)

def rowsOf (leaves : List UInt32) (stored : UInt32 → List StoredRow) : List (Int64 × Bytes) :=
  leaves.flatMap fun l => (stored l).map StoredRow.row

theorem rowsOf_append (ls ls' : List UInt32) (stored : UInt32 → List StoredRow) :
    rowsOf (ls ++ ls') stored = rowsOf ls stored ++ rowsOf ls' stored :=
  List.flatMap_append

theorem rowsOf_flatten (lss : List (List UInt32)) (stored : UInt32 → List StoredRow) :
    (lss.map fun ls => rowsOf ls stored).flatten = rowsOf lss.flatten stored := by
  induction lss with
  | nil => rfl
  | cons ls lss ih => simp [rowsOf_append, ih]

structure TableHolds (usable : Nat) (view : UInt32 → Result Bytes) (root : UInt32) (depth : Nat)
    (inner leaves : List UInt32) (stored : UInt32 → List StoredRow) : Prop where
  spine : Spine view inner depth root leaves
  leaf : ∀ l ∈ leaves, ∃ page hdr, LeafAt usable view l (stored l) page hdr
  distinct : (owned leaves stored).Nodup
  apart : ∀ q ∈ inner, q ∉ owned leaves stored

section Scan

variable {usable : Nat} {view : UInt32 → Result Bytes} {stored : UInt32 → List StoredRow}

theorem visitTable_leaf (h : LeafAt usable view pgno rs page hdr) (depth : Nat) :
    (visitTable usable (depth + 1) pgno).eval view = .ok (rs.map StoredRow.row) := by
  have hrows : (List.range hdr.numCells).mapM
      (fun i => (tableLeafRow usable page hdr i).eval view) =
      .ok (rs.map StoredRow.row) := by
    rw [Result.mapM_eq_ok, List.forall₂_iff_get]
    refine ⟨by simp [h.numCells], fun i hi hi' => ?_⟩
    simpa using h.row (i := i) (by simpa using hi')
  simp only [visitTable, eval_bind, eval_getPage, eval_lift, h.shown, h.parse, Result.ok_bind,
    h.pageType, eval_mapM, hrows]

variable {kind : TreeKind} {cs : List UInt32}

theorem NodeHolds.unique {cs' : List UInt32} (h : NodeHolds kind page hdr cs)
    (h' : NodeHolds kind page hdr cs') : cs = cs' := by
  refine List.ext_getElem (h.1.trans h'.1.symm) fun i hi hi' => ?_
  have hchild := (h.2 i hi).symm.trans (h'.2 i hi')
  exact Option.some.inj (Except.ok.inj hchild)

theorem NodeHolds.split (h : NodeHolds kind page hdr cs) : ∃ init right, cs = init ++ [right] ∧
      hdr.rightMostPointer = some right ∧ init.length = hdr.numCells ∧
      ∀ i (hi : i < init.length), TreePosition.interiorChild kind hdr page i =
        .ok (some init[i]) := by
  obtain ⟨hlen, hchild⟩ := h
  rcases List.eq_nil_or_concat cs with rfl | ⟨init, right, rfl⟩
  · simp at hlen
  · have hinit : init.length = hdr.numCells := by simpa using hlen
    refine ⟨init, right, by simp, ?_, hinit, fun i hi => ?_⟩
    · have := hchild hdr.numCells (by simp [hinit])
      simp only [TreePosition.interiorChild, lt_irrefl, if_false, if_true] at this
      have := Except.ok.inj this
      simpa [← hinit] using this
    · have := hchild i (by simp; omega)
      simpa [List.getElem_append_left hi] using this

theorem forall₂_concat {α β : Type} {R : α → β → Prop} {l : List α} {a : α} {ms : List β}
    (h : List.Forall₂ R (l ++ [a]) ms) :
    ∃ init m, ms = init ++ [m] ∧ List.Forall₂ R l init ∧ R a m := by
  have htake := List.forall₂_take l.length h
  have hdrop := List.forall₂_drop l.length h
  rw [List.take_left] at htake
  rw [List.drop_left] at hdrop
  obtain ⟨m, rest, hm, hrest, heq⟩ := List.forall₂_cons_left_iff.mp hdrop
  rw [List.forall₂_nil_left_iff] at hrest
  refine ⟨ms.take l.length, m, ?_, htake, hm⟩
  rw [← hrest, ← heq, List.take_append_drop]

theorem cell_of_interiorChild {child : UInt32} (hi : i < hdr.numCells)
    (h : TreePosition.interiorChild tableKind hdr page i = .ok (some child)) :
    ∃ off cell, hdr.cellPointer page i = .ok off ∧ parseTableInteriorCell page off = .ok cell ∧
      cell.leftChild = child := by
  simp only [TreePosition.interiorChild, if_pos hi, tableKind, Result.bind_eq_ok] at h
  obtain ⟨off, hoff, c, ⟨cell, hcell, hc⟩, hchild⟩ := h
  refine ⟨off, cell, hoff, hcell, ?_⟩
  cases hc
  exact Option.some.inj (Except.ok.inj hchild)

theorem visitTable_of_spine (h : Spine view inner depth pgno leaves)
    (hleaf : ∀ l ∈ leaves, ∃ page hdr, LeafAt usable view l (stored l) page hdr) {d : Nat}
    (hd : depth ≤ d) : (visitTable usable d pgno).eval view = .ok (rowsOf leaves stored) := by
  induction depth generalizing pgno leaves d with
  | zero => exact h.elim
  | succ depth ih =>
      obtain ⟨d, rfl⟩ : ∃ n, d = n + 1 := ⟨d - 1, by omega⟩
      obtain ⟨page, hdr, hpage, hparse, ⟨htype, rfl⟩ | ⟨hmem, htype, cs, ls, hcs, hls, rfl⟩⟩ := h
      · obtain ⟨page', hdr', hl⟩ := hleaf pgno (by simp)
        simpa [rowsOf] using visitTable_leaf hl d
      · obtain ⟨init, right, rfl, hright, hnum, hchild⟩ := hcs.split
        obtain ⟨li, m, rfl, hli, hm⟩ := forall₂_concat hls
        have hlast := ih hm (fun l hl => hleaf l (by simp [hl])) (d := d) (by omega)
        have hparts : (List.range hdr.numCells).mapM (fun i => do
            let off ← hdr.cellPointer page i
            let cell ← parseTableInteriorCell page off
            (visitTable usable d cell.leftChild).eval view) =
            .ok (li.map fun leaves => rowsOf leaves stored) := by
          rw [Result.mapM_eq_ok, List.forall₂_map_right_iff, List.forall₂_iff_get]
          have hlen := hli.length_eq
          refine ⟨by simp [← hnum, hlen], fun i hi hi' => ?_⟩
          have hi₀ : i < init.length := by omega
          obtain ⟨off, cell, hoff, hcell, hleft⟩ :=
            cell_of_interiorChild (by omega) (hchild i hi₀)
          have hsub := ih (hli.get hi₀ hi') (fun l hl => hleaf l (by
            simp only [List.flatten_append, List.mem_append, List.mem_flatten]
            exact .inl ⟨_, List.getElem_mem hi', hl⟩)) (d := d) (by omega)
          simp only [List.get_eq_getElem, List.getElem_range, hoff, hcell, Result.ok_bind, hleft]
          exact hsub
        simp only [visitTable, eval_bind, eval_getPage, eval_lift, hpage, hparse, Result.ok_bind,
          htype, eval_mapM, hparts, hright, hlast]
        rw [rowsOf_flatten, List.flatten_append, List.flatten_singleton, rowsOf_append]
        rfl

end Scan

theorem LaidOut.nodeHolds {base : Nat} {right : UInt32} {dividers : List (UInt32 × Int64)}
    (h : LaidOut page base .interiorTable (some right)
      (dividers.map fun d => buildTableInteriorCell d.1 d.2) hdr) :
    NodeHolds tableKind page hdr (dividers.map Prod.fst ++ [right]) := by
  have hnum : hdr.numCells = dividers.length := by simpa using h.numCells
  refine ⟨by simp [hnum], fun i hi => ?_⟩
  have hright : hdr.rightMostPointer = some right := h.rightMost rfl
  by_cases hlt : i < dividers.length
  · obtain ⟨off, hoff, hstands⟩ := h.cells i (by simpa using hlt)
    rw [List.getElem_map] at hstands
    have hcell := hstands.parseTableInteriorCell (by simp [buildTableInteriorCell])
      (parseTableInteriorCell_build _ _)
    rw [List.getElem_append_left (by simpa using hlt), List.getElem_map]
    simp only [TreePosition.interiorChild, hnum, if_pos hlt, hoff, Result.ok_bind, tableKind, hcell]
    rfl
  · obtain rfl : i = dividers.length := by
      simp only [List.length_append, List.length_map, List.length_singleton] at hi
      omega
    simp [TreePosition.interiorChild, hnum, hright]
    rfl

end Rustqlite.Btree
