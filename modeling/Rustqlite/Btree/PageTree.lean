import Rustqlite.Btree.Balance
import Rustqlite.Btree.Overflow
import Rustqlite.Btree.PageCells
import Rustqlite.Btree.TableSeek

/-!
# Tables as trees of pages

A table is a tree of pages, down to the overflow pages of its rows.  The cells
of every page stand in its content area, so that a cell can be added.
-/

namespace Rustqlite.Btree

open Foundation Format Pager Reading

/-! ## Cells -/

structure Divider where
  bytes : Bytes
  child : UInt32
  rowid : Int64

structure Divider.Valid (d : Divider) : Prop where
  parses : parseTableInteriorCell d.bytes 0 = .ok ⟨d.child, d.rowid⟩
  size : tableInteriorCellOnPageSize d.bytes 0 = .ok d.bytes.length

def Divider.built (child : UInt32) (rowid : Int64) : Divider :=
  ⟨buildTableInteriorCell child rowid, child, rowid⟩

theorem length_buildTableInteriorCell (child : UInt32) (rowid : Int64) :
    (buildTableInteriorCell child rowid).length = 4 + varintLen rowid.toUInt64 := by
  rw [buildTableInteriorCell, List.length_append, length_be32, length_writeVarint]

theorem Divider.valid_built (child : UInt32) (rowid : Int64) : (built child rowid).Valid where
  parses := parseTableInteriorCell_build child rowid
  size := by
    have hread : readRowidAt (buildTableInteriorCell child rowid) 4 "table interior rowid varint" =
        .ok (rowid, (writeVarint rowid.toUInt64).length) :=
      StandsAt.readRowidAt_self ⟨[], by
        rw [buildTableInteriorCell, List.drop_left' (length_be32 child), List.append_nil]⟩
    simp only [tableInteriorCellOnPageSize, built, Nat.zero_add, hread, Result.ok_bind]
    rw [if_neg (by rw [length_buildTableInteriorCell]; omega), length_buildTableInteriorCell,
      length_writeVarint]
    rfl

variable {page : Bytes} {off : Nat}

namespace Divider.Valid

variable {d : Divider}

theorem four_lt (h : d.Valid) : 4 < d.bytes.length := by
  have hsize := h.size
  simp only [tableInteriorCellOnPageSize] at hsize
  split_ifs at hsize with hshort
  simp only [Result.bind_eq_ok, Prod.exists] at hsize
  obtain ⟨rowid, n, hread, hn⟩ := hsize
  have hlen : 4 + n = d.bytes.length := Except.ok.inj hn
  rw [readRowidAt, readVarintI64] at hread
  cases hv : readVarint (d.bytes.drop (0 + 4)) with
  | none => simp [hv] at hread
  | some r =>
      have hne : (d.bytes.drop (0 + 4)) ≠ [] := by
        intro hnil
        rw [hnil] at hv
        simp [readVarint, readVarintFrom] at hv
      have hpos := List.length_pos_iff.mpr hne
      rw [List.length_drop] at hpos
      omega

theorem pos (h : d.Valid) : 0 < d.bytes.length := Nat.lt_trans (by omega) h.four_lt

theorem parse_at (h : d.Valid) (hs : StandsAt d.bytes page off) :
    parseTableInteriorCell page off = .ok ⟨d.child, d.rowid⟩ :=
  hs.parseTableInteriorCell h.pos h.parses

theorem size_at (h : d.Valid) (hs : StandsAt d.bytes page off) :
    tableInteriorCellOnPageSize page off = .ok d.bytes.length := by
  have hfour := h.four_lt
  have hlen := hs.length_le h.pos
  have hsize := h.size
  simp only [tableInteriorCellOnPageSize, Nat.zero_add, if_neg (show ¬ d.bytes.length < 4 by omega),
    if_neg (show ¬ page.length < off + 4 by omega), Result.bind_eq_ok, Prod.exists] at hsize ⊢
  obtain ⟨rowid, n, hread, hn⟩ := hsize
  exact ⟨rowid, n, (hs.readRowidAt (by omega) hread).1, hn⟩

end Divider.Valid

theorem cellTotalSize_of_onPage {usable n : Nat} (husable : 480 ≤ usable)
    (h : cellOnPageSize page off usable = .ok n) :
    ∃ size n1, readPayloadSize page off = .ok (size, n1) ∧
      cellTotalSize page off n1 usable = .ok n := by
  have hsome := h
  simp only [cellOnPageSize, Result.bind_eq_ok, Prod.exists] at hsome
  obtain ⟨size, n1, hsize, -⟩ := hsome
  have hlen : readPayloadSize page off = .ok ((List.replicate size (0 : UInt8)).length, n1) := by
    rw [List.length_replicate]
    exact hsize
  exact ⟨size, n1, hsize, (cellTotalSize_eq husable hlen).trans h⟩

/-! ## Pages -/

section Pages

variable {usable : Nat} {view view' : UInt32 → Result Bytes} {pgno : UInt32} {page : Bytes}
  {hdr : PageHeader}

structure LeafOf (usable : Nat) (view : UInt32 → Result Bytes) (pgno : UInt32)
    (rs : List StoredRow) (page : Bytes) (hdr : PageHeader) : Prop where
  shown : view pgno = .ok page
  carries : Carries page (btreeHeaderOffset pgno) .leafTable none (rs.map StoredRow.bytes) hdr
  valid : ∀ r ∈ rs, r.Valid usable view

structure NodeAt (view : UInt32 → Result Bytes) (pgno : UInt32) (ds : List Divider)
    (right : UInt32) (page : Bytes) (hdr : PageHeader) : Prop where
  shown : view pgno = .ok page
  carries : Carries page (btreeHeaderOffset pgno) .interiorTable (some right)
    (ds.map Divider.bytes) hdr
  valid : ∀ d ∈ ds, d.Valid

variable {rs : List StoredRow} {ds : List Divider} {right : UInt32}

theorem LeafOf.leafAt (h : LeafOf usable view pgno rs page hdr) :
    LeafAt usable view pgno rs page hdr where
  shown := h.shown
  parse := h.carries.parse
  pageType := h.carries.pageType_eq
  numCells := by rw [h.carries.numCells, List.length_map]
  cells i hi := by
    obtain ⟨off, hoff, hstands⟩ := h.carries.cells i (by rwa [List.length_map])
    rw [List.getElem_map] at hstands
    exact ⟨off, hoff, hstands⟩
  valid := h.valid
  fits := by
    have hroom := h.carries.room
    have hpacked := h.carries.packed
    simp only [PageType.headerSize, PageType.isLeaf, if_true, List.length_map] at hroom
    omega

theorem LeafOf.congr (h : LeafOf usable view pgno rs page hdr) (hpage : view' pgno = view pgno)
    (hsame : ∀ q ∈ chains rs, view' q = view q) : LeafOf usable view' pgno rs page hdr :=
  { h with
    shown := hpage.trans h.shown
    valid := fun r hr => (h.valid r hr).congr fun q hq =>
      hsame q (List.mem_flatMap.mpr ⟨r, hr, hq⟩) }

section

variable (h : NodeAt view pgno ds right page hdr)

include h

theorem NodeAt.congr (hpage : view' pgno = view pgno) : NodeAt view' pgno ds right page hdr :=
  { h with shown := hpage.trans h.shown }

theorem NodeAt.cell {i : Nat} (hi : i < ds.length) :
    ∃ off, hdr.cellPointer page i = .ok off ∧ StandsAt ds[i].bytes page off := by
  obtain ⟨off, hoff, hstands⟩ := h.carries.cells i (by rwa [List.length_map])
  rw [List.getElem_map] at hstands
  exact ⟨off, hoff, hstands⟩

theorem NodeAt.numCells : hdr.numCells = ds.length := by
  rw [h.carries.numCells, List.length_map]

theorem NodeAt.rightMost :
    hdr.rightMostPointer = some right := h.carries.rightMost rfl

theorem NodeAt.nodeHolds : NodeHolds tableKind page hdr (ds.map Divider.child ++ [right]) := by
  refine ⟨by simp [h.numCells], fun i hi => ?_⟩
  by_cases hlt : i < ds.length
  · obtain ⟨off, hoff, hstands⟩ := h.cell hlt
    have hcell := (h.valid _ (List.getElem_mem hlt)).parse_at hstands
    rw [List.getElem_append_left (by simpa using hlt), List.getElem_map]
    simp only [TreePosition.interiorChild, h.numCells, if_pos hlt, hoff, Result.ok_bind, tableKind,
      hcell]
    rfl
  · obtain rfl : i = ds.length := by
      simp only [List.length_append, List.length_map, List.length_singleton] at hi
      omega
    simp only [TreePosition.interiorChild, h.numCells, lt_irrefl, if_false, if_true, h.rightMost]
    rw [List.getElem_append_right (by simp)]
    simp [pure, Except.pure]

theorem NodeAt.dividersAre : DividersAre page hdr (ds.map Divider.rowid) := by
  refine ⟨by simp [h.numCells], fun i hi => ?_⟩
  obtain ⟨off, hoff, hstands⟩ := h.cell (i := i) (by simpa using hi)
  have hcell := (h.valid _ (List.getElem_mem _)).parse_at hstands
  rw [List.getElem_map]
  simp only [dividerRowid, hoff, hcell, Result.ok_bind]
  rfl

theorem NodeAt.unique {ds' : List Divider} {right' : UInt32} {page' : Bytes} {hdr' : PageHeader}
    (h' : NodeAt view pgno ds' right' page' hdr') :
    ds.map Divider.child ++ [right] = ds'.map Divider.child ++ [right'] ∧
      ds.map Divider.rowid = ds'.map Divider.rowid := by
  have hpage : page = page' := Except.ok.inj (h.shown.symm.trans h'.shown)
  subst hpage
  have hhdr : hdr = hdr' := Except.ok.inj (h.carries.parse.symm.trans h'.carries.parse)
  subst hhdr
  refine ⟨NodeHolds.unique h.nodeHolds h'.nodeHolds, ?_⟩
  refine List.ext_getElem (h.dividersAre.1.trans h'.dividersAre.1.symm) fun i hi hi' => ?_
  exact Except.ok.inj ((h.dividersAre.2 i hi).symm.trans (h'.dividersAre.2 i hi'))

end

end Pages

/-! ## Trees -/

structure TablePart where
  child : UInt32
  pages : List UInt32
  rows : List (Int64 × Bytes)

inductive PageTree (usable : Nat) (view : UInt32 → Result Bytes) :
    UInt32 → List UInt32 → List (Int64 × Bytes) → Prop where
  | leaf {pgno : UInt32} {rs : List StoredRow} {page : Bytes} {hdr : PageHeader}
      (h : LeafOf usable view pgno rs page hdr) :
      PageTree usable view pgno (pgno :: chains rs) (rs.map StoredRow.row)
  | node {pgno right : UInt32} {ds : List Divider} {page : Bytes} {hdr : PageHeader}
      {parts : List TablePart} (h : NodeAt view pgno ds right page hdr)
      (hchildren : parts.map TablePart.child = ds.map Divider.child ++ [right])
      (hparts : ∀ part ∈ parts, PageTree usable view part.child part.pages part.rows) :
      PageTree usable view pgno (pgno :: parts.flatMap TablePart.pages)
        (parts.flatMap TablePart.rows)

theorem map_sublist_flatMap {α β : Type} {f : α → β} {g : α → List β} {l : List α}
    (h : ∀ x ∈ l, f x ∈ g x) : (l.map f).Sublist (l.flatMap g) := by
  induction l with
  | nil => exact .slnil
  | cons x l ih =>
      rw [List.map_cons, List.flatMap_cons]
      exact (List.singleton_sublist.mpr (h x (by simp))).append (ih fun y hy => h y (by simp [hy]))

namespace PageTree

variable {usable : Nat} {view view' : UInt32 → Result Bytes} {pgno : UInt32}
  {pages pages' : List UInt32} {rows rows' : List (Int64 × Bytes)}

theorem congr (h : PageTree usable view pgno pages rows)
    (hsame : ∀ x ∈ pages, view' x = view x) : PageTree usable view' pgno pages rows := by
  induction h with
  | leaf h =>
      exact .leaf (h.congr (hsame _ (by simp)) fun x hx => hsame x (by simp [hx]))
  | node h hchildren _ ih =>
      refine .node (h.congr (hsame _ (by simp))) hchildren fun part hpart => ih part hpart ?_
      intro x hx
      exact hsame x (List.mem_cons_of_mem _ (List.mem_flatMap.mpr ⟨part, hpart, hx⟩))

theorem root_mem (h : PageTree usable view pgno pages rows) : pgno ∈ pages := by
  cases h <;> simp

theorem visit_node {right : UInt32} {ds : List Divider} {hdr : PageHeader} {parts : List TablePart}
    (h : NodeAt view pgno ds right page hdr)
    (hchildren : parts.map TablePart.child = ds.map Divider.child ++ [right]) {d : Nat}
    (hparts : ∀ part ∈ parts, (visitTable usable d part.child).eval view = .ok part.rows) :
    (visitTable usable (d + 1) pgno).eval view = .ok (parts.flatMap TablePart.rows) := by
  obtain ⟨init, last, rfl⟩ : ∃ init last, parts = init ++ [last] := by
    rcases List.eq_nil_or_concat parts with rfl | ⟨init, last, rfl⟩
    · simp at hchildren
    · exact ⟨init, last, by simp⟩
  rw [List.map_append, List.map_singleton] at hchildren
  obtain ⟨hinit, hlast⟩ := List.append_inj' hchildren rfl
  have hright : last.child = right := by simpa using hlast
  have hlen : init.length = ds.length := by simpa using congrArg List.length hinit
  have hrun : (List.range hdr.numCells).mapM (fun i => do
      let off ← hdr.cellPointer page i
      let cell ← parseTableInteriorCell page off
      (visitTable usable d cell.leftChild).eval view) = .ok (init.map TablePart.rows) := by
    rw [Result.mapM_eq_ok, List.forall₂_map_right_iff, List.forall₂_iff_get]
    refine ⟨by simp [h.numCells, hlen], fun i hi hi' => ?_⟩
    have hi₀ : i < ds.length := by omega
    obtain ⟨off, hoff, hstands⟩ := h.cell hi₀
    have hcell := (h.valid _ (List.getElem_mem hi₀)).parse_at hstands
    have hchild : init[i].child = ds[i].child := by
      have := congrArg (fun l => l[i]?) hinit
      simpa [hi', hi₀] using this
    simp only [List.get_eq_getElem, List.getElem_range, hoff, hcell, Result.ok_bind, ← hchild]
    exact hparts _ (by simp)
  have htail := hparts last (by simp)
  rw [hright] at htail
  simp only [visitTable, eval_bind, eval_getPage, eval_lift, h.shown, h.carries.parse,
    Result.ok_bind, h.carries.pageType_eq, eval_mapM, hrun, h.rightMost, htail]
  rw [List.flatMap_append, List.flatMap_singleton, List.flatMap_def]
  rfl

theorem exists_bound_of_mem {α : Type} {P : α → Nat → Prop} {l : List α}
    (h : ∀ x ∈ l, ∃ N, ∀ d ≥ N, P x d) : ∃ N, ∀ x ∈ l, ∀ d ≥ N, P x d := by
  induction l with
  | nil => exact ⟨0, by simp⟩
  | cons x l ih =>
      obtain ⟨N, hN⟩ := h x (by simp)
      obtain ⟨M, hM⟩ := ih fun y hy => h y (by simp [hy])
      refine ⟨max N M, fun y hy d hd => ?_⟩
      rcases List.mem_cons.mp hy with rfl | hy
      · exact hN d (by omega)
      · exact hM y hy d (by omega)

theorem visit (h : PageTree usable view pgno pages rows) :
    ∃ N, ∀ d ≥ N, (visitTable usable d pgno).eval view = .ok rows := by
  induction h with
  | leaf h =>
      refine ⟨1, fun d hd => ?_⟩
      obtain ⟨d, rfl⟩ : ∃ n, d = n + 1 := ⟨d - 1, by omega⟩
      exact visitTable_leaf h.leafAt d
  | @node pgno right ds page hdr parts h hchildren _ ih =>
      obtain ⟨N, hN⟩ := exists_bound_of_mem ih
      refine ⟨N + 1, fun d hd => ?_⟩
      obtain ⟨d, rfl⟩ : ∃ n, d = n + 1 := ⟨d - 1, by omega⟩
      exact visit_node h hchildren fun part hpart => hN part hpart d (by omega)

end PageTree

end Rustqlite.Btree
