import Rustqlite.Btree.DeleteScan
import Rustqlite.Btree.Insert
import Rustqlite.Btree.PageTree
import Rustqlite.Pager.Replacing

/-!
# What a split reads and writes

The cells of a page are read one by one, and a page that has been laid out anew
carries what it was laid out from.
-/

namespace Rustqlite.Btree

open Foundation Format Pager FileM

/-! ## The place to split -/

theorem splitLoop_le (target i size : Nat) (cells : List Bytes) :
    i ≤ splitLoop target i size cells ∧ splitLoop target i size cells ≤ i + cells.length := by
  induction cells generalizing i size with
  | nil => exact ⟨Nat.le_refl i, Nat.le_refl i⟩
  | cons cell cells ih =>
      obtain ⟨hlow, hhigh⟩ := ih (i + 1) (size + cell.length + 2)
      simp only [splitLoop, List.length_cons]
      split_ifs <;> omega

variable {cells : List Bytes}

theorem splitPoint_pos {usable : Nat} (h : cells ≠ []) : 0 < splitPoint usable cells := by
  cases cells with
  | nil => exact absurd rfl h
  | cons cell cells =>
      have := (splitLoop_le (usable / 2) 1 (cell.length + 2) cells).1
      simp only [splitPoint, splitLoop, lt_irrefl, and_false, if_false, Nat.zero_add]
      omega

theorem lastLeft_ok {k : Nat} (hk : 0 < k) (hlt : k - 1 < cells.length) :
    lastLeft cells k = .ok cells[k - 1] := by
  have hlast : (cells.take k).getLast? = some cells[k - 1] := by
    rw [List.getLast?_eq_getElem?, List.length_take, Nat.min_eq_left (by omega),
      List.getElem?_take_of_lt (by omega), List.getElem?_eq_getElem hlt]
  rw [lastLeft, hlast]

/-! ## Reading the cells -/

section Reads

variable {usable : Nat} {view : UInt32 → Result Bytes} {pgno right : UInt32} {page : Bytes}
  {hdr : PageHeader} {rs : List StoredRow} {ds : List Divider}

theorem cellBytes_ok {bytes : Bytes} {off : Nat} (h : StandsAt bytes page off)
    (hpos : 0 < bytes.length) : cellBytes page off bytes.length = .ok bytes := by
  have hlen := h.length_le hpos
  rw [cellBytes, if_neg (by omega), h.slice_eq]

theorem tableLeafCells_ok (h : LeafOf usable view pgno rs page hdr) (husable : 480 ≤ usable) :
    tableLeafCells page hdr usable = .ok (rs.map StoredRow.bytes) := by
  have hleaf := h.leafAt
  rw [tableLeafCells, Result.mapM_eq_ok, List.forall₂_map_right_iff, List.forall₂_iff_get]
  refine ⟨by simp [hleaf.numCells], fun i hi hi' => ?_⟩
  obtain ⟨off, hoff, hstands⟩ := hleaf.cells i hi'
  have hvalid := h.valid rs[i] (List.getElem_mem hi')
  obtain ⟨size, n1, hsize, htotal⟩ := cellTotalSize_of_onPage husable
    (hstands.cellOnPageSize hvalid.pos hvalid.size)
  simp only [List.get_eq_getElem, List.getElem_range, hoff, hsize, htotal, Result.ok_bind,
    cellBytes_ok hstands hvalid.pos]

theorem tableInteriorCells_ok (h : NodeAt view pgno ds right page hdr) :
    tableInteriorCells page hdr = .ok (ds.map Divider.bytes) := by
  rw [tableInteriorCells, Result.mapM_eq_ok, List.forall₂_map_right_iff, List.forall₂_iff_get]
  refine ⟨by simp [h.numCells], fun i hi hi' => ?_⟩
  obtain ⟨off, hoff, hstands⟩ := h.cell hi'
  have hvalid := h.valid ds[i] (List.getElem_mem hi')
  simp only [List.get_eq_getElem, List.getElem_range, hoff, hvalid.size_at hstands, Result.ok_bind,
    cellBytes_ok hstands hvalid.pos]

variable {i left : Nat}

theorem siblingAt_ok (h : NodeAt view pgno ds right page hdr) (hi : i < ds.length) :
    siblingAt page hdr i = .ok ds[i].child := by
  obtain ⟨off, hoff, hstands⟩ := h.cell hi
  have hcell := (h.valid ds[i] (List.getElem_mem hi)).parse_at hstands
  simp only [siblingAt, hoff, hcell, Result.ok_bind]
  rfl

theorem rebuiltCell_ok (h : NodeAt view pgno ds right page hdr) (hi : i < ds.length) :
    rebuiltCell page hdr i = .ok (buildTableInteriorCell ds[i].child ds[i].rowid) := by
  obtain ⟨off, hoff, hstands⟩ := h.cell hi
  have hcell := (h.valid ds[i] (List.getElem_mem hi)).parse_at hstands
  have hpointer := pointerAt_of_parse hcell
  simp only [parseTableInteriorCell, Result.bind_eq_ok, Prod.exists] at hcell
  obtain ⟨d, hd, rowid, n, hread, hrow⟩ := hcell
  have hrowid : rowid = ds[i].rowid := (TableInteriorCell.mk.inj (Except.ok.inj hrow)).2
  have hagain : readRowidAt page (off + 4) "install_table_divider: bad parent cell" =
      .ok (rowid, n) := by
    rw [readRowidAt] at hread ⊢
    split at hread
    · cases hread
    · exact hread
  simp only [rebuiltCell, hoff, hpointer, hagain, Result.ok_bind, hrowid]
  rfl

theorem findChildLoop_ok (childAt : Nat → Result UInt32) (cs : List UInt32) (target : UInt32)
    (h : ∀ i (hi : i < cs.length), childAt i = .ok cs[i]) (hi : i + left = cs.length) :
    findChildLoop childAt target left i =
      .ok (((cs.drop i).findIdx? (· = target)).map (· + i)) := by
  induction left generalizing i with
  | zero =>
      rw [List.drop_of_length_le (by omega)]
      rfl
  | succ left ih =>
      rw [List.drop_eq_getElem_cons (by omega), List.findIdx?_cons, findChildLoop, h i (by omega),
        Result.ok_bind]
      by_cases heq : cs[i] = target
      · simp [heq]
        rfl
      · simp only [heq, if_false, decide_false, Bool.false_eq_true]
        rw [ih (by omega), Option.map_map]
        congr 2
        funext n
        simp only [Function.comp_apply]
        omega

theorem findChildCellIndex_ok (h : NodeAt view pgno ds right page hdr) {target : UInt32}
    (hi : (ds.map Divider.child).findIdx? (· = target) = some i) :
    findChildCellIndex page hdr target = .ok i := by
  have hloop := findChildLoop_ok (siblingAt page hdr) (ds.map Divider.child) target
    (fun j hj => by rw [List.getElem_map]; exact siblingAt_ok h (by simpa using hj))
    (show 0 + hdr.numCells = _ by simp [h.numCells])
  rw [List.drop_zero, hi] at hloop
  simp only [findChildCellIndex, h.carries.pageType_eq, hloop, Result.ok_bind]
  rfl

def selected (ds : List Divider) (right : UInt32) (rowid : Int64) : UInt32 :=
  ((ds.find? fun d => decide (rowid ≤ d.rowid)).map Divider.child).getD right

theorem pickChildLoop_ok (h : NodeAt view pgno ds right page hdr) (rowid : Int64)
    (hi : i + left = ds.length) :
    pickChildLoop page hdr rowid left i = .ok (selected (ds.drop i) right rowid) := by
  induction left generalizing i with
  | zero =>
      rw [List.drop_of_length_le (by omega)]
      simp only [pickChildLoop, h.rightMost]
      rfl
  | succ left ih =>
      obtain ⟨off, hoff, hstands⟩ := h.cell (show i < ds.length by omega)
      have hcell := (h.valid ds[i] (List.getElem_mem _)).parse_at hstands
      simp only [pickChildLoop, hoff, hcell, Result.ok_bind]
      rw [List.drop_eq_getElem_cons (by omega), selected, List.find?_cons]
      by_cases hle : rowid ≤ ds[i].rowid
      · simp only [hle, if_true, decide_true, Option.map_some, Option.getD_some]
        rfl
      · simp only [hle, if_false, decide_false]
        exact ih (by omega)

theorem pickChild_ok (h : NodeAt view pgno ds right page hdr) (rowid : Int64) :
    pickChild page hdr rowid = .ok (selected ds right rowid) :=
  pickChildLoop_ok h rowid (by rw [Nat.zero_add, h.numCells])

theorem selected_mem (ds : List Divider) (right : UInt32) (rowid : Int64) :
    selected ds right rowid ∈ ds.map Divider.child ++ [right] := by
  rw [selected]
  cases hfind : ds.find? fun d => decide (rowid ≤ d.rowid) with
  | none => simp
  | some d =>
      have hmem := List.mem_of_find?_eq_some hfind
      exact List.mem_append_left _ (List.mem_map.mpr ⟨d, hmem, rfl⟩)

end Reads

/-! ## Dividers -/

section Dividers

variable {page : Bytes} {base idx : Nat} {rightMost : Option UInt32} {hdr : PageHeader}
  {ds : List Divider} {d : Divider}

section

variable (h : Carries page base .interiorTable rightMost (ds.map Divider.bytes) hdr)

include h

theorem insertInteriorCell_ok (hidx : idx ≤ ds.length) (hd : d.Valid)
    (hfit : base + 12 + ds.length * 2 + d.bytes.length + 2 ≤ hdr.cellContentStart) :
    ∃ page' hdr', insertInteriorCell page base idx d.bytes = .ok page' ∧
      page'.length = page.length ∧ Carries page' base .interiorTable rightMost
        ((ds.take idx ++ d :: ds.drop idx).map Divider.bytes) hdr' := by
  obtain ⟨page', hdr', hrun, hlen, hcarries, -⟩ := insertCell_spec
    [.interiorTable, .interiorIndex] 12
    "insert_interior_cell: not an interior-table or interior-index page"
    "insert_interior_cell: index past cell count" idx d.bytes h (by simp) rfl (by simpa using hidx)
    hd.pos (by simpa [PageType.headerSize, PageType.isLeaf] using hfit)
  refine ⟨page', hdr', hrun, hlen, ?_⟩
  rw [List.map_append, List.map_cons, List.map_take, List.map_drop]
  exact hcarries

theorem insertInteriorCell_full {cell : Bytes} (hidx : idx ≤ ds.length)
    (hfull : hdr.cellContentStart < base + 12 + ds.length * 2 + cell.length + 2) :
    insertInteriorCell page base idx cell = .error pageFullError :=
  insertCell_full h (by simp) rfl
    (by simpa using hidx) (by simpa [PageType.headerSize, PageType.isLeaf] using hfull)

theorem of_insertInteriorCell_ok {page' : Bytes} (hidx : idx ≤ ds.length) (hd : d.Valid)
    (hrun : insertInteriorCell page base idx d.bytes = .ok page') :
    page'.length = page.length ∧ ∃ hdr', Carries page' base .interiorTable rightMost
      ((ds.take idx ++ d :: ds.drop idx).map Divider.bytes) hdr' := by
  by_cases hfit : base + 12 + ds.length * 2 + d.bytes.length + 2 ≤ hdr.cellContentStart
  · obtain ⟨page'', hdr', hrun', hlen, hcarries⟩ := insertInteriorCell_ok h hidx hd hfit
    rw [hrun] at hrun'
    cases hrun'
    exact ⟨hlen, hdr', hcarries⟩
  · rw [insertInteriorCell_full h hidx (by omega)] at hrun
    cases hrun

end

end Dividers

/-! ## Writing a page -/

section Write

variable {p : PagerState × World DbFile} {trunks : List (UInt32 × List UInt32)} {pgno : UInt32}
  {t : PageType} {rightMost : Option UInt32} {bs : List Bytes}

theorem length_shown (h : SoundStore p trunks) {pages : List UInt32} (hin : InUse p trunks pages)
    (hmem : pgno ∈ pages) {page : Bytes} (hshown : pageSeen p.1 p.2.disk pgno = .ok page) :
    page.length = p.1.pageSize := by
  obtain ⟨page', hpage, hlen⟩ := h.complete pgno (hin.inFile pgno hmem).1
    (UInt32.le_trans (hin.inFile pgno hmem).2 (effectiveCount_ge p.1))
  rw [hshown] at hpage
  cases hpage
  exact hlen

structure NewPage (p : PagerState × World DbFile) (pgno : UInt32) (t : PageType)
    (rightMost : Option UInt32) (bs : List Bytes) (page : Bytes) (hdr : PageHeader) : Prop where
  shown : pageSeen p.1 p.2.disk pgno = .ok page
  carries : Carries page (btreeHeaderOffset pgno) t rightMost bs hdr
  start : hdr.cellContentStart = p.1.pageSize - bs.flatten.length
  length : page.length = p.1.pageSize

theorem writeNewPage_ok (t : PageType) (rightMost : Option UInt32) (bs : List Bytes)
    (h : SoundStore p trunks) (hin : InUse p trunks [pgno])
    (hleaf : t.isLeaf = true → rightMost = none) (hpos : ∀ b ∈ bs, 0 < b.length)
    (hfit : btreeHeaderOffset pgno + t.headerSize + bs.length * 2 + bs.flatten.length ≤
      p.1.pageSize) :
    ∃ q page hdr, writeNewPage pgno t rightMost bs p = .ok () q ∧
      Replaced p q trunks trunks [pgno] [pgno] ∧ NewPage q pgno t rightMost bs page hdr := by
  have hzero : (zeroPage p.1.geometry).length = p.1.pageSize := length_zeroPage _
  obtain ⟨page, hdr, hrun, hlen, hcarries, hstart⟩ := writePageCells_carries
    (btreeHeaderOffset pgno) t rightMost bs
    (by rw [hzero]; exact p.1.geometry.pageSize.size_le) hleaf hpos (by rwa [hzero])
  obtain ⟨q, hwrite, hrep, hseen⟩ := h.writePage hin (hlen.trans hzero)
  refine ⟨q, page, hdr, ?_, hrep, hseen, hcarries, ?_, ?_⟩
  · rw [writeNewPage, getState_bind]
    simp only [hrun, liftResult_ok_bind]
    exact hwrite
  · rw [hstart, hzero, hrep.grows.pageSize]
  · rw [hlen, hzero, hrep.grows.pageSize]

theorem updateChildrenPtrmapToNewParent_ok (cells : List Bytes) (children : List UInt32)
    (right : UInt32) (h : SoundStore p trunks) (hvac : p.1.autoVacuum = true)
    (hcells : List.Forall₂ (fun cell child => pointerAt cell 0 = .ok child) cells children)
    (hin : ∀ x ∈ children ++ [right], InUse p trunks [x] ∧ x ≠ 1) (newParent : UInt32) :
    ∃ q, updateChildrenPtrmapToNewParent newParent (some right) cells p = .ok () q ∧
      Replaced p q trunks trunks [] [] := by
  induction hcells generalizing p with
  | nil =>
      obtain ⟨hright, hone⟩ := hin right (by simp)
      have hfile := hright.inFile right (by simp)
      exact h.ptrmapPut hfile.1 hone hfile.2 (hright.unreserved hvac right (by simp)) hvac _ _
  | @cons cell child cells children hpointer _ ih =>
      obtain ⟨hchild, hone⟩ := hin child (by simp)
      have hfile := hchild.inFile child (by simp)
      obtain ⟨p₁, hput, h₁⟩ := h.ptrmapPut hfile.1 hone hfile.2
        (hchild.unreserved hvac child (by simp)) hvac .btree newParent
      obtain ⟨q, hrun, h₂⟩ := ih h₁.sound (by rw [h₁.grows.autoVacuum]; exact hvac) fun x hx => by
        obtain ⟨hx', hne⟩ := hin x (List.mem_cons_of_mem _ hx)
        exact ⟨(h₁.aside hx').1, hne⟩
      refine ⟨q, ?_, h₁.trans h₂⟩
      rw [updateChildrenPtrmapToNewParent, hpointer, liftResult_ok_bind, bind_ok hput]
      exact hrun

end Write

end Rustqlite.Btree
