import Rustqlite.Btree.Splitting

/-!
# Splitting a leaf

The cells in front of the middle stay on the leaf, those behind it go to a new
page, and the parent gets a divider.  A leaf without a parent becomes an
interior page above two new leaves.
-/

namespace Rustqlite.Btree

open Foundation Format Pager FileM

/-! ## Rows -/

variable {page : Bytes} {pgno : UInt32} {rs : List StoredRow} {hdr : PageHeader}
  {q : PagerState × World DbFile} {pages : List UInt32}

section Rows

variable {usable : Nat} {view : UInt32 → Result Bytes} {r : StoredRow}

theorem StoredRow.Valid.rowid_at (h : r.Valid usable view) {off : Nat}
    (hs : StandsAt r.bytes page off) : tableLeafCellRowid page off = .ok r.row.1 := by
  obtain ⟨cell, hcell, hrowid, -⟩ := h.decodes
  have hparse := hs.parseTableLeafCell h.pos hcell
  simp only [parseTableLeafCell, Result.bind_eq_ok, Prod.exists] at hparse
  obtain ⟨size, n1, hsize, rowid, n2, hread, d, -, o, -, hmk⟩ := hparse
  have hrow : rowid = r.row.1 := by
    rw [← hrowid, ← Except.ok.inj hmk]
  rw [tableLeafCellRowid, hsize, Result.ok_bind]
  simp only [hread, Result.ok_bind, hrow]
  rfl

theorem StoredRow.Valid.maxRowid (h : r.Valid usable view) :
    maxRowidOfCell r.bytes = .ok r.row.1 := by
  rw [maxRowidOfCell, h.rowid_at ⟨[], by simp⟩]

def placeOf (rs : List StoredRow) (rowid : Int64) : Nat :=
  rs.findIdx fun r => decide (rowid ≤ r.row.1)

theorem placeOf_le (rs : List StoredRow) (rowid : Int64) : placeOf rs rowid ≤ rs.length :=
  List.findIdx_le_length

variable {i : Nat}

theorem leafInsertIndexFrom_ok (h : LeafOf usable view pgno rs page hdr) (rowid : Int64)
    {left : Nat} (hi : i + left = rs.length) :
    leafInsertIndexFrom page hdr rowid left i = .ok (i + placeOf (rs.drop i) rowid) := by
  induction left generalizing i with
  | zero =>
      rw [List.drop_of_length_le (by omega)]
      rfl
  | succ left ih =>
      obtain ⟨off, hoff, hstands⟩ := h.leafAt.cells i (by omega)
      have hrow := (h.valid rs[i] (List.getElem_mem _)).rowid_at hstands
      simp only [leafInsertIndexFrom, hoff, hrow, Result.ok_bind]
      rw [List.drop_eq_getElem_cons (by omega), placeOf, List.findIdx_cons]
      by_cases hle : rowid ≤ rs[i].row.1
      · simp only [hle, if_true, decide_true, cond_true]
        rfl
      · simp only [hle, if_false, decide_false, cond_false]
        rw [ih (by omega), placeOf]
        congr 1
        omega

theorem leafInsertIndex_ok (h : LeafOf usable view pgno rs page hdr) (rowid : Int64) :
    leafInsertIndex page hdr rowid = .ok (placeOf rs rowid) := by
  rw [leafInsertIndex, leafInsertIndexFrom_ok h rowid (by rw [Nat.zero_add, ← h.leafAt.numCells]),
    List.drop_zero, Nat.zero_add]

def placed (rs : List StoredRow) (r : StoredRow) : List StoredRow :=
  rs.take (placeOf rs r.row.1) ++ r :: rs.drop (placeOf rs r.row.1)

theorem placed_perm (rs : List StoredRow) (r : StoredRow) : (placed rs r).Perm (r :: rs) := by
  rw [placed]
  refine List.perm_middle.trans (List.Perm.cons r ?_)
  rw [List.take_append_drop]

def HasRoom (pgno : UInt32) (rs : List StoredRow) (hdr : PageHeader) (n : Nat) : Prop :=
  btreeHeaderOffset pgno + 8 + rs.length * 2 + n + 2 ≤ hdr.cellContentStart

instance (pgno : UInt32) (rs : List StoredRow) (hdr : PageHeader) (n : Nat) :
    Decidable (HasRoom pgno rs hdr n) :=
  inferInstanceAs (Decidable (_ ≤ _))

theorem not_hasRoom {n start : Nat} (hstart : hdr.cellContentStart = start)
    (h : start < 8 + rs.length * 2 + n + 2) : ¬ HasRoom pgno rs hdr n := by
  rw [HasRoom, hstart]
  omega

theorem insertLeafCell_ok (h : LeafOf usable view pgno rs page hdr) (hr : r.Valid usable view)
    (hroom : HasRoom pgno rs hdr r.bytes.length) :
    ∃ page' hdr', insertLeafCell page (btreeHeaderOffset pgno) (placeOf rs r.row.1) r.bytes =
      .ok page' ∧ page'.length = page.length ∧
      Carries page' (btreeHeaderOffset pgno) .leafTable none
        ((placed rs r).map StoredRow.bytes) hdr' ∧
      hdr'.cellContentStart = hdr.cellContentStart - r.bytes.length := by
  obtain ⟨page', hdr', hrun, hlen, hcarries, hstart⟩ := insertCell_spec
    [.leafTable, .leafIndex] 8 "insert_leaf_cell: not a leaf-table or leaf-index page"
    "insert_leaf_cell: index past cell count" (placeOf rs r.row.1) r.bytes h.carries (by simp) rfl
    (by simpa using placeOf_le rs r.row.1) hr.pos
    (by simpa [HasRoom, PageType.headerSize, PageType.isLeaf] using hroom)
  refine ⟨page', hdr', hrun, hlen, ?_, hstart⟩
  rw [placed, List.map_append, List.map_cons, List.map_take, List.map_drop]
  exact hcarries

theorem insertLeafCell_full {cell : Bytes} (h : LeafOf usable view pgno rs page hdr)
    (hi : i ≤ rs.length) (hfull : ¬ HasRoom pgno rs hdr cell.length) :
    insertLeafCell page (btreeHeaderOffset pgno) i cell = .error pageFullError :=
  insertCell_full h.carries (by simp) rfl
    (by simpa using hi)
    (by simpa [HasRoom, PageType.headerSize, PageType.isLeaf] using hfull)

end Rows

/-! ## The parent of the leaf -/

section Parent

variable {view : UInt32 → Result Bytes} {parent right leaf new : UInt32} {ds : List Divider}
  {page : Bytes} {hdr : PageHeader} {rowid : Int64}

def childIndex (ds : List Divider) (child : UInt32) : Nat :=
  (ds.map Divider.child).findIdx (· = child)

def divided (ds : List Divider) (right leaf new : UInt32) (rowid : Int64) :
    List Divider × UInt32 :=
  if right = leaf then (ds ++ [.built leaf rowid], new)
  else (ds.take (childIndex ds leaf + 1) ++ .built new rowid :: ds.drop (childIndex ds leaf + 1),
    right)

def DividerFits (parent : UInt32) (ds : List Divider) (hdr : PageHeader) (rowid : Int64) : Prop :=
  btreeHeaderOffset parent + 12 + ds.length * 2 + (4 + varintLen rowid.toUInt64) + 2 ≤
    hdr.cellContentStart

theorem childIndex_lt (hmem : leaf ∈ ds.map Divider.child ++ [right]) (hne : right ≠ leaf) :
    childIndex ds leaf < ds.length := by
  have hchild : leaf ∈ ds.map Divider.child := by
    rcases List.mem_append.mp hmem with hin | hin
    · exact hin
    · exact absurd (List.mem_singleton.mp hin).symm hne
  have hlt := List.findIdx_lt_length_of_exists (p := (· = leaf))
    ⟨leaf, hchild, by simp⟩
  simpa [childIndex] using hlt

theorem childIndex_child (hlt : childIndex ds leaf < ds.length) :
    ds[childIndex ds leaf].child = leaf := by
  have hlt' : (ds.map Divider.child).findIdx (· = leaf) < (ds.map Divider.child).length := by
    simpa [childIndex] using hlt
  simpa [childIndex] using List.findIdx_getElem (w := hlt')

theorem findChildCellIndex_childIndex (h : NodeAt view parent ds right page hdr)
    (hlt : childIndex ds leaf < ds.length) :
    findChildCellIndex page hdr leaf = .ok (childIndex ds leaf) := by
  refine findChildCellIndex_ok h ?_
  rw [List.findIdx?_eq_some_iff_findIdx_eq]
  exact ⟨by simpa using hlt, rfl⟩

theorem dividedParent_ok (new : UInt32) (h : NodeAt view parent ds right page hdr)
    (hmem : leaf ∈ ds.map Divider.child ++ [right]) (hfit : DividerFits parent ds hdr rowid) :
    ∃ page' hdr', dividedParent page hdr (btreeHeaderOffset parent) leaf new rowid = .ok page' ∧
      page'.length = page.length ∧
      Carries page' (btreeHeaderOffset parent) .interiorTable
        (some (divided ds right leaf new rowid).2)
        ((divided ds right leaf new rowid).1.map Divider.bytes) hdr' := by
  have hfit' : ∀ child, btreeHeaderOffset parent + 12 + ds.length * 2 +
      (Divider.built child rowid).bytes.length + 2 ≤ hdr.cellContentStart := by
    intro child
    rw [Divider.built, length_buildTableInteriorCell]
    exact hfit
  by_cases hright : right = leaf
  · obtain ⟨inserted, hdr₁, hinsert, hlen, hcarries⟩ := insertInteriorCell_ok
      h.carries (Nat.le_refl ds.length) (Divider.valid_built leaf rowid) (hfit' leaf)
    obtain ⟨hdr', hcarries', -⟩ := hcarries.setRight rfl new
    rw [List.take_length, List.drop_length] at hcarries'
    have hroom := hcarries.room
    have hpacked := hcarries.packed
    have h12 : PageType.headerSize .interiorTable = 12 := rfl
    refine ⟨splice inserted (btreeHeaderOffset parent + 8) (be32 new), hdr', ?_, ?_, ?_⟩
    · simp only [dividedParent, h.rightMost, hright, if_true, h.numCells]
      rw [show buildTableInteriorCell leaf rowid = (Divider.built leaf rowid).bytes from rfl,
        hinsert]
      rfl
    · rw [length_splice (by rw [length_be32]; omega), hlen]
    · simpa only [divided, hright, if_true] using hcarries'
  · have hlt := childIndex_lt hmem hright
    obtain ⟨page', hdr', hinsert, hlen, hcarries⟩ := insertInteriorCell_ok
      h.carries (show childIndex ds leaf + 1 ≤ ds.length by omega) (Divider.valid_built new rowid)
      (hfit' new)
    refine ⟨page', hdr', ?_, hlen, ?_⟩
    · simp only [dividedParent, h.rightMost, Option.some.injEq, hright, if_false,
        findChildCellIndex_childIndex h hlt, Result.ok_bind]
      exact hinsert
    · simpa only [divided, hright, if_false] using hcarries

theorem dividedParent_full (h : NodeAt view parent ds right page hdr)
    (hmem : leaf ∈ ds.map Divider.child ++ [right]) (hfull : ¬ DividerFits parent ds hdr rowid) :
    dividedParent page hdr (btreeHeaderOffset parent) leaf new rowid = .error pageFullError := by
  have hfull' : ∀ child, hdr.cellContentStart < btreeHeaderOffset parent + 12 + ds.length * 2 +
      (buildTableInteriorCell child rowid).length + 2 := by
    intro child
    rw [length_buildTableInteriorCell]
    rw [DividerFits] at hfull
    omega
  by_cases hright : right = leaf
  · simp only [dividedParent, h.rightMost, hright, if_true, h.numCells]
    rw [insertInteriorCell_full h.carries (Nat.le_refl _) (hfull' leaf)]
    rfl
  · have hlt := childIndex_lt hmem hright
    simp only [dividedParent, h.rightMost, Option.some.injEq, hright, if_false,
      findChildCellIndex_childIndex h hlt, Result.ok_bind]
    exact insertInteriorCell_full h.carries (by omega) (hfull' new)

theorem divided_valid (h : NodeAt view parent ds right page hdr) :
    ∀ d ∈ (divided ds right leaf new rowid).1, d.Valid := by
  intro d hd
  rw [divided] at hd
  split_ifs at hd
  · rcases List.mem_append.mp hd with hd | hd
    · exact h.valid d hd
    · rw [List.mem_singleton.mp hd]
      exact Divider.valid_built leaf rowid
  · rcases List.mem_append.mp hd with hd | hd
    · exact h.valid d (List.mem_of_mem_take hd)
    · rcases List.mem_cons.mp hd with rfl | hd
      · exact Divider.valid_built new rowid
      · exact h.valid d (List.mem_of_mem_drop hd)

end Parent

/-! ## The halves -/

def CompactLeaf (p : PagerState × World DbFile) (pgno : UInt32) (rs : List StoredRow) : Prop :=
  ∃ page hdr, LeafOf p.1.geometry.usableSize (pageSeen p.1 p.2.disk) pgno rs page hdr ∧
    hdr.cellContentStart = p.1.pageSize - (rs.map StoredRow.bytes).flatten.length

def splitRows (usable : Nat) (rs : List StoredRow) : Nat :=
  splitPoint usable (rs.map StoredRow.bytes)

def leftRows (usable : Nat) (rs : List StoredRow) : List StoredRow := rs.take (splitRows usable rs)

def rightRows (usable : Nat) (rs : List StoredRow) : List StoredRow := rs.drop (splitRows usable rs)

def splitRowid (usable : Nat) (rs : List StoredRow) : Int64 :=
  ((leftRows usable rs).getLast?.map fun r => r.row.1).getD 0

def halfFor (usable : Nat) (rowid : Int64) (rs : List StoredRow) : List StoredRow :=
  if rowid ≤ splitRowid usable rs then leftRows usable rs else rightRows usable rs

def Fits (pageSize : Nat) (rs : List StoredRow) (n : Nat) : Prop :=
  8 + rs.length * 2 + n + 2 + (rs.map StoredRow.bytes).flatten.length ≤ pageSize

instance (pageSize : Nat) (rs : List StoredRow) (n : Nat) : Decidable (Fits pageSize rs n) :=
  inferInstanceAs (Decidable (_ ≤ _))

section Halves

variable {usable : Nat} {view : UInt32 → Result Bytes} {rs : List StoredRow}

theorem leftRows_append_rightRows (usable : Nat) (rs : List StoredRow) :
    leftRows usable rs ++ rightRows usable rs = rs := List.take_append_drop _ rs

theorem leftRows_subset : leftRows usable rs ⊆ rs := List.take_subset _ rs

theorem rightRows_subset : rightRows usable rs ⊆ rs := List.drop_subset _ rs

theorem leftRows_ne_nil (h : rs ≠ []) : leftRows usable rs ≠ [] := by
  have hpos : 0 < splitRows usable rs := splitPoint_pos (by simpa using h)
  have hlen : 0 < rs.length := List.length_pos_iff.mpr h
  refine List.ne_nil_of_length_pos ?_
  rw [leftRows, List.length_take]
  omega

theorem exists_last_leftRows (usable : Nat) (h : rs ≠ []) :
    ∃ init last, leftRows usable rs = init ++ [last] ∧ splitRowid usable rs = last.row.1 := by
  obtain ⟨init, last, heq⟩ := (List.eq_nil_or_concat (leftRows usable rs)).resolve_left
    (leftRows_ne_nil h)
  rw [List.concat_eq_append] at heq
  exact ⟨init, last, heq, by simp [splitRowid, heq]⟩

theorem lastLeft_rows (hne : rs ≠ []) (hvalid : ∀ r ∈ rs, r.Valid usable view) :
    (do maxRowidOfCell (← lastLeft (rs.map StoredRow.bytes) (splitRows usable rs))) =
      .ok (splitRowid usable rs) := by
  obtain ⟨init, last, heq, hrowid⟩ := exists_last_leftRows usable hne
  have hlast : lastLeft (rs.map StoredRow.bytes) (splitRows usable rs) = .ok last.bytes := by
    rw [lastLeft, ← List.map_take]
    rw [leftRows] at heq
    simp [heq]
  have hmem : last ∈ rs := leftRows_subset (by rw [heq]; simp)
  rw [hlast, Result.ok_bind, (hvalid last hmem).maxRowid, hrowid]

theorem lastLeft_nil (usable : Nat) :
    ∃ e, (do maxRowidOfCell (← lastLeft (([] : List StoredRow).map StoredRow.bytes)
      (splitRows usable []))) = .error e ∧ e.code = .panic := ⟨_, rfl, rfl⟩

variable {p : PagerState × World DbFile} {trunks : List (UInt32 × List UInt32)}

theorem writeLeaf_ok (h : SoundStore p trunks) (hone : pgno ≠ 1) (hin : InUse p trunks [pgno])
    (hpos : ∀ r ∈ rs, 0 < r.bytes.length)
    (hfit : 8 + rs.length * 2 + (rs.map StoredRow.bytes).flatten.length ≤ p.1.pageSize) :
    ∃ q page hdr, writeNewPage pgno .leafTable none (rs.map StoredRow.bytes) p = .ok () q ∧
      Replaced p q trunks trunks [pgno] [pgno] ∧
      NewPage q pgno .leafTable none (rs.map StoredRow.bytes) page hdr := by
  have hbase : btreeHeaderOffset pgno = 0 := if_neg hone
  have h8 : PageType.headerSize .leafTable = 8 := rfl
  refine writeNewPage_ok _ _ _ h hin (fun _ => rfl) ?_ ?_
  · intro b hb
    obtain ⟨r, hr, rfl⟩ := List.mem_map.mp hb
    exact hpos r hr
  · rw [List.length_map]
    omega

theorem LeafOf.fits {pgno : UInt32} {page : Bytes} {hdr : PageHeader}
    (h : LeafOf usable view pgno rs page hdr) :
    8 + rs.length * 2 + (rs.map StoredRow.bytes).flatten.length ≤ page.length := by
  have := h.leafAt.fits
  omega

theorem flatten_take_drop (n : Nat) (rs : List StoredRow) :
    ((rs.take n).map StoredRow.bytes).flatten.length +
      ((rs.drop n).map StoredRow.bytes).flatten.length =
      (rs.map StoredRow.bytes).flatten.length := by
  rw [← List.length_append, ← List.flatten_append, ← List.map_append, List.take_append_drop]

theorem NewPage.compact (h : NewPage p pgno .leafTable none (rs.map StoredRow.bytes) page hdr)
    (hgeometry : q.1.geometry = p.1.geometry)
    (hshown : pageSeen q.1 q.2.disk pgno = pageSeen p.1 p.2.disk pgno)
    (hvalid : ∀ r ∈ rs, r.Valid q.1.geometry.usableSize (pageSeen q.1 q.2.disk)) :
    CompactLeaf q pgno rs := by
  refine ⟨page, hdr, ⟨hshown.trans h.shown, h.carries, hvalid⟩, ?_⟩
  rw [h.start, PagerState.pageSize, PagerState.pageSize, hgeometry]

end Halves

/-! ## The split -/

section Split

variable {p : PagerState × World DbFile} {trunks : List (UInt32 × List UInt32)}
  {leaf parent right : UInt32} {rs : List StoredRow} {ds : List Divider} {page pbuf : Bytes}
  {hdr phdr : PageHeader}

structure HalvesWritten (p q : PagerState × World DbFile)
    (trunks rest : List (UInt32 × List UInt32))
    (leaf parent new : UInt32) (rs : List StoredRow) : Prop where
  ne_one : new ≠ 1
  fresh : Fresh p trunks new
  replaced : Replaced p q trunks rest [leaf, parent] [new, leaf, parent]
  left : CompactLeaf q leaf (leftRows p.1.geometry.usableSize rs)
  right : CompactLeaf q new (rightRows p.1.geometry.usableSize rs)
  parent : pageSeen q.1 q.2.disk parent = pageSeen p.1 p.2.disk parent

theorem valid_of_replaced {rest : List (UInt32 × List UInt32)} {pages' others : List UInt32}
    (hrep : Replaced p q trunks rest pages pages') (hin : InUse p trunks (pages ++ others))
    (hchains : chains rs ⊆ others)
    (hvalid : ∀ r ∈ rs, r.Valid p.1.geometry.usableSize (pageSeen p.1 p.2.disk)) :
    ∀ r ∈ rs, r.Valid q.1.geometry.usableSize (pageSeen q.1 q.2.disk) := by
  intro r hr
  rw [hrep.grows.geometry]
  exact (hvalid r hr).congr fun x hx =>
    hrep.view hin x (hchains (List.mem_flatMap.mpr ⟨r, hr, hx⟩))

theorem splitLeaf_written (h : SoundStore p trunks)
    (hleaf : LeafOf p.1.geometry.usableSize (pageSeen p.1 p.2.disk) leaf rs page hdr)
    (hone : leaf ≠ 1) (hin : InUse p trunks ([leaf, parent] ++ chains rs))
    (halloc : CanAllocate p.1 trunks) :
    ∃ new q rest, HalvesWritten p q trunks rest leaf parent new rs ∧
      splitLeaf leaf (some parent) p = (do
        let dividerRowid ← liftResult (do maxRowidOfCell (← lastLeft (rs.map StoredRow.bytes)
          (splitRows p.1.geometry.usableSize rs)))
        installLeafDivider parent leaf new dividerRowid
        return new : PagerM UInt32) q := by
  obtain ⟨p₁, hread, hq₁⟩ := readPageForWrite_ok h.failAt hleaf.shown
  have h₁ := h.quiet hq₁
  obtain ⟨new, p₂, hrun₂⟩ := (allocatePage_ok_iff h₁.sound).mpr (hq₁.canAllocate.mpr halloc)
  have hspec := h₁.sound.allocatePage
  rw [hrun₂] at hspec
  obtain ⟨hnewOne, hfresh, rest, h₂⟩ := hspec
  have hin' : InUse p trunks [leaf, parent] := hin.left
  -- both pages that stay, and then the new one in front of them
  have h₁' : Replaced p p₁ trunks trunks [leaf, parent] [leaf, parent] :=
    (h₁.widen hin' :)
  have h₂' : Replaced p p₂ trunks rest [leaf, parent] [new, leaf, parent] :=
    h₁'.trans ((h₂.widen h₁'.inUse :))
  have hfreshp : Fresh p trunks new := by
    rcases hfresh with hfree | hlt
    · exact .inl hfree
    · exact .inr (UInt32.lt_of_le_of_lt h₁.grows.pageCount hlt)
  have hnodup := h₂'.inUse.nodup
  simp only [List.nodup_cons, List.mem_cons, List.not_mem_nil, or_false, not_or] at hnodup
  obtain ⟨⟨hnewLeaf, hnewParent⟩, hleafParent, -⟩ := hnodup
  set k := splitRows p.1.geometry.usableSize rs with hk
  have hpos : ∀ r ∈ rs, 0 < r.bytes.length := fun r hr => (hleaf.valid r hr).pos
  have hfits := hleaf.fits
  rw [length_shown h hin (by simp) hleaf.shown] at hfits
  have hflat := flatten_take_drop k rs
  have hlens : (rs.take k).length + (rs.drop k).length = rs.length := by
    rw [← List.length_append, List.take_append_drop]
  obtain ⟨p₃, npage, nhdr, hrun₃, hrep₃, hnew₃⟩ := writeLeaf_ok h₂'.sound hnewOne
    (h₂'.inUse.sublist (List.singleton_sublist.mpr (by simp)))
    (fun r (hr : r ∈ rs.drop k) => hpos r (List.mem_of_mem_drop hr))
    (by rw [h₂'.grows.pageSize]; omega)
  have h₃ := hrep₃.rewrites h₂'.inUse (y := new) (by simp)
  obtain ⟨p₄, lpage, lhdr, hrun₄, hrep₄, hleft₄⟩ := writeLeaf_ok h₃.sound hone
    (h₃.inUse.sublist (List.singleton_sublist.mpr (by simp)))
    (fun r (hr : r ∈ rs.take k) => hpos r (List.mem_of_mem_take hr))
    (by rw [h₃.pageSize, h₂'.grows.pageSize]; omega)
  have h₄ := hrep₄.rewrites h₃.inUse (y := leaf) (by simp)
  have hall : Replaced p p₄ trunks rest [leaf, parent] [new, leaf, parent] :=
    (h₂'.trans h₃.replaced).trans h₄.replaced
  have hvalid : ∀ r ∈ rs, r.Valid p₄.1.geometry.usableSize (pageSeen p₄.1 p₄.2.disk) :=
    valid_of_replaced hall hin (List.Subset.refl _) hleaf.valid
  refine ⟨new, p₄, rest, ⟨hnewOne, hfreshp, hall, ?_, ?_, ?_⟩, ?_⟩
  · exact hleft₄.compact rfl rfl fun r hr => hvalid r (leftRows_subset hr)
  · refine hnew₃.compact h₄.geometry (h₄.view new (by simp) ?_)
      fun r hr => hvalid r (rightRows_subset hr)
    simpa using hnewLeaf
  · rw [h₄.view parent (by simp) (by simpa using Ne.symm hleafParent),
      h₃.view parent (by simp) (by simpa using Ne.symm hnewParent),
      (h₂.view h₁'.inUse :) parent (by simp), hq₁.view]
  · have husable : 480 ≤ p.1.geometry.usableSize := p.1.geometry.le_usable
    rw [splitLeaf, getState_bind, bind_ok hread]
    simp only [hleaf.carries.parse, liftResult_ok_bind, hleaf.carries.pageType_eq, ne_eq,
      not_true_eq_false, if_false, tableLeafCells_ok hleaf husable]
    rw [bind_ok hrun₂, ← List.map_drop]
    change (writeNewPage new .leafTable none ((rs.drop k).map StoredRow.bytes) >>= _) p₂ = _
    rw [bind_ok hrun₃, ← List.map_take]
    change (writeNewPage leaf .leafTable none ((rs.take k).map StoredRow.bytes) >>= _) p₃ = _
    rw [bind_ok hrun₄]
    rfl

structure LeafHalves (p q : PagerState × World DbFile) (trunks rest : List (UInt32 × List UInt32))
    (leaf parent new right : UInt32) (rs : List StoredRow) (ds : List Divider) : Prop where
  ne_one : new ≠ 1
  fresh : Fresh p trunks new
  replaced : Replaced p q trunks rest [leaf, parent] [new, leaf, parent]
  atLeaf : CompactLeaf q leaf (leftRows p.1.geometry.usableSize rs)
  atNew : CompactLeaf q new (rightRows p.1.geometry.usableSize rs)
  atParent : ∃ page hdr, NodeAt (pageSeen q.1 q.2.disk) parent
    (divided ds right leaf new (splitRowid p.1.geometry.usableSize rs)).1
    (divided ds right leaf new (splitRowid p.1.geometry.usableSize rs)).2 page hdr

theorem CompactLeaf.congr (h : CompactLeaf p pgno rs) (hgeometry : q.1.geometry = p.1.geometry)
    (hpage : pageSeen q.1 q.2.disk pgno = pageSeen p.1 p.2.disk pgno)
    (hchains : ∀ x ∈ chains rs, pageSeen q.1 q.2.disk x = pageSeen p.1 p.2.disk x) :
    CompactLeaf q pgno rs := by
  obtain ⟨page, hdr, hleaf, hstart⟩ := h
  refine ⟨page, hdr, ?_, ?_⟩
  · rw [hgeometry]
    exact hleaf.congr hpage hchains
  · rw [hstart, PagerState.pageSize, PagerState.pageSize, hgeometry]

variable {new : UInt32} {rowid : Int64}

theorem installLeafDivider_ok (h : SoundStore p trunks) (hin : InUse p trunks pages)
    (hparent : parent ∈ pages) (hnew : new ∈ pages) (hone : new ≠ 1)
    (hup : NodeAt (pageSeen p.1 p.2.disk) parent ds right pbuf phdr)
    (hmem : leaf ∈ ds.map Divider.child ++ [right]) (hfit : DividerFits parent ds phdr rowid) :
    ∃ q, installLeafDivider parent leaf new rowid p = .ok () q ∧
      Rewrites p q trunks trunks pages [parent] ∧
      ∃ page hdr, NodeAt (pageSeen q.1 q.2.disk) parent (divided ds right leaf new rowid).1
        (divided ds right leaf new rowid).2 page hdr := by
  obtain ⟨p₁, hread, hq₁⟩ := readPageForWrite_ok h.failAt hup.shown
  have h₁ := (h.quiet hq₁).rewrites_nil hin
  obtain ⟨page', hdr', hdivided, hlen, hcarries⟩ := dividedParent_ok new hup hmem hfit
  obtain ⟨p₂, hwrite, hrep₂, hseen₂⟩ := h₁.sound.writePage
    (h₁.inUse.sublist (List.singleton_sublist.mpr hparent))
    (show page'.length = p₁.1.pageSize by
      rw [hlen, h₁.pageSize]
      exact length_shown h hin hparent hup.shown)
  have h₂ := hrep₂.rewrites h₁.inUse hparent
  have hbegin : installLeafDivider parent leaf new rowid p = (do
      if (← getState).autoVacuum then ptrmapPut new .btree parent : PagerM Unit) p₂ := by
    simp only [installLeafDivider]
    rw [bind_ok hread]
    simp only [hup.carries.parse, liftResult_ok_bind, hup.carries.pageType_eq, ne_eq,
      not_true_eq_false, if_false, hdivided]
    rw [bind_ok hwrite]
  obtain ⟨q, hput, h₃⟩ : ∃ q, ((do
      if (← getState).autoVacuum then ptrmapPut new .btree parent) : PagerM Unit) p₂ = .ok () q ∧
      Rewrites p₂ q trunks trunks pages [] := by
    by_cases hvac : p₂.1.autoVacuum = true
    · have hfile := h₂.inUse.inFile new hnew
      obtain ⟨q, hput, hrep⟩ := h₂.sound.ptrmapPut hfile.1 hone hfile.2
        (h₂.inUse.unreserved hvac new hnew) hvac .btree parent
      refine ⟨q, ?_, hrep.rewrites_nil h₂.inUse⟩
      rw [getState_bind, if_pos hvac, hput]
    · refine ⟨p₂, ?_, h₂.sound.rewrites h₂.inUse⟩
      rw [getState_bind, if_neg hvac]
      rfl
  refine ⟨q, hbegin.trans hput, by simpa using (h₁.trans h₂).trans h₃, page', hdr', ?_, hcarries,
    divided_valid hup⟩
  rw [h₃.view parent hparent (by simp), hseen₂]

theorem installLeafDivider_full (h : p.2.failAt = none)
    (hup : NodeAt (pageSeen p.1 p.2.disk) parent ds right pbuf phdr)
    (hmem : leaf ∈ ds.map Divider.child ++ [right]) (hfull : ¬ DividerFits parent ds phdr rowid) :
    ∃ q, installLeafDivider parent leaf new rowid p = .error pageFullError q ∧ Quiet p q := by
  obtain ⟨p₁, hread, hq₁⟩ := readPageForWrite_ok h hup.shown
  refine ⟨p₁, ?_, hq₁⟩
  simp only [installLeafDivider]
  rw [bind_ok hread]
  simp only [hup.carries.parse, liftResult_ok_bind, hup.carries.pageType_eq, ne_eq,
    not_true_eq_false, if_false, dividedParent_full hup hmem hfull]
  rfl

theorem splitLeaf_ok (h : SoundStore p trunks)
    (hleaf : LeafOf p.1.geometry.usableSize (pageSeen p.1 p.2.disk) leaf rs page hdr)
    (hone : leaf ≠ 1) (hin : InUse p trunks ([leaf, parent] ++ chains rs))
    (hup : NodeAt (pageSeen p.1 p.2.disk) parent ds right pbuf phdr)
    (hmem : leaf ∈ ds.map Divider.child ++ [right]) (hne : rs ≠ [])
    (halloc : CanAllocate p.1 trunks)
    (hfit : DividerFits parent ds phdr (splitRowid p.1.geometry.usableSize rs)) :
    ∃ new q rest, splitLeaf leaf (some parent) p = .ok new q ∧
      LeafHalves p q trunks rest leaf parent new right rs ds := by
  obtain ⟨new, p₁, rest, h₁, hrun⟩ := splitLeaf_written h hleaf hone hin halloc
  obtain ⟨q, hinstall, h₂, hparent⟩ := installLeafDivider_ok
    h₁.replaced.sound h₁.replaced.inUse (by simp) (by simp) h₁.ne_one (hup.congr h₁.parent)
        hmem hfit
  have hnodup := h₁.replaced.inUse.nodup
  simp only [List.nodup_cons, List.mem_cons, List.not_mem_nil, or_false, not_or] at hnodup
  obtain ⟨⟨-, hnewParent⟩, hleafParent, -⟩ := hnodup
  have hreplaced := h₁.replaced.trans h₂.replaced
  -- the overflow pages are apart from everything that was written
  have hchain : ∀ x ∈ chains rs, pageSeen q.1 q.2.disk x = pageSeen p₁.1 p₁.2.disk x :=
    fun x hx => (hreplaced.view hin x hx).trans (h₁.replaced.view hin x hx).symm
  have hsub : ∀ rs' ⊆ rs, ∀ x ∈ chains rs', x ∈ chains rs := by
    intro rs' hrs' x hx
    obtain ⟨r, hr, hxr⟩ := List.mem_flatMap.mp hx
    exact List.mem_flatMap.mpr ⟨r, hrs' hr, hxr⟩
  refine ⟨new, q, rest, ?_, h₁.ne_one, h₁.fresh, hreplaced, ?_, ?_, hparent⟩
  · rw [hrun, lastLeft_rows hne hleaf.valid, liftResult_ok_bind, bind_ok hinstall]
    rfl
  · exact h₁.left.congr h₂.geometry (h₂.view leaf (by simp) (by simpa using hleafParent))
      fun x hx => hchain x (hsub _ leftRows_subset x hx)
  · exact h₁.right.congr h₂.geometry (h₂.view new (by simp) (by simpa using hnewParent))
      fun x hx => hchain x (hsub _ rightRows_subset x hx)

theorem splitLeaf_refused (h : SoundStore p trunks)
    (hleaf : LeafOf p.1.geometry.usableSize (pageSeen p.1 p.2.disk) leaf rs page hdr)
    (hone : leaf ≠ 1) (hin : InUse p trunks ([leaf, parent] ++ chains rs))
    (hup : NodeAt (pageSeen p.1 p.2.disk) parent ds right pbuf phdr)
    (hmem : leaf ∈ ds.map Divider.child ++ [right])
    (hnot : ¬ (rs ≠ [] ∧ CanAllocate p.1 trunks ∧
      DividerFits parent ds phdr (splitRowid p.1.geometry.usableSize rs))) :
    ∃ e q, splitLeaf leaf (some parent) p = .error e q ∧ q.2.failAt = none ∧
      pageSeen q.1 q.2.disk parent = pageSeen p.1 p.2.disk parent ∧
      (e.code = .panic ∨
        ¬ DividerFits parent ds phdr (splitRowid p.1.geometry.usableSize rs)) := by
  by_cases halloc : CanAllocate p.1 trunks
  · obtain ⟨new, p₁, rest, h₁, hrun⟩ := splitLeaf_written h hleaf hone hin halloc
    by_cases hne : rs = []
    · subst hne
      obtain ⟨e, he, hpanic⟩ := lastLeft_nil p.1.geometry.usableSize
      refine ⟨e, p₁, ?_, h₁.replaced.sound.failAt, h₁.parent, .inl hpanic⟩
      rw [hrun, he]
      rfl
    · have hfull : ¬ DividerFits parent ds phdr (splitRowid p.1.geometry.usableSize rs) :=
        fun hfit => hnot ⟨hne, halloc, hfit⟩
      obtain ⟨q, hinstall, hq⟩ := installLeafDivider_full
        h₁.replaced.sound.failAt (hup.congr h₁.parent) hmem hfull
      refine ⟨pageFullError, q, ?_, hq.failAt, (hq.view parent).trans h₁.parent, .inr hfull⟩
      rw [hrun, lastLeft_rows hne hleaf.valid, liftResult_ok_bind, bind_error hinstall]
  · obtain ⟨p₁, hread, hq₁⟩ := readPageForWrite_ok h.failAt hleaf.shown
    have h₁ := h.quiet hq₁
    have hspec := h₁.sound.allocatePage
    cases hrun : allocatePage p₁ with
    | ok new p₂ =>
        exact absurd (hq₁.canAllocate.mp ((allocatePage_ok_iff h₁.sound).mp ⟨new, p₂, hrun⟩)) halloc
    | error e q =>
        rw [hrun] at hspec
        have hsame := (h₁.aside hin.left).1.sameOn hspec.2
        refine ⟨e, q, ?_, hspec.2.failAt, (hsame.view parent (by simp)).trans (hq₁.view parent),
          .inl hspec.1.1⟩
        have husable : 480 ≤ p.1.geometry.usableSize := p.1.geometry.le_usable
        rw [splitLeaf, getState_bind, bind_ok hread]
        simp only [hleaf.carries.parse, liftResult_ok_bind, hleaf.carries.pageType_eq, ne_eq,
          not_true_eq_false, if_false, tableLeafCells_ok hleaf husable]
        rw [bind_error hrun]

end Split

/-! ## The root -/

section Root

variable {p : PagerState × World DbFile} {trunks : List (UInt32 × List UInt32)} {root : UInt32}
  {rs : List StoredRow} {page : Bytes} {hdr : PageHeader}

structure RootHalves (p q : PagerState × World DbFile) (trunks rest : List (UInt32 × List UInt32))
    (root left right : UInt32) (rs : List StoredRow) : Prop where
  left_ne_one : left ≠ 1
  right_ne_one : right ≠ 1
  replaced : Replaced p q trunks rest [root] [root, left, right]
  atLeft : CompactLeaf q left (leftRows p.1.geometry.usableSize rs)
  atRight : CompactLeaf q right (rightRows p.1.geometry.usableSize rs)
  atRoot : ∃ page hdr, NodeAt (pageSeen q.1 q.2.disk) root
    [.built left (splitRowid p.1.geometry.usableSize rs)] right page hdr

theorem allocateLeaf_spec (rs : List StoredRow) (h : SoundStore p trunks)
    (hin : InUse p trunks pages) (hpos : ∀ r ∈ rs, 0 < r.bytes.length)
    (hfit : 8 + rs.length * 2 + (rs.map StoredRow.bytes).flatten.length ≤ p.1.pageSize) :
    match allocatePage p with
    | .ok new p₁ => new ≠ 1 ∧ ∃ q rest page hdr,
        writeNewPage new .leafTable none (rs.map StoredRow.bytes) p₁ = .ok () q ∧
        Replaced p q trunks rest pages (new :: pages) ∧
        (∀ x ∈ pages, pageSeen q.1 q.2.disk x = pageSeen p.1 p.2.disk x) ∧
        NewPage q new .leafTable none (rs.map StoredRow.bytes) page hdr
    | .error _ _ => ¬ CanAllocate p.1 trunks := by
  have hspec := h.allocatePage
  cases hrun : allocatePage p with
  | error e q =>
      intro hcan
      obtain ⟨new, q', hok⟩ := (allocatePage_ok_iff h).mpr hcan
      rw [hrun] at hok
      cases hok
  | ok new p₁ =>
      rw [hrun] at hspec
      obtain ⟨hone, hfresh, rest, h₁⟩ := hspec
      have h₁' : Replaced p p₁ trunks rest pages (new :: pages) := h₁.widen hin
      obtain ⟨q, page, hdr, hwrite, hrep, hnew⟩ := writeLeaf_ok h₁'.sound hone
        (h₁'.inUse.sublist (List.singleton_sublist.mpr (by simp))) hpos
        (by rw [h₁.grows.pageSize]; exact hfit)
      have h₂ := hrep.rewrites h₁'.inUse (y := new) (by simp)
      refine ⟨hone, q, rest, page, hdr, hwrite, h₁'.trans h₂.replaced, fun x hx => ?_, hnew⟩
      have hne : x ≠ new := fun heq => hin.not_fresh hx (heq ▸ hfresh)
      rw [h₂.view x (by simp [hx]) (by simpa using hne), h₁.view hin x hx]

theorem ptrmapPuts_ok (h : SoundStore p trunks) (hin : InUse p trunks pages) {left right : UInt32}
    (hleft : left ∈ pages) (hright : right ∈ pages) (hl : left ≠ 1) (hr : right ≠ 1)
    (root : UInt32) :
    ∃ q, ((do
      if (← getState).autoVacuum then
        ptrmapPut left .btree root
        ptrmapPut right .btree root) : PagerM Unit) p = .ok () q ∧
      Rewrites p q trunks trunks pages [] := by
  by_cases hvac : p.1.autoVacuum = true
  · obtain ⟨p₁, hput₁, hrep₁⟩ := h.ptrmapPut (hin.inFile left hleft).1 hl (hin.inFile left hleft).2
      (hin.unreserved hvac left hleft) hvac .btree root
    have h₁ := hrep₁.rewrites_nil hin
    have hvac₁ : p₁.1.autoVacuum = true := h₁.autoVacuum.trans hvac
    obtain ⟨q, hput₂, hrep₂⟩ := h₁.sound.ptrmapPut (h₁.inUse.inFile right hright).1 hr
      (h₁.inUse.inFile right hright).2 (h₁.inUse.unreserved hvac₁ right hright) hvac₁ .btree root
    refine ⟨q, ?_, by simpa using h₁.trans (hrep₂.rewrites_nil h₁.inUse)⟩
    rw [getState_bind, if_pos hvac, bind_ok hput₁]
    exact hput₂
  · refine ⟨p, ?_, h.rewrites hin⟩
    rw [getState_bind, if_neg hvac]
    rfl

theorem dividerPage_fits (root left : UInt32) (rowid : Int64) (s : PagerState) :
    btreeHeaderOffset root + PageType.headerSize .interiorTable +
      [(Divider.built left rowid).bytes].length * 2 +
      [(Divider.built left rowid).bytes].flatten.length ≤ s.pageSize := by
  have hsize : 512 ≤ s.pageSize := s.geometry.pageSize.le_size
  have hvarint := varintLen_le_nine rowid.toUInt64
  have h12 : PageType.headerSize .interiorTable = 12 := rfl
  have hbase : btreeHeaderOffset root ≤ 100 := by
    rw [btreeHeaderOffset]
    split_ifs <;> omega
  have hlen : (Divider.built left rowid).bytes.length = 4 + varintLen rowid.toUInt64 :=
    length_buildTableInteriorCell left rowid
  simp only [List.length_singleton, List.flatten_singleton]
  omega

theorem promoteRootAndSplit_spec (h : SoundStore p trunks)
    (hleaf : LeafOf p.1.geometry.usableSize (pageSeen p.1 p.2.disk) root rs page hdr)
    (hin : InUse p trunks ([root] ++ chains rs)) :
    match promoteRootAndSplit root p with
    | .ok _ q => rs ≠ [] ∧ ∃ left right rest, RootHalves p q trunks rest root left right rs
    | .error _ _ => rs = [] ∨ ¬ Spare p.1 trunks 2 := by
  obtain ⟨p₁, hread, hq₁⟩ := readPageForWrite_ok h.failAt hleaf.shown
  have h₁ := (h.quiet hq₁).rewrites_nil hin.left
  have husable : 480 ≤ p.1.geometry.usableSize := p.1.geometry.le_usable
  set k := splitRows p.1.geometry.usableSize rs with hk
  have hbegin : promoteRootAndSplit root p = (do
      if hdr.numCells = 0 then
        throw (.corrupt "promote_root_and_split called on an empty leaf")
      let leftPgno ← allocatePage
      writeNewPage leftPgno .leafTable none ((rs.take k).map StoredRow.bytes)
      let rightPgno ← allocatePage
      writeNewPage rightPgno .leafTable none ((rs.drop k).map StoredRow.bytes)
      let dividerRowid ← liftResult (do maxRowidOfCell (← lastLeft (rs.map StoredRow.bytes) k))
      writeNewPage root .interiorTable (some rightPgno)
        [buildTableInteriorCell leftPgno dividerRowid]
      if (← getState).autoVacuum then
        ptrmapPut leftPgno .btree root
        ptrmapPut rightPgno .btree root : PagerM Unit) p₁ := by
    rw [promoteRootAndSplit, getState_bind, bind_ok hread, List.map_take, List.map_drop]
    simp only [hleaf.carries.parse, liftResult_ok_bind, hleaf.carries.pageType_eq, ne_eq,
      not_true_eq_false, if_false, tableLeafCells_ok hleaf husable]
    rfl
  rw [hbegin]
  have hnum : hdr.numCells = rs.length := hleaf.leafAt.numCells.symm
  by_cases hne : rs = []
  · rw [if_pos (by rw [hnum, hne]; rfl)]
    exact .inl hne
  rw [if_neg (by rw [hnum]; exact fun hzero => hne (List.length_eq_zero_iff.mp hzero))]
  beta_reduce
  have hpos : ∀ r ∈ rs, 0 < r.bytes.length := fun r hr => (hleaf.valid r hr).pos
  have hfits := hleaf.fits
  rw [length_shown h hin (by simp) hleaf.shown] at hfits
  have hflat := flatten_take_drop k rs
  have hlens : (rs.take k).length + (rs.drop k).length = rs.length := by
    rw [← List.length_append, List.take_append_drop]
  have hleftSpec := allocateLeaf_spec (rs.take k) h₁.sound h₁.inUse
    (fun r hr => hpos r (List.mem_of_mem_take hr)) (by rw [h₁.pageSize]; omega)
  cases hrun₂ : allocatePage p₁ with
  | error e q =>
      rw [hrun₂] at hleftSpec
      rw [bind_error hrun₂]
      refine .inr fun hspare => hleftSpec ?_
      exact (h₁.replaced.spare 2 hspare).canAllocate
  | ok left p₂ =>
      rw [hrun₂] at hleftSpec
      obtain ⟨hleftOne, p₃, rest, lpage, lhdr, hrun₃, h₃, hview₃, hleft₃⟩ := hleftSpec
      have hrightSpec := allocateLeaf_spec (rs.drop k) h₃.sound h₃.inUse
        (fun r hr => hpos r (List.mem_of_mem_drop hr))
        (by rw [h₃.grows.pageSize, h₁.pageSize]; omega)
      cases hrun₄ : allocatePage p₃ with
      | error e q =>
          rw [hrun₄] at hrightSpec
          rw [bind_ok hrun₂, bind_ok hrun₃, bind_error hrun₄]
          refine .inr fun hspare => hrightSpec ?_
          exact (h₃.spare 2 (h₁.replaced.spare 2 hspare)).canAllocate
      | ok right p₄ =>
          rw [hrun₄] at hrightSpec
          obtain ⟨hrightOne, p₅, rest', rpage, rhdr, hrun₅, h₅, hview₅, hright₅⟩ := hrightSpec
          have hnodup := h₅.inUse.nodup
          simp only [List.nodup_cons, List.mem_cons, List.not_mem_nil, or_false, not_or] at hnodup
          obtain ⟨⟨-, hrightRoot⟩, hleftRoot, -⟩ := hnodup
          set rowid := splitRowid p.1.geometry.usableSize rs with hrowid
          obtain ⟨p₆, upage, uhdr, hrun₆, hrep₆, hroot₆⟩ := writeNewPage_ok .interiorTable
            (some right) [(Divider.built left rowid).bytes] h₅.sound
            (h₅.inUse.single (x := root) (by simp))
            (by simp [PageType.isLeaf])
            (by
              rw [List.forall_mem_singleton]
              exact (Divider.valid_built left rowid).pos)
            (dividerPage_fits root left rowid p₅.1)
          have h₆ := hrep₆.rewrites h₅.inUse (y := root) (by simp)
          obtain ⟨q, hputs, h₇⟩ := ptrmapPuts_ok h₆.sound h₆.inUse
            (show left ∈ _ by simp) (show right ∈ _ by simp) hleftOne hrightOne root
          have h₆₇ := h₆.trans h₇
          have hall : Replaced p q trunks rest' [root] [right, left, root] :=
            (h₁.replaced.trans (h₃.trans h₅)).trans h₆₇.replaced
          have hvalid := valid_of_replaced hall hin (List.Subset.refl _) hleaf.valid
          have hdivider : writeNewPage root .interiorTable (some right)
              [buildTableInteriorCell left rowid] p₅ = .ok () p₆ := hrun₆
          rw [bind_ok hrun₂, bind_ok hrun₃, bind_ok hrun₄, bind_ok hrun₅,
            lastLeft_rows hne hleaf.valid, liftResult_ok_bind, bind_ok hdivider, hputs]
          refine ⟨hne, left, right, rest', hleftOne, hrightOne, ?_, ?_, ?_, upage, uhdr, ?_,
            hroot₆.carries, ?_⟩
          · exact hall.perm (.refl _) (List.reverse_perm [right, left, root])
          · refine hleft₃.compact (h₆₇.geometry.trans h₅.grows.geometry) ?_
              fun r hr => hvalid r (leftRows_subset hr)
            rw [h₆₇.view left (by simp) (by simpa using hleftRoot), hview₅ left (by simp)]
          · refine hright₅.compact h₆₇.geometry ?_ fun r hr => hvalid r (rightRows_subset hr)
            rw [h₆₇.view right (by simp) (by simpa using hrightRoot)]
          · rw [h₇.view root (by simp) (by simp), hroot₆.shown]
          · rw [List.forall_mem_singleton]
            exact Divider.valid_built left rowid

end Root

end Rustqlite.Btree
