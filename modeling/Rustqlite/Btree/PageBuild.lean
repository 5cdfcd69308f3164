import Rustqlite.Btree.InPlace
import Rustqlite.Pager.Pages

/-!
# Building a page

A page starts empty and is given cells, one at a time or all at once.  At every
moment its cells stand apart from each other and from the pointers, and the one
that came first ends with the page: none of its bytes are kept free.
-/

namespace Rustqlite.Btree

open Foundation Format Pager

/-! ## Cells that do not overlap -/

def cellStart (page : Bytes) (base : Nat) (t : PageType) (i : Nat) : Nat :=
  (readBe16 (page.drop (base + t.headerSize + i * 2))).toNat

def contentStart (page : Bytes) (base : Nat) : Nat :=
  readContentStart (readBe16 (page.drop (base + 5)))

def cellPlaces (page : Bytes) (base : Nat) (t : PageType) (cells : List Bytes) (i : Nat) :
    Finset Nat :=
  Finset.Ico (cellStart page base t i) (cellStart page base t i + (cells.getD i []).length)

/--
The cells stand where the pointers say, none on another.  Nothing is known of the
pointer of an empty cell: 65536 does not fit into two bytes.
-/
structure Packed (page : Bytes) (base : Nat) (t : PageType) (cells : List Bytes) : Prop where
  size : page.length ≤ 65536
  code : page.getD base 0 = t.code
  count : (readBe16 (page.drop (base + 3))).toNat = cells.length
  room : base + t.headerSize + cells.length * 2 ≤ contentStart page base
  inPage : contentStart page base ≤ page.length
  cell : ∀ i, slice page (cellStart page base t i) (cells.getD i []).length = cells.getD i []
  above : ∀ i, cells.getD i [] ≠ [] → contentStart page base ≤ cellStart page base t i ∧
    cellStart page base t i + (cells.getD i []).length ≤ page.length
  apart : ∀ i j, i ≠ j → cells.getD i [] ≠ [] → cells.getD j [] ≠ [] →
    cellStart page base t i + (cells.getD i []).length ≤ cellStart page base t j ∨
      cellStart page base t j + (cells.getD j []).length ≤ cellStart page base t i
  /-- The cell that came first ends with the page. -/
  last : contentStart page base = page.length ∨ ∃ i, cells.getD i [] ≠ [] ∧
    cellStart page base t i + (cells.getD i []).length = page.length

theorem slice_length_nil (page : Bytes) (off : Nat) : slice page off ([] : Bytes).length = [] := by
  rw [slice, List.length_nil, List.take_zero]

variable {cells : List Bytes} {i j base : Nat} {page page' : Bytes} {t : PageType}

theorem getD_eq_nil (h : cells.length ≤ i) : cells.getD i [] = [] := by
  rw [List.getD_eq_getElem?_getD, List.getElem?_eq_none h, Option.getD_none]

theorem lt_length_of_getD_ne_nil (h : cells.getD i [] ≠ []) : i < cells.length := by
  by_contra hge
  exact h (getD_eq_nil (by omega))

/-! ### A page that is laid out anew -/

section Offsets

variable {stop : Nat} {cells : List Bytes}

theorem cellOffsets_end (hstop : cells.flatten.length ≤ stop) (hi : i < cells.length) :
    (cellOffsets stop cells).getD i 0 + (cells.getD i []).length ≤ stop := by
  induction cells generalizing i with
  | nil => simp at hi
  | cons cell cells ih =>
      simp only [List.flatten_cons, List.length_append] at hstop
      cases i with
      | zero =>
          simp only [cellOffsets, List.getD_cons_zero, List.flatten_cons, List.length_append]
          omega
      | succ i => exact ih (by omega) (by simpa using hi)

theorem cellOffsets_apart (hstop : cells.flatten.length ≤ stop) (hij : i < j)
    (hj : j < cells.length) :
    (cellOffsets stop cells).getD i 0 + (cells.getD i []).length ≤
      (cellOffsets stop cells).getD j 0 := by
  induction cells generalizing i j with
  | nil => simp at hj
  | cons cell cells ih =>
      obtain ⟨j, rfl⟩ : ∃ k, j = k + 1 := ⟨j - 1, by omega⟩
      simp only [List.flatten_cons, List.length_append] at hstop
      have hj' : j < cells.length := by simpa using hj
      cases i with
      | zero =>
          have hle := le_cellOffsets stop hj'
          simp only [cellOffsets, List.getD_cons_zero, List.getD_cons_succ, List.flatten_cons,
            List.length_append]
          omega
      | succ i => exact ih (by omega) (by omega) hj'

theorem exists_cellOffsets_end (hstop : cells.flatten.length ≤ stop) (hsome : cells.flatten ≠ []) :
    ∃ i, cells.getD i [] ≠ [] ∧
      (cellOffsets stop cells).getD i 0 + (cells.getD i []).length = stop := by
  induction cells with
  | nil => exact absurd rfl hsome
  | cons cell cells ih =>
      simp only [List.flatten_cons, List.length_append] at hstop
      by_cases hrest : cells.flatten = []
      · rw [List.flatten_cons, hrest, List.append_nil] at hsome
        refine ⟨0, hsome, ?_⟩
        simp only [cellOffsets, List.getD_cons_zero, List.flatten_cons, List.length_append, hrest,
          List.length_nil]
        omega
      · obtain ⟨i, hne, hend⟩ := ih (by omega) hrest
        exact ⟨i + 1, hne, hend⟩

end Offsets

theorem packed_of_writePageCells {rightMost : Option UInt32} (hsize : page.length ≤ 65536)
    (hleaf : t.isLeaf = true → rightMost = none)
    (hrun : writePageCells page base t rightMost cells = .ok page') :
    page'.length = page.length ∧ Packed page' base t cells := by
  have hfit := fits_of_writePageCells hrun
  rw [writePageCells_of_fits rightMost hfit hleaf, Except.ok.injEq] at hrun
  set child := rightMostBytes t rightMost with hchild
  have hchildlen : child.length = if t.isLeaf then 0 else 4 := length_rightMostBytes hleaf
  have hheader : t.headerSize = 8 + child.length := by
    rw [PageType.headerSize, hchildlen]
    split_ifs <;> rfl
  set start := page.length - cells.flatten.length with hstart
  set offs := cellOffsets page.length cells with hoffs
  set pointers := offs.flatMap fun off => be16 (UInt16.ofNat off) with hpointers
  set zeros : Bytes := List.replicate (start - (base + t.headerSize + cells.length * 2)) 0
    with hzeros
  set header : Bytes := [t.code] ++ be16 0 ++ be16 (UInt16.ofNat cells.length) ++
    be16 (storedContentStart start) ++ [0] ++ child with hhdr
  have hpage' : page' = page.take base ++ header ++ pointers ++ zeros ++ cells.flatten := by
    rw [← hrun, hhdr]
    simp only [List.append_assoc]
  have htake : (page.take base).length = base := by
    rw [List.length_take]
    omega
  have hhlen : header.length = t.headerSize := by
    simp only [hhdr, List.length_append, List.length_cons, List.length_nil, length_be16]
    omega
  have hplen : pointers.length = cells.length * 2 := by
    rw [hpointers, List.length_flatMap]
    simp [hoffs]
  have hfront : (page.take base ++ header ++ pointers ++ zeros).length = start := by
    simp only [List.length_append, htake, hhlen, hplen, hzeros, List.length_replicate]
    omega
  have hlen : page'.length = page.length := by
    rw [hpage', List.length_append, hfront]
    omega
  have hdrop : page'.drop base = header ++ (pointers ++ (zeros ++ cells.flatten)) := by
    rw [hpage']
    simp only [List.append_assoc]
    rw [List.drop_left' htake]
  have hparse := parse_header (t := t) (n := UInt16.ofNat cells.length) hchildlen
      (by rw [hdrop, hhdr])
  have hheaderOf := (parse_eq_ok_iff.mp hparse).1
  have hcode := (parse_eq_ok_iff.mp hparse).2.1
  have hcount : (readBe16 (page'.drop (base + 3))).toNat = cells.length := by
    have := congrArg PageHeader.numCells hheaderOf
    simp only [headerOf, UInt16.toNat_ofNat'] at this
    omega
  have hcontent : contentStart page' base = start := by
    have := congrArg PageHeader.cellContentStart hheaderOf
    simp only [headerOf] at this
    rw [contentStart, ← this]
    exact readContentStart_stored (by omega) (by omega)
  have hstop : cells.flatten.length ≤ page.length := by omega
  have hcellStart : ∀ i, cells.getD i [] ≠ [] → cellStart page' base t i = offs.getD i 0 := by
    intro i hne
    have hi := lt_length_of_getD_ne_nil hne
    have hend := cellOffsets_end hstop hi
    have hpos := List.length_pos_of_ne_nil hne
    obtain ⟨tail, htail⟩ := drop_pointers (zeros ++ cells.flatten)
      (show i < offs.length by simpa [hoffs] using hi)
    rw [cellStart, ← List.drop_drop, ← List.drop_drop, hdrop, List.drop_left' hhlen, htail,
      readBe16_be16_append, UInt16.toNat_ofNat', Nat.mod_eq_of_lt (by rw [hoffs]; omega)]
  have hcell : ∀ i, slice page' (cellStart page' base t i) (cells.getD i []).length =
      cells.getD i [] := by
    intro i
    by_cases hne : cells.getD i [] = []
    · rw [hne, slice_length_nil]
    have hi := lt_length_of_getD_ne_nil hne
    have hstands := standsAt_cellOffsets (page.take base ++ header ++ pointers ++ zeros) hi
    rw [hfront, ← hpage', Nat.sub_add_cancel (by omega), ← hoffs, ← hcellStart i hne] at hstands
    rw [List.getD_eq_getElem _ _ hi]
    exact hstands.slice_eq
  refine ⟨hlen, by omega, hcode, hcount, by omega, by omega, hcell, fun i hne => ?_,
    fun i j hij hi hj => ?_, ?_⟩
  · have hi := lt_length_of_getD_ne_nil hne
    have hlow := le_cellOffsets page.length hi
    have hend := cellOffsets_end hstop hi
    rw [hcellStart i hne, hcontent, hlen]
    exact ⟨hlow, hend⟩
  · rw [hcellStart i hi, hcellStart j hj]
    rcases Nat.lt_or_gt_of_ne hij with hlt | hgt
    · exact .inl (cellOffsets_apart hstop hlt (lt_length_of_getD_ne_nil hj))
    · exact .inr (cellOffsets_apart hstop hgt (lt_length_of_getD_ne_nil hi))
  · by_cases hnone : cells.flatten = []
    · left
      rw [hcontent, hlen, hstart, hnone, List.length_nil, Nat.sub_zero]
    · right
      obtain ⟨i, hne, hend⟩ := exists_cellOffsets_end hstop hnone
      exact ⟨i, hne, by rw [hcellStart i hne, hlen, hoffs, hend]⟩

/-! ### A cell more -/

section Insert

variable {page page' : Bytes} {base idx : Nat} {t : PageType} {cells : List Bytes} {cell : Bytes}

/-- The number that a cell had before another was inserted in front of it, or behind it. -/
def oldPlace (idx i : Nat) : Nat := if i < idx then i else i - 1

theorem getD_insertIdx_self (hidx : idx ≤ cells.length) :
    (cells.insertIdx idx cell).getD idx [] = cell := by
  rw [List.getD_eq_getElem?_getD, List.getElem?_insertIdx_self, if_pos hidx, Option.getD_some]

theorem getD_insertIdx_of_ne (hi : i ≠ idx) :
    (cells.insertIdx idx cell).getD i [] = cells.getD (oldPlace idx i) [] := by
  rw [List.getD_eq_getElem?_getD, List.getD_eq_getElem?_getD, List.getElem?_insertIdx, oldPlace]
  split_ifs <;> rfl

theorem oldPlace_inj (hi : i ≠ idx) (hj : j ≠ idx) (hij : i ≠ j) :
    oldPlace idx i ≠ oldPlace idx j := by
  rw [oldPlace, oldPlace]
  split_ifs <;> omega

theorem Packed.spliced (h : Packed page base t cells) (hidx : idx ≤ cells.length)
    (hfit : base + t.headerSize + cells.length * 2 + cell.length + 2 ≤ contentStart page base)
    (hs : Spliced page page' base t.headerSize cells.length (contentStart page base) idx cell) :
    Packed page' base t (cells.insertIdx idx cell) := by
  have hsize := h.size
  have hinPage := h.inPage
  have height := headerSize_le t
  have hlength := hs.length
  set start := contentStart page base with hstart
  have hcontent : contentStart page' base = start - cell.length := by
    rw [contentStart, readBe16_of_slice hs.content]
    exact readContentStart_stored (by omega) (by omega)
  have hlen : (cells.insertIdx idx cell).length = cells.length + 1 :=
    List.length_insertIdx_of_le_length hidx cell
  have hself : (cells.insertIdx idx cell).getD idx [] = cell := getD_insertIdx_self hidx
  have hnew : cell ≠ [] → cellStart page' base t idx = start - cell.length := by
    intro hne
    have hpos := List.length_pos_of_ne_nil hne
    rw [cellStart, readBe16_of_slice hs.pointer, UInt16.toNat_ofNat', Nat.mod_eq_of_lt (by omega)]
  -- the pointer of an old cell is where the shift has put it
  have hold : ∀ i, i ≠ idx → cells.getD (oldPlace idx i) [] ≠ [] →
      cellStart page' base t i = cellStart page base t (oldPlace idx i) := by
    intro i hi hne
    have hin := lt_length_of_getD_ne_nil hne
    rw [cellStart, cellStart, readBe16_drop, readBe16_drop]
    rcases Nat.lt_or_gt_of_ne hi with hlt | hgt
    · rw [oldPlace, if_pos hlt, hs.before i hlt]
    · rw [oldPlace, if_neg (by omega)] at hin ⊢
      obtain ⟨k, rfl⟩ : ∃ k, i = k + 1 := ⟨i - 1, by omega⟩
      rw [hs.behind k (by omega) (by omega), Nat.add_sub_cancel]
  refine ⟨by omega, (getD_of_slice hs.code).trans h.code, ?_, by omega, by omega, fun i => ?_,
    fun i hne => ?_, fun i j hij hi hj => ?_, ?_⟩
  · rw [readBe16_of_slice hs.count, UInt16.toNat_ofNat', Nat.mod_eq_of_lt (by omega), hlen]
  · rcases eq_or_ne i idx with rfl | hi
    · rw [hself]
      by_cases hne : cell = []
      · rw [hne, slice_length_nil]
      · rw [hnew hne, hs.cell]
    · rw [getD_insertIdx_of_ne hi]
      by_cases hne : cells.getD (oldPlace idx i) [] = []
      · rw [hne, slice_length_nil]
      · rw [hold i hi hne, hs.above _ _ (h.above _ hne).1, h.cell]
  · rcases eq_or_ne i idx with rfl | hi
    · rw [hself] at hne ⊢
      rw [hnew hne, hcontent]
      omega
    · rw [getD_insertIdx_of_ne hi] at hne ⊢
      have := h.above _ hne
      rw [hold i hi hne, hcontent]
      omega
  · rcases eq_or_ne i idx with rfl | hi'
    · have hj' : j ≠ i := hij.symm
      rw [hself] at hi ⊢
      rw [getD_insertIdx_of_ne hj'] at hj ⊢
      have := h.above _ hj
      rw [hnew hi, hold j hj' hj]
      omega
    rw [getD_insertIdx_of_ne hi'] at hi ⊢
    rcases eq_or_ne j idx with rfl | hj'
    · rw [hself] at hj ⊢
      have := h.above _ hi
      rw [hnew hj, hold i hi' hi]
      omega
    · rw [getD_insertIdx_of_ne hj'] at hj ⊢
      rw [hold i hi' hi, hold j hj' hj]
      exact h.apart _ _ (oldPlace_inj hi' hj' hij) hi hj
  · rcases h.last with hfull | ⟨j, hne, hend⟩
    · by_cases hne : cell = []
      · left
        rw [hcontent, hne, hlength, List.length_nil, Nat.sub_zero, ← hfull]
      · right
        refine ⟨idx, by rwa [hself], ?_⟩
        rw [hself, hnew hne, hlength, ← hfull]
        omega
    · right
      have hin := lt_length_of_getD_ne_nil hne
      obtain ⟨i, hi, hji⟩ : ∃ i, i ≠ idx ∧ oldPlace idx i = j := by
        by_cases hlt : j < idx
        · exact ⟨j, by omega, by rw [oldPlace, if_pos hlt]⟩
        · exact ⟨j + 1, by omega, by rw [oldPlace, if_neg (by omega), Nat.add_sub_cancel]⟩
      refine ⟨i, ?_, ?_⟩
      · rwa [getD_insertIdx_of_ne hi, hji]
      · rw [getD_insertIdx_of_ne hi, hold i hi (by rwa [hji]), hji, hend, hlength]

theorem Packed.insertCell (h : Packed page base t cells) (types : List PageType)
    {headerSize : Nat} (wrongPage pastEnd : String) (idx : Nat) (cell : Bytes)
    (hsize : t ∈ types → headerSize = t.headerSize) :
    (∃ page', insertCell types headerSize wrongPage pastEnd page base idx cell = .ok page' ∧
      idx ≤ cells.length ∧ page'.length = page.length ∧
      Packed page' base t (cells.insertIdx idx cell)) ∨
    ∃ e, insertCell types headerSize wrongPage pastEnd page base idx cell = .error e ∧
      (e = .corrupt wrongPage ∨ e = .corrupt pastEnd ∨ e = pageFullError) := by
  rw [Btree.insertCell]
  by_cases htype : (types.all fun t => page.getD base 0 != t.code) = true
  · rw [if_pos htype]
    exact .inr ⟨_, rfl, .inl rfl⟩
  rw [if_neg htype]
  have ht : t ∈ types := by
    simp only [List.all_eq_true, bne_iff_ne, not_forall, h.code] at htype
    obtain ⟨u, hu, hcode⟩ := htype
    have heq : t.code = u.code := by simpa using hcode
    have hparse := congrArg PageType.fromByte heq
    rw [PageType.fromByte_code, PageType.fromByte_code, Except.ok.injEq] at hparse
    rwa [hparse]
  rw [hsize ht, h.count, ← contentStart]
  dsimp only
  by_cases hidx : cells.length < idx
  · rw [if_pos hidx]
    exact .inr ⟨_, rfl, .inr (.inl rfl)⟩
  rw [if_neg hidx]
  by_cases hfull : contentStart page base < base + t.headerSize + cells.length * 2 + cell.length + 2
  · rw [if_pos hfull]
    exact .inr ⟨_, rfl, .inr (.inr rfl)⟩
  have hinPage := h.inPage
  rw [if_neg hfull, if_neg (by omega)]
  have hroom : base + t.headerSize + cells.length * 2 + cell.length + 2 ≤
      contentStart page base := by omega
  have hspliced := spliced_spliceCell (headerSize_le t) (show idx ≤ cells.length by omega) hroom
    hinPage
  exact .inl ⟨_, rfl, by omega, hspliced.length, h.spliced (by omega) (by omega) hspliced⟩

end Insert

/-! ## Pages that the source builds -/

theorem writePageCells_nil (t : PageType) (rightMost : Option UInt32)
    (hpage : base + 12 ≤ page.length) (hleaf : t.isLeaf = true → rightMost = none) :
    writePageCells page base t rightMost [] =
      .ok (page.take base ++ [t.code] ++ be16 0 ++ be16 0 ++
          be16 (storedContentStart page.length) ++
        [0] ++ rightMostBytes t rightMost ++
        List.replicate (page.length - base - t.headerSize) 0) := by
  have hheader : t.headerSize ≤ 12 := by
    rw [PageType.headerSize]
    split_ifs <;> omega
  rw [writePageCells_of_fits rightMost (by simpa using by omega) hleaf]
  simp only [List.flatten_nil, List.length_nil, Nat.sub_zero, Nat.zero_mul, Nat.add_zero,
    cellOffsets, List.flatMap_nil, List.append_nil, Nat.sub_sub]
  rfl

section Builds

variable {ps : PageSize} {base : Nat}

inductive Built (ps : PageSize) (base : Nat) : Bytes → PageType → List Bytes → Prop
  | emptyLeaf {page : Bytes} : page.length = ps.size →
      Built ps base (initEmptyLeaf page base) .leafTable []
  | emptyIndexLeaf {page : Bytes} : page.length = ps.size →
      Built ps base (initEmptyIndexLeaf page base) .leafIndex []
  | emptyInterior {page : Bytes} (rightMost : UInt32) : page.length = ps.size →
      Built ps base (initEmptyInterior page base rightMost) .interiorTable []
  | emptyInteriorIndex {page : Bytes} (rightMost : UInt32) : page.length = ps.size →
      Built ps base (initEmptyInteriorIndex page base rightMost) .interiorIndex []
  | insertLeaf {page page' : Bytes} {t : PageType} {cells : List Bytes} {idx : Nat}
      {cell : Bytes} : Built ps base page t cells →
      InPlace.insertLeafCell base idx cell page = .ok () page' →
      Built ps base page' t (cells.insertIdx idx cell)
  | refusedLeaf {page page' : Bytes} {t : PageType} {cells : List Bytes} {idx : Nat}
      {cell : Bytes} {e : Error} : Built ps base page t cells →
      InPlace.insertLeafCell base idx cell page = .error e page' → Built ps base page' t cells
  | insertInterior {page page' : Bytes} {t : PageType} {cells : List Bytes} {idx : Nat}
      {cell : Bytes} : Built ps base page t cells →
      InPlace.insertInteriorCell base idx cell page = .ok () page' →
      Built ps base page' t (cells.insertIdx idx cell)
  | refusedInterior {page page' : Bytes} {t : PageType} {cells : List Bytes} {idx : Nat}
      {cell : Bytes} {e : Error} : Built ps base page t cells →
      InPlace.insertInteriorCell base idx cell page = .error e page' → Built ps base page' t cells
  /-- Only an interior page is given a right-most child. -/
  | write {page page' : Bytes} {t u : PageType} {cells more : List Bytes}
      {rightMost : Option UInt32} : Built ps base page t cells →
      (u.isLeaf = true → rightMost = none) →
      InPlace.writePageCells base u rightMost more page = .ok () page' →
      Built ps base page' u more

theorem packed_nil (rightMost : Option UInt32) (hbase : base ≤ 100) (hpage : page.length = ps.size)
    (hleaf : t.isLeaf = true → rightMost = none)
    (hbytes : page' = page.take base ++ [t.code] ++ be16 0 ++ be16 0 ++
      be16 (storedContentStart page.length) ++ [0] ++ rightMostBytes t rightMost ++
      List.replicate (page.length - base - t.headerSize) 0) :
    page'.length = ps.size ∧ Packed page' base t [] := by
  have hlarge := ps.le_size
  have hsmall := ps.size_le
  have hrun := writePageCells_nil t rightMost (show base + 12 ≤ page.length by omega) hleaf
  rw [← hbytes] at hrun
  rw [← hpage]
  exact packed_of_writePageCells (by omega) hleaf hrun

theorem Packed.insert_inPlace (h : Packed page base t cells) (types : List PageType)
    {headerSize : Nat} (wrongPage pastEnd : String) (idx : Nat) (cell : Bytes)
    (height : 8 ≤ headerSize) (hsize : t ∈ types → headerSize = t.headerSize) :
    (∃ page', InPlace.insertCell types headerSize wrongPage pastEnd base idx cell page =
        .ok () page' ∧ idx ≤ cells.length ∧ page'.length = page.length ∧
        Packed page' base t (cells.insertIdx idx cell)) ∨
      ∃ e, InPlace.insertCell types headerSize wrongPage pastEnd base idx cell page =
        .error e page ∧ e.code ≠ .panic := by
  rw [insertCell_inPlace types height]
  rcases h.insertCell types wrongPage pastEnd idx cell hsize with
    ⟨page', hrun, hidx, hlen, hpacked⟩ | ⟨e, hrun, hwhy⟩
  · exact .inl ⟨page', by rw [hrun, leaves], hidx, hlen, hpacked⟩
  · refine .inr ⟨e, by rw [hrun, leaves], ?_⟩
    rcases hwhy with rfl | rfl | rfl <;> simp [Error.corrupt, Error.msg, pageFullError]

structure CellsStand (page : Bytes) (base : Nat) (t : PageType) (cells : List Bytes) : Prop where
  header : PageHeader.parse page base = .ok (headerOf page base t)
  numCells : (headerOf page base t).numCells = cells.length
  pointer : ∀ i < cells.length,
    (headerOf page base t).cellPointer page i = .ok (cellStart page base t i)
  reads : ∀ i < cells.length,
    slice page (cellStart page base t i) (cells.getD i []).length = cells.getD i []
  disjoint : ∀ i j, i ≠ j →
    Disjoint (cellPlaces page base t cells i) (cellPlaces page base t cells j)
  inContent : ∀ i, ∀ pos ∈ cellPlaces page base t cells i,
    (headerOf page base t).cellContentStart ≤ pos ∧ pos < page.length
  /-- The header and the pointers end in front of the content. -/
  apart : base + t.headerSize + cells.length * 2 ≤ (headerOf page base t).cellContentStart

theorem mem_cellPlaces {pos : Nat} (h : pos ∈ cellPlaces page base t cells i) :
    cells.getD i [] ≠ [] ∧
      cellStart page base t i ≤ pos ∧
      pos < cellStart page base t i + (cells.getD i []).length := by
  rw [cellPlaces, Finset.mem_Ico] at h
  refine ⟨fun hnil => ?_, h⟩
  rw [hnil, List.length_nil] at h
  omega

theorem Packed.cellsStand (h : Packed page base t cells) : CellsStand page base t cells where
  header := parse_eq_ok_iff.mpr ⟨rfl, h.code, by
    have hroom := h.room
    have hinPage := h.inPage
    simp only [headerOf]
    omega⟩
  numCells := h.count
  pointer i hi := by
    have hroom := h.room
    have hinPage := h.inPage
    exact cellPointer_headerOf (by omega)
  reads i _ := h.cell i
  disjoint i j hij := by
    rw [Finset.disjoint_left]
    intro pos hi hj
    obtain ⟨hi, hilo, hihi⟩ := mem_cellPlaces hi
    obtain ⟨hj, hjlo, hjhi⟩ := mem_cellPlaces hj
    rcases h.apart i j hij hi hj with hle | hle <;> omega
  inContent i pos hpos := by
    obtain ⟨hne, hlo, hhi⟩ := mem_cellPlaces hpos
    have habove := h.above i hne
    change contentStart page base ≤ pos ∧ _
    omega
  apart := h.room

theorem headerSize_of_leaf (h : t ∈ [PageType.leafTable, .leafIndex]) : 8 = t.headerSize := by
  cases t <;> simp [PageType.headerSize, PageType.isLeaf] at h ⊢

theorem headerSize_of_interior (h : t ∈ [PageType.interiorTable, .interiorIndex]) :
    12 = t.headerSize := by
  cases t <;> simp [PageType.headerSize, PageType.isLeaf] at h ⊢

theorem Built.packed (hbase : base ≤ 100) (h : Built ps base page t cells) :
    page.length = ps.size ∧ Packed page base t cells := by
  have hlarge := ps.le_size
  have hsmall := ps.size_le
  induction h with
  | emptyLeaf hpage =>
      exact packed_nil none hbase hpage (fun _ => rfl) (by
        simp [initEmptyLeaf, rightMostBytes, PageType.isLeaf, PageType.headerSize])
  | emptyIndexLeaf hpage =>
      exact packed_nil none hbase hpage (fun _ => rfl) (by
        simp [initEmptyIndexLeaf, rightMostBytes, PageType.isLeaf, PageType.headerSize])
  | emptyInterior rightMost hpage =>
      exact packed_nil (some rightMost) hbase hpage (fun h => by cases h) rfl
  | emptyInteriorIndex rightMost hpage =>
      exact packed_nil (some rightMost) hbase hpage (fun h => by cases h) rfl
  | @insertLeaf page page' t cells idx cell _ hrun ih =>
      rcases ih.2.insert_inPlace _ _ _ idx cell le_rfl headerSize_of_leaf with
        ⟨p, hok, -, hlen, hpacked⟩ | ⟨e, herr, -⟩
      · cases hok.symm.trans hrun
        exact ⟨hlen.trans ih.1, hpacked⟩
      · cases herr.symm.trans hrun
  | @refusedLeaf page page' t cells idx cell e _ hrun ih =>
      rcases ih.2.insert_inPlace _ _ _ idx cell le_rfl headerSize_of_leaf with
        ⟨p, hok, -⟩ | ⟨e, herr, -⟩
      · cases hok.symm.trans hrun
      · cases herr.symm.trans hrun
        exact ih
  | @insertInterior page page' t cells idx cell _ hrun ih =>
      rcases ih.2.insert_inPlace _ _ _ idx cell (by omega) headerSize_of_interior with
        ⟨p, hok, -, hlen, hpacked⟩ | ⟨e, herr, -⟩
      · cases hok.symm.trans hrun
        exact ⟨hlen.trans ih.1, hpacked⟩
      · cases herr.symm.trans hrun
  | @refusedInterior page page' t cells idx cell e _ hrun ih =>
      rcases ih.2.insert_inPlace _ _ _ idx cell (by omega) headerSize_of_interior with
        ⟨p, hok, -⟩ | ⟨e, herr, -⟩
      · cases hok.symm.trans hrun
      · cases herr.symm.trans hrun
        exact ih
  | @write page page' t u cells more rightMost _ hleaf hrun ih =>
      rw [writePageCells_inPlace (by omega)] at hrun
      cases hpure : writePageCells page base u rightMost more with
      | error e =>
          rw [hpure] at hrun
          cases hrun
      | ok p =>
          rw [hpure] at hrun
          cases hrun
          have hpacked := packed_of_writePageCells (by omega) hleaf hpure
          exact ⟨hpacked.1.trans ih.1, hpacked.2⟩

/--
Whatever is inserted and written, the cells are read back in their order, stand
apart from each other and from the pointers, and an insert that is refused
changes nothing.
-/
theorem built_cellsStand (hbase : base = 0 ∨ base = 100) {page : Bytes} {t : PageType}
    {cells : List Bytes} (h : Built ps base page t cells) :
    CellsStand page base t cells ∧ ∀ idx cell e page',
      (InPlace.insertLeafCell base idx cell page = .error e page' ∨
        InPlace.insertInteriorCell base idx cell page = .error e page') →
      page' = page ∧ e.code ≠ .panic := by
  have hpacked := (h.packed (by omega)).2
  refine ⟨hpacked.cellsStand, fun idx cell e page' hrefused => ?_⟩
  have hleaf := hpacked.insert_inPlace _ "insert_leaf_cell: not a leaf-table or leaf-index page"
    "insert_leaf_cell: index past cell count" idx cell le_rfl headerSize_of_leaf
  have hinterior := hpacked.insert_inPlace _
    "insert_interior_cell: not an interior-table or interior-index page"
    "insert_interior_cell: index past cell count" idx cell (by omega) headerSize_of_interior
  rcases hrefused with hrun | hrun
  · rcases hleaf with ⟨p, hok, -⟩ | ⟨e', herr, hcode⟩
    · cases hok.symm.trans hrun
    · cases herr.symm.trans hrun
      exact ⟨rfl, hcode⟩
  · rcases hinterior with ⟨p, hok, -⟩ | ⟨e', herr, hcode⟩
    · cases hok.symm.trans hrun
    · cases herr.symm.trans hrun
      exact ⟨rfl, hcode⟩

end Builds

def smallLeaf : Bytes :=
  (do
    let page ← insertLeafCell (initEmptyLeaf (List.replicate 512 0) 0) 0 0 [1, 2, 3]
    insertLeafCell page 0 0 [4] : Result Bytes).toOption.getD []

set_option maxRecDepth 10000 in
theorem built_smallLeaf :
    Built ⟨512, isValidPageSize_512⟩ 0 smallLeaf .leafTable [[4], [1, 2, 3]] := by
  have hempty : Built ⟨512, isValidPageSize_512⟩ 0 (initEmptyLeaf (List.replicate 512 0) 0)
      .leafTable [] := .emptyLeaf List.length_replicate
  set first : Bytes := (insertLeafCell (initEmptyLeaf (List.replicate 512 0) 0) 0 0
    [1, 2, 3]).toOption.getD [] with hfirst
  have hone : insertLeafCell (initEmptyLeaf (List.replicate 512 0) 0) 0 0 [1, 2, 3] =
      .ok first := by decide +kernel
  have htwo : insertLeafCell first 0 0 [4] = .ok smallLeaf := by decide +kernel
  exact .insertLeaf (.insertLeaf hempty
    ((insertCell_inPlace _ le_rfl _ _ _ _ _ _).trans (congrArg _ hone)))
    ((insertCell_inPlace _ le_rfl _ _ _ _ _ _).trans (congrArg _ htwo))

theorem built_cellsStand_smallLeaf : CellsStand smallLeaf 0 .leafTable [[4], [1, 2, 3]] ∧
    ∀ idx cell e page', (InPlace.insertLeafCell 0 idx cell smallLeaf = .error e page' ∨
      InPlace.insertInteriorCell 0 idx cell smallLeaf = .error e page') →
      page' = smallLeaf ∧ e.code ≠ .panic :=
  built_cellsStand (.inl rfl) built_smallLeaf

/-! ## What does not fit -/

/-- The outcome when everything fits into the page, and when it does not. -/
structure WriteRight (base : Nat) (t : PageType) (rightMost : Option UInt32) (cells : List Bytes)
    (page : Bytes) : Prop where
  fits : base + t.headerSize + cells.length * 2 + cells.flatten.length ≤ page.length →
    ∃ page', InPlace.writePageCells base t rightMost cells page = .ok () page'
  full : page.length < base + t.headerSize + cells.length * 2 + cells.flatten.length →
    ∃ page', InPlace.writePageCells base t rightMost cells page = .error pageFullError page'

/-- The outcome is right unless the cells alone are longer than the page. -/
theorem writePageCells_right_iff (ps : PageSize) {page : Bytes} (hpage : page.length = ps.size)
    {base : Nat} (hbase : base = 0 ∨ base = 100) (t : PageType) (rightMost : Option UInt32)
    (cells : List Bytes) :
    WriteRight base t rightMost cells page ↔ cells.flatten.length ≤ page.length := by
  have hlarge := ps.le_size
  have hinPlace := writePageCells_inPlace (show base + 12 ≤ page.length by omega) t rightMost cells
  constructor
  · intro h
    by_contra hlong
    obtain ⟨page', hrun⟩ := h.full (by omega)
    rw [hinPlace, writePageCells, if_pos (by omega)] at hrun
    cases hrun
  · intro hle
    refine ⟨fun hfit => ?_, fun hfull => ?_⟩
    · obtain ⟨page', hrun⟩ : ∃ page', writePageCells page base t rightMost cells = .ok page' :=
        exists_writePageCells hfit
      exact ⟨page', by rw [hinPlace, hrun, leaves]⟩
    · refine ⟨headed page base t cells.length, ?_⟩
      rw [hinPlace, writePageCells, if_neg (by omega)]
      dsimp only
      rw [if_pos (by omega)]
      rfl

theorem writePageCells_right_iff_one :
    WriteRight 0 .leafTable none [[1, 2, 3]] (List.replicate 512 0) ↔
      ([[1, 2, 3]] : List Bytes).flatten.length ≤ (List.replicate 512 (0 : UInt8)).length :=
  writePageCells_right_iff ⟨512, isValidPageSize_512⟩ List.length_replicate (.inl rfl) _ _ _

/-- A cell of 513 bytes for a page of 512 makes the source panic. -/
theorem writePageCells_panics :
    ¬ ∀ (ps : PageSize) (page : Bytes) (base : Nat) (t : PageType) (rightMost : Option UInt32)
      (cells : List Bytes), page.length = ps.size → base = 0 ∨ base = 100 →
      WriteRight base t rightMost cells page := by
  intro h
  have hright := h ⟨512, isValidPageSize_512⟩ (List.replicate 512 0) 0 .leafTable none
    [List.replicate 513 0] List.length_replicate (.inl rfl)
  have hpage : (List.replicate 512 (0 : UInt8)).length = 512 := List.length_replicate
  have hcells : [List.replicate 513 (0 : UInt8)].flatten.length = 513 := by
    rw [List.flatten_singleton, List.length_replicate]
  obtain ⟨page', hrun⟩ := hright.full (by omega)
  rw [writePageCells_inPlace (by omega), writePageCells, if_pos (by omega)] at hrun
  cases hrun

/-! ## Reserved bytes -/

/-- The cells that were placed first lie in the reserved bytes, unless no cell has a byte. -/
theorem reserved_untouched_iff {bytes : Bytes} {h : DbHeader} (_ : DbHeader.parse bytes = .ok h)
    (hreserved : 0 < h.reservedSpace.toNat) {base : Nat} (hbase : base = 0 ∨ base = 100)
    {page : Bytes} {t : PageType} {cells : List Bytes}
    (hbuilt : Built h.pageSize base page t cells) :
    (∀ i, ∀ pos ∈ cellPlaces page base t cells i, pos < h.usableSize) ↔ cells.flatten = [] := by
  obtain ⟨hlen, hpacked⟩ := hbuilt.packed (by omega)
  constructor
  · intro hunused
    by_contra hsome
    obtain ⟨cell, hmem, hcell⟩ : ∃ cell ∈ cells, cell ≠ [] := by
      simpa [List.flatten_eq_nil_iff] using hsome
    obtain ⟨i, hne, hend⟩ : ∃ i, cells.getD i [] ≠ [] ∧
        cellStart page base t i + (cells.getD i []).length = page.length := by
      rcases hpacked.last with hfull | hlast
      · obtain ⟨i, hi, hget⟩ := List.getElem_of_mem hmem
        have hne : cells.getD i [] ≠ [] := by rwa [List.getD_eq_getElem _ _ hi, hget]
        have habove := hpacked.above i hne
        have hpos := List.length_pos_of_ne_nil hne
        omega
      · exact hlast
    have hpos := List.length_pos_of_ne_nil hne
    have hlast := hunused i (page.length - 1) (by
      rw [cellPlaces, Finset.mem_Ico]
      omega)
    rw [DbHeader.usableSize] at hlast
    omega
  · intro hnone i pos hpos
    have hne := (mem_cellPlaces hpos).1
    rw [List.flatten_eq_nil_iff] at hnone
    have hi := lt_length_of_getD_ne_nil hne
    rw [List.getD_eq_getElem _ _ hi] at hne
    exact absurd (hnone _ (List.getElem_mem hi)) hne

/-- A header whose pages of 512 bytes end with one that is reserved. -/
def reservingHeader : DbHeader :=
  { freshHeader ⟨512, isValidPageSize_512⟩ with
    reservedSpace := 1
    usable := by decide }

theorem parse_reservingHeader : DbHeader.parse reservingHeader.serialize = .ok reservingHeader := by
  have hparse := DbHeader.parse_serialize_append reservingHeader (by decide) []
  rwa [List.append_nil] at hparse

theorem reserved_untouched_iff_smallLeaf :
    (∀ i, ∀ pos ∈ cellPlaces smallLeaf 0 .leafTable [[4], [1, 2, 3]] i,
      pos < reservingHeader.usableSize) ↔ ([[4], [1, 2, 3]] : List Bytes).flatten = [] :=
  reserved_untouched_iff parse_reservingHeader (by decide) (.inl rfl) built_smallLeaf

/-- The cell that is inserted first takes the reserved byte. -/
theorem reserved_byte_used :
    ¬ ∀ (bytes : Bytes) (h : DbHeader), DbHeader.parse bytes = .ok h → 0 < h.reservedSpace.toNat →
      ∀ (base : Nat) (page : Bytes) (t : PageType) (cells : List Bytes), base = 0 ∨ base = 100 →
      Built h.pageSize base page t cells →
      ∀ i, ∀ pos ∈ cellPlaces page base t cells i, pos < h.usableSize := by
  intro h
  have hunused := h _ _ parse_reservingHeader (by decide) 0 _ _ _ (.inl rfl) built_smallLeaf
  have hat : cellStart smallLeaf 0 .leafTable 1 = 509 := by decide +kernel
  have hlast := hunused 1 511 (by
    rw [cellPlaces, hat]
    decide)
  exact absurd hlast (by decide)

end Rustqlite.Btree
