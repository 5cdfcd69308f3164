import Rustqlite.Btree.Layout

/-!
# Inserting a cell

The cells of a page stand in its content area, in any order.  A cell that is
inserted goes in front of them, and its pointer between the others.
-/

namespace Rustqlite.Btree

open Foundation Format

/-! ## Headers -/

def headerOf (page : Bytes) (base : Nat) (t : PageType) : PageHeader where
  pageType := t
  firstFreeblock := readBe16 (page.drop (base + 1))
  numCells := (readBe16 (page.drop (base + 3))).toNat
  cellContentStart := readContentStart (readBe16 (page.drop (base + 5)))
  fragmentedFreeBytes := page.getD (base + 7) 0
  rightMostPointer := if t.isLeaf then none else some (readBe32 (page.drop (base + 8)))
  headerSize := t.headerSize
  baseOffset := base

theorem code_of_fromByte {b : UInt8} {t : PageType} (h : PageType.fromByte b = .ok t) :
    b = t.code := by
  rw [PageType.fromByte] at h
  split_ifs at h <;> cases h <;> assumption

variable {page page' : Bytes} {off : Nat}

theorem parse_eq_ok_iff {base : Nat} {hdr : PageHeader} :
    PageHeader.parse page base = .ok hdr ↔
      hdr = headerOf page base hdr.pageType ∧ page.getD base 0 = hdr.pageType.code ∧
        base + hdr.pageType.headerSize ≤ page.length := by
  constructor
  · intro h
    rw [PageHeader.parse] at h
    split_ifs at h with hshort
    split at h
    · cases h
    · rename_i t ht
      split at h
      · cases h
      · rename_i hinterior
        cases h
        refine ⟨by rw [headerOf], code_of_fromByte ht, ?_⟩
        rw [PageType.headerSize]
        split_ifs with hleaf
        · omega
        · simp only [hleaf, true_and] at hinterior
          omega
  · rintro ⟨heq, hcode, hroom⟩
    have height := headerSize_le hdr.pageType
    rw [PageHeader.parse, if_neg (by omega), hcode, PageType.fromByte_code]
    dsimp only
    rw [if_neg, heq]
    · rfl
    · rintro ⟨hleaf, hlt⟩
      simp only [PageType.headerSize, hleaf, Bool.false_eq_true, if_false] at hroom
      omega

/-! ## Cells in the content area -/

structure Carries (page : Bytes) (base : Nat) (pageType : PageType) (rightMost : Option UInt32)
    (bs : List Bytes) (hdr : PageHeader) : Prop
    extends LaidOut page base pageType rightMost bs hdr where
  size : page.length ≤ 65536
  pos : ∀ b ∈ bs, 0 < b.length
  room : base + pageType.headerSize + bs.length * 2 ≤ hdr.cellContentStart
  /-- The cells do not overlap. -/
  packed : hdr.cellContentStart + bs.flatten.length ≤ page.length
  above : ∀ i < bs.length, ∀ off, hdr.cellPointer page i = .ok off → hdr.cellContentStart ≤ off

theorem standsAt_of_slice {bytes : Bytes} (h : slice page off bytes.length = bytes) :
    StandsAt bytes page off := by
  have happend := List.take_append_drop bytes.length (page.drop off)
  have htake : (page.drop off).take bytes.length = bytes := h
  rw [htake] at happend
  exact ⟨_, happend.symm⟩

theorem readBe16_drop (page : Bytes) (off : Nat) :
    readBe16 (page.drop off) = UInt16.ofNat (beNat (slice page off 2)) := rfl

theorem readBe32_drop (page : Bytes) (off : Nat) :
    readBe32 (page.drop off) = UInt32.ofNat (beNat (slice page off 4)) := rfl

theorem getD_of_slice (h : slice page' off 1 = slice page off 1) :
    page'.getD off 0 = page.getD off 0 := by
  have := congrArg (fun l => l[0]?) h
  simp only [getElem?_slice, if_pos Nat.one_pos, Nat.add_zero] at this
  rw [List.getD_eq_getElem?_getD, List.getD_eq_getElem?_getD, this]

theorem readBe16_of_slice {x : UInt16} (h : slice page off 2 = be16 x) :
    readBe16 (page.drop off) = x := by
  have hread := readBe16_be16_append x []
  rwa [readBe16, List.take_left' (length_be16 x), ← h] at hread

section Insert

variable {page cell : Bytes} {base start n idx headerSize : Nat}

def spliceCell (page : Bytes) (base headerSize n start idx : Nat) (cell : Bytes) : Bytes :=
  let ptrAt (i : Nat) : Nat := base + headerSize + i * 2
  let p₁ := splice page (start - cell.length) cell
  let p₂ := splice p₁ (ptrAt (idx + 1)) (slice p₁ (ptrAt idx) (2 * (n - idx)))
  let p₃ := splice p₂ (ptrAt idx) (be16 (UInt16.ofNat (start - cell.length)))
  let p₄ := splice p₃ (base + 3) (be16 (UInt16.ofNat (n + 1)))
  splice p₄ (base + 5) (be16 (storedContentStart (start - cell.length)))

structure Spliced (page page' : Bytes) (base headerSize n start idx : Nat) (cell : Bytes) :
    Prop where
  length : page'.length = page.length
  code : slice page' base 1 = slice page base 1
  right : headerSize = 12 → slice page' (base + 8) 4 = slice page (base + 8) 4
  count : slice page' (base + 3) 2 = be16 (UInt16.ofNat (n + 1))
  content : slice page' (base + 5) 2 = be16 (storedContentStart (start - cell.length))
  before : ∀ i < idx, slice page' (base + headerSize + i * 2) 2 =
    slice page (base + headerSize + i * 2) 2
  pointer : slice page' (base + headerSize + idx * 2) 2 =
    be16 (UInt16.ofNat (start - cell.length))
  behind : ∀ i, idx ≤ i → i < n → slice page' (base + headerSize + (i + 1) * 2) 2 =
    slice page (base + headerSize + i * 2) 2
  cell : slice page' (start - cell.length) cell.length = cell
  above : ∀ off len, start ≤ off → slice page' off len = slice page off len

theorem spliced_spliceCell (hsize : 8 ≤ headerSize) (hidx : idx ≤ n)
    (hfit : base + headerSize + n * 2 + cell.length + 2 ≤ start) (hstart : start ≤ page.length) :
    Spliced page (spliceCell page base headerSize n start idx cell) base headerSize n start idx
      cell := by
  set ns := start - cell.length with hns
  set p₁ := splice page ns cell with h₁
  set shifted := slice p₁ (base + headerSize + idx * 2) (2 * (n - idx)) with hshifted
  set p₂ := splice p₁ (base + headerSize + (idx + 1) * 2) shifted with h₂
  set p₃ := splice p₂ (base + headerSize + idx * 2) (be16 (UInt16.ofNat ns)) with h₃
  set p₄ := splice p₃ (base + 3) (be16 (UInt16.ofNat (n + 1))) with h₄
  set p₅ := splice p₄ (base + 5) (be16 (storedContentStart ns)) with h₅
  have hp : spliceCell page base headerSize n start idx cell = p₅ := rfl
  have hl₁ : p₁.length = page.length := length_splice (by omega)
  have hls : shifted.length = 2 * (n - idx) := by
    rw [hshifted, length_slice, hl₁]
    omega
  have hl₂ : p₂.length = page.length := (length_splice (by omega)).trans hl₁
  have hl₃ : p₃.length = page.length := (length_splice (by rw [length_be16]; omega)).trans hl₂
  have hl₄ : p₄.length = page.length := (length_splice (by rw [length_be16]; omega)).trans hl₃
  have hl₅ : p₅.length = page.length := (length_splice (by rw [length_be16]; omega)).trans hl₄
  -- every step leaves what is apart from it
  have hs₁ : ∀ off len, off + len ≤ ns ∨ start ≤ off → slice p₁ off len = slice page off len :=
    fun off len h => slice_splice_of_disjoint (by omega) (by omega)
  have hs₂ : ∀ off len, off + len ≤ base + headerSize + (idx + 1) * 2 ∨
      base + headerSize + (n + 1) * 2 ≤ off → slice p₂ off len = slice p₁ off len :=
    fun off len h => slice_splice_of_disjoint (by omega) (by omega)
  have hs₃ : ∀ off len, off + len ≤ base + headerSize + idx * 2 ∨
      base + headerSize + (idx + 1) * 2 ≤ off → slice p₃ off len = slice p₂ off len :=
    fun off len h => slice_splice_of_disjoint (by omega) (by rw [length_be16]; omega)
  have hs₄ : ∀ off len, off + len ≤ base + 3 ∨ base + 5 ≤ off →
      slice p₄ off len = slice p₃ off len :=
    fun off len h => slice_splice_of_disjoint (by omega) (by rw [length_be16]; omega)
  have hs₅ : ∀ off len, off + len ≤ base + 5 ∨ base + 7 ≤ off →
      slice p₅ off len = slice p₄ off len :=
    fun off len h => slice_splice_of_disjoint (by omega) (by rw [length_be16]; omega)
  have hput : ∀ {data : Bytes} {off : Nat} (x : UInt16), off ≤ data.length →
      slice (splice data off (be16 x)) off 2 = be16 x := by
    intro data off x h
    have : slice (splice data off (be16 x)) off (be16 x).length = be16 x := slice_splice_same h
    rwa [length_be16] at this
  rw [hp]
  constructor
  · exact hl₅
  · rw [hs₅ _ _ (by omega), hs₄ _ _ (by omega), hs₃ _ _ (by omega), hs₂ _ _ (by omega),
      hs₁ _ _ (by omega)]
  · intro h12
    rw [hs₅ _ _ (by omega), hs₄ _ _ (by omega), hs₃ _ _ (by omega), hs₂ _ _ (by omega),
      hs₁ _ _ (by omega)]
  · rw [hs₅ _ _ (by omega)]
    exact hput _ (by omega)
  · exact hput _ (by omega)
  · intro i hi
    rw [hs₅ _ _ (by omega), hs₄ _ _ (by omega), hs₃ _ _ (by omega), hs₂ _ _ (by omega),
      hs₁ _ _ (by omega)]
  · rw [hs₅ _ _ (by omega), hs₄ _ _ (by omega)]
    exact hput _ (by omega)
  · intro i hi hin
    rw [hs₅ _ _ (by omega), hs₄ _ _ (by omega), hs₃ _ _ (by omega)]
    have hin : slice p₂ (base + headerSize + (idx + 1) * 2) (2 * (n - idx)) = shifted := by
      have : slice p₂ (base + headerSize + (idx + 1) * 2) shifted.length = shifted :=
        slice_splice_same (by omega)
      rwa [hls] at this
    have hpart : slice (slice p₂ (base + headerSize + (idx + 1) * 2) (2 * (n - idx)))
        (2 * (i - idx)) 2 = _ := slice_slice p₂ (by omega)
    rw [show base + headerSize + (i + 1) * 2 =
      base + headerSize + (idx + 1) * 2 + 2 * (i - idx) by omega, ← hpart, hin, hshifted,
      slice_slice _ (by omega), hs₁ _ _ (by omega)]
    congr 1
    omega
  · rw [hs₅ _ _ (by omega), hs₄ _ _ (by omega), hs₃ _ _ (by omega), hs₂ _ _ (by omega)]
    exact slice_splice_same (by omega)
  · intro off len hoff
    rw [hs₅ _ _ (by omega), hs₄ _ _ (by omega), hs₃ _ _ (by omega), hs₂ _ _ (by omega),
      hs₁ _ _ (by omega)]

end Insert

section Cells

variable {page : Bytes} {base idx : Nat} {t : PageType} {rightMost : Option UInt32}
  {bs : List Bytes} {hdr : PageHeader}

variable {i : Nat} {types : List PageType}

theorem cellPointer_headerOf (h : base + t.headerSize + i * 2 + 2 ≤ page.length) :
    (headerOf page base t).cellPointer page i =
      .ok (readBe16 (page.drop (base + t.headerSize + i * 2))).toNat := by
  rw [PageHeader.cellPointer]
  exact if_neg (show ¬ page.length < base + t.headerSize + i * 2 + 2 by omega)

theorem Carries.header (h : Carries page base t rightMost bs hdr) : hdr = headerOf page base t := by
  have hhdr := ((parse_eq_ok_iff).mp h.parse).1
  rwa [h.pageType_eq] at hhdr

theorem Carries.code (h : Carries page base t rightMost bs hdr) : page.getD base 0 = t.code := by
  have hcode := ((parse_eq_ok_iff).mp h.parse).2.1
  rwa [h.pageType_eq] at hcode

theorem Carries.cell (h : Carries page base t rightMost bs hdr) (hi : i < bs.length) :
    ∃ off, hdr.cellPointer page i = .ok off ∧ hdr.cellContentStart ≤ off ∧
      StandsAt bs[i] page off := by
  obtain ⟨off, hoff, hstands⟩ := h.cells i hi
  exact ⟨off, hoff, h.above i hi off hoff, hstands⟩

theorem cellPointer_moved {hdr' : PageHeader} {j : Nat} (hhdr : hdr = headerOf page base t)
    (hhdr' : hdr' = headerOf page' base t) (hroom : base + t.headerSize + i * 2 + 2 ≤ page.length)
    (hroom' : base + t.headerSize + j * 2 + 2 ≤ page'.length)
    (hslice : slice page' (base + t.headerSize + j * 2) 2 =
      slice page (base + t.headerSize + i * 2) 2) (hoff : hdr.cellPointer page i = .ok off) :
    hdr'.cellPointer page' j = .ok off := by
  rw [hhdr, cellPointer_headerOf hroom] at hoff
  rw [hhdr', cellPointer_headerOf hroom', ← hoff, readBe16_drop, readBe16_drop, hslice]

theorem Carries.spliced {cell : Bytes} (h : Carries page base t rightMost bs hdr)
    (hidx : idx ≤ bs.length) (hpos : 0 < cell.length)
    (hfit : base + t.headerSize + bs.length * 2 + cell.length + 2 ≤ hdr.cellContentStart)
    (hs : Spliced page page' base t.headerSize bs.length hdr.cellContentStart idx cell) :
    ∃ hdr', Carries page' base t rightMost (bs.take idx ++ cell :: bs.drop idx) hdr' ∧
      hdr'.cellContentStart = hdr.cellContentStart - cell.length := by
  have hsize := h.size
  have hpacked := h.packed
  have height := headerSize_le t
  have hlength := hs.length
  set ns := hdr.cellContentStart - cell.length with hns
  have hcode : page'.getD base 0 = t.code := (getD_of_slice hs.code).trans h.code
  have hparse : PageHeader.parse page' base = .ok (headerOf page' base t) :=
    (parse_eq_ok_iff).mpr ⟨rfl, hcode, by simp only [headerOf]; omega⟩
  have hnum : (headerOf page' base t).numCells = bs.length + 1 := by
    simp only [headerOf, readBe16_of_slice hs.count]
    rw [UInt16.toNat_ofNat', Nat.mod_eq_of_lt (by omega)]
  have hstart : (headerOf page' base t).cellContentStart = ns := by
    simp only [headerOf, readBe16_of_slice hs.content]
    exact readContentStart_stored (by omega) (by omega)
  have hlen : (bs.take idx ++ cell :: bs.drop idx).length = bs.length + 1 := by
    simp only [List.length_append, List.length_take, List.length_cons, List.length_drop]
    omega
  have hflat : (bs.take idx ++ cell :: bs.drop idx).flatten.length =
      bs.flatten.length + cell.length := by
    rw [List.flatten_append, List.flatten_cons, List.length_append, List.length_append]
    have := congrArg (fun l => (List.flatten l).length) (List.take_append_drop idx bs)
    simp only [List.flatten_append, List.length_append] at this
    omega
  -- an old cell is behind its pointer still
  have hmoved : ∀ (i j : Nat) (hi : i < bs.length), j ≤ bs.length →
      slice page' (base + t.headerSize + j * 2) 2 = slice page (base + t.headerSize + i * 2) 2 →
      ∃ off, (headerOf page' base t).cellPointer page' j = .ok off ∧
        hdr.cellContentStart ≤ off ∧ StandsAt bs[i] page' off := by
    intro i j hi hj hslice
    obtain ⟨off, hoff, habove, hstands⟩ := h.cell hi
    refine ⟨off, cellPointer_moved h.header rfl (by omega) (by omega) hslice hoff, habove, ?_⟩
    exact standsAt_of_slice ((hs.above off _ habove).trans hstands.slice_eq)
  have hnew : (headerOf page' base t).cellPointer page' idx = .ok ns := by
    rw [cellPointer_headerOf (by omega), readBe16_of_slice hs.pointer, UInt16.toNat_ofNat',
      Nat.mod_eq_of_lt (by omega)]
  have hcells : ∀ j (hj : j < (bs.take idx ++ cell :: bs.drop idx).length), ∃ off,
      (headerOf page' base t).cellPointer page' j = .ok off ∧ ns ≤ off ∧
        StandsAt (bs.take idx ++ cell :: bs.drop idx)[j] page' off := by
    intro j hj
    rcases Nat.lt_trichotomy j idx with hlt | rfl | hgt
    · obtain ⟨off, hoff, habove, hstands⟩ := hmoved j j (by omega) (by omega) (hs.before j hlt)
      refine ⟨off, hoff, by omega, ?_⟩
      rw [List.getElem_append_left (by rw [List.length_take]; omega), List.getElem_take]
      exact hstands
    · refine ⟨ns, hnew, Nat.le_refl _, ?_⟩
      have hget : (bs.take j ++ cell :: bs.drop j)[j] = cell := by
        rw [List.getElem_append_right (by rw [List.length_take]; omega)]
        simp only [List.length_take, Nat.min_eq_left hidx, Nat.sub_self, List.getElem_cons_zero]
      rw [hget]
      exact standsAt_of_slice hs.cell
    · obtain ⟨k, rfl⟩ : ∃ k, j = k + 1 := ⟨j - 1, by omega⟩
      obtain ⟨off, hoff, habove, hstands⟩ := hmoved k (k + 1) (by omega) (by omega)
        (hs.behind k (by omega) (by omega))
      refine ⟨off, hoff, by omega, ?_⟩
      have hkin : k < bs.length := by omega
      have hget : (bs.take idx ++ cell :: bs.drop idx)[k + 1] = bs[k] := by
        have hk : k + 1 - (bs.take idx).length = k - idx + 1 := by
          rw [List.length_take]
          omega
        rw [List.getElem_append_right (by rw [List.length_take]; omega)]
        simp only [hk, List.getElem_cons_succ, List.getElem_drop]
        congr 1
        omega
      rw [hget]
      exact hstands
  refine ⟨headerOf page' base t, ⟨⟨hparse, rfl, by rw [hnum, hlen], fun hleaf => ?_,
    fun j hj => ?_⟩, by rw [hs.length]; exact hsize, ?_, by rw [hlen, hstart]; omega,
    by rw [hstart, hflat]; omega, fun j hj off hoff => ?_⟩, hstart⟩
  · have hright := h.rightMost hleaf
    have h12 : t.headerSize = 12 := by rw [PageType.headerSize, hleaf]; rfl
    rw [h.header] at hright
    simp only [headerOf, hleaf, Bool.false_eq_true, if_false] at hright ⊢
    rw [← hright, readBe32_drop, readBe32_drop, hs.right h12]
  · obtain ⟨off, hoff, -, hstands⟩ := hcells j hj
    exact ⟨off, hoff, hstands⟩
  · intro b hb
    rcases List.mem_append.mp hb with hb | hb
    · exact h.pos b (List.mem_of_mem_take hb)
    · rcases List.mem_cons.mp hb with rfl | hb
      · exact hpos
      · exact h.pos b (List.mem_of_mem_drop hb)
  · obtain ⟨off', hoff', habove, -⟩ := hcells j hj
    rw [hoff] at hoff'
    cases hoff'
    rw [hstart]
    exact habove

variable {cell : Bytes}

theorem Carries.not_all_ne (h : Carries page base t rightMost bs hdr) (ht : t ∈ types) :
    ¬ (types.all fun t => page.getD base 0 != t.code) = true := by
  intro hall
  have hne := List.all_eq_true.mp hall t ht
  rw [h.code, bne_self_eq_false] at hne
  cases hne

theorem insertCell_full {headerSize : Nat} {wrongPage pastEnd : String}
    (h : Carries page base t rightMost bs hdr) (ht : t ∈ types) (hsize : headerSize = t.headerSize)
    (hidx : idx ≤ bs.length)
    (hfull : hdr.cellContentStart < base + t.headerSize + bs.length * 2 + cell.length + 2) :
    insertCell types headerSize wrongPage pastEnd page base idx cell = .error pageFullError := by
  have hnum := h.numCells
  rw [h.header] at hnum hfull
  simp only [headerOf] at hnum hfull
  rw [insertCell, if_neg (h.not_all_ne ht)]
  simp only [hnum, hsize, if_neg (show ¬ bs.length < idx by omega), if_pos hfull]

theorem insertCell_spec (types : List PageType) (headerSize : Nat) (wrongPage pastEnd : String)
    (idx : Nat) (cell : Bytes) (h : Carries page base t rightMost bs hdr) (ht : t ∈ types)
    (hsize : headerSize = t.headerSize) (hidx : idx ≤ bs.length) (hpos : 0 < cell.length)
    (hfit : base + t.headerSize + bs.length * 2 + cell.length + 2 ≤ hdr.cellContentStart) :
    ∃ page' hdr', insertCell types headerSize wrongPage pastEnd page base idx cell = .ok page' ∧
      page'.length = page.length ∧
      Carries page' base t rightMost (bs.take idx ++ cell :: bs.drop idx) hdr' ∧
      hdr'.cellContentStart = hdr.cellContentStart - cell.length := by
  have hspliced := spliced_spliceCell (headerSize_le t) hidx hfit
    (Nat.le_trans (Nat.le_add_right _ _) h.packed)
  obtain ⟨hdr', hcarries, hstart'⟩ := h.spliced hidx hpos hfit hspliced
  refine ⟨_, hdr', ?_, hspliced.length, hcarries, hstart'⟩
  have hnum := h.numCells
  have hstart : hdr.cellContentStart =
      readContentStart (readBe16 (page.drop (base + 5))) := by rw [h.header]; rfl
  have hpacked := h.packed
  rw [h.header] at hnum
  simp only [headerOf] at hnum
  rw [hstart] at hfit hpacked
  rw [insertCell, if_neg (h.not_all_ne ht)]
  simp only [hnum, hsize, if_neg (show ¬ bs.length < idx by omega)]
  rw [if_neg (by omega), if_neg (by omega), hstart]
  rfl

theorem Carries.setRight (h : Carries page base t rightMost bs hdr) (ht : t.isLeaf = false)
    (right : UInt32) :
    ∃ hdr', Carries (splice page (base + 8) (be32 right)) base t (some right) bs hdr' ∧
      hdr'.cellContentStart = hdr.cellContentStart := by
  have hsize : t.headerSize = 12 := by
    rw [PageType.headerSize, ht]
    rfl
  have hroom := h.room
  rw [hsize] at hroom
  have hpacked := h.packed
  have hfits : base + 8 + (be32 right).length ≤ page.length := by
    rw [length_be32]
    omega
  set page' := splice page (base + 8) (be32 right) with hpage'
  have hlen : page'.length = page.length := length_splice hfits
  have hsame : ∀ off len, off + len ≤ base + 8 ∨ base + 12 ≤ off →
      slice page' off len = slice page off len := by
    intro off len hapart
    exact slice_splice_of_disjoint (by omega) (by rw [length_be32]; omega)
  have hcode : page'.getD base 0 = t.code :=
    (getD_of_slice (hsame _ _ (by omega))).trans h.code
  have hparse : PageHeader.parse page' base = .ok (headerOf page' base t) :=
    (parse_eq_ok_iff).mpr ⟨rfl, hcode, by
      simp only [headerOf, hsize, hlen]
      omega⟩
  have hnum : (headerOf page' base t).numCells = hdr.numCells := by
    rw [h.header]
    simp only [headerOf, readBe16_drop, hsame (base + 3) 2 (by omega)]
  have hstart : (headerOf page' base t).cellContentStart = hdr.cellContentStart := by
    rw [h.header]
    simp only [headerOf, readBe16_drop, hsame (base + 5) 2 (by omega)]
  have hmoved : ∀ i < bs.length, ∀ off, hdr.cellPointer page i = .ok off →
      (headerOf page' base t).cellPointer page' i = .ok off := by
    intro i hi off hoff
    have hin : base + t.headerSize + i * 2 + 2 ≤ page.length := by
      rw [hsize]
      omega
    refine cellPointer_moved h.header rfl hin (by rwa [hlen]) (hsame _ _ ?_) hoff
    rw [hsize]
    omega
  refine ⟨headerOf page' base t, ⟨⟨hparse, rfl, by rw [hnum, h.numCells], fun _ => ?_,
    fun i hi => ?_⟩, by rw [hlen]; exact h.size, h.pos, by rw [hstart]; exact h.room,
    by rw [hstart, hlen]; exact h.packed, fun i hi off hoff => ?_⟩, hstart⟩
  · have hput : slice (splice page (base + 8) (be32 right)) (base + 8) (be32 right).length =
        be32 right := slice_splice_same (by omega)
    rw [length_be32] at hput
    have hshown : (headerOf page' base t).rightMostPointer =
        some (readBe32 (page'.drop (base + 8))) := by simp only [headerOf, ht]; rfl
    rw [hshown]
    have hread := readBe32_be32 right
    rw [readBe32, List.take_of_length_le (by rw [length_be32])] at hread
    rw [readBe32_drop, hput, hread, Option.getD_some]
  · obtain ⟨off, hoff, habove, hstands⟩ := h.cell hi
    refine ⟨off, hmoved i hi off hoff, standsAt_of_slice ?_⟩
    rw [hsame _ _ (by omega)]
    exact hstands.slice_eq
  · obtain ⟨off', hoff', habove, -⟩ := h.cell hi
    rw [hmoved i hi off' hoff'] at hoff
    cases hoff
    rw [hstart]
    exact habove

theorem fits_of_writePageCells (h : writePageCells page base t rightMost bs = .ok page') :
    base + t.headerSize + bs.length * 2 + bs.flatten.length ≤ page.length := by
  simp only [writePageCells] at h
  by_cases hshort : page.length < bs.flatten.length
  · rw [if_pos hshort] at h
    cases h
  · by_cases hfull : page.length - bs.flatten.length < base + t.headerSize + bs.length * 2
    · rw [if_neg hshort, if_pos hfull] at h
      cases h
    · omega

/-- Cells that have room are laid out, whatever they are. -/
theorem exists_writePageCells
    (h : base + t.headerSize + bs.length * 2 + bs.flatten.length ≤ page.length) :
    ∃ page', writePageCells page base t rightMost bs = .ok page' := by
  simp only [writePageCells]
  rw [if_neg (by omega), if_neg (by omega)]
  exact ⟨_, rfl⟩

theorem writePageCells_carries (base : Nat) (t : PageType) (rightMost : Option UInt32)
    (bs : List Bytes) (hsize : page.length ≤ 65536) (hleaf : t.isLeaf = true → rightMost = none)
    (hpos : ∀ b ∈ bs, 0 < b.length)
    (hfit : base + t.headerSize + bs.length * 2 + bs.flatten.length ≤ page.length) :
    ∃ page' hdr, writePageCells page base t rightMost bs = .ok page' ∧
      page'.length = page.length ∧ Carries page' base t rightMost bs hdr ∧
      hdr.cellContentStart = page.length - bs.flatten.length := by
  obtain ⟨page', hdr, hrun, hlen, hlaid, hstart, habove⟩ :=
    writePageCells_content base t rightMost bs hsize hleaf hpos hfit
  refine ⟨page', hdr, hrun, hlen, ⟨hlaid, by omega, hpos, by omega, by omega, habove⟩, hstart⟩

end Cells

end Rustqlite.Btree
