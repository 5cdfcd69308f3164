import Rustqlite.Btree.Cell

/-!
# Reading back what was laid out

A cell can be read at any place where its bytes stand, and a page that was laid
out from a list of cells has a pointer to each of them.
-/

namespace Rustqlite.Btree

open Foundation Format

/-! ## Varints -/

variable {bs page : Bytes} {v : UInt64} {n i base : Nat} {cells : List Bytes} {pageType : PageType}

theorem readVarintFrom_append (rest : Bytes) {left : Nat} {acc : UInt64}
    (h : readVarintFrom bs left acc = some (v, n)) :
    readVarintFrom (bs ++ rest) left acc = some (v, n) ∧ n ≤ bs.length := by
  induction left generalizing acc with
  | zero =>
      rw [readVarintFrom] at h ⊢
      cases hb : bs[8]? with
      | none => simp [hb] at h
      | some byte =>
          have hlt := (List.getElem?_eq_some_iff.mp hb).1
          rw [hb] at h
          rw [List.getElem?_append_left hlt, hb]
          cases h
          exact ⟨rfl, hlt⟩
  | succ left ih =>
      rw [readVarintFrom] at h ⊢
      cases hb : bs[7 - left]? with
      | none => simp [hb] at h
      | some byte =>
          have hlt := (List.getElem?_eq_some_iff.mp hb).1
          rw [hb] at h
          rw [List.getElem?_append_left hlt, hb]
          dsimp only at h ⊢
          split_ifs at h ⊢ with hflag
          · cases h
            exact ⟨rfl, hlt⟩
          · exact ih h

theorem readVarint_append (rest : Bytes) (h : readVarint bs = some (v, n)) :
    readVarint (bs ++ rest) = some (v, n) ∧ n ≤ bs.length :=
  readVarintFrom_append rest h

/-! ## Cells -/

def StandsAt (bytes page : Bytes) (off : Nat) : Prop := ∃ rest, page.drop off = bytes ++ rest

namespace StandsAt

variable {bytes page : Bytes} {off : Nat}

section

variable (h : StandsAt bytes page off)

include h

theorem length_le (hpos : 0 < bytes.length) : off + bytes.length ≤ page.length := by
  obtain ⟨rest, hrest⟩ := h
  have := congrArg List.length hrest
  simp only [List.length_drop, List.length_append] at this
  omega

theorem drop {k : Nat} (hk : k ≤ bytes.length) :
    ∃ rest, page.drop (off + k) = bytes.drop k ++ rest := by
  obtain ⟨rest, hrest⟩ := h
  refine ⟨rest, ?_⟩
  rw [← List.drop_drop, hrest, List.drop_append_of_le_length hk]

theorem slice_eq : slice page off bytes.length = bytes := by
  obtain ⟨rest, hrest⟩ := h
  rw [slice, hrest, List.take_left]

theorem slicePage {k len : Nat} {d : Bytes} (hpos : 0 < bytes.length)
    (hs : slicePage bytes k len = .ok d) : slicePage page (off + k) len = .ok d := by
  have hlen := h.length_le hpos
  simp only [Btree.slicePage] at hs ⊢
  split_ifs at hs with hfit
  obtain ⟨rest, hrest⟩ := h.drop (k := k) (by omega)
  rw [if_pos (by omega), ← hs, slice, slice, hrest,
    List.take_append_of_le_length (by simp; omega)]

theorem readVarintAt {k n v : Nat} {outside missing : String} (hpos : 0 < bytes.length)
    (hr : readVarintAt bytes k outside missing = .ok (v, n)) :
    readVarintAt page (off + k) outside missing = .ok (v, n) ∧ k + n ≤ bytes.length := by
  have hlen := h.length_le hpos
  simp only [Btree.readVarintAt] at hr ⊢
  split_ifs at hr with hout
  obtain ⟨rest, hrest⟩ := h.drop (k := k) (by omega)
  rw [if_neg (by omega), hrest]
  cases hv : readVarint (bytes.drop k) with
  | none => simp [hv] at hr
  | some r =>
      obtain ⟨w, m⟩ := r
      obtain ⟨happ, hle⟩ := readVarint_append rest hv
      rw [hv] at hr
      cases hr
      rw [happ]
      simp only [List.length_drop] at hle
      exact ⟨rfl, by omega⟩

theorem readRowidAt {k n : Nat} {v : Int64} {missing : String} (hk : k ≤ bytes.length)
    (hr : readRowidAt bytes k missing = .ok (v, n)) :
    readRowidAt page (off + k) missing = .ok (v, n) ∧ k + n ≤ bytes.length := by
  obtain ⟨rest, hrest⟩ := h.drop hk
  simp only [Btree.readRowidAt, readVarintI64] at hr ⊢
  rw [hrest]
  cases hv : readVarint (bytes.drop k) with
  | none => simp [hv] at hr
  | some r =>
      obtain ⟨w, m⟩ := r
      obtain ⟨happ, hle⟩ := readVarint_append rest hv
      rw [hv] at hr
      cases hr
      rw [happ]
      simp only [List.length_drop] at hle
      exact ⟨rfl, by omega⟩

theorem overflowPointer {k : Nat} {spills : Bool} {o : Option UInt32} (hpos : 0 < bytes.length)
    (ho : overflowPointer bytes k spills = .ok o) :
    overflowPointer page (off + k) spills = .ok o := by
  cases spills with
  | false => exact ho
  | true =>
      simp only [Btree.overflowPointer, Result.bind_eq_ok] at ho ⊢
      obtain ⟨d, hd, ho⟩ := ho
      exact ⟨d, h.slicePage hpos hd, ho⟩

end

theorem left {a b : Bytes} (h : StandsAt (a ++ b) page off) : StandsAt a page off := by
  obtain ⟨rest, hrest⟩ := h
  exact ⟨b ++ rest, by rw [hrest, List.append_assoc]⟩

theorem right {a b : Bytes} (h : StandsAt (a ++ b) page off) :
    StandsAt b page (off + a.length) := by
  obtain ⟨rest, hrest⟩ := h
  refine ⟨rest, ?_⟩
  rw [← List.drop_drop, hrest, List.append_assoc, List.drop_left]

theorem slicePage_self (h : StandsAt bytes page off) (hle : off + bytes.length ≤ page.length) :
    Btree.slicePage page off bytes.length = .ok bytes := by
  rw [Btree.slicePage, if_pos hle, h.slice_eq]

variable {missing : String}

theorem readVarintAt_self {outside : String} (h : StandsAt (writeVarint v) page off) :
    Btree.readVarintAt page off outside missing = .ok (v.toNat, (writeVarint v).length) := by
  have hpos : 0 < (writeVarint v).length := by
    rw [length_writeVarint]
    exact varintLen_pos v
  have hle := h.length_le hpos
  obtain ⟨rest, hrest⟩ := h
  rw [Btree.readVarintAt, if_neg (by omega), hrest, readVarint_writeVarint_append]

theorem readRowidAt_self {rowid : Int64} (h : StandsAt (writeVarint rowid.toUInt64) page off) :
    Btree.readRowidAt page off missing = .ok (rowid, (writeVarint rowid.toUInt64).length) := by
  obtain ⟨rest, hrest⟩ := h
  rw [Btree.readRowidAt, hrest, readVarintI64_writeVarint_append]

theorem parseTableLeafCell {usable : Nat} {cell : TableLeafCell} (h : StandsAt bytes page off)
    (hpos : 0 < bytes.length) (hc : parseTableLeafCell bytes 0 usable = .ok cell) :
    parseTableLeafCell page off usable = .ok cell := by
  simp only [Btree.parseTableLeafCell, Result.bind_eq_ok, Prod.exists, Nat.zero_add] at hc ⊢
  obtain ⟨size, n1, hsize, rowid, n2, hrowid, d, hd, o, ho, hcell⟩ := hc
  obtain ⟨hsize', hle1⟩ := h.readVarintAt hpos hsize
  obtain ⟨hrowid', hle2⟩ := h.readRowidAt (by omega) hrowid
  have hd' := h.slicePage hpos hd
  have ho' := h.overflowPointer hpos ho
  simp only [Nat.add_zero, Nat.add_assoc] at hsize' hrowid' hd' ho' ⊢
  exact ⟨size, n1, hsize', rowid, n2, hrowid', d, hd', o, ho', hcell⟩

theorem cellOnPageSize {usable n : Nat} (h : StandsAt bytes page off)
    (hpos : 0 < bytes.length) (hc : cellOnPageSize bytes 0 usable = .ok n) :
    cellOnPageSize page off usable = .ok n := by
  have hlen := h.length_le hpos
  simp only [Btree.cellOnPageSize, rowidVarint, Result.bind_eq_ok, Prod.exists, Nat.zero_add]
    at hc ⊢
  obtain ⟨size, n1, hsize, rowid, n2, hrowid, hn⟩ := hc
  obtain ⟨hsize', hle1⟩ := h.readVarintAt hpos hsize
  split_ifs at hrowid with hout
  obtain ⟨hrowid', hle2⟩ := h.readRowidAt (by omega) hrowid
  refine ⟨size, n1, by simpa using hsize', rowid, n2, ?_, hn⟩
  rw [if_neg (by omega)]
  exact hrowid'

theorem parseTableInteriorCell {cell : TableInteriorCell} (h : StandsAt bytes page off)
    (hpos : 0 < bytes.length) (hc : parseTableInteriorCell bytes 0 = .ok cell) :
    parseTableInteriorCell page off = .ok cell := by
  simp only [Btree.parseTableInteriorCell, Result.bind_eq_ok, Prod.exists, Nat.zero_add] at hc ⊢
  obtain ⟨d, hd, rowid, n, hrowid, hcell⟩ := hc
  have hfour : 4 ≤ bytes.length := by
    rw [Btree.slicePage] at hd
    split_ifs at hd
    omega
  obtain ⟨hrowid', -⟩ := h.readRowidAt hfour hrowid
  exact ⟨d, by simpa using h.slicePage hpos hd, rowid, n, hrowid', hcell⟩

end StandsAt

theorem parseTableInteriorCell_build (leftChild : UInt32) (rowid : Int64) :
    parseTableInteriorCell (buildTableInteriorCell leftChild rowid) 0 = .ok ⟨leftChild, rowid⟩ := by
  have hread : readVarintI64 (writeVarint rowid.toUInt64) =
      some (rowid, (writeVarint rowid.toUInt64).length) := by
    simpa using readVarintI64_writeVarint_append rowid []
  simp [parseTableInteriorCell, buildTableInteriorCell, slicePage, slice, readRowidAt, hread,
    List.drop_left' (length_be32 leftChild), List.take_left' (length_be32 leftChild)]

/-! ## Pages -/

@[simp] theorem length_cellOffsets (stop : Nat) (cells : List Bytes) :
    (cellOffsets stop cells).length = cells.length := by
  induction cells with
  | nil => rfl
  | cons cell cells ih => simp [cellOffsets, ih]

theorem standsAt_cellOffsets (head : Bytes) (hi : i < cells.length) :
    StandsAt cells[i] (head ++ cells.flatten)
      ((cellOffsets (head.length + cells.flatten.length) cells).getD i 0) := by
  induction cells generalizing head i with
  | nil => simp at hi
  | cons cell cells ih =>
      cases i with
      | zero =>
          refine ⟨cells.flatten, ?_⟩
          simp [cellOffsets]
      | succ i =>
          have := ih (head ++ cell) (by simpa using hi)
          simp only [cellOffsets, List.getD_cons_succ, List.getElem_cons_succ, List.flatten_cons,
            List.length_append] at this ⊢
          rw [← Nat.add_assoc, ← List.append_assoc]
          exact this

theorem cellOffsets_lt {stop : Nat} (hpos : ∀ cell ∈ cells, 0 < cell.length)
    (hstop : cells.flatten.length ≤ stop) (hi : i < cells.length) :
    (cellOffsets stop cells).getD i 0 < stop := by
  induction cells generalizing i with
  | nil => simp at hi
  | cons cell cells ih =>
      have hcell := hpos cell (by simp)
      simp only [List.flatten_cons, List.length_append] at hstop
      cases i with
      | zero =>
          simp only [cellOffsets, List.getD_cons_zero, List.flatten_cons, List.length_append]
          omega
      | succ i =>
          exact ih (fun c hc => hpos c (by simp [hc])) (by omega) (by simpa using hi)

theorem le_cellOffsets (stop : Nat) (hi : i < cells.length) :
    stop - cells.flatten.length ≤ (cellOffsets stop cells).getD i 0 := by
  induction cells generalizing i with
  | nil => simp at hi
  | cons cell cells ih =>
      cases i with
      | zero => exact Nat.le_refl _
      | succ i =>
          have hrest := ih (i := i) (by simpa using hi)
          simp only [cellOffsets, List.getD_cons_succ, List.flatten_cons, List.length_append]
          omega

theorem drop_pointers {offs : List Nat} (rest : Bytes) (hi : i < offs.length) :
    ∃ tail, ((offs.flatMap fun off => be16 (UInt16.ofNat off)) ++ rest).drop (i * 2) =
      be16 (UInt16.ofNat (offs.getD i 0)) ++ tail := by
  induction offs generalizing i with
  | nil => simp at hi
  | cons off offs ih =>
      cases i with
      | zero => exact ⟨(offs.flatMap fun off => be16 (UInt16.ofNat off)) ++ rest, by simp⟩
      | succ i =>
          obtain ⟨tail, htail⟩ := ih (i := i) (by simpa using hi)
          refine ⟨tail, ?_⟩
          rw [List.getD_cons_succ, ← htail, List.flatMap_cons, List.append_assoc,
            show (i + 1) * 2 = 2 + i * 2 by omega, ← List.drop_drop,
            List.drop_left' (length_be16 _)]

structure LaidOut (page : Bytes) (base : Nat) (pageType : PageType) (rightMost : Option UInt32)
    (cells : List Bytes) (hdr : PageHeader) : Prop where
  parse : PageHeader.parse page base = .ok hdr
  pageType_eq : hdr.pageType = pageType
  numCells : hdr.numCells = cells.length
  rightMost : pageType.isLeaf = false → hdr.rightMostPointer = some (rightMost.getD 0)
  cells : ∀ i (h : i < cells.length), ∃ off, hdr.cellPointer page i = .ok off ∧
    StandsAt cells[i] page off

theorem parse_header {t : PageType} {fb n ccs : UInt16} {frag : UInt8} {child tail : Bytes}
    (hchild : child.length = if t.isLeaf then 0 else 4) (h : page.drop base =
      [t.code] ++ be16 fb ++ be16 n ++ be16 ccs ++ [frag] ++ child ++ tail) :
    PageHeader.parse page base = .ok {
      pageType := t
      firstFreeblock := fb
      numCells := n.toNat
      cellContentStart := readContentStart ccs
      fragmentedFreeBytes := frag
      rightMostPointer := if t.isLeaf then none else some (readBe32 child)
      headerSize := t.headerSize
      baseOffset := base } := by
  have hlen : page.length - base = 8 + child.length + tail.length := by
    have := congrArg List.length h
    simp only [List.length_drop, List.length_append, List.length_cons, List.length_nil,
      length_be16] at this
    omega
  have hbyte : page.getD base 0 = t.code := by
    have := congrArg (fun l => l.getD 0 0) h
    simpa [List.getD_eq_getElem?_getD] using this
  have hdrop : ∀ k, page.drop (base + k) =
      ([t.code] ++ be16 fb ++ be16 n ++ be16 ccs ++ [frag] ++ child ++ tail).drop k := by
    intro k
    rw [← h, List.drop_drop]
  have h1 : readBe16 (page.drop (base + 1)) = fb := by
    rw [hdrop]
    simp
  have h3 : readBe16 (page.drop (base + 3)) = n := by
    rw [hdrop, show 3 = 1 + 2 from rfl, ← List.drop_drop]
    simp
  have h5 : readBe16 (page.drop (base + 5)) = ccs := by
    rw [hdrop, show 5 = 1 + 2 + 2 from rfl, ← List.drop_drop, ← List.drop_drop]
    simp
  have h7 : page.getD (base + 7) 0 = frag := by
    have := congrArg (fun l => l.getD 0 0) (hdrop 7)
    rw [show 7 = 1 + 2 + 2 + 2 from rfl] at this
    simp only [← List.drop_drop] at this
    simpa [List.getD_eq_getElem?_getD] using this
  have h8 : page.drop (base + 8) = child ++ tail := by
    rw [hdrop, show 8 = 1 + 2 + 2 + 2 + 1 from rfl]
    simp only [← List.drop_drop]
    simp
  rw [PageHeader.parse, if_neg (by omega), hbyte, PageType.fromByte_code]
  have hshort : ¬ (t.isLeaf = false ∧ page.length < base + 12) := by
    rintro ⟨hleaf, hlt⟩
    simp only [hleaf, Bool.false_eq_true, if_false] at hchild
    omega
  have hright : t.isLeaf = false → readBe32 (child ++ tail) = readBe32 child := by
    intro hleaf
    simp only [hleaf, Bool.false_eq_true, if_false] at hchild
    rw [readBe32, readBe32, List.take_append_of_le_length (by omega)]
  dsimp only
  rw [if_neg hshort, h1, h3, h5, h7, h8]
  cases hleaf : t.isLeaf with
  | true => rfl
  | false => simp [hright hleaf]

def rightMostBytes (pageType : PageType) : Option UInt32 → Bytes
  | none => if pageType.isLeaf then [] else [0, 0, 0, 0]
  | some rm => be32 rm

theorem readBe32_rightMostBytes (h : pageType.isLeaf = false) (rightMost : Option UInt32) :
    readBe32 (rightMostBytes pageType rightMost) = rightMost.getD 0 := by
  cases rightMost with
  | none =>
      rw [rightMostBytes, h]
      decide
  | some rm => simp [rightMostBytes]

theorem length_rightMostBytes {rightMost : Option UInt32}
    (h : pageType.isLeaf = true → rightMost = none) :
    (rightMostBytes pageType rightMost).length = if pageType.isLeaf then 0 else 4 := by
  cases hl : pageType.isLeaf with
  | true => simp [h hl, rightMostBytes, hl]
  | false => cases rightMost <;> simp [rightMostBytes, hl]

theorem headerSize_le (t : PageType) : 8 ≤ t.headerSize := by
  rw [PageType.headerSize]
  split_ifs <;> omega

theorem readContentStart_stored (hpos : 0 < n) (hle : n ≤ 65536) :
    readContentStart (storedContentStart n) = n := by
  rw [storedContentStart]
  split_ifs with heq
  · rw [heq]
    rfl
  · have hlt : n < 2 ^ 16 := by omega
    have hne : UInt16.ofNat n ≠ 0 := by
      intro h0
      have := congrArg UInt16.toNat h0
      rw [UInt16.toNat_ofNat', Nat.mod_eq_of_lt hlt] at this
      change n = 0 at this
      omega
    rw [readContentStart, if_neg hne, UInt16.toNat_ofNat', Nat.mod_eq_of_lt hlt]

theorem splice_append (front back old new : Bytes) (h : old.length = new.length) :
    splice (front ++ old ++ back) front.length new = front ++ new ++ back := by
  have hfront : (front ++ old ++ back).take front.length = front := by
    rw [List.append_assoc, List.take_left]
  have hback : (front ++ old ++ back).drop (front.length + new.length) = back := by
    rw [← h, ← List.length_append, List.drop_left]
  rw [splice, hfront, hback]

theorem writePageCells_of_fits (rightMost : Option UInt32)
    (hfit : base + pageType.headerSize + cells.length * 2 + cells.flatten.length ≤ page.length)
    (hleaf : pageType.isLeaf = true → rightMost = none) :
    writePageCells page base pageType rightMost cells =
      .ok (page.take base ++ [pageType.code] ++ be16 0 ++ be16 (UInt16.ofNat cells.length) ++
        be16 (storedContentStart (page.length - cells.flatten.length)) ++ [0] ++
        rightMostBytes pageType rightMost ++
        ((cellOffsets page.length cells).flatMap fun off => be16 (UInt16.ofNat off)) ++
        List.replicate (page.length - cells.flatten.length -
          (base + pageType.headerSize + cells.length * 2)) 0 ++ cells.flatten) := by
  simp only [writePageCells, if_neg (show ¬ page.length < cells.flatten.length by omega),
    if_neg (show ¬ page.length - cells.flatten.length <
      base + pageType.headerSize + cells.length * 2 by omega)]
  cases rightMost with
  | none => rfl
  | some rm =>
      have hinterior : pageType.isLeaf = false := by
        cases h : pageType.isLeaf with
        | false => rfl
        | true => cases hleaf h
      set front := page.take base ++ [pageType.code] ++ be16 0 ++
        be16 (UInt16.ofNat cells.length) ++
        be16 (storedContentStart (page.length - cells.flatten.length)) ++ [0] with hfront
      have hlen : front.length = base + 8 := by
        simp only [hfront, List.length_append, List.length_take, length_be16, List.length_cons,
          List.length_nil]
        omega
      have hput := splice_append front
        (((cellOffsets page.length cells).flatMap fun off => be16 (UInt16.ofNat off)) ++
          List.replicate (page.length - cells.flatten.length -
            (base + pageType.headerSize + cells.length * 2)) 0 ++ cells.flatten)
        [0, 0, 0, 0] (be32 rm) (length_be32 rm).symm
      rw [hlen] at hput
      simp only [hinterior, rightMostBytes, List.append_assoc, Bool.false_eq_true, if_false]
        at hput ⊢
      exact congrArg Except.ok hput

theorem writePageCells_content (base : Nat) (pageType : PageType) (rightMost : Option UInt32)
    (cells : List Bytes) (hsize : page.length ≤ 65536)
    (hleaf : pageType.isLeaf = true → rightMost = none) (hpos : ∀ cell ∈ cells, 0 < cell.length)
    (hfit : base + pageType.headerSize + cells.length * 2 + cells.flatten.length ≤ page.length) :
    ∃ page' hdr, writePageCells page base pageType rightMost cells = .ok page' ∧
      page'.length = page.length ∧ LaidOut page' base pageType rightMost cells hdr ∧
      hdr.cellContentStart = page.length - cells.flatten.length ∧
      ∀ i < cells.length, ∀ off, hdr.cellPointer page' i = .ok off →
        hdr.cellContentStart ≤ off := by
  set child := rightMostBytes pageType rightMost with hchild
  have hchildlen : child.length = if pageType.isLeaf then 0 else 4 :=
    length_rightMostBytes hleaf
  have hheader : pageType.headerSize = 8 + child.length := by
    rw [PageType.headerSize, hchildlen]
    split_ifs <;> rfl
  set contentStart := page.length - cells.flatten.length with hcontent
  set ptrArrayEnd := base + pageType.headerSize + cells.length * 2 with hend
  set offs := cellOffsets page.length cells with hoffs
  set pointers := offs.flatMap fun off => be16 (UInt16.ofNat off) with hpointers
  set zeros : Bytes := List.replicate (contentStart - ptrArrayEnd) 0 with hzeros
  set header : Bytes := [pageType.code] ++ be16 0 ++ be16 (UInt16.ofNat cells.length) ++
    be16 (storedContentStart contentStart) ++ [0] ++ child with hhdr
  have hplen : pointers.length = cells.length * 2 := by
    rw [hpointers, List.length_flatMap]
    simp [hoffs]
  have hhlen : header.length = pageType.headerSize := by
    simp [hhdr, hheader]
    omega
  have htake : (page.take base).length = base := by
    rw [List.length_take]
    omega
  set page' := page.take base ++ header ++ pointers ++ zeros ++ cells.flatten with hpage'
  have hrun : writePageCells page base pageType rightMost cells = .ok page' := by
    rw [writePageCells_of_fits rightMost hfit hleaf]
    simp only [hpage', hhdr, List.append_assoc]
    rfl
  have hheadlen : (page.take base ++ header ++ pointers ++ zeros).length =
      page.length - cells.flatten.length := by
    simp only [List.length_append, htake, hhlen, hplen, hzeros, List.length_replicate]
    omega
  have hdrop : page'.drop base = header ++ (pointers ++ (zeros ++ cells.flatten)) := by
    rw [hpage']
    simp only [List.append_assoc]
    rw [List.drop_left' htake]
  have hparse := parse_header (t := pageType)
    (n := UInt16.ofNat cells.length)
    hchildlen
    (by rw [hdrop, hhdr])
  have hlen' : page'.length = page.length := by
    rw [hpage', List.length_append, hheadlen]
    omega
  have hcount : (UInt16.ofNat cells.length).toNat = cells.length := by
    rw [UInt16.toNat_ofNat']
    omega
  have hstart : readContentStart (storedContentStart contentStart) = contentStart :=
    readContentStart_stored (by have := headerSize_le pageType; omega) (by omega)
  have hpointer : ∀ hdr : PageHeader, hdr.baseOffset = base →
      hdr.headerSize = pageType.headerSize → ∀ i < cells.length,
        hdr.cellPointer page' i = .ok (offs.getD i 0) := by
    intro hdr hbase hhsize i hi
    have hi' : i < offs.length := by simpa [hoffs] using hi
    have hoff := cellOffsets_lt hpos (show cells.flatten.length ≤ page.length by omega) hi
    obtain ⟨tail, htail⟩ := drop_pointers (zeros ++ cells.flatten) hi'
    have hptr : page'.drop (base + pageType.headerSize + i * 2) =
        be16 (UInt16.ofNat (offs.getD i 0)) ++ tail := by
      rw [← htail, ← List.drop_drop, ← List.drop_drop, hdrop, List.drop_left' hhlen]
    simp only [PageHeader.cellPointer, hbase, hhsize]
    rw [if_neg (by omega), hptr, readBe16_be16_append, UInt16.toNat_ofNat',
      Nat.mod_eq_of_lt (by rw [hoffs]; omega)]
  refine ⟨page', _, hrun, hlen', ⟨hparse, rfl, hcount, ?_, ?_⟩, hstart, ?_⟩
  · intro hl
    simp only [hl, Bool.false_eq_true, if_false, hchild, readBe32_rightMostBytes hl]
  · intro i hi
    have hstands := standsAt_cellOffsets (page.take base ++ header ++ pointers ++ zeros) hi
    rw [hheadlen, Nat.sub_add_cancel (by omega)] at hstands
    exact ⟨_, hpointer _ rfl rfl i hi, hstands⟩
  · intro i hi off hoff
    rw [hpointer _ rfl rfl i hi] at hoff
    cases hoff
    rw [hstart]
    exact le_cellOffsets page.length hi

theorem writePageCells_spec (base : Nat) (pageType : PageType) (rightMost : Option UInt32)
    (cells : List Bytes) (hsize : page.length ≤ 65536)
    (hleaf : pageType.isLeaf = true → rightMost = none) (hpos : ∀ cell ∈ cells, 0 < cell.length)
    (hfit : base + pageType.headerSize + cells.length * 2 + cells.flatten.length ≤ page.length) :
    ∃ page' hdr, writePageCells page base pageType rightMost cells = .ok page' ∧
      page'.length = page.length ∧ LaidOut page' base pageType rightMost cells hdr := by
  obtain ⟨page', hdr, hrun, hlen, hlaid, -⟩ :=
    writePageCells_content base pageType rightMost cells hsize hleaf hpos hfit
  exact ⟨page', hdr, hrun, hlen, hlaid⟩

end Rustqlite.Btree
