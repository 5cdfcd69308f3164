import Rustqlite.Btree.IndexSeek
import Rustqlite.Btree.TableTree

/-!
# Well-formed indexes

The entries of an index are the cells of its leaves and the dividers between
the children of its interior pages.  No page has two uses.
-/

namespace Rustqlite.Btree

open Foundation Format Pager Reading

/-! ## Cells where they stand -/

namespace StandsAt

variable {bytes page : Bytes} {off : Nat}

theorem parseIndexLeafCell {usable : Nat} {cell : IndexLeafCell} (h : StandsAt bytes page off)
    (hpos : 0 < bytes.length) (hc : parseIndexLeafCell bytes 0 usable = .ok cell) :
    parseIndexLeafCell page off usable = .ok cell := by
  simp only [Btree.parseIndexLeafCell, Result.bind_eq_ok, Prod.exists, Nat.zero_add] at hc ⊢
  obtain ⟨size, n1, hsize, d, hd, o, ho, hcell⟩ := hc
  obtain ⟨hsize', -⟩ := h.readVarintAt hpos hsize
  have hd' := h.slicePage hpos hd
  have ho' := h.overflowPointer hpos ho
  simp only [Nat.add_zero, Nat.add_assoc] at hsize' hd' ho' ⊢
  exact ⟨size, n1, hsize', d, hd', o, ho', hcell⟩

theorem parseIndexInteriorCell {usable : Nat} {cell : IndexInteriorCell}
    (h : StandsAt bytes page off) (hpos : 0 < bytes.length)
    (hc : parseIndexInteriorCell bytes 0 usable = .ok cell) :
    parseIndexInteriorCell page off usable = .ok cell := by
  simp only [Btree.parseIndexInteriorCell, Result.bind_eq_ok, Prod.exists, Nat.zero_add] at hc ⊢
  obtain ⟨c, hc, size, n1, hsize, d, hd, o, ho, hcell⟩ := hc
  obtain ⟨hsize', -⟩ := h.readVarintAt hpos hsize
  have hc' := h.slicePage hpos hc
  have hd' := h.slicePage hpos hd
  have ho' := h.overflowPointer hpos ho
  simp only [Nat.add_zero, Nat.add_assoc] at hc' hsize' hd' ho' ⊢
  exact ⟨c, hc', size, n1, hsize', d, hd', o, ho', hcell⟩

theorem indexCellOnPageSize {usable n : Nat} (h : StandsAt bytes page off)
    (hpos : 0 < bytes.length) (hc : indexLeafCellOnPageSize bytes 0 usable = .ok n) :
    indexCellOnPageSize page off usable = n := by
  simp only [indexLeafCellOnPageSize, Result.bind_eq_ok, Prod.exists] at hc
  obtain ⟨size, n1, hsize, hn⟩ := hc
  cases hn
  obtain ⟨hsize', -⟩ := h.readVarintAt hpos hsize
  rw [Nat.add_zero, Btree.readVarintAt] at hsize'
  split_ifs at hsize'
  split at hsize'
  · cases hsize'
  · rename_i v k hread
    cases hsize'
    simp only [Btree.indexCellOnPageSize, hread, Option.elim_some]

end StandsAt

/-! ## Entries -/

theorem assembleIndexPayload_congr {usable : Nat} {view view' : UInt32 → Result Bytes}
    {cell : IndexLeafCell} {chain : List UInt32}
    (h : Linked view (cell.overflowPage.getD 0) chain) (hsame : ∀ q ∈ chain, view' q = view q) :
    (assembleIndexPayload usable cell).eval view' = (assembleIndexPayload usable cell).eval
        view := by
  simp only [assembleIndexPayload, assemble, eval_bind, assembleLoop_congr h hsame]
  congr 1
  funext payload
  split_ifs <;> rfl

/-- A cell with an entry: its bytes, the key record and the rowid in it, and its overflow pages. -/
structure StoredKey where
  bytes : Bytes
  entry : Bytes × Int64
  chain : List UInt32

section

variable (usable : Nat) (encoding : TextEncoding) (asI64 : Value → Int64)
  (view : UInt32 → Result Bytes)

structure StoredKey.InLeaf (k : StoredKey) : Prop where
  size : indexLeafCellOnPageSize k.bytes 0 usable = .ok k.bytes.length
  decodes : ∃ cell, parseIndexLeafCell k.bytes 0 usable = .ok cell ∧
    Linked view (cell.overflowPage.getD 0) k.chain ∧
    (assembleIndexPayload usable cell).eval view = .ok k.entry.1
  rowid : keyRecordRowid encoding asI64 k.entry.1 = .ok k.entry.2

structure StoredKey.Divides (k : StoredKey) (child : UInt32) : Prop where
  pos : 0 < k.bytes.length
  decodes : ∃ cell, parseIndexInteriorCell k.bytes 0 usable = .ok cell ∧ cell.leftChild = child ∧
    Linked view (cell.overflowPage.getD 0) k.chain ∧
    (assembleIndexInteriorPayload usable cell).eval view = .ok k.entry.1
  rowid : keyRecordRowid encoding asI64 k.entry.1 = .ok k.entry.2

structure IndexLeafAt (pgno : UInt32) (ks : List StoredKey) (page : Bytes) (hdr : PageHeader) :
    Prop where
  shown : view pgno = .ok page
  parse : PageHeader.parse page (btreeHeaderOffset pgno) = .ok hdr
  pageType : hdr.pageType = .leafIndex
  numCells : ks.length = hdr.numCells
  cells : ∀ i (h : i < ks.length), ∃ off, hdr.cellPointer page i = .ok off ∧
    StandsAt ks[i].bytes page off
  valid : ∀ k ∈ ks, k.InLeaf usable encoding asI64 view
  /-- The cells fit side by side. -/
  fits : btreeHeaderOffset pgno + 8 + ks.length * 2 + (ks.map StoredKey.bytes).flatten.length ≤
    page.length

structure IndexPart where
  divider : StoredKey
  child : UInt32
  pages : List UInt32
  entries : List (Bytes × Int64)

def IndexTree : Nat → UInt32 → List UInt32 → List (Bytes × Int64) → Prop
  | 0, _, _, _ => False
  | depth + 1, pgno, pages, es =>
      (∃ ks page hdr, IndexLeafAt usable encoding asI64 view pgno ks page hdr ∧
        pages = pgno :: ks.flatMap StoredKey.chain ∧ es = ks.map StoredKey.entry) ∨
      ∃ page hdr, view pgno = .ok page ∧
        PageHeader.parse page (btreeHeaderOffset pgno) = .ok hdr ∧
        hdr.pageType = .interiorIndex ∧
        ∃ (parts : List IndexPart) (right : UInt32) (rightPages : List UInt32)
          (rightEntries : List (Bytes × Int64)),
          parts.length = hdr.numCells ∧
          (∀ i (h : i < parts.length), ∃ off, hdr.cellPointer page i = .ok off ∧
            StandsAt parts[i].divider.bytes page off) ∧
          (∀ x ∈ parts, x.divider.Divides usable encoding asI64 view x.child ∧
            IndexTree depth x.child x.pages x.entries) ∧
          hdr.rightMostPointer = some right ∧ IndexTree depth right rightPages rightEntries ∧
          pages = pgno :: parts.flatMap (fun x => x.divider.chain ++ x.pages) ++ rightPages ∧
          es = parts.flatMap (fun x => x.entries ++ [x.divider.entry]) ++ rightEntries

end

section

variable {usable : Nat} {encoding : TextEncoding} {asI64 : Value → Int64}
  {view view' : UInt32 → Result Bytes}

namespace StoredKey.InLeaf

variable {k : StoredKey}

theorem congr (h : k.InLeaf usable encoding asI64 view) (hsame : ∀ q ∈ k.chain, view' q = view q) :
    k.InLeaf usable encoding asI64 view' := by
  obtain ⟨cell, hcell, hlinked, hpayload⟩ := h.decodes
  refine ⟨h.size, ⟨cell, hcell, hlinked.congr hsame, ?_⟩, h.rowid⟩
  rw [assembleIndexPayload_congr hlinked hsame, hpayload]

theorem pos (h : k.InLeaf usable encoding asI64 view) : 0 < k.bytes.length := by
  by_contra hzero
  have hnil : k.bytes = [] := List.length_eq_zero_iff.mp (by omega)
  have hsize := h.size
  rw [hnil] at hsize
  simp [indexLeafCellOnPageSize, readVarintAt, readVarint, readVarintFrom] at hsize

end StoredKey.InLeaf

namespace IndexLeafAt

variable {pgno : UInt32} {ks : List StoredKey} {page : Bytes} {hdr : PageHeader}

theorem entry (h : IndexLeafAt usable encoding asI64 view pgno ks page hdr) {i : Nat}
    (hi : i < ks.length) :
    (indexLeafEntry usable encoding asI64 page hdr i).eval view = .ok ks[i].entry := by
  obtain ⟨off, hoff, hstands⟩ := h.cells i hi
  have hvalid := h.valid ks[i] (List.getElem_mem hi)
  obtain ⟨cell, hcell, -, hpayload⟩ := hvalid.decodes
  have hparse := hstands.parseIndexLeafCell hvalid.pos hcell
  simp only [indexLeafEntry, eval_bind, eval_lift, hoff, hparse, hpayload, hvalid.rowid,
    Result.ok_bind]
  rfl

theorem visit (h : IndexLeafAt usable encoding asI64 view pgno ks page hdr) (depth : Nat) :
    (visitIndex usable encoding asI64 (depth + 1) pgno).eval view =
      .ok (ks.map StoredKey.entry) := by
  simp only [visitIndex, eval_bind, eval_getPage, eval_lift, h.shown, h.parse, Result.ok_bind,
    h.pageType, eval_mapM]
  rw [Result.mapM_eq_ok, List.forall₂_map_right_iff]
  refine List.forall₂_iff_get.mpr ⟨by simp [h.numCells], fun i hi hi' => ?_⟩
  simp only [List.get_eq_getElem, List.getElem_range]
  exact h.entry hi'

end IndexLeafAt

theorem visitIndex_of_indexTree {depth : Nat} {pgno : UInt32} {pages : List UInt32}
    {es : List (Bytes × Int64)} (h : IndexTree usable encoding asI64 view depth pgno pages es) :
    (visitIndex usable encoding asI64 depth pgno).eval view = .ok es := by
  induction depth generalizing pgno pages es with
  | zero => exact h.elim
  | succ depth ih =>
      rcases h with ⟨ks, page, hdr, hleaf, -, rfl⟩ | ⟨page, hdr, hpage, hparse, htype, parts, right,
        rightPages, rightEntries, hcount, hcells, hparts, hright, hlast, -, rfl⟩
      · exact hleaf.visit depth
      · have hread : (List.range hdr.numCells).mapM (fun i =>
            (do
              let cellOff ← hdr.cellPointer page i
              let cell ← parseIndexInteriorCell page cellOff usable
              let left ← visitIndex usable encoding asI64 depth cell.leftChild
              let key ← assembleIndexInteriorPayload usable cell
              let rowid ← keyRecordRowid encoding asI64 key
              return left ++ [(key, rowid)] : Reading (List (Bytes × Int64))).eval view) =
            .ok (parts.map fun x => x.entries ++ [x.divider.entry]) := by
          rw [Result.mapM_eq_ok, List.forall₂_map_right_iff]
          refine List.forall₂_iff_get.mpr ⟨by simp [hcount], fun i hi hi' => ?_⟩
          simp only [List.get_eq_getElem, List.getElem_range]
          obtain ⟨off, hoff, hstands⟩ := hcells i hi'
          obtain ⟨hdivides, htree⟩ := hparts parts[i] (List.getElem_mem hi')
          obtain ⟨cell, hcell, hchild, -, hpayload⟩ := hdivides.decodes
          have hcell' := hstands.parseIndexInteriorCell hdivides.pos hcell
          have hleft := ih htree
          rw [← hchild] at hleft
          simp only [eval_bind, eval_lift, hoff, hcell', hleft, hpayload, hdivides.rowid,
            Result.ok_bind]
          rfl
        have hvisit := ih hlast
        simp only [eval_bind, eval_lift] at hread
        simp only [visitIndex, eval_bind, eval_getPage, eval_lift, hpage, hparse, Result.ok_bind,
          htype, hright, eval_mapM, hread, hvisit, List.flatMap_def]
        rfl

end

end Rustqlite.Btree
