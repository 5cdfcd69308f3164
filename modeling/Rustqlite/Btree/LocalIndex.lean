import Rustqlite.Btree.IndexBalance
import Rustqlite.Btree.IndexTree
import Rustqlite.Btree.Splitting
import Rustqlite.Foundation.Threaded

/-!
# Indexes whose keys stay on their pages

A key record that is not too long stands in its cell as a whole.  An index with
such keys only is a tree of pages without overflow pages, and its entries are
threaded through the dividers of its interior pages.
-/

namespace Rustqlite.Btree

open Foundation Format Pager FileM

/-! ## Cells -/

def HoldsKey (usable : Nat) (bytes key : Bytes) : Prop :=
  ∃ v n, readVarint bytes = some (v, n) ∧ v.toNat = key.length ∧
    key.length ≤ indexMaxLocal usable ∧ bytes.drop n = key

/-- A cell of a leaf, and the key record and the rowid in it. -/
structure IndexKey where
  bytes : Bytes
  entry : Bytes × Int64

/-- The cell of an interior page that has the child `child` in front of its key. -/
structure IndexDivider where
  child : UInt32
  key : IndexKey

namespace IndexDivider

def bytes (d : IndexDivider) : Bytes := be32 d.child ++ d.key.bytes

def entry (d : IndexDivider) : Bytes × Int64 := d.key.entry

end IndexDivider

def IndexKey.built (entry : Bytes × Int64) : IndexKey where
  bytes := writeVarint (UInt64.ofNat entry.1.length) ++ entry.1
  entry := entry

structure IndexKey.Local (usable : Nat) (encoding : TextEncoding) (asI64 : Value → Int64)
    (k : IndexKey) : Prop where
  holds : HoldsKey usable k.bytes k.entry.1
  rowid : keyRecordRowid encoding asI64 k.entry.1 = .ok k.entry.2

namespace HoldsKey

variable {usable : Nat} {bytes key page : Bytes} {off : Nat} {child : UInt32}

section

variable (h : HoldsKey usable bytes key)

include h

theorem length_lt : key.length < 2 ^ 64 := by
  obtain ⟨v, n, -, hlen, -⟩ := h
  rw [← hlen]
  exact v.toNat_lt

theorem localPayloadLen_eq :
    localPayloadLen key.length usable (indexMaxLocal usable) = (key.length, false) := by
  obtain ⟨v, n, -, -, hle, -⟩ := h
  rw [localPayloadLen, if_pos hle]

theorem spilledLen_eq : spilledLen key.length usable (indexMaxLocal usable) = key.length := by
  rw [spilledLen, h.localPayloadLen_eq]
  rfl

theorem read :
    ∃ v n, v.toNat = key.length ∧ n + key.length = bytes.length ∧
      ∀ {page : Bytes} {off : Nat}, StandsAt bytes page off →
        off + bytes.length ≤ page.length ∧ readVarint (page.drop off) = some (v, n) ∧
        slice page (off + n) key.length = key := by
  obtain ⟨v, n, hread, hlen, hle, hkey⟩ := h
  have hn := (readVarint_append [] hread).2
  have hsum : n + key.length = bytes.length := by
    rw [← hkey, List.length_drop]
    omega
  have hne : bytes ≠ [] := by
    rintro rfl
    simp [readVarint, readVarintFrom] at hread
  refine ⟨v, n, hlen, hsum, fun {page off} hstands => ?_⟩
  have hfits := hstands.length_le (List.length_pos_iff.mpr hne)
  obtain ⟨rest, hrest⟩ := hstands.drop hn
  obtain ⟨rest', hrest'⟩ := hstands
  refine ⟨hfits, ?_, ?_⟩
  · rw [hrest']
    exact (readVarint_append rest' hread).1
  · rw [slice, hrest, hkey, List.take_left]

theorem pos : 0 < bytes.length := by
  obtain ⟨v, n, hread, -⟩ := h
  rw [List.length_pos_iff]
  rintro rfl
  simp [readVarint, readVarintFrom] at hread

theorem readVarintAt (hstands : StandsAt bytes page off) :
    ∃ n, n + key.length = bytes.length ∧ (∀ outside missing,
      Btree.readVarintAt page off outside missing = .ok (key.length, n)) ∧
      Btree.slicePage page (off + n) key.length = .ok key := by
  obtain ⟨v, n, hlen, hsum, hreads⟩ := h.read
  obtain ⟨hfits, hread, hkey⟩ := hreads hstands
  refine ⟨n, hsum, fun outside missing => ?_, ?_⟩
  · rw [Btree.readVarintAt, if_neg (by omega), hread]
    simp only [hlen]
  · rw [slicePage, if_pos (by omega), hkey]

theorem parseIndexLeafCell (hstands : StandsAt bytes page off) :
    parseIndexLeafCell page off usable = .ok ⟨key.length, key, none⟩ := by
  obtain ⟨n, -, hread, hkey⟩ := h.readVarintAt hstands
  simp only [Btree.parseIndexLeafCell, hread, Result.ok_bind, h.localPayloadLen_eq, hkey,
    overflowPointer]
  rfl

theorem indexLeafCellOnPageSize (hstands : StandsAt bytes page off) :
    indexLeafCellOnPageSize page off usable = .ok bytes.length := by
  obtain ⟨n, hsum, hread, -⟩ := h.readVarintAt hstands
  simp only [Btree.indexLeafCellOnPageSize, hread, Result.ok_bind, h.spilledLen_eq, hsum]
  rfl

theorem parseIndexInteriorCell (hstands : StandsAt (be32 child ++ bytes) page off) :
    parseIndexInteriorCell page off usable = .ok ⟨child, key.length, key, none⟩ := by
  have hkeyAt : StandsAt bytes page (off + 4) := by
    have hright := hstands.right
    rwa [length_be32] at hright
  obtain ⟨n, -, hread, hkey⟩ := h.readVarintAt hkeyAt
  have hfits := hkeyAt.length_le h.pos
  have hchild := hstands.left.slicePage_self (by rw [length_be32]; omega)
  rw [length_be32] at hchild
  simp only [Btree.parseIndexInteriorCell, hchild, hread, Result.ok_bind,
      h.localPayloadLen_eq, hkey,
    overflowPointer, readBe32_be32]
  rfl

theorem indexInteriorCellOnPageSize (hstands : StandsAt (be32 child ++ bytes) page off) :
    indexInteriorCellOnPageSize page off usable = .ok (be32 child ++ bytes).length := by
  have hkeyAt : StandsAt bytes page (off + 4) := by
    have hright := hstands.right
    rwa [length_be32] at hright
  obtain ⟨v, n, hlen, hsum, hreads⟩ := h.read
  obtain ⟨hfits, hread, -⟩ := hreads hkeyAt
  rw [Btree.indexInteriorCellOnPageSize, if_neg (by omega), hread]
  simp only [hlen, h.spilledLen_eq, List.length_append, length_be32, Nat.add_assoc, hsum]

theorem localKey_eq {n : Nat} (hfits : off + n + key.length ≤ page.length)
    (hkey : slice page (off + n) key.length = key) :
    localKey page (off + n) key.length usable = .ok key := by
  rw [localKey, h.localPayloadLen_eq]
  simp only [Bool.false_eq_true, if_false, cellBytes, if_neg (Nat.not_lt.mpr hfits), hkey]

theorem indexKeyFromLeafCell : indexKeyFromLeafCell bytes usable = .ok key := by
  obtain ⟨v, n, hlen, hsum, hreads⟩ := h.read
  obtain ⟨hfits, hread, hkey⟩ := hreads (show StandsAt bytes bytes 0 from ⟨[], by simp⟩)
  have hlocal : localKey bytes (0 + n) key.length usable = .ok key :=
    h.localKey_eq (by omega) hkey
  rw [List.drop_zero] at hread
  rw [Nat.zero_add] at hlocal
  rw [Btree.indexKeyFromLeafCell, hread]
  simp only [hlen, hlocal]

theorem indexKeyFromInteriorCell :
    indexKeyFromInteriorCell (be32 child ++ bytes) usable = .ok key := by
  obtain ⟨v, n, hlen, hsum, hreads⟩ := h.read
  have hkeyAt : StandsAt bytes (be32 child ++ bytes) 4 := ⟨[], by
    rw [List.drop_left' (length_be32 child), List.append_nil]⟩
  obtain ⟨hfits, hread, hkey⟩ := hreads hkeyAt
  have hlocal := h.localKey_eq (n := n) (by omega) hkey
  rw [Nat.add_comm] at hlocal
  rw [Btree.indexKeyFromInteriorCell, if_neg (by omega), hread]
  simp only [hlen, hlocal]

theorem unique {key' : Bytes} (h' : HoldsKey usable bytes key') : key = key' := by
  obtain ⟨v, n, hread, -, -, rfl⟩ := h
  obtain ⟨v', n', hread', -, -, rfl⟩ := h'
  rw [hread] at hread'
  cases hread'
  rfl

theorem built : HoldsKey usable (writeVarint (UInt64.ofNat key.length) ++ key) key := by
  have hlen : (UInt64.ofNat key.length).toNat = key.length := by
    rw [UInt64.toNat_ofNat', Nat.mod_eq_of_lt h.length_lt]
  obtain ⟨v, n, -, -, hle, -⟩ := h
  refine ⟨UInt64.ofNat key.length, (writeVarint (UInt64.ofNat key.length)).length,
    ?_, hlen, hle, List.drop_left⟩
  rw [readVarint_writeVarint_append]

end

end HoldsKey

variable {usable : Nat} {encoding : TextEncoding} {asI64 : Value → Int64} {k : IndexKey}

theorem IndexKey.Local.unique {k' : IndexKey} (h : k.Local usable encoding asI64)
    (h' : k'.Local usable encoding asI64) (hbytes : k.bytes = k'.bytes) : k = k' := by
  obtain ⟨bytes, key, rowid⟩ := k
  obtain ⟨bytes', key', rowid'⟩ := k'
  obtain rfl : bytes = bytes' := hbytes
  obtain rfl : key = key' := h.holds.unique h'.holds
  obtain rfl : rowid = rowid' := Except.ok.inj (h.rowid.symm.trans h'.rowid)
  rfl

theorem IndexKey.Local.built (h : k.Local usable encoding asI64) :
    (IndexKey.built k.entry).Local usable encoding asI64 :=
  ⟨h.holds.built, h.rowid⟩

/-! ## Pages -/

section

variable (usable : Nat) (encoding : TextEncoding) (asI64 : Value → Int64)
  (view : UInt32 → Result Bytes)

structure LocalLeafAt (pgno : UInt32) (ks : List IndexKey) (page : Bytes) (hdr : PageHeader) :
    Prop where
  shown : view pgno = .ok page
  carries : Carries page (btreeHeaderOffset pgno) .leafIndex none (ks.map IndexKey.bytes) hdr
  valid : ∀ k ∈ ks, k.Local usable encoding asI64

structure LocalNodeAt (pgno : UInt32) (ds : List IndexDivider) (right : UInt32) (page : Bytes)
    (hdr : PageHeader) : Prop where
  shown : view pgno = .ok page
  carries : Carries page (btreeHeaderOffset pgno) .interiorIndex (some right)
    (ds.map IndexDivider.bytes) hdr
  valid : ∀ d ∈ ds, d.key.Local usable encoding asI64

def LocalIndex : Nat → UInt32 → List UInt32 → List (Bytes × Int64) → Prop
  | 0, _, _, _ => False
  | depth + 1, pgno, pages, es =>
      (∃ ks page hdr, LocalLeafAt usable encoding asI64 view pgno ks page hdr ∧ pages = [pgno] ∧
        es = ks.map IndexKey.entry) ∨
      ∃ ds right page hdr below, LocalNodeAt usable encoding asI64 view pgno ds right page hdr ∧
        Threaded (LocalIndex depth) IndexDivider.child IndexDivider.entry ds right below es ∧
        pages = pgno :: below

end

section

variable {usable : Nat} {encoding : TextEncoding} {asI64 : Value → Int64}
  {view view' : UInt32 → Result Bytes} {pgno right : UInt32} {ks : List IndexKey}
  {ds : List IndexDivider} {page : Bytes} {hdr : PageHeader} {depth : Nat}
  {pages : List UInt32} {es : List (Bytes × Int64)}

theorem LocalLeafAt.congr (h : LocalLeafAt usable encoding asI64 view pgno ks page hdr)
    (hpage : view' pgno = view pgno) : LocalLeafAt usable encoding asI64 view' pgno ks page hdr :=
  { h with shown := hpage.trans h.shown }

section

variable (h : LocalNodeAt usable encoding asI64 view pgno ds right page hdr)

include h

theorem LocalNodeAt.congr (hpage : view' pgno = view pgno) :
    LocalNodeAt usable encoding asI64 view' pgno ds right page hdr :=
  { h with shown := hpage.trans h.shown }

theorem LocalNodeAt.numCells : hdr.numCells = ds.length := by
  rw [h.carries.numCells, List.length_map]

theorem LocalNodeAt.rightMost :
    hdr.rightMostPointer = some right := h.carries.rightMost rfl

end

variable {i : Nat}

theorem LocalNodeAt.cell (h : LocalNodeAt usable encoding asI64 view pgno ds right page hdr)
    (hi : i < ds.length) :
    ∃ off, hdr.cellPointer page i = .ok off ∧ StandsAt ds[i].bytes page off := by
  obtain ⟨off, hoff, hstands⟩ := h.carries.cells i (by rwa [List.length_map])
  rw [List.getElem_map] at hstands
  exact ⟨off, hoff, hstands⟩

theorem LocalNodeAt.unique {ds' : List IndexDivider} {right' : UInt32} {page' : Bytes}
    {hdr' : PageHeader} (h : LocalNodeAt usable encoding asI64 view pgno ds right page hdr)
    (h' : LocalNodeAt usable encoding asI64 view pgno ds' right' page' hdr') :
    ds = ds' ∧ right = right' := by
  obtain rfl : page = page' := Except.ok.inj (h.shown.symm.trans h'.shown)
  obtain rfl : hdr = hdr' := Except.ok.inj (h.carries.parse.symm.trans h'.carries.parse)
  refine ⟨List.ext_getElem (h.numCells.symm.trans h'.numCells) fun i hi hi' => ?_,
    Option.some.inj (h.rightMost.symm.trans h'.rightMost)⟩
  obtain ⟨off, hoff, hstands⟩ := h.cell hi
  obtain ⟨off', hoff', hstands'⟩ := h'.cell hi'
  obtain rfl : off = off' := Except.ok.inj (hoff.symm.trans hoff')
  have hlocal := h.valid ds[i] (List.getElem_mem hi)
  have hlocal' := h'.valid ds'[i] (List.getElem_mem hi')
  have hlen : ds[i].bytes.length = ds'[i].bytes.length := Except.ok.inj
    ((hlocal.holds.indexInteriorCellOnPageSize hstands).symm.trans
      (hlocal'.holds.indexInteriorCellOnPageSize hstands'))
  have hbytes : ds[i].bytes = ds'[i].bytes := by
    rw [← hstands.slice_eq, hlen, hstands'.slice_eq]
  obtain ⟨hchild, hkey⟩ := List.append_inj hbytes (by rw [length_be32, length_be32])
  have hchild' : ds[i].child = ds'[i].child := by
    rw [← readBe32_be32 ds[i].child, hchild, readBe32_be32]
  have hkey' := hlocal.unique hlocal' hkey
  cases hd : ds[i]
  cases hd' : ds'[i]
  simp_all

theorem LocalLeafAt.cell (h : LocalLeafAt usable encoding asI64 view pgno ks page hdr)
    (hi : i < ks.length) :
    ∃ off, hdr.cellPointer page i = .ok off ∧ StandsAt ks[i].bytes page off := by
  obtain ⟨off, hoff, hstands⟩ := h.carries.cells i (by rwa [List.length_map])
  rw [List.getElem_map] at hstands
  exact ⟨off, hoff, hstands⟩

theorem LocalIndex.root_mem (h : LocalIndex usable encoding asI64 view depth pgno pages es) :
    pgno ∈ pages := by
  cases depth with
  | zero => exact h.elim
  | succ depth =>
      rcases h with ⟨ks, page, hdr, -, rfl, -⟩ | ⟨ds, right, page, hdr, below, -, -, rfl⟩
      · exact List.mem_singleton_self pgno
      · exact List.mem_cons_self

theorem LocalIndex.succ (h : LocalIndex usable encoding asI64 view depth pgno pages es) :
    LocalIndex usable encoding asI64 view (depth + 1) pgno pages es := by
  induction depth generalizing pgno pages es with
  | zero => exact h.elim
  | succ depth ih =>
      rcases h with hleaf | ⟨ds, right, page, hdr, below, hnode, hthread, hpages⟩
      · exact .inl hleaf
      · exact .inr ⟨ds, right, page, hdr, below, hnode, hthread.imp fun _ _ _ _ => ih, hpages⟩

theorem LocalIndex.mono {depth' : Nat} (hle : depth ≤ depth')
    (h : LocalIndex usable encoding asI64 view depth pgno pages es) :
    LocalIndex usable encoding asI64 view depth' pgno pages es := by
  induction hle with
  | refl => exact h
  | step _ ih => exact ih.succ

theorem LocalIndex.congr (h : LocalIndex usable encoding asI64 view depth pgno pages es)
    (hsame : ∀ x ∈ pages, view' x = view x) :
    LocalIndex usable encoding asI64 view' depth pgno pages es := by
  induction depth generalizing pgno pages es with
  | zero => exact h.elim
  | succ depth ih =>
      rcases h with ⟨ks, page, hdr, hleaf, rfl, hes⟩ |
        ⟨ds, right, page, hdr, below, hnode, hthread, rfl⟩
      · exact .inl ⟨ks, page, hdr, hleaf.congr (hsame pgno (by simp)), rfl, hes⟩
      · refine .inr ⟨ds, right, page, hdr, below, hnode.congr (hsame pgno (by simp)),
          hthread.imp fun q inner within hsub htree => ?_, rfl⟩
        exact ih htree fun x hx => hsame x (List.mem_cons_of_mem _ (hsub hx))

/-! ## Scans -/

theorem assemble_local (key : Bytes) :
    (assemble usable key.length key none).eval view = .ok key := by
  simp only [assemble, Nat.sub_self, assembleLoop, Reading.eval_bind, Reading.eval_pure,
    Result.ok_bind, lt_irrefl, if_false, List.take_length]

def IndexKey.stored (k : IndexKey) (bytes : Bytes) : StoredKey := ⟨bytes, k.entry, []⟩

theorem IndexKey.Local.inLeaf (h : k.Local usable encoding asI64) (view : UInt32 → Result Bytes) :
    (k.stored k.bytes).InLeaf usable encoding asI64 view := by
  have hstands : StandsAt k.bytes k.bytes 0 := ⟨[], by simp⟩
  exact ⟨h.holds.indexLeafCellOnPageSize hstands,
    ⟨_, h.holds.parseIndexLeafCell hstands, rfl, assemble_local _⟩, h.rowid⟩

theorem IndexDivider.divides {d : IndexDivider} (h : d.key.Local usable encoding asI64)
    (view : UInt32 → Result Bytes) :
    (d.key.stored d.bytes).Divides usable encoding asI64 view d.child := by
  have hstands : StandsAt d.bytes d.bytes 0 := ⟨[], by simp⟩
  refine ⟨?_, ⟨_, h.holds.parseIndexInteriorCell hstands, rfl, rfl, assemble_local _⟩, h.rowid⟩
  have hpos := h.holds.pos
  simp only [IndexKey.stored, IndexDivider.bytes, List.length_append]
  omega

theorem LocalLeafAt.indexLeafAt (h : LocalLeafAt usable encoding asI64 view pgno ks page hdr) :
    IndexLeafAt usable encoding asI64 view pgno (ks.map fun k => k.stored k.bytes) page hdr where
  shown := h.shown
  parse := h.carries.parse
  pageType := h.carries.pageType_eq
  numCells := by rw [h.carries.numCells, List.length_map, List.length_map]
  cells i hi := by
    rw [List.getElem_map]
    exact h.cell (by simpa using hi)
  valid k hk := by
    obtain ⟨k, hin, rfl⟩ := List.mem_map.mp hk
    exact (h.valid k hin).inLeaf view
  fits := by
    have hroom := h.carries.room
    have hpacked := h.carries.packed
    have hbytes : (ks.map fun k => k.stored k.bytes).map StoredKey.bytes = ks.map
        IndexKey.bytes := by
      simp [IndexKey.stored]
    rw [hbytes]
    simp only [PageType.headerSize, PageType.isLeaf, if_true, List.length_map] at hroom ⊢
    omega

theorem exists_parts {T : UInt32 → List UInt32 → List (Bytes × Int64) → Prop}
    (h : Threaded T IndexDivider.child IndexDivider.entry ds right pages es) :
    ∃ (parts : List IndexPart) (rightPages : List UInt32) (rightEntries : List (Bytes × Int64)),
      parts.map IndexPart.divider = ds.map (fun d => d.key.stored d.bytes) ∧
      parts.map IndexPart.child = ds.map IndexDivider.child ∧
      (∀ x ∈ parts, T x.child x.pages x.entries) ∧ T right rightPages rightEntries ∧
      pages = parts.flatMap (fun x => x.divider.chain ++ x.pages) ++ rightPages ∧
      es = parts.flatMap (fun x => x.entries ++ [x.divider.entry]) ++ rightEntries := by
  induction h with
  | last h => exact ⟨[], _, _, rfl, rfl, by simp, h, rfl, rfl⟩
  | @cons d ds right pages₁ pages₂ es₁ es₂ h _ ih =>
      obtain ⟨parts, rightPages, rightEntries, hdivider, hchild, hparts, hright, rfl, rfl⟩ := ih
      refine ⟨⟨d.key.stored d.bytes, d.child, pages₁, es₁⟩ :: parts, rightPages, rightEntries,
        by simp [hdivider], by simp [hchild], ?_, hright, ?_, ?_⟩
      · rw [List.forall_mem_cons]
        exact ⟨h, hparts⟩
      · simp [IndexKey.stored]
      · simp [IndexKey.stored, IndexDivider.entry]

theorem LocalIndex.indexTree (h : LocalIndex usable encoding asI64 view depth pgno pages es) :
    IndexTree usable encoding asI64 view depth pgno pages es := by
  induction depth generalizing pgno pages es with
  | zero => exact h.elim
  | succ depth ih =>
      rcases h with ⟨ks, page, hdr, hleaf, rfl, rfl⟩ |
        ⟨ds, right, page, hdr, below, hnode, hthread, rfl⟩
      · refine .inl ⟨_, page, hdr, hleaf.indexLeafAt, ?_, ?_⟩
        · rw [List.flatMap_map]
          simp [IndexKey.stored]
        · simp [IndexKey.stored, Function.comp_def]
      · obtain ⟨parts, rightPages, rightEntries, hdivider, hchild, hparts, hright, rfl, rfl⟩ :=
          exists_parts hthread
        have hlen : parts.length = ds.length := by simpa using congrArg List.length hdivider
        have hat : ∀ i (hi : i < parts.length) (hi' : i < ds.length),
            parts[i].divider = ds[i].key.stored ds[i].bytes ∧ parts[i].child = ds[i].child := by
          intro i hi _
          have hd := congrArg (fun l => l[i]?) hdivider
          have hc := congrArg (fun l => l[i]?) hchild
          simpa [hi, hlen ▸ hi] using And.intro hd hc
        refine .inr ⟨page, hdr, hnode.shown, hnode.carries.parse, hnode.carries.pageType_eq, parts,
          right, rightPages, rightEntries, by rw [hlen, hnode.numCells], fun i hi => ?_,
          fun x hx => ?_, hnode.rightMost, ih hright, rfl, rfl⟩
        · have hi' : i < ds.length := hlen ▸ hi
          rw [(hat i hi hi').1]
          exact hnode.cell hi'
        · obtain ⟨i, hi, rfl⟩ := List.getElem_of_mem hx
          obtain ⟨hd, hc⟩ := hat i hi (hlen ▸ hi)
          refine ⟨?_, ih (hparts _ hx)⟩
          rw [hd, hc]
          exact IndexDivider.divides (hnode.valid _ (List.getElem_mem _)) view

theorem LocalIndex.visit (h : LocalIndex usable encoding asI64 view depth pgno pages es) :
    ∀ d ≥ depth, (visitIndex usable encoding asI64 d pgno).eval view = .ok es := fun _ hd =>
  visitIndex_of_indexTree (h.mono hd).indexTree

end

end Rustqlite.Btree
