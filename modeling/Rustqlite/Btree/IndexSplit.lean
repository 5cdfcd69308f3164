import Rustqlite.Btree.LocalIndex
import Rustqlite.Btree.SmallDatabase

/-!
# A split keeps the entries of an index

When a page of an index is split, one of its cells becomes the divider between
the halves.  The thread of the entries is cut there, and the divider ties it
together again, further up.
-/

namespace Rustqlite.Btree

open Foundation Format Pager FileM

/-! ## Reading the cells -/

section Reads

variable {usable : Nat} {encoding : TextEncoding} {asI64 : Value → Int64}
  {view : UInt32 → Result Bytes} {pgno right : UInt32} {ks : List IndexKey}
  {ds : List IndexDivider} {page : Bytes} {hdr : PageHeader}

theorem IndexDivider.bytes_pos {d : IndexDivider} (h : d.key.Local usable encoding asI64) :
    0 < d.bytes.length := by
  have hpos := h.holds.pos
  rw [bytes, List.length_append]
  omega

theorem indexCells_leaf (h : LocalLeafAt usable encoding asI64 view pgno ks page hdr) :
    indexCells false page hdr usable = .ok (ks.map IndexKey.bytes) := by
  rw [indexCells, Result.mapM_eq_ok, List.forall₂_map_right_iff, List.forall₂_iff_get]
  refine ⟨by simp [h.carries.numCells], fun i hi hi' => ?_⟩
  obtain ⟨off, hoff, hstands⟩ := h.cell hi'
  have hlocal := h.valid ks[i] (List.getElem_mem hi')
  simp only [List.get_eq_getElem, List.getElem_range, hoff, Bool.false_eq_true, if_false,
    hlocal.holds.indexLeafCellOnPageSize hstands, Result.ok_bind,
    cellBytes_ok hstands hlocal.holds.pos]

theorem indexCells_node (h : LocalNodeAt usable encoding asI64 view pgno ds right page hdr) :
    indexCells true page hdr usable = .ok (ds.map IndexDivider.bytes) := by
  rw [indexCells, Result.mapM_eq_ok, List.forall₂_map_right_iff, List.forall₂_iff_get]
  refine ⟨by simp [h.numCells], fun i hi hi' => ?_⟩
  obtain ⟨off, hoff, hstands⟩ := h.cell hi'
  have hlocal := h.valid ds[i] (List.getElem_mem hi')
  have hsize : indexInteriorCellOnPageSize page off usable = .ok ds[i].bytes.length :=
    hlocal.holds.indexInteriorCellOnPageSize hstands
  simp only [List.get_eq_getElem, List.getElem_range, hoff, if_true, hsize, Result.ok_bind,
    cellBytes_ok hstands (IndexDivider.bytes_pos hlocal)]

variable {child : UInt32} {i : Nat}

theorem pointerAt_standsAt {bytes : Bytes} {off : Nat}
    (h : StandsAt (be32 child ++ bytes) page off) :
    pointerAt page off = .ok child := by
  have hle := h.left.length_le (by rw [length_be32]; omega)
  rw [length_be32] at hle
  obtain ⟨rest, hrest⟩ := h
  rw [pointerAt, if_neg (by omega), hrest, List.append_assoc, readBe32_be32_append]

def IndexChildOf (view : UInt32 → Result Bytes) (parent child : UInt32) : Prop :=
  ∃ page hdr, view parent = .ok page ∧
    PageHeader.parse page (btreeHeaderOffset parent) = .ok hdr ∧ hdr.pageType = .interiorIndex ∧
    (hdr.rightMostPointer = some child ∨ ∃ i < hdr.numCells, ∃ off,
      hdr.cellPointer page i = .ok off ∧ pointerAt page off = .ok child)

theorem LocalNodeAt.mem_of_indexChildOf
    (h : LocalNodeAt usable encoding asI64 view pgno ds right page hdr)
    (hchild : IndexChildOf view pgno child) : child ∈ ds.map IndexDivider.child ++ [right] := by
  obtain ⟨page', hdr', hshown, hparse, -, hcases⟩ := hchild
  obtain rfl : page = page' := Except.ok.inj (h.shown.symm.trans hshown)
  obtain rfl : hdr = hdr' := Except.ok.inj (h.carries.parse.symm.trans hparse)
  rcases hcases with hright | ⟨i, hi, off, hoff, hpointer⟩
  · have heq : right = child := Option.some.inj (h.rightMost.symm.trans hright)
    simp [heq]
  · rw [h.numCells] at hi
    obtain ⟨off', hoff', hstands⟩ := h.cell hi
    obtain rfl : off' = off := Except.ok.inj (hoff'.symm.trans hoff)
    have heq : ds[i].child = child :=
      Except.ok.inj ((pointerAt_standsAt hstands).symm.trans hpointer)
    exact List.mem_append_left _ (List.mem_map.mpr ⟨ds[i], List.getElem_mem hi, heq⟩)

theorem findChildCellIndex_node (h : LocalNodeAt usable encoding asI64 view pgno ds right page hdr)
    {target : UInt32} (hi : (ds.map IndexDivider.child).findIdx? (· = target) = some i) :
    findChildCellIndex page hdr target = .ok i := by
  have hloop := findChildLoop_ok
    (fun i => do
      let off ← hdr.cellPointer page i
      pointerAt page off) (ds.map IndexDivider.child) target
    (fun j hj => by
      obtain ⟨off, hoff, hstands⟩ := h.cell (i := j) (by simpa using hj)
      simp only [hoff, Result.ok_bind, List.getElem_map]
      exact pointerAt_standsAt hstands)
    (show 0 + hdr.numCells = _ by simp [h.numCells])
  rw [List.drop_zero, hi] at hloop
  simp only [findChildCellIndex, h.carries.pageType_eq, hloop, Result.ok_bind]
  rfl

theorem flatten_set_singletons {α : Type} {l : List α} (hi : i < l.length) (xs : List α) :
    ((l.map fun x => [x]).set i xs).flatten = l.take i ++ xs ++ l.drop (i + 1) := by
  have hflat : ∀ l : List α, (l.map fun x => [x]).flatten = l := by
    intro l
    induction l with
    | nil => rfl
    | cons x l ih => simp [ih]
  rw [List.set_eq_take_append_cons_drop, if_pos (by simpa using hi), List.flatten_append,
    List.flatten_cons, ← List.map_take, ← List.map_drop, hflat, hflat, List.append_assoc]

theorem copiedCell_ok (h : LocalNodeAt usable encoding asI64 view pgno ds right page hdr)
    (hi : i < ds.length) : copiedCell page hdr usable i = .ok ds[i].bytes := by
  obtain ⟨off, hoff, hstands⟩ := h.cell hi
  have hlocal := h.valid ds[i] (List.getElem_mem hi)
  have hsize : indexInteriorCellOnPageSize page off usable = .ok ds[i].bytes.length :=
    hlocal.holds.indexInteriorCellOnPageSize hstands
  rw [indexInteriorCellOnPageSize] at hsize
  simp only [copiedCell, hoff, Result.ok_bind]
  split_ifs at hsize ⊢ with hshort
  cases hread : readVarint (page.drop (off + 4)) with
  | none => simp [hread] at hsize
  | some r =>
      simp only [hread, Except.ok.injEq] at hsize
      simp only [hsize]
      exact cellBytes_ok hstands (IndexDivider.bytes_pos hlocal)

theorem dividedIndexCells_ok (h : LocalNodeAt usable encoding asI64 view pgno ds right page hdr)
    (hi : i < ds.length) (cellOld cellNew : Bytes) :
    dividedIndexCells page hdr usable i cellOld cellNew =
      .ok ((ds.take i).map IndexDivider.bytes ++ [cellOld, cellNew] ++
        (ds.drop (i + 1)).map IndexDivider.bytes) := by
  set bs := ds.map IndexDivider.bytes with hbs
  have hcells : (List.range hdr.numCells).mapM (fun j => (do
      if j = i then return [cellOld, cellNew]
      else return [← copiedCell page hdr usable j] : Result (List Bytes))) =
      .ok ((bs.map fun b => [b]).set i [cellOld, cellNew]) := by
    rw [Result.mapM_eq_ok, List.forall₂_iff_get]
    refine ⟨by simp [hbs, h.numCells], fun j hj hj' => ?_⟩
    have hlt : j < ds.length := by simpa [h.numCells] using hj
    simp only [List.get_eq_getElem, List.getElem_range]
    by_cases heq : j = i
    · subst heq
      simp only [if_true, List.getElem_set_self]
      rfl
    · rw [if_neg heq, List.getElem_set_ne (by omega), copiedCell_ok h hlt]
      simp only [Result.ok_bind, hbs, List.getElem_map]
      rfl
  rw [dividedIndexCells, hcells]
  simp only [Result.ok_bind]
  rw [flatten_set_singletons (by simpa [hbs] using hi), hbs, ← List.map_take, ← List.map_drop]
  rfl

end Reads

/-! ## The parent -/

inductive Divided (x new : UInt32) (entry : Bytes × Int64) :
    List IndexDivider → UInt32 → List IndexDivider → UInt32 → Prop where
  | last (ds : List IndexDivider) : Divided x new entry ds x (ds ++ [⟨x, .built entry⟩]) new
  | middle (before behind : List IndexDivider) (key : IndexKey) (right : UInt32) :
      Divided x new entry (before ++ ⟨x, key⟩ :: behind) right
        (before ++ ⟨x, .built entry⟩ :: ⟨new, .built key.entry⟩ :: behind) right

variable {x right : UInt32} {ds ds' : List IndexDivider} {pages : List UInt32}

theorem Divided.threaded {new right' : UInt32} {entry : Bytes × Int64}
    {T : UInt32 → List UInt32 → List (Bytes × Int64) → Prop} {es : List (Bytes × Int64)}
    (h : Divided x new entry ds right ds' right')
    (hthread : Threaded T IndexDivider.child IndexDivider.entry ds right pages es) :
    ∃ before inner behind front within back, T x inner within ∧
      pages = before ++ inner ++ behind ∧ es = front ++ within ++ back ∧
      ∀ {T' : UInt32 → List UInt32 → List (Bytes × Int64) → Prop} {left rest : List UInt32}
        {ls rs : List (Bytes × Int64)}, (∀ q ps qs, ps ⊆ before ++ behind → T q ps qs →
            T' q ps qs) →
        T' x left ls → T' new rest rs → ∃ pages',
          Threaded T' IndexDivider.child IndexDivider.entry ds' right' pages'
            (front ++ (ls ++ entry :: rs) ++ back) := by
  cases h with
  | last =>
      obtain ⟨before, inner, front, within, htree, rfl, rfl, hput⟩ := hthread.focus_last
      refine ⟨before, inner, [], front, within, [], htree, by simp, by simp,
        fun {T' left rest ls rs} himp hleft hright => ⟨before ++ left ++ rest, ?_⟩⟩
      have hfirst := hput (fun q ps qs hsub => himp q ps qs (by simpa using hsub)) hleft
      have hnew := Threaded.append (d := (⟨x, .built entry⟩ : IndexDivider)) hfirst (.last hright)
      simpa [IndexDivider.entry, IndexKey.built] using hnew
  | middle ds₁ ds₂ key =>
      obtain ⟨inner₁, within₁, outer, without, hfirst, hrest, rfl, rfl⟩ := hthread.cut
      obtain ⟨before, inner, front, within, htree, rfl, rfl, hput⟩ := hfirst.focus_last
      refine ⟨before, inner, outer, front, within, key.entry :: without, htree, rfl, rfl,
        fun {T' left rest ls rs} himp hleft hright =>
          ⟨before ++ left ++ (rest ++ outer), ?_⟩⟩
      have hfirst' := hput (fun q ps qs hsub => himp q ps qs
        (List.Subset.trans hsub (List.subset_append_left _ _))) hleft
      have hrest' := hrest.imp fun q ps qs hsub => himp q ps qs
        (List.Subset.trans hsub (List.subset_append_right _ _))
      have hbehind := Threaded.cons
        (d := ⟨new, .built key.entry⟩) hright hrest'
      have hnew := Threaded.append (d := (⟨x, .built entry⟩ : IndexDivider)) hfirst' hbehind
      simpa [IndexDivider.entry, IndexKey.built] using hnew

section Parent

variable {encoding : TextEncoding} {asI64 : Value → Int64} {p : PagerState × World DbFile}
  {trunks : List (UInt32 × List UInt32)}

variable {usable : Nat} {k : IndexKey} {page : Bytes} {hdr : PageHeader} {parent : UInt32}

theorem buildIndexInteriorCell_ok (h : k.Local usable encoding asI64) (child : UInt32)
    (p : PagerState × World DbFile) :
    buildIndexInteriorCell child k.entry.1 usable p =
      .ok (IndexDivider.bytes ⟨child, .built k.entry⟩) p := by
  rw [buildIndexInteriorCell, spillPayload, h.holds.localPayloadLen_eq]
  simp only [Bool.false_eq_true, if_false, List.take_length, IndexDivider.bytes, IndexKey.built]
  rw [← List.append_assoc]
  rfl

theorem run_assemble_local (usable : Nat) (key : Bytes) (p : PagerState × World DbFile) :
    (assemble usable key.length key none).run p = .ok key p := by
  simp only [assemble, Nat.sub_self, assembleLoop, pure_bind, lt_irrefl, if_false,
    List.take_length]
  rfl

theorem insertInteriorCell_last {cell : Bytes} {base : Nat} {rightMost : Option UInt32}
    {bs : List Bytes} (h : Carries page base .interiorIndex rightMost bs hdr)
    (hpos : 0 < cell.length) :
    insertInteriorCell page base bs.length cell = .error pageFullError ∨
      ∃ page' hdr', insertInteriorCell page base bs.length cell = .ok page' ∧
        page'.length = page.length ∧
        Carries page' base .interiorIndex rightMost (bs ++ [cell]) hdr' := by
  by_cases hfit : base + PageType.headerSize .interiorIndex + bs.length * 2 + cell.length + 2 ≤
      hdr.cellContentStart
  · obtain ⟨page', hdr', hrun, hlen, hcarries, -⟩ := insertCell_spec
      [.interiorTable, .interiorIndex] 12
      "insert_interior_cell: not an interior-table or interior-index page"
      "insert_interior_cell: index past cell count" bs.length cell h (by simp) rfl (Nat.le_refl _)
      hpos hfit
    rw [List.take_length, List.drop_length] at hcarries
    exact .inr ⟨page', hdr', hrun, hlen, hcarries⟩
  · exact .inl (insertCell_full h
      (by simp) rfl (Nat.le_refl _) (by omega))

theorem installIndexDivider_spec (h : SoundStore p trunks) (hin : InUse p trunks pages)
    (hparent : parent ∈ pages)
    (hnode : LocalNodeAt p.1.geometry.usableSize encoding asI64 (pageSeen p.1 p.2.disk) parent ds
      right page hdr) (hmem : x ∈ ds.map IndexDivider.child ++ [right])
    (hk : k.Local p.1.geometry.usableSize encoding asI64) (new : UInt32) :
    (∃ e q, installIndexDivider parent x new k.entry.1 p = .error e q ∧ Quiet p q) ∨
      ∃ q ds' right' page' hdr', installIndexDivider parent x new k.entry.1 p = .ok () q ∧
        Divided x new k.entry ds right ds' right' ∧ Rewrites p q trunks trunks pages [parent] ∧
        LocalNodeAt p.1.geometry.usableSize encoding asI64 (pageSeen q.1 q.2.disk) parent ds'
          right' page' hdr' := by
  set usable := p.1.geometry.usableSize with husable
  obtain ⟨p₁, hread, h₁⟩ := readPageForWrite_ok h.failAt hnode.shown
  have hrep₁ := (h.quiet h₁).rewrites_nil hin
  have hlen := length_shown h hin hparent hnode.shown
  -- what is written back to the parent
  have hwrite : ∀ {page' : Bytes}, page'.length = page.length →
      ∃ q, writePage parent page' p₁ = .ok () q ∧ Rewrites p q trunks trunks pages [parent] ∧
        pageSeen q.1 q.2.disk parent = .ok page' := by
    intro page' hlen'
    obtain ⟨q, hrun, hrep, hseen⟩ := hrep₁.sound.writePage
      (hrep₁.inUse.sublist (List.singleton_sublist.mpr hparent))
      (show page'.length = p₁.1.pageSize by rw [hlen', hlen, hrep₁.pageSize])
    refine ⟨q, hrun, ?_, hseen⟩
    simpa using hrep₁.trans (hrep.rewrites hrep₁.inUse hparent)
  by_cases hright : right = x
  · subst hright
    have hnum : hdr.numCells = (ds.map IndexDivider.bytes).length := hnode.carries.numCells
    have hpos : 0 < (IndexDivider.bytes ⟨right, .built k.entry⟩).length :=
      IndexDivider.bytes_pos (d := ⟨right, .built k.entry⟩) hk.built
    have hrun : installIndexDivider parent right new k.entry.1 p =
        (do
          let page ← liftResult (insertInteriorCell page (btreeHeaderOffset parent)
            (ds.map IndexDivider.bytes).length (IndexDivider.bytes ⟨right, .built k.entry⟩))
          writePage parent (splice page (btreeHeaderOffset parent + 8) (be32 new)) :
          PagerM Unit) p₁ := by
      rw [installIndexDivider, getState_bind, bind_ok hread]
      simp only [hnode.carries.parse, liftResult_ok_bind, hnode.carries.pageType_eq, ne_eq,
        not_true_eq_false, if_false, hnode.rightMost, if_true, hnum]
      rw [← husable, bind_ok (buildIndexInteriorCell_ok hk right p₁)]
    rcases insertInteriorCell_last hnode.carries hpos with hfull | ⟨page', hdr', hins, hlen',
        hcarries⟩
    · refine .inl ⟨pageFullError, p₁, ?_, h₁⟩
      rw [hrun, hfull]
      rfl
    · obtain ⟨hdr'', hcarries', -⟩ := hcarries.setRight rfl new
      obtain ⟨q, hput, hrew, hseen⟩ := hwrite (show (splice page'
        (btreeHeaderOffset parent + 8) (be32 new)).length = _ by
          have hroom := hcarries.room
          have hpacked := hcarries.packed
          have h12 : PageType.headerSize .interiorIndex = 12 := rfl
          rw [length_splice (by rw [length_be32]; omega), hlen'])
      refine .inr ⟨q, ds ++ [⟨right, .built k.entry⟩], new, _, hdr'', ?_, .last ds, hrew, hseen,
        by rwa [List.map_append], ?_⟩
      · rw [hrun, hins]
        exact hput
      · intro d hd
        rcases List.mem_append.mp hd with hd | hd
        · exact hnode.valid d hd
        · rw [List.mem_singleton.mp hd]
          exact hk.built
  · have hchild : x ∈ ds.map IndexDivider.child := by
      rcases List.mem_append.mp hmem with hin | hin
      · exact hin
      · exact absurd (List.mem_singleton.mp hin).symm hright
    obtain ⟨i, hfind⟩ : ∃ i, (ds.map IndexDivider.child).findIdx? (· = x) = some i := by
      rw [← Option.isSome_iff_exists, List.findIdx?_isSome, List.any_eq_true]
      exact ⟨x, hchild, by simp⟩
    obtain ⟨hi, hat, -⟩ := List.findIdx?_eq_some_iff_getElem.mp hfind
    have hi' : i < ds.length := by simpa using hi
    have hold : ds[i].child = x := by simpa using hat
    obtain ⟨off, hoff, hstands⟩ := hnode.cell hi'
    have hlocal := hnode.valid ds[i] (List.getElem_mem hi')
    have hparse := hlocal.holds.parseIndexInteriorCell hstands
    set cellOld := IndexDivider.bytes ⟨x, .built k.entry⟩ with hcellOld
    set cellNew := IndexDivider.bytes ⟨new, .built ds[i].key.entry⟩ with hcellNew
    set ds' := ds.take i ++ ⟨x, .built k.entry⟩ :: ⟨new, .built ds[i].key.entry⟩ ::
      ds.drop (i + 1) with hds'
    have hrun : installIndexDivider parent x new k.entry.1 p =
        (do
          let page ← liftResult (writePageCells page (btreeHeaderOffset parent) .interiorIndex
            (some right) (ds'.map IndexDivider.bytes))
          writePage parent page : PagerM Unit) p₁ := by
      rw [installIndexDivider, getState_bind, ← husable, bind_ok hread]
      simp only [hnode.carries.parse, liftResult_ok_bind, hnode.carries.pageType_eq, ne_eq,
        not_true_eq_false, if_false, hnode.rightMost, Option.some.injEq, hright,
        findChildCellIndex_node hnode hfind, hoff, hparse, assembleIndexInteriorPayload]
      rw [bind_ok (run_assemble_local usable _ p₁), bind_ok (buildIndexInteriorCell_ok hk x p₁),
        bind_ok (buildIndexInteriorCell_ok hlocal new p₁), dividedIndexCells_ok hnode hi']
      simp only [liftResult_ok_bind, hds', List.map_append, List.map_cons, List.append_assoc,
        List.cons_append, List.nil_append]
    have hvalid : ∀ d ∈ ds', d.key.Local usable encoding asI64 := by
      intro d hd
      rcases List.mem_append.mp hd with hd | hd
      · exact hnode.valid d (List.mem_of_mem_take hd)
      · rcases List.mem_cons.mp hd with rfl | hd
        · exact hk.built
        · rcases List.mem_cons.mp hd with rfl | hd
          · exact hlocal.built
          · exact hnode.valid d (List.mem_of_mem_drop hd)
    have hdivided : Divided x new k.entry ds right ds' right := by
      have hsplit : ds = ds.take i ++ ⟨x, ds[i].key⟩ :: ds.drop (i + 1) := by
        rw [← hold, ← List.drop_eq_getElem_cons hi', List.take_append_drop]
      have hmiddle := @Divided.middle x new k.entry (ds.take i)
        (ds.drop (i + 1)) ds[i].key right
      rwa [← hsplit] at hmiddle
    cases hlaid : writePageCells page (btreeHeaderOffset parent) .interiorIndex (some right)
        (ds'.map IndexDivider.bytes) with
    | error e =>
        refine .inl ⟨e, p₁, ?_, h₁⟩
        rw [hrun, hlaid]
        rfl
    | ok page' =>
        obtain ⟨page'', hdr', hrun', hlen', hcarries, -⟩ := writePageCells_carries
          (btreeHeaderOffset parent) .interiorIndex (some right) (ds'.map IndexDivider.bytes)
          hnode.carries.size (by simp [PageType.isLeaf])
          (by
            intro b hb
            obtain ⟨d, hd, rfl⟩ := List.mem_map.mp hb
            exact IndexDivider.bytes_pos (hvalid d hd))
          (fits_of_writePageCells hlaid)
        obtain rfl : page' = page'' := Except.ok.inj (hlaid.symm.trans hrun')
        obtain ⟨q, hput, hrew, hseen⟩ := hwrite hlen'
        refine .inr ⟨q, ds', right, page', hdr', ?_, hdivided, hrew, hseen, hcarries, hvalid⟩
        rw [hrun, hlaid]
        exact hput

/-! ## Halves -/

variable {pages : List UInt32} {x new right : UInt32} {ds : List IndexDivider} {page : Bytes}
  {hdr : PageHeader} {k : Nat}

theorem LocalNodeAt.bytes_pos {view : UInt32 → Result Bytes}
    (h : LocalNodeAt usable encoding asI64 view x ds right page hdr) (hsub : ds'.Sublist ds) :
    ∀ b ∈ ds'.map IndexDivider.bytes, 0 < b.length := by
  intro b hb
  obtain ⟨d, hd, rfl⟩ := List.mem_map.mp hb
  exact IndexDivider.bytes_pos (h.valid d (hsub.subset hd))

theorem LocalNodeAt.fits {ds' : List IndexDivider}
    (hnode : LocalNodeAt p.1.geometry.usableSize encoding asI64 (pageSeen p.1 p.2.disk) x ds right
      page hdr)
    (h : SoundStore p trunks) (hin : InUse p trunks pages) (hx : x ∈ pages)
    (hsub : ds'.Sublist ds) :
    PageType.headerSize .interiorIndex + (ds'.map IndexDivider.bytes).length * 2 +
      (ds'.map IndexDivider.bytes).flatten.length ≤ p.1.pageSize := by
  have hlen := length_shown h hin hx hnode.shown
  have hroom := hnode.carries.room
  have hpacked := hnode.carries.packed
  have hcells := (hsub.map IndexDivider.bytes).flatten.length_le
  have hcount := hsub.length_le
  rw [List.length_map] at hroom ⊢
  omega

structure IndexHalves (usable : Nat) (encoding : TextEncoding) (asI64 : Value → Int64)
    (view : UInt32 → Result Bytes) (x new right : UInt32) (ds : List IndexDivider) (k : Nat) :
    Prop where
  divider : ∃ (h : k < ds.length) (page : Bytes) (hdr : PageHeader),
    LocalNodeAt usable encoding asI64 view x (ds.take k) ds[k].child page hdr
  behind : ∃ page hdr, LocalNodeAt usable encoding asI64 view new (ds.drop (k + 1)) right page hdr

theorem writeIndexHalves_ok (h : SoundStore p trunks) (hin : InUse p trunks (new :: pages))
    (hx : x ∈ pages) (hone : x ≠ 1) (hnew : new ≠ 1)
    (hnode : LocalNodeAt p.1.geometry.usableSize encoding asI64 (pageSeen p.1 p.2.disk) x ds right
      page hdr)
    (hchildren : ∀ c ∈ ds.map IndexDivider.child ++ [right], c ∈ pages ∧ c ≠ 1)
    (hk : k < ds.length) (parentRoot : Option UInt32) :
    ∃ q, writeIndexHalves x new parentRoot (some right) (ds.map IndexDivider.bytes) k
        ds[k].child p =
        .ok () q ∧
      Rewrites p q trunks trunks (new :: pages) [new, x] ∧
      IndexHalves p.1.geometry.usableSize encoding asI64 (pageSeen q.1 q.2.disk) x new right
          ds k := by
  have hxin : x ∈ new :: pages := List.mem_cons_of_mem _ hx
  have hne : new ≠ x := fun heq => (List.nodup_cons.mp hin.nodup).1 (heq ▸ hx)
  have hdrop := List.drop_sublist (k + 1) ds
  have htake := List.take_sublist k ds
  obtain ⟨p₁, npage, nhdr, hrun₁, hrep₁, hnew₁⟩ := writeNewPage_ok .interiorIndex (some right)
    ((ds.drop (k + 1)).map IndexDivider.bytes) h (hin.single (x := new) (by simp))
    (by simp [PageType.isLeaf]) (hnode.bytes_pos hdrop)
    (by
      have hfits := hnode.fits h hin hxin hdrop
      have hbase : btreeHeaderOffset new = 0 := if_neg hnew
      omega)
  have h₁ := hrep₁.rewrites hin (y := new) (by simp)
  obtain ⟨p₂, lpage, lhdr, hrun₂, hrep₂, hleft₂⟩ := writeNewPage_ok .interiorIndex
    (some ds[k].child) ((ds.take k).map IndexDivider.bytes) h₁.sound (h₁.inUse.single hxin)
    (by simp [PageType.isLeaf]) (hnode.bytes_pos htake)
    (by
      have hfits := hnode.fits h hin hxin htake
      have hbase : btreeHeaderOffset x = 0 := if_neg hone
      rw [h₁.pageSize]
      omega)
  have h₂ := hrep₂.rewrites h₁.inUse (y := x) hxin
  -- the pointer map is all that is left
  obtain ⟨q, hrun₃, h₃⟩ : ∃ q, (do
      if (← getState).autoVacuum then
        parentRoot.elim (pure ()) (ptrmapPut new .btree)
        updateChildrenPtrmapToNewParent new (some right)
          ((ds.map IndexDivider.bytes).drop (k + 1)) : PagerM Unit) p₂ = .ok () q ∧
      Rewrites p₂ q trunks trunks (new :: pages) [] := by
    by_cases hvac : p₂.1.autoVacuum = true
    · obtain ⟨p₃, hrun₃, h₃⟩ : ∃ p₃,
          (parentRoot.elim (pure ()) (ptrmapPut new .btree) : PagerM Unit) p₂ = .ok () p₃ ∧
          Rewrites p₂ p₃ trunks trunks (new :: pages) [] := by
        cases parentRoot with
        | none => exact ⟨p₂, rfl, h₂.sound.rewrites h₂.inUse⟩
        | some parentPgno =>
            have hfile := h₂.inUse.inFile new (by simp)
            obtain ⟨p₃, hrun₃, hrep₃⟩ := h₂.sound.ptrmapPut hfile.1 hnew hfile.2
              (h₂.inUse.unreserved hvac new (by simp)) hvac .btree parentPgno
            exact ⟨p₃, hrun₃, hrep₃.rewrites_nil h₂.inUse⟩
      obtain ⟨q, hrun₄, hrep₄⟩ := updateChildrenPtrmapToNewParent_ok
        ((ds.drop (k + 1)).map IndexDivider.bytes) ((ds.drop (k + 1)).map IndexDivider.child) right
        h₃.sound (h₃.autoVacuum.trans hvac)
        (by
          rw [List.forall₂_map_left_iff, List.forall₂_map_right_iff, List.forall₂_same]
          intro d _
          have hstands : StandsAt (be32 d.child ++ d.key.bytes) d.bytes 0 := ⟨[], by
            simp [IndexDivider.bytes]⟩
          exact pointerAt_standsAt hstands)
        (fun c hc => by
          have hc' : c ∈ ds.map IndexDivider.child ++ [right] := by
            rcases List.mem_append.mp hc with hc | hc
            · rw [List.map_drop] at hc
              exact List.mem_append_left _ (List.mem_of_mem_drop hc)
            · exact List.mem_append_right _ hc
          exact ⟨h₃.inUse.sublist (List.singleton_sublist.mpr (by simp [(hchildren c hc').1])),
            (hchildren c hc').2⟩) new
      refine ⟨q, ?_, by simpa using h₃.trans (hrep₄.rewrites_nil h₃.inUse)⟩
      rw [getState_bind, if_pos hvac, ← List.map_drop]
      exact (bind_ok hrun₃).trans hrun₄
    · refine ⟨p₂, ?_, h₂.sound.rewrites h₂.inUse⟩
      rw [getState_bind, if_neg hvac]
      rfl
  refine ⟨q, ?_, by simpa using (h₁.trans h₂).trans h₃, ⟨hk, lpage, lhdr, ?_, hleft₂.carries,
    fun d hd => hnode.valid d (htake.subset hd)⟩, ⟨npage, nhdr, ?_, hnew₁.carries,
    fun d hd => hnode.valid d (hdrop.subset hd)⟩⟩
  · rw [writeIndexHalves, ← List.map_drop, bind_ok hrun₁, ← List.map_take, bind_ok hrun₂,
      List.map_drop]
    cases parentRoot with
    | none => exact hrun₃
    | some parentPgno => exact hrun₃
  · rw [h₃.view x hxin (by simp), hleft₂.shown]
  · rw [(h₂.trans h₃).view new (by simp) (by simp [hne]), hnew₁.shown]

structure SplitBelow (encoding : TextEncoding) (asI64 : Value → Int64)
    (p q : PagerState × World DbFile) (pages : List UInt32) (parent x new : UInt32)
    (ups : List IndexDivider) (upRight right : UInt32) (ds : List IndexDivider) (k : Nat) :
    Prop where
  geometry : q.1.geometry = p.1.geometry
  above : ∃ (h : k < ds.length) (ups' : List IndexDivider) (upRight' : UInt32) (page : Bytes)
    (hdr : PageHeader), Divided x new ds[k].entry ups upRight ups' upRight' ∧
      LocalNodeAt p.1.geometry.usableSize encoding asI64 (pageSeen q.1 q.2.disk) parent ups'
          upRight'
        page hdr
  halves : IndexHalves p.1.geometry.usableSize encoding asI64 (pageSeen q.1 q.2.disk) x new
      right ds k
  others : ∀ y ∈ pages, y ≠ parent → y ≠ x →
    pageSeen q.1 q.2.disk y = pageSeen p.1 p.2.disk y

theorem splitIndexInteriorAt_spec (h : SoundStore p trunks) (hin : InUse p trunks pages)
    (hone : 1 ∉ pages) {upRight : UInt32} {ups : List IndexDivider} {pbuf : Bytes}
    {phdr : PageHeader} (hparent : parent ∈ pages) (hx : x ∈ pages) (hne : x ≠ parent)
    (hup : LocalNodeAt p.1.geometry.usableSize encoding asI64 (pageSeen p.1 p.2.disk) parent ups
      upRight pbuf phdr)
    (hnode : LocalNodeAt p.1.geometry.usableSize encoding asI64 (pageSeen p.1 p.2.disk) x ds right
      page hdr) (hmem : x ∈ ups.map IndexDivider.child ++ [upRight])
    (hchildren : ∀ c ∈ ds.map IndexDivider.child ++ [right], c ∈ pages) (hk : k < ds.length) :
    SameOn p (endOf (splitIndexInteriorAt x (some parent) (some right) (ds.map IndexDivider.bytes) k
        ds[k].entry.1 ds[k].child) p) pages ∨
      ∃ new, SplitBelow encoding asI64 p (endOf (splitIndexInteriorAt x (some parent) (some right)
        (ds.map IndexDivider.bytes) k ds[k].entry.1 ds[k].child) p) pages parent x new ups upRight
        right ds k := by
  have hspec := h.allocatePage
  cases halloc : allocatePage p with
  | error e p₁ =>
      rw [halloc] at hspec
      left
      rw [splitIndexInteriorAt, endOf_bind_error halloc]
      exact hin.sameOn hspec.2
  | ok new p₁ =>
      rw [halloc] at hspec
      obtain ⟨hnewOne, hfresh, rest, h₁⟩ := hspec
      have hin₁ : InUse p₁ rest (new :: pages) := h₁.frame hin
      have hview₁ : ∀ y ∈ pages, pageSeen p₁.1 p₁.2.disk y = pageSeen p.1 p.2.disk y :=
        h₁.view hin
      have hgeometry₁ : p₁.1.geometry = p.1.geometry := h₁.grows.geometry
      have hup₁ := hup.congr (hview₁ parent hparent)
      have hdivider := hnode.valid ds[k] (List.getElem_mem hk)
      rw [← hgeometry₁] at hup₁ hdivider
      rcases installIndexDivider_spec h₁.sound hin₁ (List.mem_cons_of_mem _ hparent) hup₁ hmem
        hdivider new with ⟨e, p₂, hinstall, h₂⟩ | ⟨p₂, ups', upRight', page', hdr', hinstall,
          hdivided, h₂, hup₂⟩
      · left
        have hfull : installIndexDivider parent x new ds[k].entry.1 p₁ = .error e p₂ := hinstall
        simp only [splitIndexInteriorAt]
        rw [endOf_bind halloc, endOf_bind_error hfull]
        exact SameOn.trans ⟨hgeometry₁, hview₁⟩ (h₂.sameOn _)
      · right
        have hput : installIndexDivider parent x new ds[k].entry.1 p₁ = .ok () p₂ := hinstall
        have hgeometry₂ := h₂.geometry
        have hview₂ : ∀ y ∈ pages, y ≠ parent →
            pageSeen p₂.1 p₂.2.disk y = pageSeen p.1 p.2.disk y := fun y hy hyparent =>
          (h₂.view y (by simp [hy]) (by simpa using hyparent)).trans (hview₁ y hy)
        have hnode₂ := hnode.congr (hview₂ x hx hne)
        rw [← hgeometry₁, ← hgeometry₂] at hnode₂
        obtain ⟨q, hwrite, h₃, hhalves⟩ := writeIndexHalves_ok h₂.sound h₂.inUse hx
          (fun heq => hone (heq ▸ hx)) hnewOne hnode₂
          (fun c hc => ⟨hchildren c hc, fun heq => hone (heq ▸ hchildren c hc)⟩) hk (some parent)
        have hend : endOf (splitIndexInteriorAt x (some parent) (some right)
            (ds.map IndexDivider.bytes) k ds[k].entry.1 ds[k].child) p = q := by
          simp only [splitIndexInteriorAt]
          rw [endOf_bind halloc, endOf_bind hput, endOf_bind hwrite]
          rfl
        rw [hend]
        have hnewOut : ∀ y ∈ pages, y ≠ new := fun y hy heq =>
          (List.nodup_cons.mp hin₁.nodup).1 (heq ▸ hy)
        rw [hgeometry₂, hgeometry₁] at hhalves
        rw [hgeometry₁] at hup₂
        refine ⟨new, h₃.geometry.trans (hgeometry₂.trans hgeometry₁),
          ⟨hk, ups', upRight', page', hdr', hdivided, hup₂.congr ?_⟩, hhalves,
          fun y hy hyparent hyx => ?_⟩
        · exact h₃.view parent (by simp [hparent]) (by simp [hnewOut parent hparent, hne.symm])
        · exact (h₃.view y (by simp [hy]) (by simp [hnewOut y hy, hyx])).trans
            (hview₂ y hy hyparent)

end Parent

end Rustqlite.Btree
