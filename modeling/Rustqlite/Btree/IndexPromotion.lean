import Rustqlite.Btree.IndexEntries
import Rustqlite.Btree.SmallDatabase

/-!
# The promotion of a page of an index

A full page without a parent becomes an interior page above two new ones, which
get its cells.  Until the page itself is written, the index is as it was.
-/

namespace Rustqlite.Btree

open Foundation Format Pager FileM

section Run

variable {encoding : TextEncoding} {asI64 : Value → Int64} {p q : PagerState × World DbFile}
  {trunks : List (UInt32 × List UInt32)} {pages : List UInt32} {x : UInt32} {t : PageType}
  {leftRight rightMost : Option UInt32} {ls rs : List Bytes} {k : IndexKey}

structure Promoted (encoding : TextEncoding) (asI64 : Value → Int64)
    (p q : PagerState × World DbFile) (pages : List UInt32) (x : UInt32) (t : PageType)
    (leftRight rightMost : Option UInt32) (ls rs : List Bytes) (k : IndexKey)
    (left right : UInt32) : Prop where
  geometry : q.1.geometry = p.1.geometry
  leftPage : ∃ page hdr, pageSeen q.1 q.2.disk left = .ok page ∧
    Carries page (btreeHeaderOffset left) t leftRight ls hdr
  rightPage : ∃ page hdr, pageSeen q.1 q.2.disk right = .ok page ∧
    Carries page (btreeHeaderOffset right) t rightMost rs hdr
  above : ∃ page hdr, LocalNodeAt p.1.geometry.usableSize encoding asI64 (pageSeen q.1 q.2.disk) x
    [⟨left, .built k.entry⟩] right page hdr
  others : ∀ y ∈ pages, y ≠ x → pageSeen q.1 q.2.disk y = pageSeen p.1 p.2.disk y

theorem IndexKey.Local.fits (h : k.Local p.1.geometry.usableSize encoding asI64) (child : UInt32) :
    12 + 1 * 2 + ([IndexDivider.bytes ⟨child, .built k.entry⟩]).flatten.length ≤ p.1.pageSize := by
  obtain ⟨v, n, -, -, hle, -⟩ := h.holds
  have hvarint := varintLen_le_nine (UInt64.ofNat k.entry.1.length)
  have husable : p.1.geometry.usableSize ≤ p.1.pageSize := p.1.geometry.usable_le
  have hbig := p.1.geometry.le_usable
  rw [indexMaxLocal] at hle
  simp only [List.flatten_singleton, IndexDivider.bytes, IndexKey.built, List.length_append,
    length_be32, length_writeVarint]
  omega

variable {ks : List IndexKey} {page : Bytes} {hdr : PageHeader}

theorem LocalLeafAt.bytes_pos {usable : Nat} {view : UInt32 → Result Bytes} {ks' : List IndexKey}
    (h : LocalLeafAt usable encoding asI64 view x ks page hdr) (hsub : ks'.Sublist ks) :
    ∀ b ∈ ks'.map IndexKey.bytes, 0 < b.length := by
  intro b hb
  obtain ⟨k, hk, rfl⟩ := List.mem_map.mp hb
  exact (h.valid k (hsub.subset hk)).holds.pos

theorem LocalLeafAt.fits {ks ks' : List IndexKey} {page : Bytes} {hdr : PageHeader}
    (hleaf : LocalLeafAt p.1.geometry.usableSize encoding asI64 (pageSeen p.1 p.2.disk) x ks
        page hdr)
    (h : SoundStore p trunks) (hin : InUse p trunks pages) (hx : x ∈ pages)
    (hsub : ks'.Sublist ks) :
    PageType.headerSize .leafIndex + (ks'.map IndexKey.bytes).length * 2 +
      (ks'.map IndexKey.bytes).flatten.length ≤ p.1.pageSize := by
  have hlen := length_shown h hin hx hleaf.shown
  have hroom := hleaf.carries.room
  have hpacked := hleaf.carries.packed
  have hcells := (hsub.map IndexKey.bytes).flatten.length_le
  have hcount := hsub.length_le
  rw [List.length_map] at hroom ⊢
  omega

theorem promoteIndexRootAt_spec (t : PageType) (leftRight rightMost : Option UInt32)
    (h : SoundStore p trunks) (hin : InUse p trunks pages)
    (hx : x ∈ pages) (hone : x ≠ 1) (hleft : t.isLeaf = true → leftRight = none)
    (hright : t.isLeaf = true → rightMost = none) (hls : ∀ b ∈ ls, 0 < b.length)
    (hrs : ∀ b ∈ rs, 0 < b.length)
    (hfitLeft : t.headerSize + ls.length * 2 + ls.flatten.length ≤ p.1.pageSize)
    (hfitRight : t.headerSize + rs.length * 2 + rs.flatten.length ≤ p.1.pageSize)
    (hk : k.Local p.1.geometry.usableSize encoding asI64) :
    SameOn p (endOf (promoteIndexRootAt x t leftRight rightMost ls rs k.entry.1) p) pages ∨
      ∃ left right, Promoted encoding asI64 p
        (endOf (promoteIndexRootAt x t leftRight rightMost ls rs k.entry.1) p) pages x t leftRight
        rightMost ls rs k left right := by
  set usable := p.1.geometry.usableSize with husable
  rw [promoteIndexRootAt, endOf_bind (show getState p = .ok p.1 p from rfl), ← husable]
  have hspec := h.allocatePage
  cases halloc : allocatePage p with
  | error e p₁ =>
      rw [halloc] at hspec
      left
      rw [endOf_bind_error halloc]
      exact hin.sameOn hspec.2
  | ok left p₁ =>
  rw [halloc] at hspec
  obtain ⟨hleftOne, -, rest₁, h₁⟩ := hspec
  have hin₁ : InUse p₁ rest₁ (left :: pages) := (h₁.frame hin :)
  have hview₁ : ∀ y ∈ pages, pageSeen p₁.1 p₁.2.disk y = pageSeen p.1 p.2.disk y :=
    (h₁.view hin :)
  have hsize₁ : p₁.1.pageSize = p.1.pageSize := h₁.grows.pageSize
  have hleftOut : ∀ y ∈ pages, y ≠ left := fun y hy heq =>
    (List.nodup_cons.mp hin₁.nodup).1 (heq ▸ hy)
  have hbaseLeft : btreeHeaderOffset left = 0 := if_neg hleftOne
  obtain ⟨p₂, lpage, lhdr, hrun₂, hrep₂, hnew₂⟩ := writeNewPage_ok t leftRight ls h₁.sound
    (hin₁.single (x := left) (by simp))
    hleft hls (by rw [hbaseLeft, hsize₁]; omega)
  have h₂ := hrep₂.rewrites hin₁ (y := left) (by simp)
  have hview₂ : ∀ y ∈ pages, pageSeen p₂.1 p₂.2.disk y = pageSeen p.1 p.2.disk y := fun y hy =>
    (h₂.view y (by simp [hy]) (by simpa using hleftOut y hy)).trans (hview₁ y hy)
  have hgeometry₂ : p₂.1.geometry = p.1.geometry := h₂.geometry.trans h₁.grows.geometry
  rw [endOf_bind halloc, endOf_bind hrun₂]
  have hspec₂ := h₂.sound.allocatePage
  cases halloc₂ : allocatePage p₂ with
  | error e p₃ =>
      rw [halloc₂] at hspec₂
      left
      rw [endOf_bind_error halloc₂]
      have hsame := h₂.inUse.sameOn hspec₂.2
      exact ⟨hsame.geometry.trans hgeometry₂,
        fun y hy => (hsame.view y (by simp [hy])).trans (hview₂ y hy)⟩
  | ok right p₃ =>
  rw [halloc₂] at hspec₂
  obtain ⟨hrightOne, -, rest₂, h₃⟩ := hspec₂
  have hin₃ : InUse p₃ rest₂ (right :: left :: pages) := (h₃.frame h₂.inUse :)
  have hview₃ : ∀ y ∈ left :: pages, pageSeen p₃.1 p₃.2.disk y = pageSeen p₂.1 p₂.2.disk y :=
    (h₃.view h₂.inUse :)
  have hsize₃ : p₃.1.pageSize = p.1.pageSize := by
    rw [h₃.grows.pageSize, h₂.pageSize, hsize₁]
  have hrightOut : ∀ y ∈ left :: pages, y ≠ right := fun y hy heq =>
    (List.nodup_cons.mp hin₃.nodup).1 (heq ▸ hy)
  have hbaseRight : btreeHeaderOffset right = 0 := if_neg hrightOne
  obtain ⟨p₄, rpage, rhdr, hrun₄, hrep₄, hnew₄⟩ := writeNewPage_ok t rightMost rs h₃.sound
    (hin₃.single (x := right) (by simp))
    hright hrs (by rw [hbaseRight, hsize₃]; omega)
  have h₄ := hrep₄.rewrites hin₃ (y := right) (by simp)
  have hxin : x ∈ right :: left :: pages := by simp [hx]
  have hbase : btreeHeaderOffset x = 0 := if_neg hone
  have hsize₄ : p₄.1.pageSize = p.1.pageSize := by rw [h₄.pageSize, hsize₃]
  have hcell := hk.fits left
  obtain ⟨q, page, hdr, hrun₅, hrep₅, hnew₅⟩ := writeNewPage_ok .interiorIndex (some right)
    [IndexDivider.bytes ⟨left, .built k.entry⟩] h₄.sound
    (h₄.inUse.single hxin) (by simp [PageType.isLeaf])
    (by
      rw [List.forall_mem_singleton]
      exact IndexDivider.bytes_pos (d := ⟨left, .built k.entry⟩) hk.built)
    (by
      have h12 : PageType.headerSize .interiorIndex = 12 := rfl
      rw [hbase, hsize₄, h12, List.length_singleton]
      omega)
  have h₅ := hrep₅.rewrites h₄.inUse (y := x) hxin
  right
  refine ⟨left, right, ?_⟩
  rw [endOf_bind halloc₂, endOf_bind hrun₄, endOf_bind (buildIndexInteriorCell_ok hk left p₄),
    endOf_ok hrun₅]
  have hgeometry₃ : p₃.1.geometry = p.1.geometry := h₃.grows.geometry.trans hgeometry₂
  have hlx : left ≠ x := (hleftOut x hx).symm
  have hrx : right ≠ x := (hrightOut x (by simp [hx])).symm
  have hlr : left ≠ right := hrightOut left (by simp)
  refine ⟨h₅.geometry.trans (h₄.geometry.trans hgeometry₃), ⟨lpage, lhdr, ?_, hnew₂.carries⟩,
    ⟨rpage, rhdr, ?_, hnew₄.carries⟩, ⟨page, hdr, hnew₅.shown, hnew₅.carries, ?_⟩,
    fun y hy hyx => ?_⟩
  · rw [h₅.view left (by simp) (by simp [hlx]), h₄.view left (by simp) (by simp [hlr]),
      hview₃ left (by simp), hnew₂.shown]
  · rw [h₅.view right (by simp) (by simp [hrx]), hnew₄.shown]
  · rw [List.forall_mem_singleton]
    exact hk.built
  · rw [h₅.view y (by simp [hy]) (by simp [hyx]),
      h₄.view y (by simp [hy]) (by simpa using hrightOut y (by simp [hy])),
      hview₃ y (by simp [hy]), hview₂ y hy]

theorem promoteIndexRoot_wrongType (hp : p.2.failAt = none)
    (hshown : pageSeen p.1 p.2.disk x = .ok page)
    (hparse : PageHeader.parse page (btreeHeaderOffset x) = .ok hdr) (ht : hdr.pageType ≠ t) :
    ∃ p₁ e, Quiet p p₁ ∧ promoteIndexRoot x t p = .error e p₁ := by
  obtain ⟨p₁, hread, h₁⟩ := readPageForWrite_ok hp hshown
  refine ⟨p₁, .corrupt s!"promote_index_root: root is not a {t.debug} page", h₁, ?_⟩
  rw [promoteIndexRoot, getState_bind, bind_ok hread]
  simp only [hparse, liftResult_ok_bind, if_pos ht]
  rfl

theorem promoteIndexRoot_leaf (hp : p.2.failAt = none)
    (hleaf : LocalLeafAt p.1.geometry.usableSize encoding asI64 (pageSeen p.1 p.2.disk) x ks page
      hdr) :
    ∃ p₁, Quiet p p₁ ∧ ((∃ e, promoteIndexRoot x .leafIndex p = .error e p₁) ∨
      ∃ k, ∃ hk : k < ks.length, promoteIndexRoot x .leafIndex p =
        promoteIndexRootAt x .leafIndex none none ((ks.map IndexKey.bytes).take k)
          ((ks.map IndexKey.bytes).drop (k + 1)) ks[k].entry.1 p₁) := by
  obtain ⟨p₁, hread, h₁⟩ := readPageForWrite_ok hp hleaf.shown
  refine ⟨p₁, h₁, ?_⟩
  set usable := p.1.geometry.usableSize with husable
  have hinterior : (PageType.leafIndex == PageType.interiorIndex) = false := rfl
  by_cases hempty : hdr.numCells = 0
  · refine .inl ⟨.corrupt "promote_index_root called on an empty page", ?_⟩
    rw [promoteIndexRoot, getState_bind, bind_ok hread]
    simp only [hleaf.carries.parse, liftResult_ok_bind, hleaf.carries.pageType_eq, ne_eq,
      not_true_eq_false, if_false, if_pos hempty]
    rfl
  set k := splitPoint usable (ks.map IndexKey.bytes) with hk
  have hrun : promoteIndexRoot x .leafIndex p = (do
      let divider ← liftResult (rootDivider false (ks.map IndexKey.bytes) k usable none)
      let rightCells ← liftResult (cellsBehind (ks.map IndexKey.bytes) k)
      promoteIndexRootAt x .leafIndex divider.2 none ((ks.map IndexKey.bytes).take k) rightCells
        divider.1 : PagerM Unit) p₁ := by
    rw [promoteIndexRoot, getState_bind, ← husable, bind_ok hread]
    simp only [hleaf.carries.parse, liftResult_ok_bind, hleaf.carries.pageType_eq, ne_eq,
      not_true_eq_false, if_false, if_neg hempty, hinterior, indexCells_leaf hleaf, ← hk,
      Bool.false_eq_true]
  by_cases hplace : k < ks.length
  · refine .inr ⟨k, hplace, ?_⟩
    have hcell : (ks.map IndexKey.bytes)[k]? = some ks[k].bytes := by simp [hplace]
    have hkey := (hleaf.valid ks[k] (List.getElem_mem hplace)).holds.indexKeyFromLeafCell
    have hdivider : rootDivider false (ks.map IndexKey.bytes) k usable none =
        .ok (ks[k].entry.1, none) := by
      simp only [rootDivider, hcell, hkey, Result.ok_bind]
      rfl
    have hbehind : cellsBehind (ks.map IndexKey.bytes) k =
        .ok ((ks.map IndexKey.bytes).drop (k + 1)) := if_neg (by rw [List.length_map]; omega)
    rw [hrun, hdivider, hbehind]
    rfl
  · refine .inl ⟨.panic "index out of bounds", ?_⟩
    have hcell : (ks.map IndexKey.bytes)[k]? = none := List.getElem?_eq_none (by simpa using hplace)
    have hdivider : rootDivider false (ks.map IndexKey.bytes) k usable none =
        .error (.panic "index out of bounds") := by
      simp only [rootDivider, hcell]
    rw [hrun, hdivider]
    rfl

theorem promoteIndexRoot_node (hp : p.2.failAt = none) {ds : List IndexDivider} {right : UInt32}
    (hnode : LocalNodeAt p.1.geometry.usableSize encoding asI64 (pageSeen p.1 p.2.disk) x ds right
      page hdr) :
    ∃ p₁, Quiet p p₁ ∧ ((∃ e, promoteIndexRoot x .interiorIndex p = .error e p₁) ∨
      ∃ k, ∃ hk : k < ds.length, promoteIndexRoot x .interiorIndex p =
        promoteIndexRootAt x .interiorIndex (some ds[k].child) (some right)
          ((ds.map IndexDivider.bytes).take k) ((ds.map IndexDivider.bytes).drop (k + 1))
          ds[k].entry.1 p₁) := by
  obtain ⟨p₁, hread, h₁⟩ := readPageForWrite_ok hp hnode.shown
  refine ⟨p₁, h₁, ?_⟩
  set usable := p.1.geometry.usableSize with husable
  have hinterior : (PageType.interiorIndex == PageType.interiorIndex) = true := rfl
  by_cases hempty : hdr.numCells = 0
  · refine .inl ⟨.corrupt "promote_index_root called on an empty page", ?_⟩
    rw [promoteIndexRoot, getState_bind, bind_ok hread]
    simp only [hnode.carries.parse, liftResult_ok_bind, hnode.carries.pageType_eq, ne_eq,
      not_true_eq_false, if_false, if_pos hempty]
    rfl
  set k := splitPoint usable (ds.map IndexDivider.bytes) with hk
  have hrun : promoteIndexRoot x .interiorIndex p = (do
      let divider ← liftResult (rootDivider true (ds.map IndexDivider.bytes) k usable (some right))
      let rightCells ← liftResult (cellsBehind (ds.map IndexDivider.bytes) k)
      promoteIndexRootAt x .interiorIndex divider.2 (some right)
        ((ds.map IndexDivider.bytes).take k) rightCells divider.1 : PagerM Unit) p₁ := by
    rw [promoteIndexRoot, getState_bind, ← husable, bind_ok hread]
    simp only [hnode.carries.parse, liftResult_ok_bind, hnode.carries.pageType_eq, ne_eq,
      not_true_eq_false, if_false, if_neg hempty, hinterior, indexCells_node hnode, ← hk, if_true,
      hnode.rightMost]
  by_cases hplace : k < ds.length
  · refine .inr ⟨k, hplace, ?_⟩
    have hcell : (ds.map IndexDivider.bytes)[k]? = some ds[k].bytes := by simp [hplace]
    have hlocal := hnode.valid ds[k] (List.getElem_mem hplace)
    have hkey : indexKeyFromInteriorCell ds[k].bytes usable = .ok ds[k].entry.1 :=
      hlocal.holds.indexKeyFromInteriorCell
    have hstands : StandsAt (be32 ds[k].child ++ ds[k].key.bytes) ds[k].bytes 0 := ⟨[], by
      simp [IndexDivider.bytes]⟩
    have hdivider : rootDivider true (ds.map IndexDivider.bytes) k usable (some right) =
        .ok (ds[k].entry.1, some ds[k].child) := by
      simp only [rootDivider, hcell, hkey, pointerAt_standsAt hstands, Result.ok_bind]
      rfl
    have hbehind : cellsBehind (ds.map IndexDivider.bytes) k =
        .ok ((ds.map IndexDivider.bytes).drop (k + 1)) := if_neg (by rw [List.length_map]; omega)
    rw [hrun, hdivider, hbehind]
    rfl
  · refine .inl ⟨.panic "range start index out of range", ?_⟩
    have hbehind : cellsBehind (ds.map IndexDivider.bytes) k =
        .error (.panic "range start index out of range") :=
      if_pos (by rw [List.length_map]; omega)
    have hcell : (ds.map IndexDivider.bytes)[k]? = none :=
      List.getElem?_eq_none (by simpa using hplace)
    have hdivider : rootDivider true (ds.map IndexDivider.bytes) k usable (some right) =
        .ok ([], some right) := by
      simp only [rootDivider, hcell]
    rw [hrun, hdivider, hbehind]
    rfl

end Run

/-! ## What becomes of the entries -/

section Entries

variable {encoding : TextEncoding} {asI64 : Value → Int64} {p q : PagerState × World DbFile}
  {trunks : List (UInt32 × List UInt32)} {pages : List UInt32} {root x left right : UInt32}
  {t : PageType} {leftRight rightMost : Option UInt32} {ls rs : List Bytes} {k : IndexKey}
  {es : List (Bytes × Int64)}

theorem Promoted.subtree {d : Nat} {lpages rpages : List UInt32} {les res : List (Bytes × Int64)}
    (h : Promoted encoding asI64 p q pages x t leftRight rightMost ls rs k left right)
    (hleft : LocalIndex p.1.geometry.usableSize encoding asI64 (pageSeen q.1 q.2.disk) d left lpages
      les)
    (hright : LocalIndex p.1.geometry.usableSize encoding asI64 (pageSeen q.1 q.2.disk) d
        right rpages
      res) :
    LocalIndex p.1.geometry.usableSize encoding asI64 (pageSeen q.1 q.2.disk) (d + 1) x
      (x :: (lpages ++ rpages)) (les ++ k.entry :: res) := by
  obtain ⟨page, hdr, habove⟩ := h.above
  have hthread := (Threaded.cons (d := ⟨left, .built k.entry⟩) hleft (.last hright) :
    Threaded _ IndexDivider.child IndexDivider.entry _ _ _ _)
  exact .inr ⟨_, right, page, hdr, _, habove, hthread, rfl⟩

theorem promoteIndexRoot_entries (h : IndexSite encoding asI64 p trunks root pages es)
    (hx : x ∈ pages) (t : PageType) :
    EntriesAre encoding asI64 (endOf (promoteIndexRoot x t) p) root es := by
  obtain ⟨depth, htree⟩ := h.tree
  obtain ⟨d, inner, within, front, back, hat, hinner, rfl, hput⟩ := htree.focus h.inUse.nodup hx
  have hone : x ≠ 1 := fun heq => h.first (heq ▸ hx)
  have hnodup := h.inUse.nodup.sublist hinner
  have hxin := hat.root_mem
  -- an error before anything is written
  have hquiet : ∀ {e : Error} {p₁ : PagerState × World DbFile}, Quiet p p₁ →
      promoteIndexRoot x t p = .error e p₁ →
      EntriesAre encoding asI64 (endOf (promoteIndexRoot x t) p) root (front ++ within ++
          back) := by
    intro e p₁ h₁ hrun
    rw [endOf_error hrun]
    exact h.kept (h₁.sameOn pages)
  -- two new pages that hold what the subtree held
  have hthrough : ∀ {p₁ q : PagerState × World DbFile} {leftRight rightMost : Option UInt32}
      {ls rs : List Bytes} {k : IndexKey}, Quiet p p₁ →
      (SameOn p₁ q pages ∨ ∃ left right, Promoted encoding asI64 p₁ q pages x t leftRight
          rightMost ls
        rs k left right) →
      (∀ {left right : UInt32}, Promoted encoding asI64 p₁ q pages x t leftRight rightMost ls rs k
        left right → ∃ d' inner', LocalIndex p.1.geometry.usableSize encoding asI64
          (pageSeen q.1 q.2.disk) d' x inner' within) →
      EntriesAre encoding asI64 q root (front ++ within ++ back) := by
    intro p₁ q leftRight rightMost ls rs k h₁ hcases htrees
    rcases hcases with hsame | ⟨left, right, hpromoted⟩
    · exact h.kept ((h₁.sameOn pages).trans hsame)
    · obtain ⟨d', inner', htree'⟩ := htrees hpromoted
      have hothers : ∀ y ∈ pages, y ∉ inner →
          pageSeen q.1 q.2.disk y = pageSeen p.1 p.2.disk y := fun y hy hyout => by
        rw [hpromoted.others y hy fun heq => hyout (heq ▸ hxin), h₁.view]
      obtain ⟨depth', pages', hroot⟩ := hput hothers htree'
      have hgeometry := hpromoted.geometry.trans h₁.geometry
      rw [← hgeometry] at hroot
      exact hroot.entriesAre
  cases d with
  | zero => exact hat.elim
  | succ d =>
      rcases hat with ⟨ks, page, hdr, hleaf, rfl, rfl⟩ |
        ⟨ds, rightMost, page, hdr, below, hnode, hthread, rfl⟩
      · by_cases ht : hdr.pageType = t
        swap
        · obtain ⟨p₁, e, h₁, hrun⟩ :=
            promoteIndexRoot_wrongType h.store.failAt hleaf.shown hleaf.carries.parse ht
          exact hquiet h₁ hrun
        obtain rfl : PageType.leafIndex = t := hleaf.carries.pageType_eq.symm.trans ht
        obtain ⟨p₁, h₁, ⟨e, hrun⟩ | ⟨k, hk, hrun⟩⟩ := promoteIndexRoot_leaf h.store.failAt hleaf
        · exact hquiet h₁ hrun
        have hsite := h.store.quiet h₁
        have hin₁ := (hsite.aside h.inUse).1
        have hlocal := hleaf.valid ks[k] (List.getElem_mem hk)
        have hleaf₁ := hleaf.congr (h₁.view x)
        rw [← h₁.geometry] at hlocal hleaf₁
        rw [← List.map_take, ← List.map_drop] at hrun
        have htake := List.take_sublist k ks
        have hdrop := List.drop_sublist (k + 1) ks
        have hspec := promoteIndexRootAt_spec .leafIndex none none hsite.sound hin₁ hx hone
            (fun _ => rfl) (fun _ => rfl)
          (hleaf₁.bytes_pos htake) (hleaf₁.bytes_pos hdrop)
          (hleaf₁.fits hsite.sound hin₁ hx htake) (hleaf₁.fits hsite.sound hin₁ hx hdrop) hlocal
        rw [endOf, hrun, ← endOf]
        refine hthrough h₁ hspec fun {left right} hpromoted => ?_
        obtain ⟨lpage, lhdr, hlshown, hlcarries⟩ := hpromoted.leftPage
        obtain ⟨rpage, rhdr, hrshown, hrcarries⟩ := hpromoted.rightPage
        have htree' := hpromoted.subtree (d := 1)
          (.inl ⟨ks.take k, lpage, lhdr, ⟨hlshown, hlcarries, fun k hk =>
            hleaf₁.valid k (htake.subset hk)⟩, rfl, rfl⟩)
          (.inl ⟨ks.drop (k + 1), rpage, rhdr, ⟨hrshown, hrcarries, fun k hk =>
            hleaf₁.valid k (hdrop.subset hk)⟩, rfl, rfl⟩)
        rw [← List.map_cons, ← List.map_append, ← List.drop_eq_getElem_cons hk,
          List.take_append_drop, h₁.geometry] at htree'
        exact ⟨_, _, htree'⟩
      · by_cases ht : hdr.pageType = t
        swap
        · obtain ⟨p₁, e, h₁, hrun⟩ :=
            promoteIndexRoot_wrongType h.store.failAt hnode.shown hnode.carries.parse ht
          exact hquiet h₁ hrun
        obtain rfl : PageType.interiorIndex = t := hnode.carries.pageType_eq.symm.trans ht
        obtain ⟨p₁, h₁, ⟨e, hrun⟩ | ⟨k, hk, hrun⟩⟩ := promoteIndexRoot_node h.store.failAt hnode
        · exact hquiet h₁ hrun
        have hsite := h.store.quiet h₁
        have hin₁ := (hsite.aside h.inUse).1
        have hlocal := hnode.valid ds[k] (List.getElem_mem hk)
        have hnode₁ := hnode.congr (h₁.view x)
        rw [← h₁.geometry] at hlocal hnode₁
        rw [← List.map_take, ← List.map_drop] at hrun
        have htake := List.take_sublist k ds
        have hdrop := List.drop_sublist (k + 1) ds
        have hspec := promoteIndexRootAt_spec .interiorIndex
          (some ds[k].child) (some rightMost) hsite.sound hin₁ hx hone
          (by simp [PageType.isLeaf]) (by simp [PageType.isLeaf])
          (hnode₁.bytes_pos htake) (hnode₁.bytes_pos hdrop)
          (hnode₁.fits hsite.sound hin₁ hx htake) (hnode₁.fits hsite.sound hin₁ hx hdrop) hlocal
        rw [endOf, hrun, ← endOf]
        refine hthrough h₁ hspec fun {left right} hpromoted => ?_
        obtain ⟨lpage, lhdr, hlshown, hlcarries⟩ := hpromoted.leftPage
        obtain ⟨rpage, rhdr, hrshown, hrcarries⟩ := hpromoted.rightPage
        have hsplit : ds = ds.take k ++ ds[k] :: ds.drop (k + 1) := by
          rw [← List.drop_eq_getElem_cons hk, List.take_append_drop]
        rw [hsplit] at hthread
        obtain ⟨lbelow, les, rbelow, res, hl, hr, rfl, rfl⟩ := hthread.cut
        -- the subtrees below are as they were
        have hbelow : ∀ y ∈ lbelow ++ rbelow, _ = _ := fun y hy =>
          (hpromoted.others y (hinner.subset (List.mem_cons_of_mem _ hy)) fun heq =>
            (List.nodup_cons.mp hnodup).1 (heq ▸ hy)).trans (h₁.view y)
        have hl' := hl.imp fun _ ps _ hps htree => htree.congr fun y hy =>
          hbelow y (List.mem_append_left _ (hps hy))
        have hr' := hr.imp fun _ ps _ hps htree => htree.congr fun y hy =>
          hbelow y (List.mem_append_right _ (hps hy))
        rw [← h₁.geometry] at hl' hr'
        have htree' := hpromoted.subtree (d := d + 1)
          (.inr ⟨ds.take k, ds[k].child, lpage, lhdr, lbelow, ⟨hlshown, hlcarries, fun d hd =>
            hnode₁.valid d (htake.subset hd)⟩, hl', rfl⟩)
          (.inr ⟨ds.drop (k + 1), rightMost, rpage, rhdr, rbelow, ⟨hrshown, hrcarries, fun d hd =>
            hnode₁.valid d (hdrop.subset hd)⟩, hr', rfl⟩)
        rw [h₁.geometry] at htree'
        exact ⟨_, _, htree'⟩

/--
Splits and promotions keep the sequence of the entries, whatever becomes of
them.  A page that has no parent to take the divider hands it to the caller.
-/
theorem indexBalance_keeps_entries (h : IndexSite encoding asI64 p trunks root pages es) :
    (∀ parent ∈ pages, ∀ x, IndexChildOf (pageSeen p.1 p.2.disk) parent x →
      EntriesAre encoding asI64 (endOf (splitIndexInteriorPage x (some parent)) p) root es) ∧
    (EntriesAre encoding asI64 (endOf (splitIndexInteriorPage root none) p) root es ∨
      ∃ new key rowid ls rs q, splitIndexInteriorPage root none p = .ok (new, key) q ∧
        EntriesAre encoding asI64 q root ls ∧ EntriesAre encoding asI64 q new rs ∧
        es = ls ++ (key, rowid) :: rs) ∧
    ∀ x ∈ pages, ∀ t, EntriesAre encoding asI64 (endOf (promoteIndexRoot x t) p) root es :=
  ⟨fun _ hparent _ hchild => splitIndexInteriorPage_entries h hparent hchild,
    splitIndexInteriorPage_alone h, fun _ hx t => promoteIndexRoot_entries h hx t⟩

end Entries

/-! ## A small index -/

def blobEntry (k : Int64) : Bytes × Int64 := (encodeRecord [.blob (List.replicate 80 0), .int k], k)

def blobLeaf (k : Int64) : List IndexKey := [.built (blobEntry k)]

def blobDivider (child : UInt32) (k : Int64) : IndexDivider := ⟨child, .built (blobEntry k)⟩

def blobTop : List IndexDivider := [blobDivider 3 11]

def blobNode : List IndexDivider :=
  [blobDivider 4 3, blobDivider 5 5, blobDivider 6 7, blobDivider 7 9]

def blobPages : List Bytes :=
  [layOut .interiorIndex (some 9) (blobTop.map IndexDivider.bytes),
    layOut .interiorIndex (some 8) (blobNode.map IndexDivider.bytes)] ++
    [2, 4, 6, 8, 10, 12].map fun k => layOut .leafIndex none ((blobLeaf k).map IndexKey.bytes)

/-- A root above an interior page with five leaves and above another leaf. -/
def blobIndex : PagerState × World DbFile := databaseWith blobPages

def blobEntries : List (Bytes × Int64) := [2, 3, 4, 5, 6, 7, 8, 9, 10, 11, 12].map blobEntry

variable {k : Int64} {i : Nat}

theorem blobEntry_local (hk : k ∈ [2, 3, 4, 5, 6, 7, 8, 9, 10, 11, 12]) :
    (IndexKey.built (blobEntry k)).Local 512 .utf8 intValue ∧
      (IndexKey.built (blobEntry k)).bytes.length = 86 := by
  have hall : ([2, 3, 4, 5, 6, 7, 8, 9, 10, 11, 12].all fun k : Int64 =>
      readVarint (IndexKey.built (blobEntry k)).bytes = some (85, 1) ∧
      (blobEntry k).1.length = 85 ∧ (IndexKey.built (blobEntry k)).bytes.length = 86 ∧
      (IndexKey.built (blobEntry k)).bytes.drop 1 = (blobEntry k).1 ∧
      keyRecordRowid .utf8 intValue (blobEntry k).1 = .ok k) = true := by decide
  have hk' := List.all_eq_true.mp hall k hk
  rw [decide_eq_true_iff] at hk'
  obtain ⟨hread, hlen, hsize, hdrop, hrowid⟩ := hk'
  exact ⟨⟨⟨85, 1, hread, hlen.symm, by rw [IndexKey.built, hlen]; decide, hdrop⟩, hrowid⟩, hsize⟩

set_option maxRecDepth 10000 in
theorem blobPages_ok : PagesOk blobPages where
  size page hpage := by
    have hall : (blobPages.all fun page => page.length == 512) = true := by decide
    exact beq_iff_eq.mp (List.all_eq_true.mp hall page hpage)
  count := by decide

theorem blobLeaf_at {pgno : UInt32} (hpgno : pgno.toNat = i + 4)
    (hi : [(2 : Int64), 4, 6, 8, 10, 12][i]? = some k) :
    LocalIndex 512 .utf8 intValue (pageSeen blobIndex.1 blobIndex.2.disk) 1 pgno [pgno]
      [blobEntry k] := by
  have hsub : [(2 : Int64), 4, 6, 8, 10, 12] ⊆ [2, 3, 4, 5, 6, 7, 8, 9, 10, 11, 12] := by decide
  obtain ⟨hlocal, hlen⟩ := blobEntry_local (hsub (List.mem_of_getElem? hi))
  have hpage : blobPages[i + 2]? =
      some (layOut .leafIndex none ((blobLeaf k).map IndexKey.bytes)) := by
    rw [blobPages, List.getElem?_append_right (Nat.le_add_left 2 i), List.getElem?_map]
    exact congrArg (Option.map _) hi
  have hview := (blobPages_ok).shows hpage (show pgno.toNat = i + 2 + 2 by omega)
  obtain ⟨-, hdr, hcarries, -⟩ := layOut_carries .leafIndex none
    ((blobLeaf k).map IndexKey.bytes) (fun _ => rfl)
    (by simpa [blobLeaf] using hlocal.holds.pos)
    (by simp [blobLeaf, PageType.headerSize, PageType.isLeaf]; omega)
  have hbase : btreeHeaderOffset pgno = 0 := if_neg fun heq => by simp [heq] at hpgno
  refine .inl ⟨blobLeaf k, _, hdr, ⟨hview, hbase.symm ▸ hcarries, ?_⟩, rfl, rfl⟩
  simpa [blobLeaf] using hlocal

theorem blobNode_at (pgno right : UInt32) (ds : List IndexDivider) (hpgno : pgno.toNat = i + 2)
    (hi : blobPages[i]? = some (layOut .interiorIndex (some right) (ds.map IndexDivider.bytes)))
    (hkeys : ∀ d ∈ ds, ∃ k ∈ [(2 : Int64), 3, 4, 5, 6, 7, 8, 9, 10, 11, 12],
      d.key = .built (blobEntry k)) (hfew : ds.length ≤ 4) :
    ∃ page hdr, LocalNodeAt 512 .utf8 intValue (pageSeen blobIndex.1 blobIndex.2.disk) pgno ds right
      page hdr := by
  have hvalid : ∀ d ∈ ds, d.key.Local 512 .utf8 intValue ∧ d.key.bytes.length = 86 := by
    intro d hd
    obtain ⟨k, hk, hkey⟩ := hkeys d hd
    rw [hkey]
    exact blobEntry_local hk
  have hbytes : ∀ b ∈ ds.map IndexDivider.bytes, b.length = 90 := by
    intro b hb
    obtain ⟨d, hd, rfl⟩ := List.mem_map.mp hb
    rw [IndexDivider.bytes, List.length_append, length_be32, (hvalid d hd).2]
  have hlen : (ds.map IndexDivider.bytes).flatten.length = ds.length * 90 := by
    rw [List.length_flatten, List.map_congr_left hbytes, List.map_const', List.sum_replicate,
      List.length_map, smul_eq_mul]
  obtain ⟨-, hdr, hcarries, -⟩ := layOut_carries .interiorIndex (some right)
    (ds.map IndexDivider.bytes) (by simp [PageType.isLeaf])
    (fun b hb => by rw [hbytes b hb]; decide)
    (by rw [hlen, List.length_map]; simp [PageType.headerSize, PageType.isLeaf]; omega)
  have hbase : btreeHeaderOffset pgno = 0 := if_neg fun heq => by
    rw [heq] at hpgno
    simp at hpgno
  exact ⟨_, hdr, (blobPages_ok).shows hi hpgno, hbase.symm ▸ hcarries, fun d hd => (hvalid d hd).1⟩

theorem indexSite_blobIndex :
    IndexSite .utf8 intValue blobIndex [] 2 [2, 3, 4, 5, 6, 7, 8, 9] blobEntries where
  store := (blobPages_ok).soundStore
  tree := by
    obtain ⟨page₂, hdr₂, htop⟩ := blobNode_at 2 9 (i := 0) blobTop rfl
      rfl (by simp [blobTop, blobDivider]) (by decide)
    obtain ⟨page₃, hdr₃, hnode⟩ := blobNode_at 3 8 (i := 1) blobNode rfl
      rfl (by simp [blobNode, blobDivider]) (by decide)
    have hinner : LocalIndex 512 .utf8 intValue (pageSeen blobIndex.1 blobIndex.2.disk) 2 3
        [3, 4, 5, 6, 7, 8] ([2, 3, 4, 5, 6, 7, 8, 9, 10].map blobEntry) :=
      .inr ⟨blobNode, 8, page₃, hdr₃, _, hnode,
        .cons (blobLeaf_at (i := 0) rfl rfl) <| .cons (blobLeaf_at (i := 1) rfl rfl) <|
          .cons (blobLeaf_at (i := 2) rfl rfl) <| .cons (blobLeaf_at (i := 3) rfl rfl) <|
            .last (blobLeaf_at (i := 4) (k := 10) rfl rfl), rfl⟩
    have hlast : LocalIndex 512 .utf8 intValue (pageSeen blobIndex.1 blobIndex.2.disk) 1 9 [9]
        [blobEntry 12] := blobLeaf_at (i := 5) rfl rfl
    have hthread : Threaded (LocalIndex 512 .utf8 intValue
        (pageSeen blobIndex.1 blobIndex.2.disk) 2)
        IndexDivider.child IndexDivider.entry blobTop 9 ([3, 4, 5, 6, 7, 8] ++ [9])
        ([2, 3, 4, 5, 6, 7, 8, 9, 10].map blobEntry ++ blobEntry 11 :: [blobEntry 12]) :=
      .cons (d := blobDivider 3 11) hinner (.last hlast.succ)
    exact ⟨3, .inr ⟨blobTop, 9, page₂, hdr₂, _, htop, hthread, rfl⟩⟩
  inUse := (blobPages_ok).inUse (by decide) (by
    have hall : ([2, 3, 4, 5, 6, 7, 8, 9].all fun x : UInt32 =>
        x != 0 && decide (x.toNat ≤ blobPages.length + 1)) = true := by decide
    intro x hx
    have hok := List.all_eq_true.mp hall x hx
    rw [Bool.and_eq_true, decide_eq_true_iff, bne_iff_ne] at hok
    exact hok)
  first := by decide

/-- The page below the root is split, or it becomes the parent of its halves. -/
theorem indexBalance_keeps_blobIndex :
    EntriesAre .utf8 intValue (endOf (splitIndexInteriorPage 3 (some 2)) blobIndex) 2 blobEntries ∧
      EntriesAre .utf8 intValue (endOf (promoteIndexRoot 3 .interiorIndex) blobIndex) 2
        blobEntries := by
  obtain ⟨page, hdr, htop⟩ := blobNode_at 2 9 (i := 0) blobTop rfl rfl
    (by simp [blobTop, blobDivider]) (by decide)
  have hsite := indexSite_blobIndex
  obtain ⟨off, hoff, hstands⟩ := htop.cell (i := 0) (by decide)
  have hchild : IndexChildOf (pageSeen blobIndex.1 blobIndex.2.disk) 2 3 :=
    ⟨page, hdr, htop.shown, htop.carries.parse, htop.carries.pageType_eq,
      .inr ⟨0, by rw [htop.numCells]; decide, off, hoff, pointerAt_standsAt hstands⟩⟩
  obtain ⟨hsplit, -, hpromote⟩ := indexBalance_keeps_entries hsite
  exact ⟨hsplit 2 (by decide) 3 hchild, hpromote 3 (by decide) .interiorIndex⟩

end Rustqlite.Btree
