import Rustqlite.Btree.LeafSplit

/-!
# Running an insertion

An insertion ends at a leaf that has room, or goes on from one half of a page
that was split.  Below a page without a parent only new pages are taken.
-/

namespace Rustqlite.Btree

open Foundation Format Pager FileM

/-! ## Single steps -/

variable {left pgno : UInt32} {pageSize n usable : Nat} {rs : List StoredRow} {hdr : PageHeader}
  {rowid : Int64}

section Steps

variable {p : PagerState × World DbFile} {pgno right : UInt32} {ds : List Divider} {page : Bytes}
  {hdr : PageHeader} {rs : List StoredRow} {row : StoredRow}

theorem insert_descend (hp : p.2.failAt = none)
    (h : NodeAt (pageSeen p.1 p.2.disk) pgno ds right page hdr) (rowid : Int64) (cell : Bytes)
    (path : List UInt32) :
    ∃ q, Quiet p q ∧ ∀ fuel, insertWithSplitting (fuel + 1) pgno rowid cell path p =
      insertWithSplitting fuel (selected ds right rowid) rowid cell (pgno :: path) q := by
  obtain ⟨q, hget, hq⟩ := getPage_ok hp h.shown
  refine ⟨q, hq, fun fuel => ?_⟩
  rw [insertWithSplitting, bind_ok hget]
  simp only [h.carries.parse, liftResult_ok_bind, h.carries.pageType_eq, pickChild_ok h]

theorem insert_leaf (hp : p.2.failAt = none)
    (h : LeafOf p.1.geometry.usableSize (pageSeen p.1 p.2.disk) pgno rs page hdr) (fuel : Nat)
    (path : List UInt32) :
    ∃ q, Quiet p q ∧ insertWithSplitting (fuel + 1) pgno row.row.1 row.bytes path p =
      (match insertLeafCell page (btreeHeaderOffset pgno) (placeOf rs row.row.1) row.bytes with
      | .ok leaf => writePage pgno leaf
      | .error e =>
          if isPageFull e then do
            let target ← balanceLeaf pgno path row.row.1
            insertWithSplitting fuel target row.row.1 row.bytes []
          else throw e) q := by
  obtain ⟨p₁, hget, h₁⟩ := getPage_ok hp h.shown
  obtain ⟨q, hread, hq⟩ := readPageForWrite_ok h₁.failAt (h₁.view pgno ▸ h.shown)
  refine ⟨q, h₁.trans hq, ?_⟩
  rw [insertWithSplitting, bind_ok hget]
  simp only [h.carries.parse, liftResult_ok_bind, h.carries.pageType_eq, insertAtLeaf,
    leafInsertIndex_ok h]
  exact bind_ok hread

theorem isPageFull_pageFullError : isPageFull pageFullError = true := by decide

theorem insert_full (row : StoredRow) (hp : p.2.failAt = none)
    (h : LeafOf p.1.geometry.usableSize (pageSeen p.1 p.2.disk) pgno rs page hdr)
    (hfull : ¬ HasRoom pgno rs hdr row.bytes.length) (fuel : Nat) (path : List UInt32) :
    ∃ q, Quiet p q ∧ insertWithSplitting (fuel + 1) pgno row.row.1 row.bytes path p = (do
      let target ← balanceLeaf pgno path row.row.1
      insertWithSplitting fuel target row.row.1 row.bytes [] : PagerM Unit) q := by
  obtain ⟨q, hq, hrun⟩ := insert_leaf hp h fuel path
  refine ⟨q, hq, ?_⟩
  rw [hrun, insertLeafCell_full h (placeOf_le rs row.row.1) hfull]
  simp only [isPageFull_pageFullError, if_true]

variable {trunks : List (UInt32 × List UInt32)}

theorem insert_room (hs : SoundStore p trunks)
    (h : LeafOf p.1.geometry.usableSize (pageSeen p.1 p.2.disk) pgno rs page hdr)
    (hrow : row.Valid p.1.geometry.usableSize (pageSeen p.1 p.2.disk))
    (hin : InUse p trunks ([pgno] ++ chains (row :: rs)))
    (hroom : HasRoom pgno rs hdr row.bytes.length)
    (fuel : Nat) (path : List UInt32) :
    ∃ q page' hdr', insertWithSplitting (fuel + 1) pgno row.row.1 row.bytes path p = .ok () q ∧
      Replaced p q trunks trunks [pgno] [pgno] ∧
      LeafOf q.1.geometry.usableSize (pageSeen q.1 q.2.disk) pgno (placed rs row) page' hdr' ∧
      hdr'.cellContentStart = hdr.cellContentStart - row.bytes.length := by
  obtain ⟨p₁, hq₁, hrun⟩ := insert_leaf hs.failAt h fuel path
  obtain ⟨page', hdr', hinsert, hlen, hcarries, hstart⟩ := insertLeafCell_ok h hrow hroom
  have h₁ := (hs.quiet hq₁).widen hin.left
  obtain ⟨q, hwrite, hrep, hseen⟩ := h₁.sound.writePage h₁.inUse
    (show page'.length = p₁.1.pageSize by
      rw [hlen, h₁.grows.pageSize]
      exact length_shown hs hin (by simp) h.shown)
  have hall := h₁.trans hrep
  refine ⟨q, page', hdr', ?_, hall, ⟨hseen, hcarries, ?_⟩, hstart⟩
  · rw [hrun, hinsert]
    exact hwrite
  · have hvalid := valid_of_replaced hall hin (List.Subset.refl _)
      (by
        rw [List.forall_mem_cons]
        exact ⟨hrow, h.valid⟩)
    exact fun r hr => hvalid r ((placed_perm rs row).subset hr)

variable {divider : Int64} {new : UInt32}

theorem targetAfterPromotion_ok (hp : p.2.failAt = none)
    (h : NodeAt (pageSeen p.1 p.2.disk) pgno [.built left divider] right page hdr) (rowid : Int64) :
    ∃ q, targetAfterPromotion pgno rowid p = .ok (if rowid ≤ divider then left else right) q ∧
      Quiet p q := by
  obtain ⟨q, hget, hq⟩ := getPage_ok hp h.shown
  obtain ⟨off, hoff, hstands⟩ := h.cell (i := 0) (by simp)
  have hcell := (h.valid _ (List.getElem_mem _)).parse_at hstands
  refine ⟨q, ?_, hq⟩
  have hnum : hdr.numCells = 1 := h.numCells
  rw [targetAfterPromotion, bind_ok hget]
  simp only [h.carries.parse, liftResult_ok_bind, hnum, hoff, hcell, h.rightMost]
  by_cases hle : rowid ≤ divider
  · simp only [hle, List.getElem_cons_zero, Divider.built, if_true]
    rfl
  · simp only [hle, List.getElem_cons_zero, Divider.built, if_false]
    rfl

theorem CompactLeaf.quiet {q : PagerState × World DbFile} (h : CompactLeaf p pgno rs)
    (hq : Quiet p q) : CompactLeaf q pgno rs :=
  h.congr hq.geometry (hq.view pgno) fun x _ => hq.view x

theorem balanceLeaf_root (hs : SoundStore p trunks)
    (h : LeafOf p.1.geometry.usableSize (pageSeen p.1 p.2.disk) pgno rs page hdr)
    (hin : InUse p trunks ([pgno] ++ chains rs)) (rowid : Int64) :
    match balanceLeaf pgno [] rowid p with
    | .ok target q => rs ≠ [] ∧ ∃ left right rest, RootHalves p q trunks rest pgno left right rs ∧
        target = if rowid ≤ splitRowid p.1.geometry.usableSize rs then left else right
    | .error _ _ => rs = [] ∨ ¬ Spare p.1 trunks 2 := by
  have hspec := promoteRootAndSplit_spec hs h hin
  rw [balanceLeaf]
  cases hrun : promoteRootAndSplit pgno p with
  | error e q =>
      rw [hrun] at hspec
      rw [bind_error hrun]
      exact hspec
  | ok u q₁ =>
      rw [hrun] at hspec
      obtain ⟨hne, left, right, rest, hhalves⟩ := hspec
      obtain ⟨upage, uhdr, hroot⟩ := hhalves.atRoot
      obtain ⟨q, htarget, hq⟩ := targetAfterPromotion_ok hhalves.replaced.sound.failAt hroot rowid
      rw [bind_ok hrun, htarget]
      refine ⟨hne, left, right, rest, ⟨hhalves.left_ne_one, hhalves.right_ne_one, ?_,
        hhalves.atLeft.quiet hq, hhalves.atRight.quiet hq, upage, uhdr,
        hroot.congr (hq.view pgno)⟩, rfl⟩
      exact hhalves.replaced.trans
        ((hhalves.replaced.sound.quiet hq).widen hhalves.replaced.inUse)

theorem targetAfterSplit_found (hp : p.2.failAt = none)
    (h : NodeAt (pageSeen p.1 p.2.disk) pgno ds right page hdr) (hmem : new ∈ ds.map Divider.child)
    (rowid : Int64) : ∃ q, targetAfterSplit pgno new rowid p = .ok new q ∧ Quiet p q := by
  obtain ⟨q, hget, hq⟩ := getPage_ok hp h.shown
  refine ⟨q, ?_, hq⟩
  obtain ⟨i, hfind⟩ : ∃ i, (ds.map Divider.child).findIdx? (· = new) = some i := by
    rw [← Option.isSome_iff_exists, List.findIdx?_isSome, List.any_eq_true]
    exact ⟨new, hmem, by simp⟩
  have hloop := findChildLoop_ok (siblingAt page hdr) (ds.map Divider.child) new
    (fun j hj => by rw [List.getElem_map]; exact siblingAt_ok h (by simpa using hj))
    (show 0 + hdr.numCells = _ by simp [h.numCells])
  rw [List.drop_zero, hfind] at hloop
  rw [targetAfterSplit, bind_ok hget]
  simp only [h.carries.parse, liftResult_ok_bind, h.carries.pageType_eq, ne_eq, not_true_eq_false,
    if_false, hloop]
  rfl

theorem targetAfterSplit_last {leaf : UInt32} (hp : p.2.failAt = none)
    (h : NodeAt (pageSeen p.1 p.2.disk) pgno (ds ++ [.built leaf divider]) new page hdr)
    (hnot : new ∉ (ds ++ [Divider.built leaf divider]).map Divider.child) (rowid : Int64) :
    ∃ q, targetAfterSplit pgno new rowid p = .ok (if divider < rowid then new else leaf) q ∧
      Quiet p q := by
  obtain ⟨q, hget, hq⟩ := getPage_ok hp h.shown
  refine ⟨q, ?_, hq⟩
  set ds' := ds ++ [Divider.built leaf divider] with hds'
  have hfind : (ds'.map Divider.child).findIdx? (· = new) = none := by
    rw [List.findIdx?_eq_none_iff]
    intro x hx
    rw [decide_eq_false_iff_not]
    rintro rfl
    exact hnot hx
  have hloop := findChildLoop_ok (siblingAt page hdr) (ds'.map Divider.child) new
    (fun j hj => by rw [List.getElem_map]; exact siblingAt_ok h (by simpa using hj))
    (show 0 + hdr.numCells = _ by simp [h.numCells])
  rw [List.drop_zero, hfind, Option.map_none] at hloop
  have hnum : hdr.numCells ≠ 0 := by simp [h.numCells, hds']
  have hpred : hdr.numCells - 1 = ds.length := by simp [h.numCells, hds']
  obtain ⟨off, hoff, hstands⟩ := h.cell (i := ds.length) (by simp [hds'])
  have hcell := (h.valid _ (List.getElem_mem _)).parse_at hstands
  have hin : ds.length < ds'.length := by simp [hds']
  have hlast : ds'[ds.length] = .built leaf divider := by simp [hds']
  rw [hlast] at hcell
  rw [targetAfterSplit, bind_ok hget]
  simp only [h.carries.parse, liftResult_ok_bind, h.carries.pageType_eq, ne_eq, not_true_eq_false,
    if_false, hloop, h.rightMost, hnum, hpred, not_false_eq_true, and_self, if_true, hoff, hcell]
  rfl

end Steps

/-! ## Below a page without a parent -/

/-- After `k` halvings of the rows there is room for a cell of `n` bytes with this rowid. -/
inductive Settles (usable pageSize : Nat) (rowid : Int64) (n : Nat) :
    List StoredRow → Nat → Prop where
  | fits {rs : List StoredRow} (h : Fits pageSize rs n) : Settles usable pageSize rowid n rs 0
  | halve {rs : List StoredRow} {k : Nat} (hfull : ¬ Fits pageSize rs n) (hne : rs ≠ [])
      (h : Settles usable pageSize rowid n (halfFor usable rowid rs) k) :
      Settles usable pageSize rowid n rs (k + 1)

/-- A leaf without a parent has room, or gets it from `m` new pages. -/
inductive RoomAlone (usable pageSize : Nat) (pgno : UInt32) (rs : List StoredRow)
    (hdr : PageHeader) (rowid : Int64) (n : Nat) : Nat → Prop where
  | fits (h : HasRoom pgno rs hdr n) : RoomAlone usable pageSize pgno rs hdr rowid n 0
  | halve {k : Nat} (hfull : ¬ HasRoom pgno rs hdr n) (hne : rs ≠ [])
      (h : Settles usable pageSize rowid n (halfFor usable rowid rs) k) :
      RoomAlone usable pageSize pgno rs hdr rowid n (2 * (k + 1))

theorem hasRoom_compact (hone : pgno ≠ 1)
    (hstart : hdr.cellContentStart = pageSize - (rs.map StoredRow.bytes).flatten.length) :
    HasRoom pgno rs hdr n ↔ Fits pageSize rs n := by
  have hbase : btreeHeaderOffset pgno = 0 := if_neg hone
  rw [HasRoom, Fits, hbase, hstart]
  omega

theorem RoomAlone.settles {m : Nat} (h : RoomAlone usable pageSize pgno rs hdr rowid n m)
    (hone : pgno ≠ 1)
    (hstart : hdr.cellContentStart = pageSize - (rs.map StoredRow.bytes).flatten.length) :
    ∃ k, m = 2 * k ∧ Settles usable pageSize rowid n rs k := by
  cases h with
  | fits h => exact ⟨0, rfl, .fits ((hasRoom_compact hone hstart).mp h)⟩
  | @halve k hfull hne h =>
      exact ⟨k + 1, rfl, .halve (fun hfits =>
          hfull ((hasRoom_compact hone hstart).mpr hfits)) hne h⟩

inductive Grown (usable : Nat) (view : UInt32 → Result Bytes) (row : StoredRow) :
    UInt32 → List StoredRow → List UInt32 → Prop where
  | fits {pgno : UInt32} {rs : List StoredRow} {page : Bytes} {hdr : PageHeader}
      (h : LeafOf usable view pgno (placed rs row) page hdr) : Grown usable view row pgno rs [pgno]
  | left {pgno left right : UInt32} {rs : List StoredRow} {page page' : Bytes}
      {hdr hdr' : PageHeader} {pages : List UInt32} (hne : rs ≠ [])
      (h : NodeAt view pgno [.built left (splitRowid usable rs)] right page hdr)
      (hle : row.row.1 ≤ splitRowid usable rs)
      (hbelow : Grown usable view row left (leftRows usable rs) pages)
      (hright : LeafOf usable view right (rightRows usable rs) page' hdr') :
      Grown usable view row pgno rs (pgno :: (pages ++ [right]))
  | right {pgno left right : UInt32} {rs : List StoredRow} {page page' : Bytes}
      {hdr hdr' : PageHeader} {pages : List UInt32} (hne : rs ≠ [])
      (h : NodeAt view pgno [.built left (splitRowid usable rs)] right page hdr)
      (hlt : ¬ row.row.1 ≤ splitRowid usable rs)
      (hleft : LeafOf usable view left (leftRows usable rs) page' hdr')
      (hbelow : Grown usable view row right (rightRows usable rs) pages) :
      Grown usable view row pgno rs (pgno :: left :: pages)

section Alone

variable {p q : PagerState × World DbFile} {trunks : List (UInt32 × List UInt32)}
  {pgno : UInt32} {page : Bytes} {hdr : PageHeader} {rs : List StoredRow} {row : StoredRow}

variable {rs' : List StoredRow} {r : PagerState × World DbFile}
  {rest rest' : List (UInt32 × List UInt32)} {pages : List UInt32} {right : UInt32}
  {view : UInt32 → Result Bytes}

theorem chains_subset (h : rs' ⊆ rs) : chains rs' ⊆ chains rs := by
  intro x hx
  obtain ⟨r, hr, hxr⟩ := List.mem_flatMap.mp hx
  exact List.mem_flatMap.mpr ⟨r, h hr, hxr⟩

theorem chains_sublist (row : StoredRow) (rs : List StoredRow) :
    (chains rs).Sublist (chains (row :: rs)) := by
  rw [chains, chains, List.flatMap_cons]
  exact List.sublist_append_right _ _

theorem insert_into_half {root target other : UInt32}
    (h : Replaced p q trunks rest [root] [root, target, other])
    (hin : InUse p trunks ([root] ++ chains (row :: rs)))
    (hrest : Replaced q r rest rest' [target] pages) :
    Replaced p r trunks rest' [root] (root :: (pages ++ [other])) ∧
      (∀ x ∈ [root, other] ++ chains (row :: rs),
        pageSeen r.1 r.2.disk x = pageSeen q.1 q.2.disk x) := by
  have hall := h.frame hin
  have hperm : ([root, target, other] ++ chains (row :: rs)).Perm
      ([target] ++ ([root, other] ++ chains (row :: rs))) := List.Perm.swap ..
  have hin' := hall.perm hperm.symm
  have hsmall : InUse q rest ([target] ++ [root, other]) :=
    h.inUse.perm (List.Perm.swap ..)
  refine ⟨h.trans ((hrest.widen hsmall).perm (List.Perm.swap ..) ?_), hrest.view hin'⟩
  exact (List.perm_middle).symm

theorem Grown.of_left (h : RootHalves p q trunks rest pgno left right rs)
    (hin : InUse p trunks ([pgno] ++ chains (row :: rs))) (hne : rs ≠ [])
    (hle : row.row.1 ≤ splitRowid p.1.geometry.usableSize rs)
    (hrest : Replaced q r rest rest' [left] pages)
    (hgrown : Grown r.1.geometry.usableSize (pageSeen r.1 r.2.disk) row left
      (leftRows p.1.geometry.usableSize rs) pages) :
    Replaced p r trunks rest' [pgno] (pgno :: (pages ++ [right])) ∧
      Grown r.1.geometry.usableSize (pageSeen r.1 r.2.disk) row pgno rs
        (pgno :: (pages ++ [right])) := by
  obtain ⟨hall, hview⟩ := insert_into_half h.replaced hin hrest
  have hgeometry := hall.grows.geometry
  obtain ⟨upage, uhdr, hroot⟩ := h.atRoot
  obtain ⟨rpage, rhdr, hright, -⟩ := h.atRight
  refine ⟨hall, ?_⟩
  rw [hgeometry] at hgrown ⊢
  rw [h.replaced.grows.geometry] at hright
  refine .left hne (hroot.congr (hview pgno (by simp))) hle hgrown
    (hright.congr (hview right (by simp)) fun x hx => hview x ?_)
  exact List.mem_append_right _ (chains_subset
    (fun r hr => List.mem_cons_of_mem row (rightRows_subset hr)) hx)

theorem Grown.of_right (h : RootHalves p q trunks rest pgno left right rs)
    (hin : InUse p trunks ([pgno] ++ chains (row :: rs))) (hne : rs ≠ [])
    (hlt : ¬ row.row.1 ≤ splitRowid p.1.geometry.usableSize rs)
    (hrest : Replaced q r rest rest' [right] pages)
    (hgrown : Grown r.1.geometry.usableSize (pageSeen r.1 r.2.disk) row right
      (rightRows p.1.geometry.usableSize rs) pages) :
    Replaced p r trunks rest' [pgno] (pgno :: left :: pages) ∧
      Grown r.1.geometry.usableSize (pageSeen r.1 r.2.disk) row pgno rs
          (pgno :: left :: pages) := by
  obtain ⟨hall, hview⟩ := insert_into_half
    (h.replaced.perm (.refl _) ((List.Perm.swap left right []).cons pgno)) hin hrest
  have hgeometry := hall.grows.geometry
  obtain ⟨upage, uhdr, hroot⟩ := h.atRoot
  obtain ⟨lpage, lhdr, hleft, -⟩ := h.atLeft
  have hpages : (pgno :: left :: pages).Perm (pgno :: (pages ++ [left])) :=
    (List.perm_append_singleton left pages).symm.cons pgno
  refine ⟨hall.perm (.refl _) hpages, ?_⟩
  rw [hgeometry] at hgrown ⊢
  rw [h.replaced.grows.geometry] at hleft
  refine .right hne (hroot.congr (hview pgno (by simp))) hlt
    (hleft.congr (hview left (by simp)) fun x hx => hview x ?_) hgrown
  exact List.mem_append_right _ (chains_subset
    (fun r hr => List.mem_cons_of_mem row (leftRows_subset hr)) hx)

theorem RootHalves.next {rest : List (UInt32 × List UInt32)} {left right target : UInt32}
    {rs' : List StoredRow} (h : RootHalves p q trunks rest pgno left right rs)
    (hin : InUse p trunks ([pgno] ++ chains (row :: rs)))
    (hrow : row.Valid p.1.geometry.usableSize (pageSeen p.1 p.2.disk))
    (htarget : target ∈ [left, right]) (hsub : rs'.Sublist rs) :
    row.Valid q.1.geometry.usableSize (pageSeen q.1 q.2.disk) ∧
      InUse q rest ([target] ++ chains (row :: rs')) := by
  constructor
  · rw [h.replaced.grows.geometry]
    refine hrow.congr fun x hx => h.replaced.view hin x ?_
    exact List.mem_flatMap.mpr ⟨row, by simp, hx⟩
  · have hall := h.replaced.frame hin
    refine hall.sublist (List.Sublist.append ?_ ?_)
    · exact List.singleton_sublist.mpr (List.mem_cons_of_mem _ htarget)
    · exact (hsub.cons_cons row).flatMap _

theorem insert_alone_of_ok {fuel : Nat} (hs : SoundStore p trunks)
    (h : LeafOf p.1.geometry.usableSize (pageSeen p.1 p.2.disk) pgno rs page hdr)
    (hrow : row.Valid p.1.geometry.usableSize (pageSeen p.1 p.2.disk))
    (hin : InUse p trunks ([pgno] ++ chains (row :: rs)))
    (hrun : insertWithSplitting fuel pgno row.row.1 row.bytes [] p = .ok () q) :
    ∃ rest pages m, Replaced p q trunks rest [pgno] pages ∧
      Grown q.1.geometry.usableSize (pageSeen q.1 q.2.disk) row pgno rs pages ∧
      RoomAlone p.1.geometry.usableSize p.1.pageSize pgno rs hdr row.row.1 row.bytes.length m ∧
      pages.length = m + 1 := by
  induction fuel generalizing p trunks pgno rs page hdr with
  | zero => cases hrun
  | succ fuel ih =>
      by_cases hroom : HasRoom pgno rs hdr row.bytes.length
      · obtain ⟨q', page', hdr', hrun', hrep, hleaf, -⟩ :=
          insert_room hs h hrow hin hroom fuel []
        rw [hrun] at hrun'
        cases hrun'
        exact ⟨trunks, [pgno], 0, hrep, .fits hleaf, .fits hroom, rfl⟩
      · obtain ⟨p₁, hq₁, hrun₁⟩ := insert_full row hs.failAt h hroom fuel []
        rw [hrun] at hrun₁
        have hin₁ := ((hs.quiet hq₁).aside hin).1
        have hleaf₁ : LeafOf p₁.1.geometry.usableSize (pageSeen p₁.1 p₁.2.disk) pgno rs page
            hdr := by
          rw [hq₁.geometry]
          exact h.congr (hq₁.view pgno) fun x _ => hq₁.view x
        have hrow₁ : row.Valid p₁.1.geometry.usableSize (pageSeen p₁.1 p₁.2.disk) := by
          rw [hq₁.geometry]
          exact hrow.congr fun x _ => hq₁.view x
        have hbegin := ((hs.quiet hq₁).widen hin.left :)
        have hspec := balanceLeaf_root hbegin.sound hleaf₁
          (hin₁.sublist (List.Sublist.append_left (chains_sublist row rs) _)) row.row.1
        obtain ⟨target, p₂, hbalance, hnext⟩ := of_bind_ok hrun₁.symm
        rw [hbalance] at hspec
        obtain ⟨hne, left, right, rest, hhalves, htarget⟩ := hspec
        by_cases hle : row.row.1 ≤ splitRowid p₁.1.geometry.usableSize rs
        · rw [if_pos hle] at htarget
          subst htarget
          obtain ⟨lpage, lhdr, hleft, hstart⟩ := hhalves.atLeft
          obtain ⟨hrow₂, hin₂⟩ := hhalves.next hin₁ hrow₁ (show target ∈ _ by simp)
            (List.take_sublist _ rs)
          obtain ⟨rest', pages, m, hrest, hgrown, hroom', hlen⟩ :=
            ih hhalves.replaced.sound hleft hrow₂ hin₂ hnext
          obtain ⟨hall, hwhole⟩ := Grown.of_left hhalves hin₁ hne hle hrest hgrown
          obtain ⟨k, rfl, hsettles⟩ := hroom'.settles hhalves.left_ne_one hstart
          refine ⟨rest', _, _, hbegin.trans hall, hwhole, .halve hroom hne (k := k) ?_, ?_⟩
          · rw [hq₁.geometry] at hle
            rw [halfFor, if_pos hle, ← hq₁.geometry, ← hbegin.grows.pageSize,
              ← hhalves.replaced.grows.pageSize]
            rw [hhalves.replaced.grows.geometry] at hsettles
            exact hsettles
          · rw [List.length_cons, List.length_append, hlen, List.length_singleton]
            omega
        · rw [if_neg hle] at htarget
          subst htarget
          obtain ⟨rpage, rhdr, hright, hstart⟩ := hhalves.atRight
          obtain ⟨hrow₂, hin₂⟩ := hhalves.next hin₁ hrow₁ (show target ∈ _ by simp)
            (List.drop_sublist _ rs)
          obtain ⟨rest', pages, m, hrest, hgrown, hroom', hlen⟩ :=
            ih hhalves.replaced.sound hright hrow₂ hin₂ hnext
          obtain ⟨hall, hwhole⟩ := Grown.of_right hhalves hin₁ hne hle hrest hgrown
          obtain ⟨k, rfl, hsettles⟩ := hroom'.settles hhalves.right_ne_one hstart
          refine ⟨rest', _, _, hbegin.trans hall, hwhole, .halve hroom hne (k := k) ?_, ?_⟩
          · rw [hq₁.geometry] at hle
            rw [halfFor, if_neg hle, ← hq₁.geometry, ← hbegin.grows.pageSize,
              ← hhalves.replaced.grows.pageSize]
            rw [hhalves.replaced.grows.geometry] at hsettles
            exact hsettles
          · rw [List.length_cons, List.length_cons, hlen]
            omega

theorem LeafOf.pageTree (h : LeafOf usable view pgno rs page hdr) :
    PageTree usable view pgno (pgno :: chains rs) (rs.map StoredRow.row) := .leaf h

theorem chains_perm (h : rs'.Perm rs) : (chains rs').Perm (chains rs) :=
  h.flatMap_right _

theorem chains_cons (row : StoredRow) (rs : List StoredRow) :
    chains (row :: rs) = row.chain ++ chains rs := List.flatMap_cons

theorem chains_halves (usable : Nat) (rs : List StoredRow) :
    chains (row :: rs) =
      row.chain ++ (chains (leftRows usable rs) ++ chains (rightRows usable rs)) := by
  rw [chains_cons, chains, chains, chains, ← List.flatMap_append, leftRows_append_rightRows]

theorem rows_halves (usable : Nat) (rs : List StoredRow) :
    rs.map StoredRow.row =
      (leftRows usable rs).map StoredRow.row ++ (rightRows usable rs).map StoredRow.row := by
  rw [← List.map_append, leftRows_append_rightRows]

theorem pageTree_two {pages' : List UInt32} {rows rows' : List (Int64 × Bytes)}
    (h : NodeAt view pgno [.built left rowid] right page hdr)
    (hleft : PageTree usable view left pages rows)
    (hright : PageTree usable view right pages' rows') :
    PageTree usable view pgno (pgno :: (pages ++ pages')) (rows ++ rows') := by
  have hparts : ∀ part ∈ [TablePart.mk left pages rows, ⟨right, pages', rows'⟩],
      PageTree usable view part.child part.pages part.rows := by
    rw [List.forall_mem_cons, List.forall_mem_singleton]
    exact ⟨hleft, hright⟩
  have hnode := PageTree.node h rfl hparts
  simpa using hnode

theorem Grown.pageTree (h : Grown usable view row pgno rs pages) :
    ∃ pages' rows', PageTree usable view pgno pages' rows' ∧
      pages'.Perm (pages ++ chains (row :: rs)) ∧
      rows'.Perm (row.row :: rs.map StoredRow.row) := by
  induction h with
  | @fits pgno rs page hdr h =>
      refine ⟨_, _, .leaf h, (chains_perm (placed_perm rs row)).cons pgno, ?_⟩
      rw [← List.map_cons]
      exact (placed_perm rs row).map _
  | @left pgno left right rs page page' hdr hdr' pages hne h hle hbelow hright ih =>
      obtain ⟨pages', rows', htree, hpages, hrows⟩ := ih
      refine ⟨_, _, pageTree_two h htree hright.pageTree, ?_, ?_⟩
      · rw [List.perm_iff_count] at hpages ⊢
        intro x
        have hx := hpages x
        rw [chains_halves usable rs]
        simp only [chains_cons, List.count_append, List.count_cons, List.count_nil] at hx ⊢
        omega
      · rw [List.perm_iff_count] at hrows ⊢
        intro x
        have hx := hrows x
        rw [rows_halves usable rs]
        simp only [List.count_append, List.count_cons] at hx ⊢
        omega
  | @right pgno left right rs page page' hdr hdr' pages hne h hlt hleft hbelow ih =>
      obtain ⟨pages', rows', htree, hpages, hrows⟩ := ih
      refine ⟨_, _, pageTree_two h hleft.pageTree htree, ?_, ?_⟩
      · rw [List.perm_iff_count] at hpages ⊢
        intro x
        have hx := hpages x
        rw [chains_halves usable rs]
        simp only [chains_cons, List.count_append, List.count_cons] at hx ⊢
        omega
      · rw [List.perm_iff_count] at hrows ⊢
        intro x
        have hx := hrows x
        rw [rows_halves usable rs]
        simp only [List.count_append, List.count_cons] at hx ⊢
        omega

end Alone

end Rustqlite.Btree
