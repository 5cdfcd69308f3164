import Rustqlite.Btree.SmallDatabase
import Rustqlite.Btree.Splitting

/-!
# Splitting an interior page

A split of a full interior page moves the cells behind the middle to a new page
and puts a divider into the parent.
-/

namespace Rustqlite.Btree

open Foundation Format Pager FileM

/-! ## Two levels of interior pages -/

/-- An interior page above the tables `parts`. -/
structure InnerNode where
  pgno : UInt32
  dividers : List Divider
  right : UInt32
  parts : List TablePart

def InnerNode.pages (n : InnerNode) : List UInt32 := n.pgno :: n.parts.flatMap TablePart.pages

structure InnerNode.Holds (usable : Nat) (view : UInt32 → Result Bytes) (n : InnerNode) :
    Prop where
  node : ∃ page hdr, NodeAt view n.pgno n.dividers n.right page hdr
  children : n.parts.map TablePart.child = n.dividers.map Divider.child ++ [n.right]
  tables : ∀ part ∈ n.parts, PageTree usable view part.child part.pages part.rows

def childFor (view : UInt32 → Result Bytes) (pgno : UInt32) (rowid : Int64) : Result UInt32 := do
  let page ← view pgno
  let hdr ← PageHeader.parse page (btreeHeaderOffset pgno)
  pickChild page hdr rowid

/--
The interior pages `ns` are the children of `parent`, and every row is where it
is looked for.
-/
structure InteriorLevels (usable : Nat) (view : UInt32 → Result Bytes) (parent : UInt32)
    (ns : List InnerNode) : Prop where
  above : ∃ ds right page hdr, NodeAt view parent ds right page hdr ∧
    ns.map InnerNode.pgno = ds.map Divider.child ++ [right]
  nodes : ∀ n ∈ ns, n.Holds usable view
  found : ∀ n ∈ ns, ∀ part ∈ n.parts, ∀ row ∈ part.rows, ∃ child,
    childFor view parent row.1 = .ok child ∧ childFor view child row.1 = .ok part.child

/-- The sequence of the tables below the children, with their rows, is that of `ns`. -/
def ChildrenKept (q : PagerState × World DbFile) (parent : UInt32) (ns : List InnerNode) : Prop :=
  ∃ ns', InteriorLevels q.1.geometry.usableSize (pageSeen q.1 q.2.disk) parent ns' ∧
    ns'.flatMap InnerNode.parts = ns.flatMap InnerNode.parts

structure SplitSite (p : PagerState × World DbFile) (trunks : List (UInt32 × List UInt32))
    (parent : UInt32) (ns : List InnerNode) : Prop where
  store : SoundStore p trunks
  levels : InteriorLevels p.1.geometry.usableSize (pageSeen p.1 p.2.disk) parent ns
  inUse : InUse p trunks (parent :: ns.flatMap InnerNode.pages)
  /-- Only a root is the first page. -/
  below : 1 ∉ ns.flatMap InnerNode.pages

/-- The split of `x` finds a place, and the parent has room for what it is given. -/
def SplitGoesThrough (p : PagerState × World DbFile) (trunks : List (UInt32 × List UInt32))
    (parent : UInt32) (x : InnerNode) : Prop :=
  let cells := x.dividers.map Divider.bytes
  let splitAt := splitPoint p.1.geometry.usableSize cells
  splitAt < cells.length ∧ CanAllocate p.1 trunks ∧ ∃ last dividerRowid pbuf phdr,
    lastLeft cells splitAt = .ok last ∧ maxRowidOfCell last = .ok dividerRowid ∧
    pageSeen p.1 p.2.disk parent = .ok pbuf ∧
    PageHeader.parse pbuf (btreeHeaderOffset parent) = .ok phdr ∧
    ∀ newPgno, ∃ page, dividedInteriorParent pbuf phdr (btreeHeaderOffset parent) x.pgno newPgno
      dividerRowid = .ok page

/-! ## A split that is refused -/

variable {q : PagerState × World DbFile} {view : UInt32 → Result Bytes}
  {pgno parent right oldChild newChild : UInt32} {ds : List Divider} {page pbuf : Bytes}
  {hdr phdr : PageHeader} {rowid : Int64}

section Views

variable {usable : Nat} {view view' : UInt32 → Result Bytes} {parent pgno right : UInt32}
  {ns : List InnerNode} {ds : List Divider} {page : Bytes} {hdr : PageHeader}

theorem NodeAt.childFor (h : NodeAt view pgno ds right page hdr) (rowid : Int64) :
    childFor view pgno rowid = .ok (selected ds right rowid) := by
  simp only [Btree.childFor, h.shown, h.carries.parse, Result.ok_bind]
  exact pickChild_ok h rowid

theorem childFor_congr (h : view' pgno = view pgno) (rowid : Int64) :
    childFor view' pgno rowid = childFor view pgno rowid := by
  rw [childFor, childFor, h]

theorem InteriorLevels.congr (h : InteriorLevels usable view parent ns)
    (hparent : view' parent = view parent)
    (hsame : ∀ x ∈ ns.flatMap InnerNode.pages, view' x = view x) :
    InteriorLevels usable view' parent ns := by
  have hnode : ∀ n ∈ ns, ∀ x ∈ n.pages, view' x = view x := fun n hn x hx =>
    hsame x (List.mem_flatMap.mpr ⟨n, hn, hx⟩)
  obtain ⟨ds, right, page, hdr, hnodeAt, hmap⟩ := h.above
  refine ⟨⟨ds, right, page, hdr, hnodeAt.congr hparent, hmap⟩, fun n hn => ?_,
    fun n hn part hpart row hrow => ?_⟩
  · obtain ⟨⟨npage, nhdr, hat⟩, hchildren, htables⟩ := h.nodes n hn
    refine ⟨⟨npage, nhdr, hat.congr (hnode n hn _ (by simp [InnerNode.pages]))⟩, hchildren,
      fun part hpart => (htables part hpart).congr fun x hx => hnode n hn x ?_⟩
    exact List.mem_cons_of_mem _ (List.mem_flatMap.mpr ⟨part, hpart, hx⟩)
  · obtain ⟨child, hchild, hpick⟩ := h.found n hn part hpart row hrow
    refine ⟨child, by rw [childFor_congr hparent, hchild], ?_⟩
    have hmem : child ∈ ns.map InnerNode.pgno := by
      rw [hnodeAt.childFor] at hchild
      cases hchild
      rw [hmap]
      exact selected_mem ds right row.1
    obtain ⟨m, hm, rfl⟩ := List.mem_map.mp hmem
    rw [childFor_congr (hnode m hm _ (by simp [InnerNode.pages])), hpick]

theorem SplitSite.kept {p : PagerState × World DbFile} {trunks : List (UInt32 × List UInt32)}
    (h : SplitSite p trunks parent ns) (hgeometry : q.1.geometry = p.1.geometry)
    (hview : ∀ x ∈ parent :: ns.flatMap InnerNode.pages,
      pageSeen q.1 q.2.disk x = pageSeen p.1 p.2.disk x) : ChildrenKept q parent ns := by
  refine ⟨ns, ?_, rfl⟩
  rw [hgeometry]
  exact h.levels.congr (hview _ (by simp)) fun x hx => hview x (by simp [hx])

end Views

/-! ## A split that goes through -/

def childCount (view : UInt32 → Result Bytes) (pgno : UInt32) : Nat :=
  match (do PageHeader.parse (← view pgno) (btreeHeaderOffset pgno)) with
  | .ok hdr => hdr.numCells + 1
  | .error _ => 0

theorem NodeAt.childCount {view : UInt32 → Result Bytes} {pgno right : UInt32}
    {ds : List Divider} {page : Bytes} {hdr : PageHeader}
    (h : NodeAt view pgno ds right page hdr) : childCount view pgno = ds.length + 1 := by
  simp only [Btree.childCount, h.shown, h.carries.parse, Result.ok_bind, h.numCells]

theorem childCount_congr {view' : UInt32 → Result Bytes} (h : view' pgno = view pgno) :
    childCount view' pgno = childCount view pgno := by
  rw [childCount, childCount, h]

theorem InteriorLevels.length_parts {usable : Nat} {ns : List InnerNode}
    (h : InteriorLevels usable view parent ns) :
    (ns.flatMap InnerNode.parts).length =
      ((ns.map InnerNode.pgno).map (childCount view)).sum := by
  rw [List.length_flatMap, List.map_map]
  congr 1
  refine List.map_congr_left fun n hn => ?_
  obtain ⟨⟨page, hdr, hat⟩, hchildren, -⟩ := h.nodes n hn
  have hlen := congrArg List.length hchildren
  simp only [List.length_map, List.length_append, List.length_singleton] at hlen
  simp only [Function.comp_apply, hat.childCount, hlen]

theorem dividedInteriorParent_ok {page' : Bytes} (h : NodeAt view parent ds right page hdr)
    (hmem : oldChild ∈ ds.map Divider.child ++ [right])
    (hrun : dividedInteriorParent page hdr (btreeHeaderOffset parent) oldChild newChild rowid =
      .ok page') :
    page'.length = page.length ∧ ∃ (ds' : List Divider) (right' : UInt32) (hdr' : PageHeader)
      (before behind : List UInt32), Carries page' (btreeHeaderOffset parent) .interiorTable
          (some right')
        (ds'.map Divider.bytes) hdr' ∧ (∀ d ∈ ds', d.Valid) ∧
      ds.map Divider.child ++ [right] = before ++ oldChild :: behind ∧
      ds'.map Divider.child ++ [right'] = before ++ oldChild :: newChild :: behind := by
  simp only [dividedInteriorParent, h.rightMost, Option.some.injEq, h.numCells] at hrun
  split_ifs at hrun with hright
  · subst hright
    simp only [Result.bind_eq_ok] at hrun
    obtain ⟨inserted, hinsert, hset⟩ := hrun
    cases hset
    obtain ⟨hlen, hdr₁, hcarries⟩ := of_insertInteriorCell_ok h.carries (Nat.le_refl _)
      (Divider.valid_built right rowid) hinsert
    obtain ⟨hdr', hcarries', -⟩ := hcarries.setRight rfl newChild
    rw [List.take_length, List.drop_length] at hcarries'
    refine ⟨?_, ds ++ [Divider.built right rowid], newChild, hdr', ds.map Divider.child, [],
      hcarries', ?_, rfl, by simp [Divider.built]⟩
    · have hroom := hcarries.room
      have hpacked := hcarries.packed
      have h12 : PageType.headerSize .interiorTable = 12 := rfl
      rw [length_splice (by rw [length_be32]; omega), hlen]
    · intro d hd
      rcases List.mem_append.mp hd with hd | hd
      · exact h.valid d hd
      · rw [List.mem_singleton.mp hd]
        exact Divider.valid_built right rowid
  · have hchild : oldChild ∈ ds.map Divider.child := by
      rcases List.mem_append.mp hmem with hin | hin
      · exact hin
      · exact absurd (List.mem_singleton.mp hin).symm hright
    obtain ⟨i, hfind⟩ : ∃ i, (ds.map Divider.child).findIdx? (· = oldChild) = some i := by
      rw [← Option.isSome_iff_exists, List.findIdx?_isSome, List.any_eq_true]
      exact ⟨oldChild, hchild, by simp⟩
    obtain ⟨hi, hat⟩ := List.findIdx?_eq_some_iff_getElem.mp hfind
    have hi' : i < ds.length := by simpa using hi
    have hold : ds[i].child = oldChild := by simpa using hat.1
    rw [findChildCellIndex_ok h hfind] at hrun
    set rebuilt := ds.map fun d => Divider.built d.child d.rowid with hrebuilt
    have hcells : (List.range ds.length).mapM (rebuiltCell page hdr) =
        .ok (rebuilt.map Divider.bytes) := by
      rw [Result.mapM_eq_ok, List.forall₂_map_right_iff, List.forall₂_iff_get]
      refine ⟨by simp [hrebuilt], fun j hj hj' => ?_⟩
      have hj'' : j < ds.length := by simpa [hrebuilt] using hj'
      simp only [List.get_eq_getElem, List.getElem_range, rebuiltCell_ok h hj'', hrebuilt,
        List.getElem_map, Divider.built]
    have hnth : (rebuilt.map Divider.bytes)[i]? =
        some (buildTableInteriorCell oldChild ds[i].rowid) := by
      simp [hrebuilt, hi', Divider.built, hold]
    simp only [Result.ok_bind, hcells, dividedCells, hnth, Result.bind_eq_ok] at hrun
    obtain ⟨newCells, ⟨oldRowid, -, hnew⟩, hwrite⟩ := hrun
    set ds' := rebuilt.take i ++ [Divider.built oldChild rowid, Divider.built newChild oldRowid] ++
      rebuilt.drop (i + 1) with hds'
    have hmap : newCells = ds'.map Divider.bytes := by
      have hnew' := Except.ok.inj hnew
      rw [← hnew']
      simp [hds', Divider.built]
    have hvalid : ∀ d ∈ ds', d.Valid := by
      intro d hd
      have hbuilt : ∃ c r, d = Divider.built c r := by
        rcases List.mem_append.mp hd with hd | hd
        · rcases List.mem_append.mp hd with hd | hd
          · obtain ⟨x, -, rfl⟩ := List.mem_map.mp (List.mem_of_mem_take hd)
            exact ⟨_, _, rfl⟩
          · rcases List.mem_cons.mp hd with rfl | hd
            · exact ⟨_, _, rfl⟩
            · rw [List.mem_singleton.mp hd]
              exact ⟨_, _, rfl⟩
        · obtain ⟨x, -, rfl⟩ := List.mem_map.mp (List.mem_of_mem_drop hd)
          exact ⟨_, _, rfl⟩
      obtain ⟨c, r, rfl⟩ := hbuilt
      exact Divider.valid_built c r
    rw [hmap] at hwrite
    obtain ⟨page'', hdr', hrun', hlen, hcarries, -⟩ := writePageCells_carries
      (btreeHeaderOffset parent) .interiorTable (some right) (ds'.map Divider.bytes)
      h.carries.size (by simp [PageType.isLeaf])
      (by
        intro b hb
        obtain ⟨d, hd, rfl⟩ := List.mem_map.mp hb
        exact (hvalid d hd).pos)
      (fits_of_writePageCells hwrite)
    rw [hwrite] at hrun'
    cases hrun'
    have hchildren : rebuilt.map Divider.child = ds.map Divider.child := by
      simp [hrebuilt, Divider.built]
    refine ⟨hlen, ds', right, hdr', (ds.map Divider.child).take i,
      (ds.map Divider.child).drop (i + 1) ++ [right], hcarries, hvalid, ?_, ?_⟩
    · have hsplit := List.take_append_drop i (ds.map Divider.child)
      rw [List.drop_eq_getElem_cons hi, List.getElem_map, hold] at hsplit
      rw [← List.cons_append, ← List.append_assoc, hsplit]
    · simp only [hds', List.map_append, List.map_cons, List.map_take, List.map_drop, hchildren,
        Divider.built, List.append_assoc, List.cons_append, List.nil_append]

theorem dividedInteriorParent_newChild {pbase : Nat}
    (h : dividedInteriorParent pbuf phdr pbase oldChild newChild rowid = .ok page)
    (newChild' : UInt32) :
    ∃ page', dividedInteriorParent pbuf phdr pbase oldChild newChild' rowid = .ok page' := by
  simp only [dividedInteriorParent] at h ⊢
  split_ifs at h ⊢ with hright
  · obtain ⟨inserted, hinsert, -⟩ := Result.bind_eq_ok.mp h
    rw [hinsert]
    exact ⟨_, rfl⟩
  · simp only [Result.bind_eq_ok] at h
    obtain ⟨i, hi, cells, hcells, newCells, hnew, hwrite⟩ := h
    simp only [hi, hcells, Result.ok_bind]
    rw [dividedCells] at hnew ⊢
    cases hcell : cells[i]? with
    | none =>
        rw [hcell] at hnew
        cases hnew
        exact ⟨page, hwrite⟩
    | some cell =>
        rw [hcell] at hnew
        obtain ⟨oldRowid, hold, hnew⟩ := Result.bind_eq_ok.mp hnew
        cases hnew
        simp only [hold, Result.ok_bind]
        refine exists_writePageCells ?_
        have hfits := fits_of_writePageCells hwrite
        simp only [List.length_append, List.length_cons, List.length_nil, List.flatten_append,
          List.flatten_cons, List.flatten_nil, length_buildTableInteriorCell] at hfits ⊢
        exact hfits

section Through

variable {p : PagerState × World DbFile} {trunks : List (UInt32 × List UInt32)}

theorem installTableDivider_ok (h : SoundStore p trunks)
    (hnode : NodeAt (pageSeen p.1 p.2.disk) parent ds right pbuf phdr)
    (hin : InUse p trunks [parent])
    (hrun : dividedInteriorParent pbuf phdr (btreeHeaderOffset parent) oldChild newChild rowid =
      .ok page) (hlen : page.length = p.1.pageSize) :
    ∃ q, installTableDivider parent oldChild newChild rowid p = .ok () q ∧
      Replaced p q trunks trunks [parent] [parent] ∧
      pageSeen q.1 q.2.disk parent = .ok page := by
  obtain ⟨p₁, hread, h₁⟩ := readPageForWrite_ok h.failAt hnode.shown
  have hrep := (h.quiet h₁).widen hin
  obtain ⟨q, hwrite, hrep', hseen⟩ := hrep.sound.writePage hrep.inUse
    (show page.length = p₁.1.pageSize by rw [hlen, hrep.grows.pageSize])
  refine ⟨q, ?_, hrep.trans hrep', hseen⟩
  rw [installTableDivider, bind_ok hread]
  simp only [hnode.carries.parse, liftResult_ok_bind, hnode.carries.pageType_eq, ne_eq,
    not_true_eq_false, if_false, hrun]
  exact hwrite

theorem splitTableInteriorPage_noPlace (hp : p.2.failAt = none)
    (hnode : NodeAt (pageSeen p.1 p.2.disk) pgno ds right page hdr) (parent : Option UInt32)
    (hplace : ds.length ≤ splitPoint p.1.geometry.usableSize (ds.map Divider.bytes)) :
    ∃ p₁ e, Quiet p p₁ ∧ splitTableInteriorPage pgno parent p = .error e p₁ := by
  obtain ⟨p₁, hread, h₁⟩ := readPageForWrite_ok hp hnode.shown
  refine ⟨p₁, .corrupt "split_table_interior_page: cannot find a split point", h₁, ?_⟩
  rw [splitTableInteriorPage, getState_bind, bind_ok hread]
  simp only [hnode.carries.parse, liftResult_ok_bind, hnode.carries.pageType_eq, ne_eq,
    not_true_eq_false, if_false, tableInteriorCells_ok hnode, List.length_map, if_pos hplace]
  rfl

variable {last : Bytes} {k : Nat} {leftRight : UInt32}

theorem splitTableInteriorPage_noRowid (hp : p.2.failAt = none) {e : Error}
    (hnode : NodeAt (pageSeen p.1 p.2.disk) pgno ds right page hdr) (parent : Option UInt32)
    (hlast : lastLeft (ds.map Divider.bytes)
      (splitPoint p.1.geometry.usableSize (ds.map Divider.bytes)) = .ok last)
    (hrowid : maxRowidOfCell last = .error e) :
    ∃ p₁ e, Quiet p p₁ ∧ splitTableInteriorPage pgno parent p = .error e p₁ := by
  by_cases hplace : ds.length ≤ splitPoint p.1.geometry.usableSize (ds.map Divider.bytes)
  · exact splitTableInteriorPage_noPlace hp hnode parent hplace
  obtain ⟨p₁, hread, h₁⟩ := readPageForWrite_ok hp hnode.shown
  refine ⟨p₁, e, h₁, ?_⟩
  rw [splitTableInteriorPage, getState_bind, bind_ok hread]
  simp only [hnode.carries.parse, liftResult_ok_bind, hnode.carries.pageType_eq, ne_eq,
    not_true_eq_false, if_false, tableInteriorCells_ok hnode, List.length_map, if_neg hplace,
    hlast, hrowid]
  rfl

theorem splitTableInteriorPage_eq (hp : p.2.failAt = none)
    (hnode : NodeAt (pageSeen p.1 p.2.disk) pgno ds right page hdr) (parent : Option UInt32)
    (hk : k = splitPoint p.1.geometry.usableSize (ds.map Divider.bytes)) (hlt : k < ds.length)
    (hlast : lastLeft (ds.map Divider.bytes) k = .ok last)
    (hrowid : maxRowidOfCell last = .ok rowid) (hpos : k - 1 < ds.length) :
    ∃ p₁, Quiet p p₁ ∧ splitTableInteriorPage pgno parent p = splitInteriorAt pgno parent
        (some right)
      (ds.map Divider.bytes) k rowid ds[k - 1].child p₁ := by
  obtain ⟨p₁, hread, h₁⟩ := readPageForWrite_ok hp hnode.shown
  refine ⟨p₁, h₁, ?_⟩
  have hkpos : 0 < k := hk ▸ splitPoint_pos (List.ne_nil_of_length_pos (by simp; omega))
  have hcell : last = ds[k - 1].bytes := by
    rw [lastLeft_ok hkpos (by simp; omega), List.getElem_map] at hlast
    exact (Except.ok.inj hlast).symm
  have hpointer := pointerAt_of_parse (hnode.valid _ (List.getElem_mem hpos)).parses
  rw [← hcell] at hpointer
  rw [splitTableInteriorPage, getState_bind, bind_ok hread]
  simp only [hnode.carries.parse, liftResult_ok_bind, hnode.carries.pageType_eq, ne_eq,
    not_true_eq_false, if_false, tableInteriorCells_ok hnode, List.length_map, ← hk,
    if_neg (show ¬ ds.length ≤ k by omega), hlast, hrowid, hpointer, hnode.rightMost]

theorem NodeAt.fits {pgno right : UInt32} {ds : List Divider} {page : Bytes} {hdr : PageHeader}
    (hnode : NodeAt (pageSeen p.1 p.2.disk) pgno ds right page hdr) (hone : pgno ≠ 1)
    (hlen : page.length = p.1.pageSize) :
    12 + ds.length * 2 + (ds.map Divider.bytes).flatten.length ≤ p.1.pageSize := by
  have hroom := hnode.carries.room
  have hpacked := hnode.carries.packed
  have hbase : btreeHeaderOffset pgno = 0 := if_neg hone
  have h12 : PageType.headerSize .interiorTable = 12 := rfl
  rw [List.length_map] at hroom
  omega

structure InteriorHalves (p q : PagerState × World DbFile) (pages : List UInt32)
    (parent pgno new right leftRight : UInt32) (children : List UInt32)
    (ds : List Divider) (k : Nat) : Prop where
  geometry : q.1.geometry = p.1.geometry
  above : ∃ ds' right' page hdr before behind,
    NodeAt (pageSeen q.1 q.2.disk) parent ds' right' page hdr ∧
    children = before ++ pgno :: behind ∧
    ds'.map Divider.child ++ [right'] = before ++ pgno :: new :: behind
  left : ∃ page hdr, NodeAt (pageSeen q.1 q.2.disk) pgno (ds.take k) leftRight page hdr
  right : ∃ page hdr, NodeAt (pageSeen q.1 q.2.disk) new (ds.drop k) right page hdr
  others : ∀ x ∈ pages, x ≠ parent → x ≠ pgno →
    pageSeen q.1 q.2.disk x = pageSeen p.1 p.2.disk x

theorem splitInteriorAt_ok (h : SoundStore p trunks) {pages : List UInt32}
    (hin : InUse p trunks pages) {upRight : UInt32} {ups : List Divider} (hparent : parent ∈ pages)
    (hpgno : pgno ∈ pages) (hne : pgno ≠ parent) (hone : pgno ≠ 1)
    (hup : NodeAt (pageSeen p.1 p.2.disk) parent ups upRight pbuf phdr)
    (hnode : NodeAt (pageSeen p.1 p.2.disk) pgno ds right page hdr)
    (hmem : pgno ∈ ups.map Divider.child ++ [upRight])
    (hchildren : ∀ c ∈ ds.map Divider.child ++ [right], c ∈ pages ∧ c ≠ 1)
    (halloc : CanAllocate p.1 trunks)
    (hdivided : ∀ new, ∃ page', dividedInteriorParent pbuf phdr (btreeHeaderOffset parent) pgno new
      rowid = .ok page') :
    ∃ new q, splitInteriorAt pgno (some parent) (some right) (ds.map Divider.bytes) k rowid
      leftRight p = .ok new q ∧
      InteriorHalves p q pages parent pgno new right leftRight (ups.map Divider.child ++ [upRight])
        ds k := by
  obtain ⟨new, p₁, hrun₁⟩ := (allocatePage_ok_iff h).mpr halloc
  have hspec := h.allocatePage
  rw [hrun₁] at hspec
  obtain ⟨hnewOne, hfresh, rest, h₁⟩ := hspec
  have hin₁ : InUse p₁ rest ([new] ++ pages) := (h₁.frame hin :)
  have hview₁ : ∀ x ∈ pages, pageSeen p₁.1 p₁.2.disk x = pageSeen p.1 p.2.disk x :=
    (h₁.view hin :)
  have hnewOut : ∀ x ∈ pages, x ≠ new := fun x hx heq => hin.not_fresh hx (heq ▸ hfresh)
  obtain ⟨page', hpage'⟩ := hdivided new
  obtain ⟨hplen, ds', right', hdr', before, behind, hcarries, hvalid, hold, hnew⟩ :=
    dividedInteriorParent_ok hup hmem hpage'
  have hpageSize₁ : p₁.1.pageSize = p.1.pageSize := h₁.grows.pageSize
  have hup₁ := hup.congr (hview₁ parent hparent)
  obtain ⟨p₂, hrun₂, hrep₂, hseen₂⟩ := installTableDivider_ok h₁.sound hup₁
    (hin₁.single (x := parent) (by simp [hparent])) hpage'
    (by rw [hplen, hpageSize₁]; exact length_shown h hin hparent hup.shown)
  have h₂ := hrep₂.rewrites hin₁ (y := parent) (by simp [hparent])
  have hfits := hnode.fits hone (length_shown h hin hpgno hnode.shown)
  have hsplit : (ds.map Divider.bytes).flatten.length =
      ((ds.take k).map Divider.bytes).flatten.length +
        ((ds.drop k).map Divider.bytes).flatten.length := by
    rw [← List.length_append, ← List.flatten_append, ← List.map_append, List.take_append_drop]
  have hlens : (ds.take k).length + (ds.drop k).length = ds.length := by
    rw [← List.length_append, List.take_append_drop]
  obtain ⟨p₃, npage, nhdr, hrun₃, hrep₃, hnew₃⟩ := writeNewPage_ok .interiorTable (some right)
    ((ds.drop k).map Divider.bytes) h₂.sound (h₂.inUse.single (x := new) (by simp))
    (by simp [PageType.isLeaf])
    (by
      intro b hb
      obtain ⟨d, hd, rfl⟩ := List.mem_map.mp hb
      exact (hnode.valid d (List.mem_of_mem_drop hd)).pos)
    (by
      have h12 : PageType.headerSize .interiorTable = 12 := rfl
      have hbase : btreeHeaderOffset new = 0 := if_neg hnewOne
      rw [h₂.pageSize, hpageSize₁, List.length_map]
      omega)
  have h₃ := hrep₃.rewrites h₂.inUse (y := new) (by simp)
  obtain ⟨p₄, lpage, lhdr, hrun₄, hrep₄, hleft₄⟩ := writeNewPage_ok .interiorTable (some leftRight)
    ((ds.take k).map Divider.bytes) h₃.sound (h₃.inUse.single (x := pgno) (by simp [hpgno]))
    (by simp [PageType.isLeaf])
    (by
      intro b hb
      obtain ⟨d, hd, rfl⟩ := List.mem_map.mp hb
      exact (hnode.valid d (List.mem_of_mem_take hd)).pos)
    (by
      have h12 : PageType.headerSize .interiorTable = 12 := rfl
      have hbase : btreeHeaderOffset pgno = 0 := if_neg hone
      rw [h₃.pageSize, h₂.pageSize, hpageSize₁, List.length_map]
      omega)
  have h₄ := hrep₄.rewrites h₃.inUse (y := pgno) (by simp [hpgno])
  -- the pointer map is all that is left
  obtain ⟨q, hrun₅, h₅⟩ : ∃ q, ((do
      if (← getState).autoVacuum then
        ptrmapPut new .btree parent
        updateChildrenPtrmapToNewParent new (some right) ((ds.map Divider.bytes).drop k)
      return new) : PagerM UInt32) p₄ = .ok new q ∧ Rewrites p₄ q rest rest ([new] ++ pages)
          [] := by
    by_cases hvac : p₄.1.autoVacuum = true
    · have hfile := h₄.inUse.inFile new (by simp)
      obtain ⟨p₅, hrun₅, hrep₅⟩ := h₄.sound.ptrmapPut hfile.1 hnewOne hfile.2
        (h₄.inUse.unreserved hvac new (by simp)) hvac .btree parent
      have h₅ := hrep₅.rewrites_nil h₄.inUse
      have hvac₅ : p₅.1.autoVacuum = true := h₅.autoVacuum.trans hvac
      obtain ⟨q, hrun₆, hrep₆⟩ := updateChildrenPtrmapToNewParent_ok
        ((ds.drop k).map Divider.bytes) ((ds.drop k).map Divider.child) right h₅.sound hvac₅
        (by
          rw [List.forall₂_map_left_iff, List.forall₂_map_right_iff, List.forall₂_same]
          exact fun d hd => pointerAt_of_parse (hnode.valid d (List.mem_of_mem_drop hd)).parses)
        (fun x hx => by
          have hx' : x ∈ ds.map Divider.child ++ [right] := by
            rcases List.mem_append.mp hx with hx | hx
            · rw [List.map_drop] at hx
              exact List.mem_append_left _ (List.mem_of_mem_drop hx)
            · exact List.mem_append_right _ hx
          exact ⟨h₅.inUse.sublist (List.singleton_sublist.mpr (by simp [(hchildren x hx').1])),
            (hchildren x hx').2⟩) new
      refine ⟨q, ?_, by simpa using h₅.trans (hrep₆.rewrites_nil h₅.inUse)⟩
      rw [getState_bind, if_pos hvac, bind_ok hrun₅, ← List.map_drop, bind_ok hrun₆]
      rfl
    · refine ⟨p₄, ?_, h₄.sound.rewrites h₄.inUse⟩
      rw [getState_bind, if_neg hvac]
      rfl
  have hall := ((h₂.trans h₃).trans h₄).trans h₅
  refine ⟨new, q, ?_, ?_⟩
  · simp only [splitInteriorAt]
    rw [bind_ok hrun₁, bind_ok hrun₂, ← List.map_drop, bind_ok hrun₃, ← List.map_take,
        bind_ok hrun₄,
      List.map_drop]
    exact hrun₅
  · have hparentNew := hnewOut parent hparent
    have hpgnoNew := hnewOut pgno hpgno
    have h₄₅ := h₄.trans h₅
    have h₃₅ := h₃.trans h₄₅
    refine ⟨hall.geometry.trans h₁.grows.geometry, ⟨ds', right', page', hdr', before, behind,
      ⟨?_, hcarries, hvalid⟩, hold, hnew⟩, ⟨lpage, lhdr, ⟨?_, hleft₄.carries, fun d hd =>
      hnode.valid d (List.mem_of_mem_take hd)⟩⟩, ⟨npage, nhdr, ⟨?_, hnew₃.carries, fun d hd =>
      hnode.valid d (List.mem_of_mem_drop hd)⟩⟩, fun x hx hxparent hxpgno => ?_⟩
    · rw [h₃₅.view parent (by simp [hparent]) (by simp [hparentNew, hne.symm]), hseen₂]
    · rw [h₅.view pgno (by simp [hpgno]) (by simp), hleft₄.shown]
    · rw [h₄₅.view new (by simp) (by simp [hpgnoNew.symm]), hnew₃.shown]
    · rw [hall.view x (by simp [hx]) (by simp [hxparent, hxpgno, hnewOut x hx]), hview₁ x hx]

/-! ## What becomes of the children -/

variable {parent : UInt32} {ns : List InnerNode} {x : InnerNode}

theorem SplitSite.mem_pages (hx : x ∈ ns) : x.pgno ∈ ns.flatMap InnerNode.pages :=
  List.mem_flatMap.mpr ⟨x, hx, by simp [InnerNode.pages]⟩

section

variable (h : SplitSite p trunks parent ns)

include h

theorem SplitSite.ne_parent (hx : x ∈ ns) : x.pgno ≠ parent := by
  intro heq
  have hnodup := h.inUse.nodup
  rw [List.nodup_cons] at hnodup
  exact hnodup.1 (heq ▸ mem_pages hx)

theorem SplitSite.ne_one (hx : x ∈ ns) : x.pgno ≠ 1 :=
  fun heq => h.below (heq ▸ mem_pages hx)

theorem splitTableInteriorPage_refused (hx : x ∈ ns) (hnot : ¬ SplitGoesThrough p trunks parent x) :
    SameOn p (endOf (splitTableInteriorPage x.pgno (some parent)) p)
      (parent :: ns.flatMap InnerNode.pages) := by
  obtain ⟨⟨page, hdr, hnode⟩, -, -⟩ := h.levels.nodes x hx
  obtain ⟨ups, upRight, pbuf, phdr, hup, -⟩ := h.levels.above
  set k := splitPoint p.1.geometry.usableSize (x.dividers.map Divider.bytes) with hk
  by_cases hplace : x.dividers.length ≤ k
  · obtain ⟨p₁, e, h₁, hrun⟩ := splitTableInteriorPage_noPlace h.store.failAt hnode
        (some parent) hplace
    rw [endOf_error hrun]
    exact h₁.sameOn _
  have hkpos : 0 < k := splitPoint_pos (List.ne_nil_of_length_pos (by simp; omega))
  have hin : k - 1 < x.dividers.length := by omega
  have hin' : k - 1 < (x.dividers.map Divider.bytes).length := by simpa using hin
  have hlast := lastLeft_ok hkpos hin'
  set last := (x.dividers.map Divider.bytes)[k - 1] with hlastDef
  cases hrowid : maxRowidOfCell last with
  | error e =>
      obtain ⟨p₁, e', h₁, hrun⟩ :=
        splitTableInteriorPage_noRowid h.store.failAt hnode (some parent) hlast hrowid
      rw [endOf_error hrun]
      exact h₁.sameOn _
  | ok rowid =>
      obtain ⟨p₁, h₁, hrun⟩ := splitTableInteriorPage_eq h.store.failAt hnode (some parent) hk
        (by omega) hlast hrowid (by omega)
      have hsite := h.store.quiet h₁
      have hin₁ := (hsite.aside h.inUse).1
      rw [show endOf (splitTableInteriorPage x.pgno (some parent)) p = endOf (splitInteriorAt
        x.pgno (some parent) (some x.right) (x.dividers.map Divider.bytes) k rowid
        x.dividers[k - 1].child) p₁ by rw [endOf, endOf, hrun]]
      refine (h₁.sameOn _).trans ?_
      have hspec := hsite.sound.allocatePage
      cases halloc : allocatePage p₁ with
      | error e q =>
          rw [halloc] at hspec
          rw [splitInteriorAt, endOf_bind_error halloc]
          exact hin₁.sameOn hspec.2
      | ok new p₂ =>
          rw [halloc] at hspec
          obtain ⟨-, -, rest, hrep₂⟩ := hspec
          have hcan : CanAllocate p.1 trunks :=
            h₁.canAllocate.mp ((allocatePage_ok_iff hsite.sound).mp ⟨new, p₂, halloc⟩)
          have hview₂ := (hrep₂.view hin₁ :)
          have hsame₂ : SameOn p₁ p₂ (parent :: ns.flatMap InnerNode.pages) :=
            ⟨hrep₂.grows.geometry, hview₂⟩
          have hshown₂ : pageSeen p₂.1 p₂.2.disk parent = .ok pbuf := by
            rw [hview₂ parent (by simp), h₁.view, hup.shown]
          obtain ⟨p₃, hread, h₃⟩ := readPageForWrite_ok hrep₂.sound.failAt hshown₂
          cases hdivided : dividedInteriorParent pbuf phdr (btreeHeaderOffset parent) x.pgno new
              rowid with
          | ok page' =>
              exact absurd ⟨by rw [List.length_map]; omega, hcan, last, rowid, pbuf, phdr, hlast,
                hrowid, hup.shown, hup.carries.parse, dividedInteriorParent_newChild hdivided⟩ hnot
          | error e =>
              have hinstall : installTableDivider parent x.pgno new rowid p₂ = .error e p₃ := by
                rw [installTableDivider, bind_ok hread]
                simp only [hup.carries.parse, liftResult_ok_bind, hup.carries.pageType_eq, ne_eq,
                  not_true_eq_false, if_false, hdivided]
                rfl
              simp only [splitInteriorAt]
              rw [endOf_bind halloc, endOf_bind_error hinstall]
              exact hsame₂.trans (h₃.sameOn _)

theorem splitTableInteriorPage_halves (hx : x ∈ ns)
    (hthrough : SplitGoesThrough p trunks parent x) :
    ∃ new leftRight k children, k < x.dividers.length ∧ children = ns.map InnerNode.pgno ∧
      InteriorHalves p (endOf (splitTableInteriorPage x.pgno (some parent)) p)
        (parent :: ns.flatMap InnerNode.pages) parent x.pgno new x.right leftRight children
        x.dividers k := by
  obtain ⟨⟨page, hdr, hnode⟩, hparts, htables⟩ := h.levels.nodes x hx
  obtain ⟨ups, upRight, pbuf, phdr, hup, hmap⟩ := h.levels.above
  obtain ⟨hplace, hcan, last, rowid, pbuf', phdr', hlast, hrowid, hshown, hparse, hdivided⟩ :=
    hthrough
  rw [hup.shown] at hshown
  cases hshown
  rw [hup.carries.parse] at hparse
  cases hparse
  rw [List.length_map] at hplace
  obtain ⟨p₁, h₁, hrun⟩ := splitTableInteriorPage_eq h.store.failAt hnode (some parent) rfl
    hplace hlast hrowid (by omega)
  have hsite := h.store.quiet h₁
  have hin₁ := (hsite.aside h.inUse).1
  obtain ⟨new, q, hrun', hhalves⟩ := splitInteriorAt_ok hsite.sound hin₁
    (by simp) (List.mem_cons_of_mem _ (SplitSite.mem_pages hx)) (h.ne_parent hx) (h.ne_one hx)
    (hup.congr (h₁.view parent)) (hnode.congr (h₁.view x.pgno))
    (by rw [← hmap]; exact List.mem_map.mpr ⟨x, hx, rfl⟩)
    (by
      intro c hc
      rw [← hparts] at hc
      obtain ⟨part, hpart, rfl⟩ := List.mem_map.mp hc
      have hin : part.child ∈ ns.flatMap InnerNode.pages := List.mem_flatMap.mpr ⟨x, hx,
        List.mem_cons_of_mem _ (List.mem_flatMap.mpr ⟨part, hpart, (htables part hpart).root_mem⟩)⟩
      exact ⟨List.mem_cons_of_mem _ hin, fun heq => h.below (heq ▸ hin)⟩)
    (h₁.canAllocate.mpr hcan) hdivided
  rw [endOf_ok (hrun.trans hrun')]
  refine ⟨new, _, _, _, hplace, rfl, hhalves.geometry.trans h₁.geometry, hmap ▸ hhalves.above,
    hhalves.left, hhalves.right, fun y hy hyparent hyx => ?_⟩
  rw [hhalves.others y hy hyparent hyx, h₁.view]

theorem InteriorHalves.not_kept {new : UInt32} (hx : x ∈ ns) (hk : k < x.dividers.length)
    (hhalves : InteriorHalves p q (parent :: ns.flatMap InnerNode.pages) parent x.pgno new x.right
      leftRight (ns.map InnerNode.pgno) x.dividers k) : ¬ ChildrenKept q parent ns := by
  rintro ⟨ns', hlevels, hparts⟩
  obtain ⟨⟨page, hdr, hnode⟩, -, -⟩ := h.levels.nodes x hx
  obtain ⟨ds', right', upage, uhdr, before, behind, hup, hold, hnew⟩ := hhalves.above
  obtain ⟨lpage, lhdr, hleft⟩ := hhalves.left
  obtain ⟨rpage, rhdr, hright⟩ := hhalves.right
  obtain ⟨es, eright, epage, ehdr, hupAgain, hmap⟩ := hlevels.above
  have hchildren := (hupAgain.unique hup).1
  have hcount := hlevels.length_parts
  rw [hparts, h.levels.length_parts, hmap, hchildren, hnew, hold] at hcount
  have hnodup : (before ++ x.pgno :: behind).Nodup := by
    rw [← hold]
    exact (List.nodup_cons.mp h.inUse.nodup).2.sublist (map_sublist_flatMap fun n _ =>
        List.mem_cons_self)
  -- the other interior pages are as they were
  have hsame : ∀ y ∈ before ++ behind, childCount (pageSeen q.1 q.2.disk) y =
      childCount (pageSeen p.1 p.2.disk) y := by
    intro y hy
    have hne : y ≠ x.pgno := by
      rintro rfl
      exact (List.nodup_middle.mp hnodup).notMem hy
    have hmem : y ∈ ns.map InnerNode.pgno := by
      rw [hold]
      simp only [List.mem_append, List.mem_cons] at hy ⊢
      tauto
    obtain ⟨n, hn, rfl⟩ := List.mem_map.mp hmem
    exact childCount_congr (hhalves.others _ (List.mem_cons_of_mem _ (SplitSite.mem_pages hn))
      (h.ne_parent hn) hne)
  have hbefore := List.map_congr_left fun y (hy : y ∈ before) =>
    hsame y (List.mem_append_left _ hy)
  have hbehind := List.map_congr_left fun y (hy : y ∈ behind) =>
    hsame y (List.mem_append_right _ hy)
  simp only [List.map_append, List.map_cons, List.sum_append, List.sum_cons, hbefore, hbehind,
    hnode.childCount, hleft.childCount, hright.childCount, List.length_take, List.length_drop]
    at hcount
  omega

end

/-- The children are kept when nothing is split, and only then. -/
theorem splitTableInteriorPage_keeps_iff (h : SplitSite p trunks parent ns) (hx : x ∈ ns) :
    ChildrenKept (endOf (splitTableInteriorPage x.pgno (some parent)) p) parent ns ↔
      ¬ SplitGoesThrough p trunks parent x := by
  constructor
  · intro hkept hthrough
    obtain ⟨new, leftRight, k, children, hk, rfl, hhalves⟩ :=
      splitTableInteriorPage_halves h hx hthrough
    exact hhalves.not_kept h hx hk hkept
  · intro hnot
    have hsame := splitTableInteriorPage_refused h hx hnot
    exact h.kept hsame.geometry hsame.view

end Through

/-! ## A table of three levels -/

/-- Rowids that take nine bytes, so that an interior page has more than one half. -/
def bigRowid (j : Nat) : Int64 := Int64.ofNat (2 ^ 56 + j)

def bigRow (j : Nat) : StoredRow := localRow (bigRowid j) []

def leafPart (j : Nat) : TablePart :=
  ⟨UInt32.ofNat (5 + j), [UInt32.ofNat (5 + j)], [(bigRowid j, [])]⟩

/-- An interior page with `n` cells above the leaves from `first` on. -/
def bigNode (pgno : UInt32) (first n : Nat) : InnerNode where
  pgno := pgno
  dividers := (List.range n).map fun j =>
    .built (UInt32.ofNat (5 + (first + j))) (bigRowid (first + j))
  right := UInt32.ofNat (5 + (first + n))
  parts := (List.range (n + 1)).map fun j => leafPart (first + j)

def bigNodes : List InnerNode := [bigNode 3 0 1, bigNode 4 2 18]

def bigDividers : List Divider := [.built 3 (bigRowid 1)]

def bigPages : List Bytes :=
  [layOut .interiorTable (some 4) (bigDividers.map Divider.bytes)] ++
    bigNodes.map (fun n => layOut .interiorTable (some n.right) (n.dividers.map Divider.bytes)) ++
    (List.range 21).map fun j => layOut .leafTable none ([bigRow j].map StoredRow.bytes)

/-- A root above two interior pages, with 2 and with 19 leaves. -/
def threeLevels : PagerState × World DbFile := databaseWith bigPages

set_option maxRecDepth 10000 in
theorem bigPages_ok : PagesOk bigPages where
  size page hpage := by
    have hall : (bigPages.all fun page => page.length == 512) = true := by decide
    exact beq_iff_eq.mp (List.all_eq_true.mp hall page hpage)
  count := by decide

theorem leafPart_holds {j : Nat} (hj : j < 21) :
    PageTree 512 (pageSeen threeLevels.1 threeLevels.2.disk) (leafPart j).child (leafPart j).pages
      (leafPart j).rows := by
  have hpgno : (UInt32.ofNat (5 + j)).toNat = j + 3 + 2 := by
    rw [UInt32.toNat_ofNat', Nat.mod_eq_of_lt (by omega)]
    omega
  have hin : j + 3 < bigPages.length := by
    simp [bigPages, bigNodes]
    omega
  have hview := (bigPages_ok).pageSeen hin hpgno
  have hpage : bigPages[j + 3] =
      layOut .leafTable none ([bigRow j].map StoredRow.bytes) := by
    simp [bigPages, bigNodes]
  rw [hpage] at hview
  have hfit : 8 + [bigRow j].length * 2 +
      ([bigRow j].map StoredRow.bytes).flatten.length ≤ 512 := by
    have hall : ((List.range 21).all fun j => (bigRow j).bytes.length ≤ 500) = true := by
      decide
    have hle := List.all_eq_true.mp hall j (List.mem_range.mpr hj)
    rw [decide_eq_true_iff] at hle
    simp only [List.map_singleton, List.flatten_singleton, List.length_singleton]
    omega
  obtain ⟨page, hdr, hleaf, -⟩ := leafOf_layOut (fun heq => by simp [heq] at hpgno) hview
    (by
      rw [List.forall_mem_singleton]
      exact localRow_valid _ (bigRowid j) (Nat.zero_le _)) hfit
  exact .leaf hleaf

set_option maxRecDepth 10000 in
theorem bigNode_holds {n : InnerNode} (hn : n ∈ bigNodes) :
    n.Holds 512 (pageSeen threeLevels.1 threeLevels.2.disk) := by
  have hviews : ∀ n ∈ bigNodes, pageSeen threeLevels.1 threeLevels.2.disk n.pgno =
      .ok (layOut .interiorTable (some n.right) (n.dividers.map Divider.bytes)) := by
    have hleft := (bigPages_ok).pageSeen (i := 1) (by decide) (show (3 : UInt32).toNat = 3 from rfl)
    have hright := (bigPages_ok).pageSeen (i := 2) (by decide)
        (show (4 : UInt32).toNat = 4 from rfl)
    simp only [bigPages, bigNodes, List.map_cons, List.cons_append, List.nil_append,
      List.getElem_cons_succ, List.getElem_cons_zero] at hleft hright
    rw [bigNodes, List.forall_mem_cons, List.forall_mem_singleton]
    exact ⟨hleft, hright⟩
  have hfits : ∀ n ∈ bigNodes, n.pgno ≠ 1 ∧ 12 + n.dividers.length * 2 +
      (n.dividers.map Divider.bytes).flatten.length ≤ 512 := by decide
  have hbig : ∃ pgno first k, first + k < 21 ∧ n = bigNode pgno first k := by
    rcases List.mem_cons.mp hn with rfl | hn
    · exact ⟨3, 0, 1, by omega, rfl⟩
    · exact ⟨4, 2, 18, by omega, List.mem_singleton.mp hn⟩
  obtain ⟨hne, hfit⟩ := hfits n hn
  obtain ⟨page, hdr, hnode, -⟩ := nodeAt_layOut hne (hviews n hn)
    (by
      obtain ⟨pgno, first, k, -, rfl⟩ := hbig
      intro d hd
      obtain ⟨j, -, rfl⟩ := List.mem_map.mp hd
      exact Divider.valid_built _ _) hfit
  obtain ⟨pgno, first, k, hk, rfl⟩ := hbig
  refine ⟨⟨page, hdr, hnode⟩, ?_, fun part hpart => ?_⟩
  · simp [bigNode, leafPart, Divider.built, List.range_succ, Function.comp_def]
  · obtain ⟨j, hj, rfl⟩ := List.mem_map.mp hpart
    rw [List.mem_range] at hj
    exact leafPart_holds (by omega)

theorem bigDividers_at :
    ∃ page hdr, NodeAt (pageSeen threeLevels.1 threeLevels.2.disk) 2 bigDividers 4 page hdr ∧
      hdr.cellContentStart = 499 := by
  have hview := (bigPages_ok).pageSeen (i := 0) (by decide) (show (2 : UInt32).toNat = 2 from rfl)
  simp only [bigPages, List.cons_append, List.getElem_cons_zero] at hview
  have hlen : (bigDividers.map Divider.bytes).flatten.length = 13 := by decide
  obtain ⟨page, hdr, hnode, hstart⟩ := nodeAt_layOut (show (2 : UInt32) ≠ 1 by decide)
    hview
    (by simpa [bigDividers] using Divider.valid_built 3 (bigRowid 1)) (by rw [hlen]; decide)
  exact ⟨page, hdr, hnode, by rw [hstart, hlen]⟩

theorem splitSite_threeLevels : SplitSite threeLevels [] 2 bigNodes where
  store := (bigPages_ok).soundStore
  levels := by
    obtain ⟨page, hdr, hup, -⟩ := bigDividers_at
    have hselects : ∀ n ∈ bigNodes, ∀ part ∈ n.parts, ∀ row ∈ part.rows,
        selected bigDividers 4 row.1 = n.pgno ∧
          selected n.dividers n.right row.1 = part.child := by decide
    refine ⟨⟨bigDividers, 4, page, hdr, hup, rfl⟩, fun n hn => bigNode_holds hn,
      fun n hn part hpart row hrow => ?_⟩
    obtain ⟨⟨npage, nhdr, hnode⟩, -, -⟩ := bigNode_holds hn
    obtain ⟨hchild, hbelow⟩ := hselects n hn part hpart row hrow
    exact ⟨n.pgno, by rw [hup.childFor, hchild], by rw [hnode.childFor, hbelow]⟩
  inUse := (bigPages_ok).inUse (by decide) (by
    have hall : ((2 :: bigNodes.flatMap InnerNode.pages).all fun x =>
        x != 0 && decide (x.toNat ≤ bigPages.length + 1)) = true := by decide
    intro x hx
    have hok := List.all_eq_true.mp hall x hx
    rw [Bool.and_eq_true, decide_eq_true_iff, bne_iff_ne] at hok
    exact hok)
  below := by decide

theorem splitGoesThrough_threeLevels : SplitGoesThrough threeLevels [] 2 (bigNode 4 2 18) := by
  obtain ⟨page, hdr, hup, hstart⟩ := bigDividers_at
  have hdivider : (do maxRowidOfCell (← lastLeft ((bigNode 4 2 18).dividers.map Divider.bytes)
      (splitPoint 512 ((bigNode 4 2 18).dividers.map Divider.bytes)))) =
      (.ok 0 : Result Int64) := by
    decide
  obtain ⟨last, hlast, hrowid⟩ := Result.bind_eq_ok.mp hdivider
  have halloc : CanAllocate threeLevels.1 [] := .inr ⟨26, by decide, by decide⟩
  refine ⟨by decide, halloc, last, 0, page, hdr, hlast, hrowid, hup.shown,
    hup.carries.parse, fun newPgno => ?_⟩
  obtain ⟨page', hdr', hrun, -⟩ := insertInteriorCell_ok hup.carries
    (show 1 ≤ bigDividers.length by decide) (Divider.valid_built 4 0) (by rw [hstart]; decide)
  have hnum : hdr.numCells = 1 := hup.numCells
  simp only [dividedInteriorParent, hup.rightMost, hnum]
  exact ⟨_, Result.bind_eq_ok.mpr ⟨page', hrun, rfl⟩⟩

/-- The split puts one child below both halves. -/
theorem splitTableInteriorPage_threeLevels :
    SplitSite threeLevels [] 2 bigNodes ∧ bigNode 4 2 18 ∈ bigNodes ∧
      SplitGoesThrough threeLevels [] 2 (bigNode 4 2 18) ∧
      ¬ ChildrenKept (endOf (splitTableInteriorPage 4 (some 2)) threeLevels) 2 bigNodes := by
  have hmem : bigNode 4 2 18 ∈ bigNodes := by simp [bigNodes]
  refine ⟨splitSite_threeLevels, hmem, splitGoesThrough_threeLevels, ?_⟩
  obtain ⟨new, leftRight, k, children, hk, rfl, hhalves⟩ :=
    splitTableInteriorPage_halves splitSite_threeLevels hmem splitGoesThrough_threeLevels
  exact hhalves.not_kept splitSite_threeLevels hmem hk

/-- The left one of the interior pages has one cell, and is not split. -/
theorem splitTableInteriorPage_oneCell :
    ChildrenKept (endOf (splitTableInteriorPage 3 (some 2)) threeLevels) 2 bigNodes := by
  have hsite : SplitSite threeLevels [] 2 bigNodes := splitSite_threeLevels
  have hmem : bigNode 3 0 1 ∈ bigNodes := List.mem_cons_self
  refine (splitTableInteriorPage_keeps_iff hsite hmem).mpr fun hthrough => ?_
  have hplace : ¬ splitPoint 512 ((bigNode 3 0 1).dividers.map Divider.bytes) <
      ((bigNode 3 0 1).dividers.map Divider.bytes).length := by decide
  exact hplace hthrough.1

end Rustqlite.Btree
