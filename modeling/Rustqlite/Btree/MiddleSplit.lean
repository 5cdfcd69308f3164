import Rustqlite.Btree.InsertRun
import Rustqlite.Btree.SmallDatabase

/-!
# Splitting a leaf in the middle

A leaf that is not the right-most child keeps its separator when it is split,
and the new page gets the smaller one behind it.
-/

namespace Rustqlite.Btree

open Foundation Format Pager FileM

/-! ## Tables in order -/

def RowsBelow (usable : Nat) (view : UInt32 → Result Bytes) (pgno : UInt32)
    (rows : List (Int64 × Bytes)) : Prop :=
  ∃ N, ∀ d ≥ N, (visitTable usable d pgno).eval view = .ok rows

def nextChild (behind : List Divider) (right : UInt32) : UInt32 :=
  (behind.head?.map Divider.child).getD right

structure TableInOrder (usable : Nat) (view : UInt32 → Result Bytes) (root : UInt32)
    (rows : List (Int64 × Bytes)) : Prop where
  scanned : RowsBelow usable view root rows
  ascending : (rows.map Prod.fst).Pairwise (· < ·)
  separated : ∀ ds right page hdr before d behind, NodeAt view root ds right page hdr →
    ds = before ++ d :: behind →
    (∀ left, RowsBelow usable view d.child left → ∀ row ∈ left, row.1 ≤ d.rowid) ∧
    ∀ next, RowsBelow usable view (nextChild behind right) next → ∀ row ∈ next, d.rowid < row.1

structure TableLeaf where
  pgno : UInt32
  rows : List StoredRow

def TableLeaf.pages (l : TableLeaf) : List UInt32 := l.pgno :: chains l.rows

structure TwoLevels (p : PagerState × World DbFile) (trunks : List (UInt32 × List UInt32))
    (root right : UInt32) (ds : List Divider) (leaves : List TableLeaf) (row : StoredRow) :
    Prop where
  store : SoundStore p trunks
  above : ∃ page hdr, NodeAt (pageSeen p.1 p.2.disk) root ds right page hdr
  children : leaves.map TableLeaf.pgno = ds.map Divider.child ++ [right]
  leafAt : ∀ l ∈ leaves, ∃ page hdr,
    LeafOf p.1.geometry.usableSize (pageSeen p.1 p.2.disk) l.pgno l.rows page hdr
  ordered : TableInOrder p.1.geometry.usableSize (pageSeen p.1 p.2.disk) root
    (leaves.flatMap fun l => l.rows.map StoredRow.row)
  inUse : InUse p trunks (root :: (leaves.flatMap TableLeaf.pages ++ row.chain))
  /-- Only a root is the first page. -/
  below : 1 ∉ leaves.map TableLeaf.pgno
  valid : row.Valid p.1.geometry.usableSize (pageSeen p.1 p.2.disk)
  new : row.row.1 ∉ leaves.flatMap fun l => l.rows.map fun r => r.row.1

structure SplitsMiddle (p : PagerState × World DbFile) (right : UInt32) (ds : List Divider)
    (leaf : TableLeaf) (row : StoredRow) : Prop where
  middle : leaf.pgno ≠ right
  goes : selected ds right row.row.1 = leaf.pgno
  full : ∀ page hdr, LeafOf p.1.geometry.usableSize (pageSeen p.1 p.2.disk) leaf.pgno leaf.rows
    page hdr → ¬ HasRoom leaf.pgno leaf.rows hdr row.bytes.length

/-! ## The separator that stays -/

variable {usable : Nat} {view : UInt32 → Result Bytes} {pgno : UInt32} {rows : List (Int64 × Bytes)}

section Middle

variable {p q : PagerState × World DbFile} {trunks : List (UInt32 × List UInt32)}
  {root right : UInt32} {ds : List Divider} {leaves : List TableLeaf} {leaf : TableLeaf}
  {row : StoredRow}

theorem PageTree.rowsBelow {pages : List UInt32} (h : PageTree usable view pgno pages rows) :
    RowsBelow usable view pgno rows := h.visit

namespace TwoLevels

theorem leaf_sublist (hl : leaf ∈ leaves) :
    leaf.pages.Sublist (leaves.flatMap TableLeaf.pages) := by
  obtain ⟨before, behind, rfl⟩ := List.append_of_mem hl
  rw [List.flatMap_append, List.flatMap_cons]
  exact (List.sublist_append_left _ _).trans (List.sublist_append_right _ _)

theorem pgnos_nodup (h : TwoLevels p trunks root right ds leaves row) :
    (ds.map Divider.child ++ [right]).Nodup := by
  have hsub : (leaves.map TableLeaf.pgno).Sublist (leaves.flatMap TableLeaf.pages) :=
    map_sublist_flatMap fun l _ => List.mem_cons_self
  rw [← h.children]
  exact (List.nodup_append.mp (List.nodup_cons.mp h.inUse.nodup).2).1.sublist hsub

theorem inUse_leaf (h : TwoLevels p trunks root right ds leaves row) (hl : leaf ∈ leaves) :
    InUse p trunks ([leaf.pgno, root] ++ chains (row :: leaf.rows)) := by
  have hsub : (root :: (leaf.pages ++ row.chain)).Sublist
      (root :: (leaves.flatMap TableLeaf.pages ++ row.chain)) :=
    ((leaf_sublist hl).append_right row.chain).cons_cons root
  refine (h.inUse.sublist hsub).perm ?_
  rw [List.perm_iff_count]
  intro x
  simp only [TableLeaf.pages, chains_cons, List.count_append, List.count_cons, List.count_nil]
  omega

theorem le_separator (h : TwoLevels p trunks root right ds leaves row)
    (hs : SplitsMiddle p right ds leaf row) (hlt : childIndex ds leaf.pgno < ds.length) :
    row.row.1 ≤ ds[childIndex ds leaf.pgno].rowid := by
  have hgoes := hs.goes
  rw [selected] at hgoes
  cases hfind : ds.find? fun d => decide (row.row.1 ≤ d.rowid) with
  | none =>
      rw [hfind] at hgoes
      exact absurd hgoes.symm hs.middle
  | some d =>
      rw [hfind] at hgoes
      have hle : row.row.1 ≤ d.rowid := by simpa using List.find?_some hfind
      have hd := List.mem_of_find?_eq_some hfind
      have hchild : d.child = leaf.pgno := hgoes
      have hnodup : (ds.map Divider.child).Nodup := (List.nodup_append.mp h.pgnos_nodup).1
      have hsame : d = ds[childIndex ds leaf.pgno] :=
        List.inj_on_of_nodup_map hnodup hd (List.getElem_mem hlt)
          (hchild.trans (childIndex_child hlt).symm)
      rwa [← hsame]

end TwoLevels

variable {page : Bytes} {hdr : PageHeader}

theorem promoteRootAndSplit_interior (hp : p.2.failAt = none)
    (h : NodeAt (pageSeen p.1 p.2.disk) root ds right page hdr) :
    ∃ e q, promoteRootAndSplit root p = .error e q := by
  obtain ⟨q, hread, -⟩ := readPageForWrite_ok hp h.shown
  refine ⟨.corrupt "promote_root_and_split: root is not a leaf", q, ?_⟩
  rw [promoteRootAndSplit, getState_bind, bind_ok hread]
  simp only [h.carries.parse, liftResult_ok_bind, h.carries.pageType_eq]
  rfl

theorem balanceLeaf_refused {l : UInt32} {e : Error}
    (hsplit : splitLeaf l (some root) p = .error e q) (hq : q.2.failAt = none)
    (h : NodeAt (pageSeen q.1 q.2.disk) root ds right page hdr) (rowid : Int64) :
    ∃ e' q', balanceLeaf l [root] rowid p = .error e' q' := by
  rw [balanceLeaf]
  by_cases hpanic : e.code = .panic
  · have htry : tryResult (splitLeaf l (some root)) p = .error e q := by
      rw [tryResult, hsplit]
      exact if_pos hpanic
    exact ⟨e, q, bind_error htry⟩
  · have htry : tryResult (splitLeaf l (some root)) p = .ok (.error e) q := by
      rw [tryResult, hsplit]
      exact if_neg hpanic
    rw [bind_ok htry]
    by_cases hfull : isPageFull e = true
    · obtain ⟨e', q', hpromote⟩ := promoteRootAndSplit_interior hq h
      refine ⟨e', q', ?_⟩
      simp only [hfull, if_true]
      exact bind_error hpromote
    · refine ⟨e, q, ?_⟩
      simp only [hfull]
      rfl

theorem insert_middle {fuel : Nat} (h : TwoLevels p trunks root right ds leaves row)
    (hl : leaf ∈ leaves) (hs : SplitsMiddle p right ds leaf row)
    (hrun : insertWithSplitting fuel root row.row.1 row.bytes [] p = .ok () q) :
    ∃ ds' before d behind page hdr rows, NodeAt (pageSeen q.1 q.2.disk) root ds' right page hdr ∧
      ds' = before ++ d :: behind ∧ row.row.1 ≤ d.rowid ∧
      RowsBelow q.1.geometry.usableSize (pageSeen q.1 q.2.disk) (nextChild behind right) rows ∧
      row.row ∈ rows := by
  obtain ⟨page, hdr, hroot⟩ := h.above
  obtain ⟨lpage, lhdr, hleaf⟩ := h.leafAt leaf hl
  have hin := h.inUse_leaf hl
  have hmem : leaf.pgno ∈ ds.map Divider.child ++ [right] := by
    rw [← h.children]
    exact List.mem_map.mpr ⟨leaf, hl, rfl⟩
  have hone : leaf.pgno ≠ 1 := fun heq => h.below (heq ▸ List.mem_map.mpr ⟨leaf, hl, rfl⟩)
  have hlt := childIndex_lt hmem (Ne.symm hs.middle)
  -- down to the leaf
  obtain ⟨fuel, rfl⟩ : ∃ n, fuel = n + 1 := by
    cases fuel with
    | zero => cases hrun
    | succ n => exact ⟨n, rfl⟩
  obtain ⟨p₁, hq₁, hdown⟩ := insert_descend h.store.failAt hroot row.row.1 row.bytes []
  replace hdown := hdown fuel
  rw [hrun, hs.goes] at hdown
  obtain ⟨fuel, rfl⟩ : ∃ n, fuel = n + 1 := by
    cases fuel with
    | zero => cases hdown
    | succ n => exact ⟨n, rfl⟩
  have hleaf₁ : LeafOf p₁.1.geometry.usableSize (pageSeen p₁.1 p₁.2.disk) leaf.pgno leaf.rows lpage
      lhdr := by
    rw [hq₁.geometry]
    exact hleaf.congr (hq₁.view _) fun x _ => hq₁.view x
  obtain ⟨p₂, hq₂, hfull⟩ := insert_full row hq₁.failAt hleaf₁ (hs.full lpage lhdr hleaf)
    fuel [root]
  rw [hfull] at hdown
  -- the leaf is split
  have hq := hq₁.trans hq₂
  have hbegin := h.store.quiet hq
  have hin₂ := (hbegin.aside hin).1
  have hroot₂ := hroot.congr (hq.view root)
  have hleaf₂ : LeafOf p₂.1.geometry.usableSize (pageSeen p₂.1 p₂.2.disk) leaf.pgno leaf.rows lpage
      lhdr := by
    rw [hq.geometry]
    exact hleaf.congr (hq.view _) fun x _ => hq.view x
  have hrow₂ : row.Valid p₂.1.geometry.usableSize (pageSeen p₂.1 p₂.2.disk) := by
    rw [hq.geometry]
    exact h.valid.congr fun x _ => hq.view x
  have hinSplit := hin₂.sublist
    (List.Sublist.append_left (chains_sublist row leaf.rows) [leaf.pgno, root])
  obtain ⟨target, p₃, hbalance, hnext⟩ := of_bind_ok hdown.symm
  by_cases hcan : leaf.rows ≠ [] ∧ CanAllocate p₂.1 trunks ∧
      DividerFits root ds hdr (splitRowid p₂.1.geometry.usableSize leaf.rows)
  · obtain ⟨hne, halloc, hfit⟩ := hcan
    obtain ⟨new, p₃', rest, hsplit, hhalves⟩ := splitLeaf_ok hbegin.sound hleaf₂ hone hinSplit
      hroot₂ hmem hne halloc hfit
    obtain ⟨upage, uhdr, hup⟩ := hhalves.atParent
    rw [divided, if_neg (Ne.symm hs.middle)] at hup
    set divider := splitRowid p₂.1.geometry.usableSize leaf.rows with hdivider
    set i := childIndex ds leaf.pgno with hi
    -- the search for the new page ends at its own cell
    obtain ⟨p₄, htarget, hq₄⟩ := targetAfterSplit_found hhalves.replaced.sound.failAt
      hup (show new ∈ _ by simp [Divider.built]) row.row.1
    have hbalance' : balanceLeaf leaf.pgno [root] row.row.1 p₂ = .ok new p₄ := by
      rw [balanceLeaf, bind_ok (tryResult_ok hsplit)]
      exact htarget
    rw [hbalance] at hbalance'
    cases hbalance'
    have hreplaced := hhalves.replaced.trans
      ((hhalves.replaced.sound.quiet hq₄).widen hhalves.replaced.inUse :)
    have hin₃ := hreplaced.frame hin₂
    obtain ⟨npage, nhdr, hnew, -⟩ := hhalves.atNew.quiet hq₄
    have hrow₃ : row.Valid p₃.1.geometry.usableSize (pageSeen p₃.1 p₃.2.disk) := by
      rw [hreplaced.grows.geometry]
      refine hrow₂.congr fun x hx => hreplaced.view hin₂ x ?_
      exact List.mem_flatMap.mpr ⟨row, by simp, hx⟩
    obtain ⟨rest', pages, -, hrest, hgrown, -⟩ := insert_alone_of_ok hreplaced.sound hnew hrow₃
      (hin₃.sublist (List.Sublist.append (by simp) (((List.drop_sublist _ leaf.rows).cons_cons
        row).flatMap StoredRow.chain))) hnext
    obtain ⟨pages', rows', htree, -, hrows⟩ := hgrown.pageTree
    have hapart : InUse p₃ rest ([target] ++ [leaf.pgno, root]) := hreplaced.inUse
    have hup' := (hup.congr (hq₄.view root)).congr (hrest.view hapart root (by simp))
    refine ⟨_, ds.take i, ds[i], .built target divider :: ds.drop (i + 1), upage, uhdr, rows',
        hup', ?_,
      h.le_separator hs hlt, htree.rowsBelow, hrows.symm.subset (by simp)⟩
    rw [List.take_add_one, List.getElem?_eq_getElem hlt, Option.toList_some, List.append_assoc]
    rfl
  · obtain ⟨e, q', hsplit, hq', hview, -⟩ := splitLeaf_refused hbegin.sound hleaf₂ hone hinSplit
      hroot₂ hmem hcan
    obtain ⟨e', q'', herror⟩ := balanceLeaf_refused hsplit hq' (hroot₂.congr hview) row.row.1
    rw [hbalance] at herror
    cases herror

/--
A leaf that is not the right-most child is never split as it should be: no
insertion through it ends with the rows and the separators in order.
-/
theorem splitLeaf_middle_not_inOrder (h : TwoLevels p trunks root right ds leaves row)
    (hl : leaf ∈ leaves) (hs : SplitsMiddle p right ds leaf row) :
    ¬ ∃ fuel q rows, insertWithSplitting fuel root row.row.1 row.bytes [] p = .ok () q ∧
      rows.Perm (row.row :: leaves.flatMap fun l => l.rows.map StoredRow.row) ∧
      TableInOrder q.1.geometry.usableSize (pageSeen q.1 q.2.disk) root rows := by
  rintro ⟨fuel, q, rows, hrun, -, horder⟩
  obtain ⟨ds', before, d, behind, page, hdr, next, hnode, hds', hle, hbelow, hmem⟩ :=
    insert_middle h hl hs hrun
  have hlt := (horder.separated ds' right page hdr before d behind hnode hds').2 next hbelow _ hmem
  exact Int64.not_lt.mpr hle hlt

end Middle

/-! ## Two leaves -/

theorem RowsBelow.unique {rows' : List (Int64 × Bytes)} (h : RowsBelow usable view pgno rows)
    (h' : RowsBelow usable view pgno rows') : rows = rows' := by
  obtain ⟨N, hN⟩ := h
  obtain ⟨M, hM⟩ := h'
  have heq := (hN (max N M) (Nat.le_max_left ..)).symm.trans (hM (max N M) (Nat.le_max_right ..))
  exact Except.ok.inj heq

def wideRow (rowid : Int64) : StoredRow := localRow rowid (List.replicate 200 0)

def wideLeaves : List TableLeaf := [⟨3, [wideRow 1, wideRow 3]⟩, ⟨4, [wideRow 10]⟩]

def widePages : List Bytes :=
  layOut .interiorTable (some 4) ([Divider.built 3 5].map Divider.bytes) ::
    wideLeaves.map fun l => layOut .leafTable none (l.rows.map StoredRow.bytes)

def wideTable : PagerState × World DbFile := databaseWith widePages

set_option maxRecDepth 10000 in
theorem widePages_ok : PagesOk widePages where
  size page hpage := by
    have hall : (widePages.all fun page => page.length == 512) = true := by decide
    exact beq_iff_eq.mp (List.all_eq_true.mp hall page hpage)
  count := by decide

theorem wideRow_valid (view : UInt32 → Result Bytes) (rowid : Int64) :
    (wideRow rowid).Valid 512 view :=
  localRow_valid view rowid (by rw [List.length_replicate]; omega)

theorem wideTable_root : ∃ page hdr, NodeAt (pageSeen wideTable.1 wideTable.2.disk) 2
    [.built 3 5] 4 page hdr := by
  have hview := (widePages_ok).pageSeen (i := 0) (by decide) (show (2 : UInt32).toNat = 2 from rfl)
  simp only [widePages, List.getElem_cons_zero] at hview
  obtain ⟨page, hdr, hnode, -⟩ := nodeAt_layOut (by decide) hview
    (by simpa using Divider.valid_built 3 5) (by decide)
  exact ⟨page, hdr, hnode⟩

set_option maxRecDepth 10000 in
theorem wideTable_leaf : ∀ l ∈ wideLeaves, ∃ page hdr,
    LeafOf 512 (pageSeen wideTable.1 wideTable.2.disk) l.pgno l.rows page hdr ∧
      hdr.cellContentStart = 512 - (l.rows.map StoredRow.bytes).flatten.length := by
  have hleft : pageSeen wideTable.1 wideTable.2.disk 3 =
      .ok (layOut .leafTable none ([wideRow 1, wideRow 3].map StoredRow.bytes)) :=
    (widePages_ok).shows (i := 1) rfl rfl
  have hright : pageSeen wideTable.1 wideTable.2.disk 4 =
      .ok (layOut .leafTable none ([wideRow 10].map StoredRow.bytes)) :=
    (widePages_ok).shows (i := 2) rfl rfl
  rw [wideLeaves, List.forall_mem_cons, List.forall_mem_singleton]
  constructor
  · exact leafOf_layOut (by decide) hleft (by simp [wideRow_valid]) (by decide)
  · exact leafOf_layOut (by decide) hright (by simp [wideRow_valid]) (by decide)

theorem wideTable_tree : ∀ l ∈ wideLeaves,
    RowsBelow 512 (pageSeen wideTable.1 wideTable.2.disk) l.pgno (l.rows.map StoredRow.row) := by
  intro l hl
  obtain ⟨page, hdr, hleaf, -⟩ := wideTable_leaf l hl
  exact hleaf.pageTree.rowsBelow

theorem twoLevels_wideTable : TwoLevels wideTable [] 2 4 [.built 3 5] wideLeaves (wideRow 4) where
  store := (widePages_ok).soundStore
  above := wideTable_root
  children := rfl
  leafAt l hl := by
    obtain ⟨page, hdr, hleaf, -⟩ := wideTable_leaf l hl
    exact ⟨page, hdr, hleaf⟩
  ordered := by
    obtain ⟨page, hdr, hroot⟩ := wideTable_root
    refine ⟨?_, by decide, fun ds right page' hdr' before d behind hnode hds => ?_⟩
    · have hchildren : (wideLeaves.map fun l => (⟨l.pgno, l.pages, l.rows.map StoredRow.row⟩ :
          TablePart)).map TablePart.child = [Divider.built 3 5].map Divider.child ++ [4] := rfl
      have htree := PageTree.node hroot hchildren
        (by
          intro part hpart
          obtain ⟨l, hl, rfl⟩ := List.mem_map.mp hpart
          obtain ⟨lpage, lhdr, hleaf, -⟩ := wideTable_leaf l hl
          exact hleaf.pageTree)
      rw [List.flatMap_map] at htree
      exact htree.rowsBelow
    · obtain ⟨hchildren, hrowids⟩ := hnode.unique hroot
      have hlen := congrArg List.length hrowids
      rw [hds] at hchildren hrowids hlen
      simp only [List.length_map, List.length_append, List.length_cons, List.length_nil] at hlen
      obtain rfl : before = [] := List.length_eq_zero_iff.mp (by omega)
      obtain rfl : behind = [] := List.length_eq_zero_iff.mp (by omega)
      simp only [List.nil_append, List.map_cons, List.map_nil, List.cons_append, List.cons.injEq,
        and_true] at hchildren hrowids
      obtain ⟨hchild, hright⟩ := hchildren
      have hrowid : d.rowid = 5 := hrowids
      have hleft : RowsBelow 512 (pageSeen wideTable.1 wideTable.2.disk) 3
          ([wideRow 1, wideRow 3].map StoredRow.row) := wideTable_tree ⟨3, _⟩ (by simp [wideLeaves])
      have hnext : RowsBelow 512 (pageSeen wideTable.1 wideTable.2.disk) 4
          ([wideRow 10].map StoredRow.row) := wideTable_tree ⟨4, _⟩ (by simp [wideLeaves])
      rw [hchild, hrowid]
      refine ⟨fun left hbelow => ?_, fun next hbelow => ?_⟩
      · rw [hbelow.unique hleft, List.forall_mem_map]
        simp only [List.forall_mem_cons]
        decide
      · rw [show nextChild [] right = 4 from hright] at hbelow
        rw [hbelow.unique hnext, List.forall_mem_map, List.forall_mem_singleton]
        decide
  inUse := (widePages_ok).inUse (by decide) (by
    have hall : ((2 :: (wideLeaves.flatMap TableLeaf.pages ++ (wideRow 4).chain)).all fun x =>
        x != 0 && decide (x.toNat ≤ widePages.length + 1)) = true := by decide
    intro x hx
    have hok := List.all_eq_true.mp hall x hx
    rw [Bool.and_eq_true, decide_eq_true_iff, bne_iff_ne] at hok
    exact hok)
  below := by decide
  valid := wideRow_valid _ 4
  new := by decide

set_option maxRecDepth 10000 in
theorem splitsMiddle_wideTable :
    SplitsMiddle wideTable 4 [.built 3 5] ⟨3, [wideRow 1, wideRow 3]⟩ (wideRow 4) where
  middle := by decide
  goes := by decide
  full page hdr hleaf hroom := by
    obtain ⟨page', hdr', hleaf', hstart⟩ := wideTable_leaf ⟨3, [wideRow 1, wideRow 3]⟩
      (by simp [wideLeaves])
    have hpage : page = page' := Except.ok.inj (hleaf.shown.symm.trans hleaf'.shown)
    subst hpage
    have hhdr : hdr = hdr' := Except.ok.inj (hleaf.carries.parse.symm.trans hleaf'.carries.parse)
    subst hhdr
    have hcell : (wideRow 4).bytes.length = 203 := by decide
    have hcells : ([wideRow 1, wideRow 3].map StoredRow.bytes).flatten.length = 406 := by
      decide
    exact not_hasRoom (hstart.trans (congrArg (512 - ·) hcells)) (by rw [hcell]; decide) hroom

set_option maxRecDepth 10000 in
/-- The row 4 goes behind a separator that says 1. -/
theorem splitLeaf_middle_wideTable :
    TwoLevels wideTable [] 2 4 [.built 3 5] wideLeaves (wideRow 4) ∧
      SplitsMiddle wideTable 4 [.built 3 5] ⟨3, [wideRow 1, wideRow 3]⟩ (wideRow 4) ∧
      ∃ q, insertWithSplitting 8 2 4 (wideRow 4).bytes [] wideTable = .ok () q ∧
        ∀ rows, ¬ TableInOrder q.1.geometry.usableSize (pageSeen q.1 q.2.disk) 2 rows := by
  refine ⟨twoLevels_wideTable, splitsMiddle_wideTable, ?_⟩
  obtain ⟨u, q, hrun, -⟩ := exists_of_endsWith (insertWithSplitting 8 2 4 (wideRow 4).bytes [])
    wideTable (fun _ _ => true) (by decide +kernel)
  refine ⟨q, hrun, fun rows horder => ?_⟩
  obtain ⟨ds', before, d, behind, page, hdr, next, hnode, hds', hle, hbelow, hmem⟩ :=
    insert_middle twoLevels_wideTable (by simp [wideLeaves])
      splitsMiddle_wideTable hrun
  have hlt := (horder.separated ds' 4 page hdr before d behind hnode hds').2 next hbelow _ hmem
  exact Int64.not_lt.mpr hle hlt

theorem splitLeaf_middle_not_inOrder_wideTable :
    ¬ ∃ fuel q rows, insertWithSplitting fuel 2 4 (wideRow 4).bytes [] wideTable = .ok () q ∧
      rows.Perm ((wideRow 4).row :: wideLeaves.flatMap fun l => l.rows.map StoredRow.row) ∧
      TableInOrder q.1.geometry.usableSize (pageSeen q.1 q.2.disk) 2 rows := by
  have hmem : TableLeaf.mk 3 [wideRow 1, wideRow 3] ∈ wideLeaves := by simp [wideLeaves]
  exact splitLeaf_middle_not_inOrder twoLevels_wideTable hmem splitsMiddle_wideTable

end Rustqlite.Btree
