import Rustqlite.Btree.Splitting
import Rustqlite.Btree.SeekFound


/-!
# A search tree in its pages

A table is a search tree that owns its pages.  A way down leads to one of them,
and whatever is put below that page, the pages around it make a search tree of
it again.
-/

namespace Rustqlite.Btree

open Foundation Format Pager

/-! ## Ways down -/

/-- The interior pages above `pgno` on the way that an insertion of `rowid` takes. -/
inductive Routed (view : UInt32 → Result Bytes) (rowid : Int64) (root : UInt32) :
    UInt32 → List UInt32 → Prop where
  | here : Routed view rowid root root []
  | child {pgno right : UInt32} {path : List UInt32} {ds : List Divider} {page : Bytes}
      {hdr : PageHeader} (h : Routed view rowid root pgno path)
      (hnode : NodeAt view pgno ds right page hdr) :
      Routed view rowid root (selected ds right rowid) (pgno :: path)

section Ways

variable {usable : Nat} {view view' : UInt32 → Result Bytes} {rowid : Int64}
  {root pgno right : UInt32} {path : List UInt32} {ds : List Divider} {page : Bytes}
  {hdr : PageHeader}

theorem Routed.congr (h : Routed view rowid root pgno path)
    (hsame : ∀ x ∈ path, view' x = view x) : Routed view' rowid root pgno path := by
  induction h with
  | here => exact .here
  | child _ hnode ih =>
      exact (ih fun x hx => hsame x (List.mem_cons_of_mem _ hx)).child
        (hnode.congr (hsame _ List.mem_cons_self))

theorem LeafOf.not_nodeAt {rs : List StoredRow} {page' : Bytes} {hdr' : PageHeader}
    (h : LeafOf usable view pgno rs page hdr) (h' : NodeAt view pgno ds right page' hdr') :
    False := by
  have hpage : page = page' := Except.ok.inj (h.shown.symm.trans h'.shown)
  subst hpage
  have hhdr : hdr = hdr' := Except.ok.inj (h.carries.parse.symm.trans h'.carries.parse)
  subst hhdr
  have htype := h.carries.pageType_eq.symm.trans h'.carries.pageType_eq
  cases htype

theorem Linked.unique {first : UInt32} {chain chain' : List UInt32} (h : Linked view first chain)
    (h' : Linked view first chain') : chain = chain' := by
  induction chain generalizing first chain' with
  | nil =>
      cases chain' with
      | nil => rfl
      | cons pgno chain' =>
          obtain ⟨heq, hne, -⟩ := h'
          exact absurd (heq.symm.trans h) hne
  | cons pgno chain ih =>
      obtain ⟨rfl, hne, page, hpage, hrest⟩ := h
      cases chain' with
      | nil => exact absurd h' hne
      | cons pgno' chain' =>
          obtain ⟨rfl, -, page', hpage', hrest'⟩ := h'
          obtain rfl : page = page' := Except.ok.inj (hpage.symm.trans hpage')
          rw [ih hrest hrest']

theorem StoredRow.Valid.unique {r r' : StoredRow} (h : r.Valid usable view)
    (h' : r'.Valid usable view) (hbytes : r.bytes = r'.bytes) : r = r' := by
  obtain ⟨cell, hcell, hrowid, hlinked, hpayload⟩ := h.decodes
  obtain ⟨cell', hcell', hrowid', hlinked', hpayload'⟩ := h'.decodes
  rw [← hbytes, hcell] at hcell'
  obtain rfl : cell = cell' := Except.ok.inj hcell'
  have hrow : r.row = r'.row := Prod.ext (hrowid.symm.trans hrowid')
    (Except.ok.inj (hpayload.symm.trans hpayload'))
  have hchain := hlinked.unique hlinked'
  cases r
  cases r'
  simp_all

theorem LeafOf.unique {rs rs' : List StoredRow} {page' : Bytes}
    {hdr' : PageHeader} (h : LeafOf usable view pgno rs page hdr)
    (h' : LeafOf usable view pgno rs' page' hdr') : rs = rs' ∧ page = page' ∧ hdr = hdr' := by
  obtain rfl : page = page' := Except.ok.inj (h.shown.symm.trans h'.shown)
  obtain rfl : hdr = hdr' := Except.ok.inj (h.carries.parse.symm.trans h'.carries.parse)
  refine ⟨List.ext_getElem (h.leafAt.numCells.trans h'.leafAt.numCells.symm) fun i hi hi' => ?_,
    rfl, rfl⟩
  obtain ⟨off, hoff, hstands⟩ := h.leafAt.cells i hi
  obtain ⟨off', hoff', hstands'⟩ := h'.leafAt.cells i hi'
  obtain rfl : off = off' := Except.ok.inj (hoff.symm.trans hoff')
  have hvalid := h.valid rs[i] (List.getElem_mem hi)
  have hvalid' := h'.valid rs'[i] (List.getElem_mem hi')
  have hlen : rs[i].bytes.length = rs'[i].bytes.length := Except.ok.inj
    ((hstands.cellOnPageSize hvalid.pos hvalid.size).symm.trans
      (hstands'.cellOnPageSize hvalid'.pos hvalid'.size))
  refine hvalid.unique hvalid' ?_
  rw [← hstands.slice_eq, hlen, hstands'.slice_eq]

theorem selected_eq_getElem? (ds : List Divider) (right : UInt32) (rowid : Int64) :
    (ds.map Divider.child ++ [right])[(ds.map Divider.rowid).findIdx fun k => decide (rowid ≤ k)]? =
      some (selected ds right rowid) := by
  induction ds with
  | nil => rfl
  | cons d ds ih =>
      rw [List.map_cons, List.map_cons, List.findIdx_cons, selected, List.find?_cons]
      by_cases hle : rowid ≤ d.rowid
      · simp [hle]
      · simpa [hle, selected] using ih

end Ways

/-! ## Search trees with their pages -/

structure Branch where
  child : UInt32
  pages : List UInt32

def Ascends (rows : List (Int64 × Bytes)) : Prop := rows.Pairwise fun a b => a.1 < b.1

def SearchPages (usable : Nat) (view : UInt32 → Result Bytes) :
    Nat → Option Int64 → Option Int64 → UInt32 → List UInt32 → List (Int64 × Bytes) → Prop
  | 0, _, _, _, _, _ => False
  | depth + 1, lo, hi, pgno, pages, rows =>
      (∃ rs page hdr, LeafOf usable view pgno rs page hdr ∧ pages = pgno :: chains rs ∧
        rows = rs.map StoredRow.row ∧ Ascends rows ∧ ∀ row ∈ rows, Within lo hi row.1) ∨
      ∃ ds right page hdr cs xss, NodeAt view pgno ds right page hdr ∧
        cs.map Branch.child = ds.map Divider.child ++ [right] ∧
        Parted (fun lo hi c xs => SearchPages usable view depth lo hi c.child c.pages xs) lo hi
          (ds.map Divider.rowid) cs xss ∧
        pages = pgno :: cs.flatMap Branch.pages ∧ rows = xss.flatten

namespace SearchPages

variable {usable depth : Nat} {view view' : UInt32 → Result Bytes} {lo hi : Option Int64}
  {root pgno right : UInt32} {pages path : List UInt32} {rows : List (Int64 × Bytes)}
  {rs : List StoredRow} {ds : List Divider} {page : Bytes} {hdr : PageHeader} {rowid : Int64}

theorem leaf (h : LeafOf usable view pgno rs page hdr) (hasc : Ascends (rs.map StoredRow.row))
    (hin : ∀ r ∈ rs, Within lo hi r.row.1) :
    SearchPages usable view 1 lo hi pgno (pgno :: chains rs) (rs.map StoredRow.row) :=
  .inl ⟨rs, page, hdr, h, rfl, rfl, hasc, List.forall_mem_map.mpr hin⟩

section

variable (h : SearchPages usable view depth lo hi pgno pages rows)

include h

theorem searchTree : SearchTree usable view depth lo hi pgno rows := by
  induction depth generalizing lo hi pgno pages rows with
  | zero => exact h.elim
  | succ depth ih =>
      obtain ⟨rs, page, hdr, hleaf, -, rfl, hasc, hin⟩ |
        ⟨ds, right, page, hdr, cs, xss, hnode, hchildren, hparted, -, rfl⟩ := h
      · have hat := hleaf.leafAt
        refine ⟨page, hdr, hat.shown, hat.parse, .inl ⟨hat.pageType, ⟨?_, fun i hi => ?_⟩,
          hasc, hin⟩⟩
        · rw [List.length_map, hat.numCells]
        · rw [List.getElem_map]
          exact hat.row (by simpa using hi)
      · refine ⟨page, hdr, hnode.shown, hnode.carries.parse, .inr ⟨hnode.carries.pageType_eq, _, _,
          xss, hnode.dividersAre, hnode.nodeHolds, ?_, rfl⟩⟩
        rw [← hchildren]
        exact hparted.map fun _ _ _ _ hc => ih hc

theorem deepen {depth' : Nat} (hle : depth ≤ depth') :
    SearchPages usable view depth' lo hi pgno pages rows := by
  induction depth generalizing lo hi pgno pages rows depth' with
  | zero => exact h.elim
  | succ depth ih =>
      obtain ⟨depth', rfl⟩ : ∃ n, depth' = n + 1 := ⟨depth' - 1, by omega⟩
      refine h.imp_right ?_
      rintro ⟨ds, right, page, hdr, cs, xss, hnode, hchildren, hparted, hpages, hrows⟩
      exact ⟨ds, right, page, hdr, cs, xss, hnode, hchildren,
        hparted.imp fun _ _ _ _ hc => ih hc (by omega), hpages, hrows⟩

theorem congr (hsame : ∀ x ∈ pages, view' x = view x) :
    SearchPages usable view' depth lo hi pgno pages rows := by
  induction depth generalizing lo hi pgno pages rows with
  | zero => exact h.elim
  | succ depth ih =>
      obtain ⟨rs, page, hdr, hleaf, rfl, hrows⟩ |
        ⟨ds, right, page, hdr, cs, xss, hnode, hchildren, hparted, rfl, hrows⟩ := h
      · exact .inl ⟨rs, page, hdr, hleaf.congr (hsame pgno List.mem_cons_self)
          fun x hx => hsame x (List.mem_cons_of_mem _ hx), rfl, hrows⟩
      · refine .inr ⟨ds, right, page, hdr, cs, xss, hnode.congr (hsame pgno List.mem_cons_self),
          hchildren, hparted.imp_of_mem fun lo hi xs c hc h => ih h fun x hx => ?_, rfl, hrows⟩
        exact hsame x (List.mem_cons_of_mem _ (List.mem_flatMap.mpr ⟨c, hc, hx⟩))

theorem root_mem : pgno ∈ pages := by
  cases depth with
  | zero => exact h.elim
  | succ depth =>
      obtain ⟨rs, page, hdr, -, rfl, -⟩ | ⟨ds, right, page, hdr, cs, xss, -, -, -, rfl, -⟩ := h
      · exact List.mem_cons_self
      · exact List.mem_cons_self

theorem node_inv (hnode : NodeAt view pgno ds right page hdr) :
    ∃ d cs xss, cs.map Branch.child = ds.map Divider.child ++ [right] ∧
      Parted (fun lo hi c xs => SearchPages usable view d lo hi c.child c.pages xs) lo hi
        (ds.map Divider.rowid) cs xss ∧
      pages = pgno :: cs.flatMap Branch.pages ∧ rows = xss.flatten := by
  cases depth with
  | zero => exact h.elim
  | succ depth =>
      obtain ⟨rs, page', hdr', hleaf, -⟩ |
        ⟨ds', right', page', hdr', cs, xss, hnode', hchildren, hparted, hpages, hrows⟩ := h
      · exact (hleaf.not_nodeAt hnode).elim
      · obtain ⟨hcs, hks⟩ := hnode'.unique hnode
        exact ⟨depth, cs, xss, hchildren.trans hcs, hks ▸ hparted, hpages, hrows⟩

theorem children_subset (hnode : NodeAt view pgno ds right page hdr) :
    ds.map Divider.child ++ [right] ⊆ pages := by
  obtain ⟨d, cs, xss, hchildren, hparted, rfl, -⟩ := h.node_inv hnode
  have hall : List.Forall₂ (fun c _ => c.child ∈ c.pages) cs xss :=
    hparted.forall₂ fun _ _ _ _ hc => hc.root_mem
  rw [← hchildren]
  intro x hx
  obtain ⟨c, hc, rfl⟩ := List.mem_map.mp hx
  obtain ⟨i, hi, rfl⟩ := List.mem_iff_getElem.mp hc
  have hmem := hall.get hi (hall.length_eq ▸ hi)
  exact List.mem_cons_of_mem _ (List.mem_flatMap.mpr ⟨_, hc, hmem⟩)

theorem leaf_inv (hleaf : LeafOf usable view pgno rs page hdr) :
    pages = pgno :: chains rs ∧ rows = rs.map StoredRow.row ∧ Ascends rows ∧
      ∀ r ∈ rs, Within lo hi r.row.1 := by
  cases depth with
  | zero => exact h.elim
  | succ depth =>
      obtain ⟨rs', page', hdr', hleaf', rfl, rfl, hasc, hin⟩ |
        ⟨ds, right, page', hdr', cs, xss, hnode, -⟩ := h
      · obtain ⟨rfl, -, -⟩ := hleaf.unique hleaf'
        exact ⟨rfl, rfl, hasc, fun r hr => hin r.row (List.mem_map_of_mem hr)⟩
      · exact (hleaf.not_nodeAt hnode).elim

end

theorem two {left : UInt32} {k : Int64} {d d' : Nat} {pages' : List UInt32}
    {rows' : List (Int64 × Bytes)} (h : NodeAt view pgno [.built left k] right page hdr)
    (hk : Within lo hi k) (hleft : SearchPages usable view d lo (some k) left pages rows)
    (hright : SearchPages usable view d' (some k) hi right pages' rows') :
    SearchPages usable view (max d d' + 1) lo hi pgno (pgno :: (pages ++ pages'))
      (rows ++ rows') := by
  refine .inr ⟨_, right, page, hdr, [⟨left, pages⟩, ⟨right, pages'⟩], [rows, rows'], h, rfl,
    .cons hk (hleft.deepen (Nat.le_max_left ..)) (.last (hright.deepen (Nat.le_max_right ..))),
    ?_, ?_⟩
  · simp
  · simp

end SearchPages

/-! ## What is around a page -/

/-- The bounds of the rows below a page, the pages that are not below it, and the other rows. -/
structure Surroundings where
  lo : Option Int64
  hi : Option Int64
  others : List UInt32
  before : List (Int64 × Bytes)
  after : List (Int64 × Bytes)

def Surroundings.Around (s : Surroundings) (usable : Nat) (view : UInt32 → Result Bytes)
    (lo hi : Option Int64) (root hole : UInt32) : Prop :=
  ∀ view' d pages rows, SearchPages usable view' d s.lo s.hi hole pages rows →
    (∀ x ∈ s.others, view' x = view x) →
    ∃ d' pages', SearchPages usable view' d' lo hi root pages' (s.before ++ rows ++ s.after) ∧
      pages'.Perm (s.others ++ pages)

structure Surroundings.Parts (s : Surroundings) (usable : Nat) (view : UInt32 → Result Bytes)
    (lo hi : Option Int64) (root hole : UInt32) (pages inner : List UInt32)
    (rows within : List (Int64 × Bytes)) : Prop where
  tree : ∃ d, SearchPages usable view d s.lo s.hi hole inner within
  pages_perm : pages.Perm (s.others ++ inner)
  rows_eq : rows = s.before ++ within ++ s.after
  around : s.Around usable view lo hi root hole

section Holes

variable {usable depth : Nat} {view : UInt32 → Result Bytes} {lo hi : Option Int64}
  {root pgno right : UInt32} {pages path : List UInt32} {rows : List (Int64 × Bytes)}
  {ds : List Divider} {page : Bytes} {hdr : PageHeader} {rowid : Int64}

theorem SearchPages.selected_child (h : SearchPages usable view depth lo hi pgno pages rows)
    (hnode : NodeAt view pgno ds right page hdr) (hrow : Within lo hi rowid) :
    ∃ (s : Surroundings) (inner : List UInt32) (within : List (Int64 × Bytes)),
      s.Parts usable view lo hi pgno (selected ds right rowid) pages inner rows within ∧
      Within s.lo s.hi rowid ∧ pgno ∈ s.others := by
  obtain ⟨d, cs, xss, hchildren, hparted, rfl, rfl⟩ := h.node_inv hnode
  obtain ⟨cs₁, c, cs₂, xss₁, xs, xss₂, lo', hi', rfl, rfl, hlen, hc, hwithin, hfill⟩ :=
    hparted.route hrow
  have hselected : c.child = selected ds right rowid := by
    have hplace := selected_eq_getElem? ds right rowid
    rw [← hchildren, ← hlen, List.map_append, List.map_cons] at hplace
    simpa using hplace
  refine ⟨⟨lo', hi', pgno :: (cs₁ ++ cs₂).flatMap Branch.pages, xss₁.flatten, xss₂.flatten⟩,
    c.pages, xs, ⟨⟨d, hselected ▸ hc⟩, ?_, ?_, fun view' d' pages rows htree hsame => ?_⟩, hwithin,
    List.mem_cons_self⟩
  · rw [List.perm_iff_count]
    intro x
    simp only [List.flatMap_append, List.flatMap_cons, List.count_cons, List.count_append]
    omega
  · simp
  · have hothers : ∀ lo hi xs, ∀ c ∈ cs₁ ++ cs₂,
        SearchPages usable view d lo hi c.child c.pages xs →
        SearchPages usable view' (max d d') lo hi c.child c.pages xs :=
      fun _ _ _ c hmem h => (h.congr fun x hx => hsame x (List.mem_cons_of_mem _
        (List.mem_flatMap.mpr ⟨c, hmem, hx⟩))).deepen (Nat.le_max_left ..)
    have hnew := hfill _ ⟨selected ds right rowid, pages⟩ rows hothers
      (htree.deepen (Nat.le_max_right ..))
    refine ⟨max d d' + 1, pgno :: (cs₁ ++ ⟨selected ds right rowid, pages⟩ :: cs₂).flatMap
      Branch.pages, .inr ⟨ds, right, page, hdr, _, _, hnode.congr (hsame pgno List.mem_cons_self),
      ?_, hnew, rfl, ?_⟩, ?_⟩
    · rw [← hchildren, List.map_append, List.map_append, List.map_cons, List.map_cons, hselected]
    · simp
    · rw [List.perm_iff_count]
      intro x
      simp only [List.flatMap_append, List.flatMap_cons, List.count_cons, List.count_append]
      omega

theorem Surroundings.Parts.trans {s s' : Surroundings} {mid hole : UInt32}
    {inner inner' : List UInt32} {within within' : List (Int64 × Bytes)}
    (h : s.Parts usable view lo hi root mid pages inner rows within)
    (h' : s'.Parts usable view s.lo s.hi mid hole inner inner' within within') :
    (Surroundings.mk s'.lo s'.hi (s.others ++ s'.others) (s.before ++ s'.before)
      (s'.after ++ s.after)).Parts usable view lo hi root hole pages inner' rows within' where
  tree := h'.tree
  pages_perm := by
    rw [List.append_assoc]
    exact h.pages_perm.trans (h'.pages_perm.append_left _)
  rows_eq := by
    rw [h.rows_eq, h'.rows_eq]
    simp
  around view' d pages rows htree hsame := by
    obtain ⟨d₁, pages₁, htree₁, hpages₁⟩ := h'.around view' d pages rows htree
      fun x hx => hsame x (List.mem_append_right _ hx)
    obtain ⟨d₂, pages₂, htree₂, hpages₂⟩ := h.around view' d₁ pages₁ _ htree₁
      fun x hx => hsame x (List.mem_append_left _ hx)
    refine ⟨d₂, pages₂, by simpa using htree₂, ?_⟩
    rw [List.append_assoc]
    exact hpages₂.trans (hpages₁.append_left _)

theorem SearchPages.routed (h : SearchPages usable view depth lo hi root pages rows)
    (hrow : Within lo hi rowid) (hway : Routed view rowid root pgno path) :
    ∃ (s : Surroundings) (inner : List UInt32) (within : List (Int64 × Bytes)),
      s.Parts usable view lo hi root pgno pages inner rows within ∧
      Within s.lo s.hi rowid ∧ path ⊆ s.others := by
  induction hway with
  | here =>
      refine ⟨⟨lo, hi, [], [], []⟩, pages, rows, ⟨⟨depth, h⟩, by simp, by simp, ?_⟩, hrow, by simp⟩
      exact fun view' d pages rows htree _ => ⟨d, pages, by simpa using htree, by simp⟩
  | child _ hnode ih =>
      obtain ⟨s, inner, within, hparts, hwithin, hpath⟩ := ih
      obtain ⟨d, htree⟩ := hparts.tree
      obtain ⟨s', inner', within', hparts', hwithin', hmem⟩ := htree.selected_child hnode hwithin
      exact ⟨_, inner', within', hparts.trans hparts', hwithin', List.cons_subset.mpr
        ⟨List.mem_append_right _ hmem, List.subset_append_of_subset_left _ hpath⟩⟩

theorem SearchPages.last_child {leaf : UInt32}
    (h : SearchPages usable view depth lo hi pgno pages rows)
    (hnode : NodeAt view pgno ds leaf page hdr) (hrow : Within lo hi rowid)
    (hlast : ∀ d ∈ ds, d.rowid < rowid) :
    ∃ d lo' others inner before within, SearchPages usable view d lo' hi leaf inner within ∧
      Within lo' hi rowid ∧ pages.Perm (pgno :: others ++ inner) ∧ rows = before ++ within ∧
      ∀ view' k new page' hdr' d' left behind rowsLeft rowsBehind,
        NodeAt view' pgno (ds ++ [.built leaf k]) new page' hdr' → Within lo' hi k →
        SearchPages usable view' d' lo' (some k) leaf left rowsLeft →
        SearchPages usable view' d' (some k) hi new behind rowsBehind →
        (∀ x ∈ others, view' x = view x) →
        ∃ d'', SearchPages usable view' d'' lo hi pgno (pgno :: (others ++ (left ++ behind)))
          (before ++ (rowsLeft ++ rowsBehind)) := by
  obtain ⟨d, cs, xss, hchildren, hparted, rfl, rfl⟩ := h.node_inv hnode
  obtain ⟨cs₁, c, xss₁, xs, lo', rfl, rfl, hc, hwithin, hfill⟩ := hparted.snoc
  rw [List.map_append, List.map_singleton] at hchildren
  obtain ⟨hinit, hright⟩ := List.append_inj' hchildren rfl
  have hleaf : c.child = leaf := by simpa using hright
  refine ⟨d, lo', cs₁.flatMap Branch.pages, c.pages, xss₁.flatten, xs, hleaf ▸ hc,
    hwithin rowid hrow (List.forall_mem_map.mpr hlast), ?_, by simp, ?_⟩
  · simp
  · intro view' k new page' hdr' d' left behind rowsLeft rowsBehind hnode' hk hleft hbehind hsame
    have hothers : ∀ lo hi xs, ∀ c ∈ cs₁, SearchPages usable view d lo hi c.child c.pages xs →
        SearchPages usable view' (max d d') lo hi c.child c.pages xs :=
      fun _ _ _ c hmem h => (h.congr fun x hx => hsame x
        (List.mem_flatMap.mpr ⟨c, hmem, hx⟩)).deepen (Nat.le_max_left ..)
    have hnew := hfill _ [k] [⟨leaf, left⟩, ⟨new, behind⟩] [rowsLeft, rowsBehind] hothers
      (.cons hk (hleft.deepen (Nat.le_max_right ..)) (.last (hbehind.deepen (Nat.le_max_right ..))))
    refine ⟨max d d' + 1, .inr ⟨ds ++ [.built leaf k], new, page', hdr',
      cs₁ ++ [⟨leaf, left⟩, ⟨new, behind⟩], xss₁ ++ [rowsLeft, rowsBehind], hnode', ?_, ?_, ?_, ?_⟩⟩
    · simp [hinit, Divider.built]
    · rw [List.map_append]
      exact hnew
    · simp
    · simp

end Holes

end Rustqlite.Btree
