import Rustqlite.Btree.IndexSplit

/-!
# The entries of an index that is being split

Whatever becomes of the subtree at a page, the index around it has the entries
in front of it and behind it as before.  A split and a promotion leave the
entries of the subtree alone, or do not happen.
-/

namespace Rustqlite.Btree

open Foundation Format Pager FileM

/-! ## The index around a page -/

section Around

variable {usable : Nat} {encoding : TextEncoding} {asI64 : Value → Int64}
  {view : UInt32 → Result Bytes} {root pgno : UInt32} {depth : Nat} {pages : List UInt32}
  {es : List (Bytes × Int64)}

theorem LocalIndex.focus (h : LocalIndex usable encoding asI64 view depth root pages es)
    (hnodup : pages.Nodup) (hmem : pgno ∈ pages) :
    ∃ d inner within front back, LocalIndex usable encoding asI64 view d pgno inner within ∧
      inner.Sublist pages ∧ es = front ++ within ++ back ∧
      ∀ {view' : UInt32 → Result Bytes} {d' : Nat} {inner' : List UInt32}
        {within' : List (Bytes × Int64)}, (∀ x ∈ pages, x ∉ inner → view' x = view x) →
        LocalIndex usable encoding asI64 view' d' pgno inner' within' →
        ∃ depth' pages', LocalIndex usable encoding asI64 view' depth' root pages'
          (front ++ within' ++ back) := by
  induction depth generalizing root pages es with
  | zero => exact h.elim
  | succ depth ih =>
      by_cases hroot : pgno = root
      · subst hroot
        refine ⟨depth + 1, pages, es, [], [], h, List.Sublist.refl _, by simp,
          fun {_ d' inner' _} _ htree => ⟨d', inner', by simpa using htree⟩⟩
      rcases h with ⟨ks, page, hdr, -, rfl, -⟩ | ⟨ds, right, page, hdr, below, hnode, hthread, rfl⟩
      · exact absurd (List.mem_singleton.mp hmem) hroot
      have hbelow : pgno ∈ below := (List.mem_cons.mp hmem).resolve_left hroot
      obtain ⟨c, before, sub, behind, front, within, back, htree, hin, rfl, rfl, hput⟩ :=
        hthread.focus_mem hbelow
      obtain ⟨hrootOut, hnodup'⟩ := List.nodup_cons.mp hnodup
      have hsub : sub.Sublist (before ++ sub ++ behind) :=
        (List.sublist_append_right before sub).trans (List.sublist_append_left _ _)
      obtain ⟨d, inner, within₁, front₁, back₁, hat, hinner, rfl, hput₁⟩ :=
        ih htree (hnodup'.sublist hsub) hin
      refine ⟨d, inner, within₁, front ++ front₁, back₁ ++ back, hat,
        (hinner.trans hsub).trans (List.sublist_cons_self _ _), by simp,
        fun {view' _ _ _} hsame hat' => ?_⟩
      obtain ⟨d', pages', htree'⟩ := hput₁ (fun x hx hxin => hsame x
        (List.mem_cons_of_mem _ (hsub.subset hx)) hxin) hat'
      -- the other children keep their pages
      have hother : ∀ ps : List UInt32, ps ⊆ before ++ behind → ∀ x ∈ ps, view' x = view x :=
        fun ps hps x hx =>
        hsame x (List.mem_cons_of_mem _ (by
          have hx' := hps hx
          simp only [List.mem_append] at hx' ⊢
          tauto)) fun hxin => by
            have hxsub := hinner.subset hxin
            have hx' := hps hx
            rw [List.append_assoc, List.nodup_append] at hnodup'
            obtain ⟨-, hrest, hapart⟩ := hnodup'
            rcases List.mem_append.mp hx' with hb | hb
            · exact hapart x hb x (List.mem_append_left _ hxsub) rfl
            · exact (List.nodup_append.mp hrest).2.2 x hxsub x hb rfl
      have hthread' := hput
        (fun q ps qs hps hq => (hq.congr (hother ps hps)).mono (Nat.le_max_left depth d'))
        (htree'.mono (Nat.le_max_right depth d'))
      have hroot' := hsame root List.mem_cons_self fun hxin =>
        hrootOut (hsub.subset (hinner.subset hxin))
      refine ⟨max depth d' + 1, root :: (before ++ pages' ++ behind),
        .inr ⟨ds, right, page, hdr, _, hnode.congr hroot', ?_, rfl⟩⟩
      simpa using hthread'

end Around

/-! ## Splits of interior pages -/

section Sites

variable (encoding : TextEncoding) (asI64 : Value → Int64)

def EntriesAre (q : PagerState × World DbFile) (root : UInt32) (es : List (Bytes × Int64)) : Prop :=
  ∃ depth, ∀ d ≥ depth, (visitIndex q.1.geometry.usableSize encoding asI64 d root).eval
    (pageSeen q.1 q.2.disk) = .ok es

structure IndexSite (p : PagerState × World DbFile) (trunks : List (UInt32 × List UInt32))
    (root : UInt32) (pages : List UInt32) (es : List (Bytes × Int64)) : Prop where
  store : SoundStore p trunks
  tree : ∃ depth, LocalIndex p.1.geometry.usableSize encoding asI64 (pageSeen p.1 p.2.disk) depth
    root pages es
  inUse : InUse p trunks pages
  /-- The first page is one of a table. -/
  first : 1 ∉ pages

end Sites

section Splits

variable {encoding : TextEncoding} {asI64 : Value → Int64} {p q : PagerState × World DbFile}
  {trunks : List (UInt32 × List UInt32)} {root : UInt32} {pages : List UInt32}
  {es : List (Bytes × Int64)}

theorem LocalIndex.entriesAre {depth : Nat}
    (h : LocalIndex q.1.geometry.usableSize encoding asI64 (pageSeen q.1 q.2.disk) depth root pages
      es) : EntriesAre encoding asI64 q root es :=
  ⟨depth, h.visit⟩

theorem IndexSite.kept (h : IndexSite encoding asI64 p trunks root pages es)
    (hsame : SameOn p q pages) : EntriesAre encoding asI64 q root es := by
  obtain ⟨depth, htree⟩ := h.tree
  have htree' := htree.congr hsame.view
  rw [← hsame.geometry] at htree'
  exact htree'.entriesAre

variable {x right new parent : UInt32} {ds : List IndexDivider} {page : Bytes} {hdr : PageHeader}
  {d k : Nat} {below : List UInt32}

theorem splitIndexInteriorPage_run (hp : p.2.failAt = none)
    (hnode : LocalNodeAt p.1.geometry.usableSize encoding asI64 (pageSeen p.1 p.2.disk) x ds right
      page hdr) (parentRoot : Option UInt32) :
    ∃ p₁, Quiet p p₁ ∧ ((∃ e, splitIndexInteriorPage x parentRoot p = .error e p₁) ∨
      ∃ k, ∃ hk : k < ds.length, splitIndexInteriorPage x parentRoot p =
        splitIndexInteriorAt x parentRoot (some right) (ds.map IndexDivider.bytes) k ds[k].entry.1
          ds[k].child p₁) := by
  obtain ⟨p₁, hread, h₁⟩ := readPageForWrite_ok hp hnode.shown
  refine ⟨p₁, h₁, ?_⟩
  set usable := p.1.geometry.usableSize with husable
  set k := splitPoint usable (ds.map IndexDivider.bytes) with hk
  by_cases hplace : k < ds.length
  · refine .inr ⟨k, hplace, ?_⟩
    have hlocal := hnode.valid ds[k] (List.getElem_mem hplace)
    have hcell : (ds.map IndexDivider.bytes)[k]? = some ds[k].bytes := by simp [hplace]
    have hkey : indexKeyFromInteriorCell ds[k].bytes usable = .ok ds[k].entry.1 :=
      hlocal.holds.indexKeyFromInteriorCell
    have hstands : StandsAt (be32 ds[k].child ++ ds[k].key.bytes) ds[k].bytes 0 := ⟨[], by
      simp [IndexDivider.bytes]⟩
    rw [splitIndexInteriorPage, getState_bind, ← husable, bind_ok hread]
    simp only [hnode.carries.parse, liftResult_ok_bind, hnode.carries.pageType_eq, ne_eq,
      not_true_eq_false, if_false, indexCells_node hnode, hnode.rightMost, ← hk, hcell, hkey,
      pointerAt_standsAt hstands]
  · refine .inl ⟨.corrupt "split_index_interior_page: cannot find a split point", ?_⟩
    have hcell : (ds.map IndexDivider.bytes)[k]? = none :=
      List.getElem?_eq_none (by simpa using hplace)
    rw [splitIndexInteriorPage, getState_bind, ← husable, bind_ok hread]
    simp only [hnode.carries.parse, liftResult_ok_bind, hnode.carries.pageType_eq, ne_eq,
      not_true_eq_false, if_false, indexCells_node hnode, ← hk, hcell]
    rfl

theorem splitIndexInteriorPage_leaf (hp : p.2.failAt = none) {ks : List IndexKey}
    (hleaf : LocalLeafAt p.1.geometry.usableSize encoding asI64 (pageSeen p.1 p.2.disk) x ks
        page hdr) (parentRoot : Option UInt32) :
    ∃ p₁ e, Quiet p p₁ ∧ splitIndexInteriorPage x parentRoot p = .error e p₁ := by
  obtain ⟨p₁, hread, h₁⟩ := readPageForWrite_ok hp hleaf.shown
  refine ⟨p₁, .corrupt "split_index_interior_page called on a non-index-interior page", h₁, ?_⟩
  rw [splitIndexInteriorPage, getState_bind, bind_ok hread]
  simp only [hleaf.carries.parse, liftResult_ok_bind, hleaf.carries.pageType_eq, ne_eq,
    reduceCtorEq, not_false_eq_true, if_true]
  rfl

theorem IndexHalves.subtrees {usable : Nat} {view view' : UInt32 → Result Bytes}
    (h : IndexHalves usable encoding asI64 view' x new right ds k)
    (hthread : Threaded (LocalIndex usable encoding asI64 view d) IndexDivider.child
      IndexDivider.entry ds right below es) (hsame : ∀ y ∈ below, view' y = view y) :
    ∃ (hk : k < ds.length) (left rest : List UInt32) (ls rs : List (Bytes × Int64)),
      es = ls ++ ds[k].entry :: rs ∧
      LocalIndex usable encoding asI64 view' (d + 1) x (x :: left) ls ∧
      LocalIndex usable encoding asI64 view' (d + 1) new (new :: rest) rs := by
  obtain ⟨hk, lpage, lhdr, hleftNode⟩ := h.divider
  obtain ⟨rpage, rhdr, hrestNode⟩ := h.behind
  have hsplit : ds = ds.take k ++ ds[k] :: ds.drop (k + 1) := by
    rw [← List.drop_eq_getElem_cons hk, List.take_append_drop]
  rw [hsplit] at hthread
  obtain ⟨left, ls, rest, rs, hleft, hrest, rfl, rfl⟩ := hthread.cut
  have hleft' := hleft.imp fun _ ps _ hps htree =>
    htree.congr fun y hy => hsame y (List.mem_append_left _ (hps hy))
  have hrest' := hrest.imp fun _ ps _ hps htree =>
    htree.congr fun y hy => hsame y (List.mem_append_right _ (hps hy))
  exact ⟨hk, left, rest, ls, rs, rfl, .inr ⟨_, _, lpage, lhdr, left, hleftNode, hleft', rfl⟩,
    .inr ⟨_, _, rpage, rhdr, rest, hrestNode, hrest', rfl⟩⟩

theorem SplitBelow.subtree {upRight : UInt32} {ups : List IndexDivider}
    {within : List (Bytes × Int64)}
    (h : SplitBelow encoding asI64 p q pages parent x new ups upRight right ds k)
    (hnode : LocalNodeAt p.1.geometry.usableSize encoding asI64 (pageSeen p.1 p.2.disk) x ds right
      page hdr) (hthread : Threaded
      (LocalIndex p.1.geometry.usableSize encoding asI64 (pageSeen p.1 p.2.disk) d)
      IndexDivider.child IndexDivider.entry ups upRight below within)
    (hnodup : (parent :: below).Nodup) (hsub : parent :: below ⊆ pages) :
    ∃ below', LocalIndex p.1.geometry.usableSize encoding asI64 (pageSeen q.1 q.2.disk) (d + 1)
      parent (parent :: below') within := by
  obtain ⟨hk, ups', upRight', ppage, phdr, hdivided, hup⟩ := h.above
  obtain ⟨before, inner, behind, front, sub, back, htree, rfl, rfl, hput⟩ :=
    hdivided.threaded hthread
  obtain ⟨hparentOut, hnodup'⟩ := List.nodup_cons.mp hnodup
  have hview : ∀ y ∈ before ++ inner ++ behind, y ≠ x →
      pageSeen q.1 q.2.disk y = pageSeen p.1 p.2.disk y := fun y hy hyx =>
    h.others y (hsub (List.mem_cons_of_mem _ hy)) (fun heq => hparentOut (heq ▸ hy)) hyx
  obtain ⟨hinner, hout⟩ : inner.Nodup ∧ ∀ y ∈ before ++ behind, y ∉ inner := by
    rw [List.append_assoc] at hnodup'
    obtain ⟨-, hrest, hbefore⟩ := List.nodup_append.mp hnodup'
    obtain ⟨hinner, -, hbehind⟩ := List.nodup_append.mp hrest
    refine ⟨hinner, fun y hy hin => ?_⟩
    rcases List.mem_append.mp hy with hy | hy
    · exact hbefore y hy y (List.mem_append_left _ hin) rfl
    · exact hbehind y hin y hy rfl
  cases d with
  | zero => exact htree.elim
  | succ d =>
      rcases htree with ⟨ks, lpage, lhdr, hleaf, -, -⟩ |
        ⟨ds', right', npage, nhdr, xbelow, hnode', hxthread, rfl⟩
      · -- the page is not a leaf
        obtain rfl : page = lpage := Except.ok.inj (hnode.shown.symm.trans hleaf.shown)
        obtain rfl : hdr = lhdr :=
          Except.ok.inj (hnode.carries.parse.symm.trans hleaf.carries.parse)
        have htype := hnode.carries.pageType_eq.symm.trans hleaf.carries.pageType_eq
        cases htype
      obtain ⟨rfl, rfl⟩ := hnode.unique hnode'
      obtain ⟨-, left, rest, ls, rs, rfl, hleft, hrest⟩ := h.halves.subtrees hxthread fun y hy =>
        hview y (by simp [hy]) fun heq => (List.nodup_cons.mp hinner).1 (heq ▸ hy)
      have haround : ∀ ps : List UInt32, ps ⊆ before ++ behind → ∀ y ∈ ps,
          pageSeen q.1 q.2.disk y = pageSeen p.1 p.2.disk y := by
        intro ps hps y hy
        refine hview y ?_ fun heq => hout y (hps hy) (heq ▸ List.mem_cons_self)
        have hmem := hps hy
        simp only [List.mem_append] at hmem ⊢
        tauto
      obtain ⟨below', hthread'⟩ := hput
        (fun _ ps _ hps htree => htree.congr (haround ps hps)) hleft hrest
      exact ⟨below', .inr ⟨ups', upRight', ppage, phdr, below', hup, hthread', rfl⟩⟩

theorem splitIndexInteriorPage_entries (h : IndexSite encoding asI64 p trunks root pages es)
    (hparent : parent ∈ pages) (hchild : IndexChildOf (pageSeen p.1 p.2.disk) parent x) :
    EntriesAre encoding asI64 (endOf (splitIndexInteriorPage x (some parent)) p) root es := by
  obtain ⟨depth, htree⟩ := h.tree
  obtain ⟨d, inner, within, front, back, hat, hinner, rfl, hput⟩ :=
    htree.focus h.inUse.nodup hparent
  have hquiet : ∀ {e : Error} {p₁ : PagerState × World DbFile}, Quiet p p₁ →
      splitIndexInteriorPage x (some parent) p = .error e p₁ →
      EntriesAre encoding asI64 (endOf (splitIndexInteriorPage x (some parent)) p) root
        (front ++ within ++ back) := by
    intro e p₁ h₁ hrun
    rw [endOf_error hrun]
    exact h.kept (h₁.sameOn pages)
  cases d with
  | zero => exact hat.elim
  | succ d =>
      rcases hat with ⟨ks, pbuf, phdr, hleaf, -, -⟩ |
        ⟨ups, upRight, pbuf, phdr, below, hup, hthread, rfl⟩
      · -- a leaf has no children
        obtain ⟨page', hdr', hshown, hparse, htype, -⟩ := hchild
        obtain rfl : pbuf = page' := Except.ok.inj (hleaf.shown.symm.trans hshown)
        obtain rfl : phdr = hdr' := Except.ok.inj (hleaf.carries.parse.symm.trans hparse)
        rw [hleaf.carries.pageType_eq] at htype
        cases htype
      have hmem := hup.mem_of_indexChildOf hchild
      obtain ⟨xpages, xes, hxtree, hxsub⟩ := hthread.exists_tree hmem
      have hxbelow : x ∈ below := hxsub hxtree.root_mem
      have hnodup := h.inUse.nodup.sublist hinner
      have hx : x ∈ pages := hinner.subset (List.mem_cons_of_mem _ hxbelow)
      have hne : x ≠ parent := fun heq => (List.nodup_cons.mp hnodup).1 (heq ▸ hxbelow)
      cases d with
      | zero => exact hxtree.elim
      | succ d =>
          rcases hxtree with ⟨ks, page, hdr, hleaf, -, -⟩ |
            ⟨ds, right, page, hdr, xbelow, hnode, hxthread, rfl⟩
          · obtain ⟨p₁, e, h₁, hrun⟩ := splitIndexInteriorPage_leaf h.store.failAt hleaf
                (some parent)
            exact hquiet h₁ hrun
          obtain ⟨p₁, h₁, ⟨e, hrun⟩ | ⟨k, hk, hrun⟩⟩ :=
            splitIndexInteriorPage_run h.store.failAt hnode (some parent)
          · exact hquiet h₁ hrun
          have hsite := h.store.quiet h₁
          have hin₁ := (hsite.aside h.inUse).1
          have hchildren : ∀ c ∈ ds.map IndexDivider.child ++ [right], c ∈ pages := by
            intro c hc
            obtain ⟨cpages, ces, hctree, hcsub⟩ := hxthread.exists_tree hc
            have hcx : c ∈ x :: xbelow := List.mem_cons_of_mem _ (hcsub hctree.root_mem)
            exact hinner.subset (List.mem_cons_of_mem _ (hxsub hcx))
          have hup₁ := hup.congr (h₁.view parent)
          have hnode₁ := hnode.congr (h₁.view x)
          rw [← h₁.geometry] at hup₁ hnode₁
          have hspec := splitIndexInteriorAt_spec hsite.sound hin₁ h.first hparent hx hne
              hup₁ hnode₁
            hmem hchildren hk
          rw [endOf, hrun, ← endOf]
          generalize endOf (splitIndexInteriorAt x (some parent) (some right)
            (ds.map IndexDivider.bytes) k ds[k].entry.1 ds[k].child) p₁ = q at hspec ⊢
          rcases hspec with hsame | ⟨new, hsplit⟩
          · exact h.kept ((h₁.sameOn pages).trans hsame)
          · have hthread₁ := hthread.imp fun _ _ _ _ htree =>
              LocalIndex.congr htree fun y _ => h₁.view y
            rw [← h₁.geometry] at hthread₁
            obtain ⟨below', htree'⟩ := hsplit.subtree hnode₁ hthread₁ hnodup hinner.subset
            have hgeometry := hsplit.geometry.trans h₁.geometry
            rw [h₁.geometry] at htree'
            have hothers : ∀ y ∈ pages, y ∉ parent :: below →
                pageSeen q.1 q.2.disk y = pageSeen p.1 p.2.disk y := by
              intro y hy hyout
              have hyparent : y ≠ parent := fun heq => hyout (heq ▸ List.mem_cons_self)
              have hyx : y ≠ x := fun heq => hyout (heq ▸ List.mem_cons_of_mem _ hxbelow)
              rw [hsplit.others y hy hyparent hyx, h₁.view]
            obtain ⟨depth', pages', hroot⟩ := hput hothers htree'
            rw [← hgeometry] at hroot
            exact hroot.entriesAre

theorem splitIndexInteriorPage_alone (h : IndexSite encoding asI64 p trunks root pages es) :
    EntriesAre encoding asI64 (endOf (splitIndexInteriorPage root none) p) root es ∨
      ∃ new key rowid ls rs q, splitIndexInteriorPage root none p = .ok (new, key) q ∧
        EntriesAre encoding asI64 q root ls ∧ EntriesAre encoding asI64 q new rs ∧
        es = ls ++ (key, rowid) :: rs := by
  obtain ⟨depth, htree⟩ := h.tree
  have hroot : root ∈ pages := htree.root_mem
  have hquiet : ∀ {e : Error} {p₁ : PagerState × World DbFile}, SameOn p p₁ pages →
      splitIndexInteriorPage root none p = .error e p₁ →
      EntriesAre encoding asI64 (endOf (splitIndexInteriorPage root none) p) root es := by
    intro e p₁ h₁ hrun
    rw [endOf_error hrun]
    exact h.kept h₁
  cases depth with
  | zero => exact htree.elim
  | succ d =>
      rcases htree with ⟨ks, page, hdr, hleaf, -, -⟩ |
        ⟨ds, right, page, hdr, below, hnode, hthread, rfl⟩
      · obtain ⟨p₁, e, h₁, hrun⟩ := splitIndexInteriorPage_leaf h.store.failAt hleaf none
        exact .inl (hquiet (h₁.sameOn _) hrun)
      obtain ⟨p₁, h₁, ⟨e, hrun⟩ | ⟨k, hk, hrun⟩⟩ :=
        splitIndexInteriorPage_run h.store.failAt hnode none
      · exact .inl (hquiet (h₁.sameOn _) hrun)
      have hsite := h.store.quiet h₁
      have hin₁ := (hsite.aside h.inUse).1
      have hspec := hsite.sound.allocatePage
      cases halloc : allocatePage p₁ with
      | error e p₂ =>
          rw [halloc] at hspec
          refine .inl (hquiet (e := e) ((h₁.sameOn _).trans (hin₁.sameOn hspec.2)) ?_)
          rw [hrun, splitIndexInteriorAt, bind_error halloc]
      | ok new p₂ =>
          rw [halloc] at hspec
          obtain ⟨hnewOne, -, rest, h₂⟩ := hspec
          have hin₂ : InUse p₂ rest (new :: root :: below) := h₂.frame hin₁
          have hview₂ : ∀ y ∈ root :: below, pageSeen p₂.1 p₂.2.disk y = pageSeen p.1 p.2.disk y :=
            fun y hy => (h₂.view hin₁ y hy).trans (h₁.view y)
          have hgeometry₂ : p₂.1.geometry = p.1.geometry := h₂.grows.geometry.trans h₁.geometry
          have hnode₂ := hnode.congr (hview₂ root hroot)
          rw [← hgeometry₂] at hnode₂
          have hchildren : ∀ c ∈ ds.map IndexDivider.child ++ [right],
              c ∈ root :: below ∧ c ≠ 1 := by
            intro c hc
            obtain ⟨cpages, ces, hctree, hcsub⟩ := hthread.exists_tree hc
            have hmem : c ∈ root :: below := List.mem_cons_of_mem _ (hcsub hctree.root_mem)
            exact ⟨hmem, fun heq => h.first (heq ▸ hmem)⟩
          obtain ⟨q, hwrite, h₃, hhalves⟩ := writeIndexHalves_ok h₂.sound hin₂ hroot
            (fun heq => h.first (heq ▸ hroot)) hnewOne hnode₂ hchildren hk none
          have hgeometry := h₃.geometry.trans hgeometry₂
          obtain ⟨hrootOut, hbelow⟩ := List.nodup_cons.mp h.inUse.nodup
          have hnewOut := (List.nodup_cons.mp hin₂.nodup).1
          rw [hgeometry₂] at hhalves
          obtain ⟨hk', left, behind, ls, rs, hes, hleft, hbehind⟩ := hhalves.subtrees hthread
            fun y hy => by
              have hmem : y ∈ root :: below := List.mem_cons_of_mem _ hy
              rw [h₃.view y (by simp [hy]) (by
                simp only [List.mem_cons, List.not_mem_nil, or_false, not_or]
                exact ⟨fun heq => hnewOut (heq ▸ hmem), fun heq => hrootOut (heq ▸ hy)⟩),
                hview₂ y hmem]
          rw [← hgeometry] at hleft hbehind
          refine .inr ⟨new, ds[k].entry.1, ds[k].entry.2, ls, rs, q, ?_, hleft.entriesAre,
            hbehind.entriesAre, hes⟩
          rw [hrun]
          simp only [splitIndexInteriorAt]
          rw [bind_ok halloc]
          exact bind_ok hwrite

end Splits

end Rustqlite.Btree
