import Rustqlite.Pager.Freeing
import Rustqlite.Pager.Vacuum

/-!
# The freelist over whole runs

A run allocates and frees pages in transactions that commit.  The list stays
sound as long as no page is freed that is on it already, and page 1 never is.
-/

namespace Rustqlite.Pager

open Foundation Format Btree FileM

/-! ## Pages in memory -/

structure InMemory (p : PagerState × World DbFile) : Prop where
  failAt : p.2.failAt = none
  page : ∀ x, x ≠ 0 → x ≤ p.1.pageCount → (p.1.resident x).isSome = true

theorem resident_insert (s : PagerState) (pgno x : UInt32) (page : Bytes) :
    (PagerState.resident { s with dirty := s.dirty.insert pgno page } x) =
      if x = pgno then some page else s.resident x := by
  by_cases hx : x = pgno
  · subst hx
    simp [PagerState.resident]
  · simp [PagerState.resident, AList.lookup_insert_ne hx, hx]

variable {p q : PagerState × World DbFile} {n x first pt pgno : UInt32} {size pageSize : Nat}
  {view : UInt32 → Result Bytes} {trunks rest : List (UInt32 × List UInt32)} {page d : Bytes}
  {pending : List (UInt32 × Bytes)} {s : PagerState} {w : World DbFile}

theorem InMemory.inserted (h : InMemory p) (pgno : UInt32) (page : Bytes) :
    InMemory ({ p.1 with dirty := p.1.dirty.insert pgno page }, p.2) := by
  refine ⟨h.failAt, fun x h0 hle => ?_⟩
  rw [resident_insert]
  split_ifs
  · rfl
  · exact h.page x h0 hle

theorem InMemory.congr (h : InMemory p) (hfail : q.2.failAt = none)
    (hcount : q.1.pageCount = p.1.pageCount)
    (hres : ∀ x, x ≠ 0 → x ≤ p.1.pageCount → (p.1.resident x).isSome = true →
      (q.1.resident x).isSome = true) : InMemory q := by
  refine ⟨hfail, fun x h0 hle => ?_⟩
  rw [hcount] at hle
  exact hres x h0 hle (h.page x h0 hle)

theorem le_succ_cases (h : x ≤ n + 1) : x ≤ n ∨ x = n + 1 := by
  rw [UInt32.le_iff_toNat_le, UInt32.toNat_add, UInt32.toNat_one] at h
  rw [UInt32.le_iff_toNat_le, ← UInt32.toNat_inj, UInt32.toNat_add, UInt32.toNat_one]
  have := n.toNat_lt
  omega

theorem inMemory_getPage (pgno : UInt32) : Keeps InMemory (getPage pgno) := by
  intro p hp
  obtain ⟨w', hw', hrun⟩ := getPage_run (s := p.1) hp.failAt pgno
  have hfail := failAt_probed hw' hp.failAt
  rw [show p = (p.1, p.2) from rfl, hrun]
  cases pageSeen p.1 p.2.disk pgno with
  | error e => exact hp.congr hfail rfl fun _ _ _ h => h
  | ok page =>
      refine hp.congr hfail (by simp only [afterRead]; split <;> rfl) fun x _ _ hx => ?_
      simp only [afterRead]
      split_ifs with hnone
      · have hne : x ≠ pgno := by
          rintro rfl
          rw [hnone] at hx
          cases hx
        simpa [PagerState.resident, PagerState.insertCache, hne] using hx
      · exact hx

theorem inMemory_journalPage (pgno : UInt32) (preimage : Bytes) :
    Keeps InMemory (journalPage pgno preimage) := by
  intro p hp
  have hok : p.2.failAt ≠ some 0 := by simp [hp.failAt]
  rw [show p = (p.1, p.2) from rfl, journalPage_run hok]
  cases mustJournal p.1 pgno with
  | none => exact hp
  | some t => exact hp.congr (by simp [World.apply, hp.failAt]) rfl fun _ _ _ h => h

theorem inMemory_primitives : Primitives InMemory where
  getPage := inMemory_getPage
  journalPage := inMemory_journalPage
  writePage pgno data :=
    Keeps.getState.bind fun _ => Keeps.ite (Keeps.throw _)
      (Triple.modifyState fun _ hp => hp.inserted pgno data)
  withHeaderMut _ _ := Triple.modifyState fun _ hp => ⟨hp.failAt, hp.page⟩
  zeroed g pgno := Triple.modifyState fun _ hp => hp.inserted pgno (zeroPage g)
  extended g := Triple.modifyState fun p hp => by
    refine ⟨hp.failAt, fun x h0 hle => ?_⟩
    change (PagerState.resident { p.1 with dirty := _ } x).isSome = true
    rw [resident_insert]
    split_ifs with hx
    · rfl
    · exact hp.page x h0 ((le_succ_cases hle).resolve_right hx)

/-! ## Searching the list -/

theorem Trunks.mem (h : Trunks size view first trunks) {t : UInt32 × List UInt32}
    (ht : t ∈ trunks) :
    ∃ page, view t.1 = .ok page ∧ Names size page t.2 := by
  induction trunks generalizing first with
  | nil => cases ht
  | cons u trunks ih =>
      obtain ⟨-, -, page, hpage, hnames, hrest⟩ := h
      rcases List.mem_cons.mp ht with rfl | ht
      · exact ⟨page, hpage, hnames⟩
      · exact ih hrest ht

theorem Trunks.unlink {view' : UInt32 → Result Bytes} {t : UInt32}
    {before after : List (UInt32 × List UInt32)} {page' : Bytes}
    (h : Trunks size view first (before ++ (pt, []) :: (t, []) :: after))
    (hnodup : (freePages (before ++ (pt, []) :: (t, []) :: after)).Nodup)
    (hview : ∀ x, x ≠ pt → view' x = view x) (ht : view t = .ok page) (hpt : view' pt = .ok page')
    (hnames : Names size page' []) (hnext : readBe32 page' = readBe32 page) :
    Trunks size view' first (before ++ (pt, []) :: after) := by
  induction before generalizing first with
  | nil =>
      obtain ⟨rfl, h0, -, -, -, -, -, page₂, hpage₂, -, hrest⟩ := h
      obtain rfl : page = page₂ := by
        rw [ht] at hpage₂
        exact Except.ok.inj hpage₂
      refine ⟨rfl, h0, page', hpt, hnames, ?_⟩
      rw [hnext]
      refine hrest.congr fun x hx => hview x ?_
      rintro rfl
      simp only [List.nil_append, freePages_cons, List.nodup_cons] at hnodup
      exact hnodup.1 (by simp [hx])
  | cons u before ih =>
      obtain ⟨trunk, leaves⟩ := u
      obtain ⟨rfl, h0, page₁, hpage₁, hnames₁, hrest⟩ := h
      simp only [List.cons_append, freePages_cons, List.nodup_cons] at hnodup
      refine ⟨rfl, h0, page₁, (hview _ ?_).trans hpage₁, hnames₁,
        ih hrest (List.nodup_append.mp hnodup.2).2.1⟩
      rintro rfl
      exact hnodup.1 (by simp)

theorem length_le_freePages (trunks : List (UInt32 × List UInt32)) :
    trunks.length ≤ (freePages trunks).length := by
  induction trunks with
  | nil => simp
  | cons t trunks ih =>
      simp only [freePages_cons, List.length_cons, List.length_append]
      omega

theorem Freelist.length_lt (h : Freelist p trunks) : trunks.length < 2 ^ 32 := by
  have hzero : 0 ∉ freePages trunks := fun hmem => (h.inFile 0 hmem).1 rfl
  have hshort := length_le_of_nodup (List.nodup_cons.mpr ⟨hzero, h.nodup⟩)
  have hlen := length_le_freePages trunks
  rw [List.length_cons] at hshort
  omega

theorem Allocated.of_quiet {p' : PagerState × World DbFile} (hp : Quiet p p')
    (h : Allocated p' q trunks rest pgno) : Allocated p q trunks rest pgno where
  grows := (hp.changes _).grows.trans h.grows
  freelist := h.freelist
  rest_subset := h.rest_subset
  not_free := h.not_free
  source := by
    have hcount := (hp.changes ∅).pageCount
    exact hcount ▸ h.source
  ne_zero := h.ne_zero
  le := h.le
  complete hcomp := h.complete ((hp.changes ∅).complete hcomp)
  leafless := h.leafless
  fromList hne := by
    have hcount := (hp.changes ∅).pageCount
    exact hcount ▸ h.fromList hne

theorem Names.relinked (h : Names size page []) (next : UInt32) :
    Names size (splice page 0 (be32 next)) [] ∧ readBe32 (splice page 0 (be32 next)) = next := by
  have hroom := h.room
  have hlen := h.length
  simp only [List.length_nil] at hroom
  have hfits : 0 + (be32 next).length ≤ page.length := by
    rw [length_be32]
    omega
  refine ⟨⟨by rw [length_splice hfits, hlen], h.room, ?_, by simp⟩, ?_⟩
  · rw [readBe32_splice hfits (.inr (by simp))]
    exact h.count
  · rw [splice, List.take_zero, List.nil_append, readBe32_be32_append]

section Walk

variable {p : PagerState × World DbFile} {before after : List (UInt32 × List UInt32)}
  {trunk : UInt32} {page : Bytes}

theorem takeTrunkPage_eq {prev : Option UInt32} (hk : readBe32 (page.drop 4) = 0) :
    takeTrunkPage prev page = (do
      relinkTrunk prev (readBe32 page)
      withHeaderMut fun h => { h with freelistCount := h.freelistCount - 1 }) := by
  rw [takeTrunkPage, if_pos hk]

theorem perm_freePages_middle (before after : List (UInt32 × List UInt32)) (trunk : UInt32) :
    (freePages (before ++ (trunk, []) :: after)).Perm (trunk :: freePages (before ++ after)) := by
  simp only [freePages_append, freePages_cons, List.nil_append]
  exact List.perm_middle

theorem takeTrunkPage_first (hp : p.2.failAt = none) (h : Freelist p ((trunk, []) :: after))
    (hpage : pageSeen p.1 p.2.disk trunk = .ok page) (hnames : Names p.1.pageSize page []) :
    ∃ q, takeTrunkPage none page p = .ok () q ∧
      Allocated p q ((trunk, []) :: after) after trunk := by
  have hk : readBe32 (page.drop 4) = 0 := UInt32.toNat_inj.mp hnames.count
  obtain ⟨-, -, page', hpage', -, hrest⟩ := h.chain
  obtain rfl : page = page' := by
    rw [hpage] at hpage'
    exact Except.ok.inj hpage'
  rw [takeTrunkPage_eq hk]
  refine ⟨_, rfl, ?_⟩
  have hch : Changes p ({ p.1 with header := { p.1.header with
      firstFreelistTrunk := readBe32 page
      freelistCount := p.1.header.freelistCount - 1 } }, p.2) ∅ :=
    { Changes.refl hp with autoVacuum := rfl }
  refine h.allocated hch (by simp) (by simp) ?_ rfl fun hall t ht => hall t (by simp [ht])
  exact hrest.congr fun x _ => hch.view x (by simp)

theorem takeTrunkPage_next (hp : p.2.failAt = none)
    (h : Freelist p (before ++ (pt, []) :: (trunk, []) :: after))
    (hpage : pageSeen p.1 p.2.disk trunk = .ok page) (hnames : Names p.1.pageSize page []) :
    ∃ q, takeTrunkPage (some pt) page p = .ok () q ∧
      Allocated p q (before ++ (pt, []) :: (trunk, []) :: after)
        (before ++ (pt, []) :: after) trunk := by
  have hk : readBe32 (page.drop 4) = 0 := UInt32.toNat_inj.mp hnames.count
  obtain ⟨pbuf, hpbuf, hpnames⟩ := h.chain.mem (t := (pt, [])) (by simp)
  obtain ⟨q, hread, hq⟩ := readPageForWrite_ok hp hpbuf
  obtain ⟨hrelinked, hnext⟩ := hpnames.relinked (readBe32 page)
  set pbuf' := splice pbuf 0 (be32 (readBe32 page)) with hpbuf'
  have hsize : pbuf'.length = q.1.pageSize := by
    rw [hrelinked.length, PagerState.pageSize, PagerState.pageSize, hq.geometry]
  have hwrite := writePage_ok (p := q) pt hsize
  have hptIn := h.inFile pt (by simp)
  rw [takeTrunkPage_eq hk]
  refine ⟨({ q.1.written pt pbuf' with header := { q.1.header with
    freelistCount := q.1.header.freelistCount - 1 } }, q.2), ?_, ?_⟩
  · have hrelink : relinkTrunk (some pt) (readBe32 page) p = .ok ()
        (q.1.written pt pbuf', q.2) := by
      rw [relinkTrunk, bind_ok hread]
      exact hwrite
    rw [bind_ok hrelink]
    rfl
  have hch : Changes p ({ q.1.written pt pbuf' with header := { q.1.header with
      freelistCount := q.1.header.freelistCount - 1 } }, q.2) {pt} := by
    have hwritten := (hq.changes {pt}).trans (changes_written hq.failAt _ hsize)
    exact { hwritten with }
  refine h.allocated hch (by simp) ?_ ?_ ?_ ?_
  · have hperm := perm_freePages_middle (before ++ [(pt, [])]) after trunk
    rwa [List.append_assoc, List.append_assoc] at hperm
  · change Trunks _ _ q.1.header.firstFreelistTrunk _
    rw [hq.header]
    refine h.chain.unlink h.nodup (fun x hx => hch.view x (by simpa using hx)) hpage ?_ hrelinked
      hnext
    refine pageSeen_written q.1 q.2.disk pbuf' hptIn.1 ?_
    rw [hq.effectiveCount]
    exact UInt32.le_trans hptIn.2 (effectiveCount_ge p.1)
  · change q.1.header.freelistCount - 1 = _
    rw [hq.header]
  · intro hall t ht
    refine hall t ?_
    simp only [List.mem_append, List.mem_cons] at ht ⊢
    tauto

def Found (p q : PagerState × World DbFile) (trunks : List (UInt32 × List UInt32)) :
    Option UInt32 → Prop
  | none => Quiet p q
  | some pgno => ∃ rest, Allocated p q trunks rest pgno

theorem walkTrunks_ok (nFin : Nat) {fuel : Nat} {cur : UInt32} (hp : p.2.failAt = none)
    (h : Freelist p (before ++ after)) (hleafless : ∀ t ∈ before ++ after, t.2 = [])
    (hcur : Trunks p.1.pageSize (pageSeen p.1 p.2.disk) cur after) (hfuel : after.length < fuel) :
    ∃ r q, walkTrunks nFin fuel cur (before.getLast?.map Prod.fst) p = .ok r q ∧
      Found p q (before ++ after) r := by
  induction after generalizing before p cur fuel with
  | nil =>
      obtain rfl : cur = 0 := hcur
      cases fuel with
      | zero => simp at hfuel
      | succ fuel => exact ⟨none, p, rfl, (SameView.refl hp).quiet⟩
  | cons t after ih =>
      obtain ⟨trunk, leaves⟩ := t
      obtain rfl : leaves = [] := hleafless (trunk, leaves) (by simp)
      obtain ⟨rfl, h0, page, hpage, hnames, hrest⟩ := hcur
      have hk : readBe32 (page.drop 4) = 0 := UInt32.toNat_inj.mp hnames.count
      obtain ⟨q, hget, hq⟩ := getPage_ok hp hpage
      have hqch := hq.changes ∅
      have hqsize : q.1.pageSize = p.1.pageSize := by
        rw [PagerState.pageSize, PagerState.pageSize, hq.geometry]
      have hqlist := h.changes hqch hq.header (by simp)
      cases fuel with
      | zero => simp at hfuel
      | succ fuel =>
          by_cases hle : cur.toNat ≤ nFin
          · have htake : ∃ r, takeTrunkPage (before.getLast?.map Prod.fst) page q = .ok () r ∧
                ∃ rest, Allocated q r (before ++ (cur, []) :: after) rest cur := by
              rcases List.eq_nil_or_concat before with rfl | ⟨init, pt, rfl⟩
              · obtain ⟨r, hrun, halloc⟩ := takeTrunkPage_first hq.failAt hqlist
                  ((hq.view cur).trans hpage) (hqsize ▸ hnames)
                exact ⟨r, hrun, _, halloc⟩
              · obtain ⟨pt, leaves⟩ := pt
                obtain rfl : leaves = [] := hleafless (pt, leaves) (by simp)
                rw [List.concat_eq_append, List.append_assoc] at hqlist ⊢
                obtain ⟨r, hrun, halloc⟩ := takeTrunkPage_next hq.failAt hqlist
                  ((hq.view cur).trans hpage) (hqsize ▸ hnames)
                exact ⟨r, by simpa using hrun, _, halloc⟩
            obtain ⟨r, hrun, rest, halloc⟩ := htake
            refine ⟨some cur, r, ?_, rest, halloc.of_quiet hq⟩
            simp only [walkTrunks, if_neg h0, bind_ok hget, if_pos hle, bind_ok hrun]
            rfl
          · have hview : ∀ x ∈ freePages after, pageSeen q.1 q.2.disk x = pageSeen p.1 p.2.disk x :=
              fun x _ => hq.view x
            have hqlist' : Freelist q ((before ++ [(cur, [])]) ++ after) := by simpa using hqlist
            obtain ⟨r, w, hrun, hfound⟩ := ih (p := q) hq.failAt hqlist'
              (by simpa using hleafless) (hqsize ▸ hrest.congr hview)
              (by simpa using hfuel)
            rw [List.append_assoc, List.singleton_append] at hfound
            refine ⟨r, w, ?_, ?_⟩
            · have hprev : (before ++ [(cur, [])]).getLast?.map Prod.fst = some cur := by simp
              rw [hprev] at hrun
              simp only [walkTrunks, if_neg h0, bind_ok hget, if_neg hle, hk]
              exact hrun
            · cases r with
              | none => exact hq.trans hfound
              | some pgno =>
                  obtain ⟨rest, halloc⟩ := hfound
                  exact ⟨rest, halloc.of_quiet hq⟩

theorem findFreePageAtOrBelow_ok (nFin : Nat) (hp : p.2.failAt = none) (h : Freelist p trunks)
    (hleafless : ∀ t ∈ trunks, t.2 = []) :
    ∃ r q, findFreePageAtOrBelow nFin p = .ok r q ∧ Found p q trunks r := by
  have hlen := h.length_lt
  simp only [findFreePageAtOrBelow, getState_bind]
  split_ifs with hfirst
  · exact ⟨none, p, rfl, (SameView.refl hp).quiet⟩
  · have hwalk : Freelist p ([] ++ trunks) := h
    obtain ⟨r, q, hrun, hfound⟩ := walkTrunks_ok nFin hp hwalk hleafless h.chain hlen
    exact ⟨r, q, hrun, hfound⟩

end Walk

/-! ## Commit -/

def FilesOnly (m : PagerM Unit) : Prop :=
  ∀ p q, p.2.failAt = none → m p = .ok () q → q.1 = p.1 ∧ q.2.failAt = none

namespace FilesOnly

theorem pure : FilesOnly (pure ()) := by
  rintro p q hp h
  cases h
  exact ⟨rfl, hp⟩

theorem perform (op : FileOp DbFile) : FilesOnly (perform ioFailed op) := by
  rintro ⟨s, w⟩ q hp h
  rw [perform_ok ioFailed op s (by simp [show w.failAt = none from hp])] at h
  cases h
  exact ⟨rfl, by simp [World.apply, show w.failAt = none from hp]⟩

theorem bind {m m' : PagerM Unit} (hm : FilesOnly m) (hm' : FilesOnly m') :
    FilesOnly (m >>= fun _ => m') := by
  intro p q hp h
  obtain ⟨_, r, hr, h⟩ := of_bind_ok h
  obtain ⟨hstate, hfail⟩ := hm p r hp hr
  obtain ⟨hstate', hfail'⟩ := hm' r q hfail h
  exact ⟨hstate'.trans hstate, hfail'⟩

theorem writePending (pageSize : Nat) (pending : List (UInt32 × Bytes)) :
    FilesOnly (writePending pageSize pending) := by
  induction pending with
  | nil => exact pure
  | cons r pending ih =>
      obtain ⟨pgno, data⟩ := r
      intro p q hp h
      rw [Pager.writePending] at h
      split_ifs at h with h0
      · cases h
      · exact ((perform _).bind ih) p q hp h

theorem syncJournal (txn : WriteTxn) : FilesOnly (syncJournal txn) :=
  (perform _).bind ((perform _).bind (perform _))

end FilesOnly

namespace Overlay

theorem mem_pairs {o : Overlay} : (x, d) ∈ o.pairs ↔ o.lookup x = some d := by
  have h := AList.mem_lookup_iff (a := x) (b := d) (s := o)
  rw [Option.mem_def] at h
  rw [h, pairs, List.mem_map]
  constructor
  · rintro ⟨⟨x', d'⟩, hmem, heq⟩
    cases heq
    exact hmem
  · exact fun hmem => ⟨⟨x, d⟩, hmem, rfl⟩

theorem nodup_pairs (o : Overlay) : (o.pairs.map Prod.fst).Nodup := by
  have h := o.keys_nodup
  rwa [pairs, List.map_map]

end Overlay

def promoted (pending : List (UInt32 × Bytes)) (s : PagerState) : PagerState :=
  pending.foldl (fun s r => s.insertCache r.1 r.2) s

theorem promoted_state (pending : List (UInt32 × Bytes)) (s : PagerState) :
    ∃ cache, promoted pending s = { s with cache := cache } := by
  induction pending generalizing s with
  | nil => exact ⟨s.cache, rfl⟩
  | cons r pending ih => exact ih (s.insertCache r.1 r.2)

theorem cache_promoted_of_not_mem (h : x ∉ pending.map Prod.fst) :
    (promoted pending s).cache x = s.cache x := by
  induction pending generalizing s with
  | nil => rfl
  | cons r pending ih =>
      simp only [List.map_cons, List.mem_cons, not_or] at h
      refine (ih h.2).trans ?_
      simp [PagerState.insertCache, h.1]

theorem cache_promoted_of_mem (hnodup : (pending.map Prod.fst).Nodup) (h : (x, d) ∈ pending) :
    (promoted pending s).cache x = some d := by
  induction pending generalizing s with
  | nil => cases h
  | cons r pending ih =>
      rw [List.map_cons, List.nodup_cons] at hnodup
      rcases List.mem_cons.mp h with rfl | h
      · refine (cache_promoted_of_not_mem hnodup.1).trans ?_
        simp [PagerState.insertCache]
      · exact ih hnodup.2 h

theorem resident_promoted (order : DrainOrder) (s : PagerState) (x : UInt32) :
    (promoted (order.drain s.dirty) { s with dirty := ∅ }).resident x = s.resident x := by
  have hperm := order.perm s.dirty
  obtain ⟨cache, hcache⟩ := promoted_state (order.drain s.dirty) { s with dirty := ∅ }
  have hdirty : (promoted (order.drain s.dirty) { s with dirty := ∅ }).dirty = ∅ := by
    rw [hcache]
  rw [PagerState.resident, PagerState.resident, hdirty, AList.lookup_empty, Option.none_or]
  cases hlookup : s.dirty.lookup x with
  | some d =>
      rw [Option.some_or]
      refine cache_promoted_of_mem ?_ (hperm.mem_iff.mpr (Overlay.mem_pairs.mpr hlookup))
      exact (hperm.map Prod.fst).nodup_iff.mpr (Overlay.nodup_pairs s.dirty)
  | none =>
      rw [Option.none_or]
      refine cache_promoted_of_not_mem fun hmem => ?_
      obtain ⟨⟨x', d⟩, hd, rfl⟩ := List.mem_map.mp hmem
      have := Overlay.mem_pairs.mp (hperm.mem_iff.mp hd)
      rw [hlookup] at this
      cases this

theorem pageSeen_of_resident {disk : Disk DbFile} (h0 : x ≠ 0) (hle : x ≤ s.effectiveCount)
    (h : s.resident x = some page) : pageSeen s disk x = .ok page := by
  rw [pageSeen, if_neg (by simp [h0, UInt32.not_lt.mpr hle]), h]

theorem InMemory.resident_eq (h : InMemory p) (hcomp : Complete p) (h0 : x ≠ 0)
    (hle : x ≤ p.1.pageCount) :
    ∃ page, p.1.resident x = some page ∧ page.length = p.1.pageSize := by
  obtain ⟨page, hpage⟩ := Option.isSome_iff_exists.mp (h.page x h0 hle)
  have hin := UInt32.le_trans hle (effectiveCount_ge p.1)
  obtain ⟨page', hseen, hlen⟩ := hcomp x h0 hin
  rw [pageSeen_of_resident h0 hin hpage] at hseen
  obtain rfl := Except.ok.inj hseen
  exact ⟨page, hpage, hlen⟩

structure Committed (p q : PagerState × World DbFile) : Prop where
  geometry : q.1.geometry = p.1.geometry
  pageCount : q.1.pageCount = p.1.pageCount
  wal : q.1.wal = p.1.wal
  failAt : q.2.failAt = none
  fields : actingFields q.1.header = actingFields p.1.header
  resident : ∀ x, x ≠ 1 → q.1.resident x = p.1.resident x
  first : ∃ page, q.1.resident 1 = some page ∧ page.length = p.1.pageSize

theorem failAt_applyAll_none (h : w.failAt = none) (ops : List (FileOp DbFile)) :
    (w.applyAll ops).failAt = none := by
  rw [World.failAt_applyAll, h]
  rfl

section Commit

variable {p q : PagerState × World DbFile}

theorem readPageForWrite_resident (hw : w.failAt = none) (h0 : pgno ≠ 0)
    (hle : pgno ≤ s.effectiveCount) (hpage : s.resident pgno = some page) :
    ∃ txn w', readPageForWrite pgno (s, w) = .ok page ({ s with txn := txn }, w') ∧
      w'.failAt = none := by
  obtain ⟨w₁, hprobed, hget⟩ := getPage_run (s := s) hw pgno
  rw [pageSeen_of_resident h0 hle hpage] at hget
  have hcached : afterRead s pgno page = s := by
    have hsome : s.resident pgno ≠ none := by
      intro hnone
      rw [hpage] at hnone
      cases hnone
    rw [afterRead, if_neg hsome]
  replace hget : getPage pgno (s, w) = .ok page (s, w₁) := hget.trans (by simp only [hcached])
  have hfail := failAt_probed hprobed hw
  have hjournal := journalPage_run (s := s) (w := w₁) (by simp [hfail]) pgno page
  cases hmust : mustJournal s pgno with
  | none =>
      rw [hmust] at hjournal
      refine ⟨s.txn, w₁, ?_, hfail⟩
      rw [readPageForWrite, bind_ok hget, bind_ok hjournal]
      rfl
  | some t =>
      rw [hmust] at hjournal
      refine ⟨some (t.record s.pageSize pgno),
        w₁.apply (.write .journal t.journalOff (buildRecord pgno page t.cksumInit)), ?_, ?_⟩
      · rw [readPageForWrite, bind_ok hget, bind_ok hjournal]
        rfl
      · simp [World.apply, hfail]

theorem stampPageOne_ok (hp : p.2.failAt = none) (hpage : p.1.resident 1 = some page)
    (hlen : page.length = p.1.pageSize) (hone : 1 ≤ p.1.effectiveCount) :
    ∃ q, stampPageOne p = .ok () q ∧ Committed p q := by
  generalize hheader : stampHeader p.1.effectiveCount p.1.header = header
  obtain ⟨txn, w, hread, hfail⟩ := readPageForWrite_resident
    (s := { p.1 with header := header }) hp (by decide : (1 : UInt32) ≠ 0) hone hpage
  have hbig : 512 ≤ p.1.pageSize := p.1.geometry.pageSize.le_size
  have hlen' : (splice page 0 header.serialize).length = p.1.pageSize := by
    rw [length_splice (by rw [DbHeader.length_serialize, hlen]; omega), hlen]
  have hwrite := writePage_ok (p := ({ p.1 with header := header, txn := txn }, w)) 1
    hlen'
  refine ⟨(PagerState.written { p.1 with header := header, txn := txn } 1
    (splice page 0 header.serialize), w), ?_, ?_⟩
  · rw [stampPageOne, getState_bind, withHeaderMut, modifyState_bind, hheader, bind_ok hread,
      getState_bind]
    exact hwrite
  · refine ⟨rfl, rfl, rfl, hfail, ?_, fun x hx => ?_, _, ?_, hlen'⟩
    · rw [← hheader]
      rfl
    · exact (resident_insert _ 1 x _).trans (if_neg hx)
    · exact (resident_insert _ 1 1 _).trans (if_pos rfl)

theorem Committed.trans {r : PagerState × World DbFile} (h : Committed p q) (h' : Committed q r) :
    Committed p r where
  geometry := h'.geometry.trans h.geometry
  pageCount := h'.pageCount.trans h.pageCount
  wal := h'.wal.trans h.wal
  failAt := h'.failAt
  fields := h'.fields.trans h.fields
  resident x hx := (h'.resident x hx).trans (h.resident x hx)
  first := by
    obtain ⟨page, hpage, hlen⟩ := h'.first
    refine ⟨page, hpage, ?_⟩
    rw [hlen, PagerState.pageSize, PagerState.pageSize, h.geometry]

theorem Committed.of_resident (hp : q.2.failAt = none) (hres : ∀ x, q.1.resident x = p.1.resident x)
    (hstate : ∃ cache dirty txn sp, q.1 = { p.1 with
      cache := cache, dirty := dirty, txn := txn, savepoints := sp })
    (hfirst : ∃ page, p.1.resident 1 = some page ∧ page.length = p.1.pageSize) :
    Committed p q := by
  obtain ⟨cache, dirty, txn, sp, hq⟩ := hstate
  obtain ⟨page, hpage, hlen⟩ := hfirst
  exact ⟨by rw [hq], by rw [hq], by rw [hq], hp, by rw [hq], fun x _ => hres x,
    page, (hres 1).trans hpage, hlen⟩

theorem commitJournal_ok (order : DrainOrder) {t : WriteTxn} (hp : p.2.failAt = none)
    (hfirst : ∃ page, p.1.resident 1 = some page ∧ page.length = p.1.pageSize)
    (h : commitJournal order t n p = .ok () q) : Committed p q := by
  rw [commitJournal] at h
  obtain ⟨_, p₁, hsync, h⟩ := of_bind_ok h
  obtain ⟨hs₁, hf₁⟩ := FilesOnly.syncJournal t p p₁ hp hsync
  simp only [getState_bind, modifyState_bind] at h
  obtain ⟨_, p₂, hwrite, h⟩ := of_bind_ok h
  obtain ⟨hs₂, hf₂⟩ := FilesOnly.writePending _ _ _ p₂ (by exact hf₁) hwrite
  obtain ⟨_, p₃, htruncate, h⟩ := of_bind_ok h
  obtain ⟨hs₃, hf₃⟩ := FilesOnly.perform _ _ p₃ hf₂ htruncate
  obtain ⟨_, p₄, hsync', h⟩ := of_bind_ok h
  obtain ⟨hs₄, hf₄⟩ := FilesOnly.perform _ _ p₄ hf₃ hsync'
  have hstate : p₄.1 = { p.1 with dirty := ∅ } := by
    rw [hs₄, hs₃, hs₂, hs₁]
  have hpromote : promote (order.drain p₁.1.dirty) p₄ =
      .ok () (promoted (order.drain p.1.dirty) { p.1 with dirty := ∅ }, p₄.2) := by
    rw [← hstate, hs₁]
    rfl
  rw [bind_ok hpromote, endTxn_run hf₄] at h
  cases h
  obtain ⟨cache, hcache⟩ := promoted_state (order.drain p.1.dirty) { p.1 with dirty := ∅ }
  refine .of_resident (failAt_applyAll_none hf₄ _) ?_ ?_ hfirst
  · exact fun x => resident_promoted order p.1 x
  · exact ⟨cache, ∅, none, [], by simp only [hcache]⟩

theorem commit_ok (order : DrainOrder) (src : SaltSource) (hmem : InMemory p) (hcomp : Complete p)
    (hwal : p.1.wal = none) (hvac : p.1.autoVacuum = false) (hone : 1 ≤ p.1.pageCount)
    (h : commit order src p = .ok () q) : Committed p q := by
  have hfirst := hmem.resident_eq hcomp (by decide : (1 : UInt32) ≠ 0) hone
  have hp := hmem.failAt
  simp only [commit, getState_bind] at h
  split_ifs at h with hin hdirty hvacuums
  · cases h
    exact .of_resident hp (fun _ => rfl) ⟨_, _, _, _, rfl⟩ hfirst
  · rw [endTxn_run hp] at h
    cases h
    exact .of_resident (failAt_applyAll_none hp _) (fun _ => rfl) ⟨_, _, _, _, rfl⟩ hfirst
  · simp [PagerState.vacuums, hvac] at hvacuums
  · obtain ⟨page, hpage, hlen⟩ := hfirst
    have hin' := UInt32.le_trans hone (effectiveCount_ge p.1)
    obtain ⟨r, hstamp, hcommitted⟩ := stampPageOne_ok hp hpage hlen hin'
    simp only [getState_bind, bind_ok hstamp, writeOut] at h
    rw [hcommitted.wal, hwal] at h
    cases ht : r.1.txn with
    | none =>
        rw [ht] at h
        cases h
    | some t =>
        rw [ht] at h
        have hfirst' : ∃ page, r.1.resident 1 = some page ∧ page.length = r.1.pageSize := by
          obtain ⟨page, hpage, hlen⟩ := hcommitted.first
          refine ⟨page, hpage, ?_⟩
          rw [hlen, PagerState.pageSize, PagerState.pageSize, hcommitted.geometry]
        exact hcommitted.trans (commitJournal_ok order hcommitted.failAt hfirst' h)

end Commit

/-! ## Runs -/

/-- A pager and the pages that it has handed out and not got back. -/
structure Ledger where
  pager : PagerState × World DbFile
  held : List UInt32

inductive SpaceCall where
  | begin (src : SaltSource)
  | allocate
  | free (pgno : UInt32)
  | find (nFin : UInt32)
  | commit (order : DrainOrder) (src : SaltSource)

def Ledger.step (l : Ledger) : SpaceCall → Option Ledger
  | .begin src =>
      match beginWrite src l.pager with
      | .ok _ q => some { l with pager := q }
      | .error _ _ => none
  | .allocate =>
      match allocatePage l.pager with
      | .ok pgno q => some ⟨q, pgno :: l.held⟩
      | .error _ _ => none
  | .free pgno =>
      match freePage pgno l.pager with
      | .ok _ q => some ⟨q, l.held.filter (· ≠ pgno)⟩
      | .error e q => if e.code = .panic then none else some { l with pager := q }
  | .find nFin =>
      match findFreePageAtOrBelow nFin.toNat l.pager with
      | .ok r q => some ⟨q, r.toList ++ l.held⟩
      | .error e q => if e.code = .panic then none else some { l with pager := q }
  | .commit order src =>
      match commit order src l.pager with
      | .ok _ q => some { l with pager := q }
      | .error _ _ => none

def ChainShown (p : PagerState × World DbFile) (trunks : List (UInt32 × List UInt32)) : Prop :=
  Trunks p.1.pageSize (pageSeen p.1 p.2.disk) p.1.header.firstFreelistTrunk trunks

/-- The first page is never freed, and no page that is on the freelist. -/
def Ledger.Allows (l : Ledger) : SpaceCall → Prop
  | .free pgno => pgno ≠ 1 ∧ ∀ trunks, ChainShown l.pager trunks → pgno ∉ freePages trunks
  | _ => True

inductive Reachable : Ledger → Prop where
  | fresh {pageSize : Nat} {w : World DbFile} {s : PagerState} {q : Unit × World DbFile}
      (hw : w.failAt = none) (h : createFresh pageSize ((), w) = .ok s q) :
      Reachable ⟨(s, q.2), []⟩
  | step {l l' : Ledger} (c : SpaceCall) (h : Reachable l) (hallows : l.Allows c)
      (hstep : l.step c = some l') : Reachable l'

/--
The counter is right, no page is listed twice or in use, and an allocation takes
no page in use.
-/
structure Ledger.Accounts (l : Ledger) (trunks : List (UInt32 × List UInt32)) : Prop where
  chain : ChainShown l.pager trunks
  count : l.pager.1.header.freelistCount.toNat = (freePages trunks).length
  nodup : (freePages trunks).Nodup
  held : ∀ x ∈ l.held, x ∉ freePages trunks
  allocates : ∀ pgno q, allocatePage l.pager = .ok pgno q →
    pgno ∈ freePages trunks ∨ l.pager.1.effectiveCount < pgno

structure Ledger.Sound (l : Ledger) (trunks : List (UInt32 × List UInt32)) : Prop where
  freelist : Freelist l.pager trunks
  leafless : ∀ t ∈ trunks, t.2 = []
  first : 1 ∉ freePages trunks
  held : ∀ x ∈ l.held, x ∉ freePages trunks
  inMemory : InMemory l.pager
  complete : Complete l.pager
  noLog : l.pager.1.wal = none
  noVacuum : l.pager.1.autoVacuum = false
  notEmpty : 1 ≤ l.pager.1.pageCount

theorem effectiveCount_of_noLog (h : s.wal = none) : s.effectiveCount = s.pageCount := by
  rw [PagerState.effectiveCount, h]

theorem length_buildFreshPage1 (header : DbHeader) (h : 512 ≤ pageSize) :
    (buildFreshPage1 header pageSize).length = pageSize := by
  have hsplice : (splice (List.replicate pageSize 0) 0 header.serialize).length = pageSize := by
    rw [length_splice (by simp; omega), List.length_replicate]
  simp only [buildFreshPage1, initEmptyLeaf, List.length_append, List.length_take, hsplice,
    length_be16, List.length_singleton, List.length_replicate]
  omega

theorem sound_fresh {q : Unit × World DbFile} (hw : w.failAt = none)
    (h : createFresh pageSize ((), w) = .ok s q) : Ledger.Sound ⟨(s, q.2), []⟩ [] := by
  rw [createFresh] at h
  split_ifs at h with hvalid
  · rw [bind_ok (perform_ok ioFailed _ _ (by simp [hw])),
      bind_ok (perform_ok ioFailed _ _ (by simp [World.apply, hw]))] at h
    cases h
    set ps : PageSize := ⟨pageSize, hvalid⟩ with hps
    have hbig : 512 ≤ pageSize := ps.le_size
    have hone : ∀ x : UInt32, x ≠ 0 → x ≤ 1 → x = 1 := by
      intro x h0 hle
      rw [ne_eq, ← UInt32.toNat_inj, UInt32.toNat_zero] at h0
      rw [UInt32.le_iff_toNat_le, UInt32.toNat_one] at hle
      rw [← UInt32.toNat_inj, UInt32.toNat_one]
      omega
    constructor
    · exact ⟨rfl, rfl, List.nodup_nil, by simp⟩
    · simp
    · simp
    · simp
    · refine ⟨by simp [World.apply, hw], fun x h0 hle => ?_⟩
      obtain rfl := hone x h0 hle
      rfl
    · intro x h0 hle
      obtain rfl := hone x h0 hle
      exact ⟨_, pageSeen_of_resident h0 hle rfl, length_buildFreshPage1 _ hbig⟩
    · rfl
    · rfl
    · exact UInt32.le_refl _
  · cases h

section Steps

variable {l : Ledger} {trunks : List (UInt32 × List UInt32)}

section

variable (h : l.Sound trunks)

include h

theorem Ledger.Sound.committed (hc : Committed l.pager q) :
    Ledger.Sound { l with pager := q } trunks := by
  have hsize : q.1.pageSize = l.pager.1.pageSize := by
    rw [PagerState.pageSize, PagerState.pageSize, hc.geometry]
  have hfields := hc.fields
  simp only [actingFields, Prod.mk.injEq] at hfields
  obtain ⟨hfirst, hcount, -, hroot⟩ := hfields
  have hlog : q.1.wal = none := hc.wal.trans h.noLog
  have heff : q.1.effectiveCount = l.pager.1.pageCount := by
    rw [effectiveCount_of_noLog hlog, hc.pageCount]
  have hres : ∀ x, x ≠ 0 → x ≤ l.pager.1.pageCount →
      ∃ page, q.1.resident x = some page ∧ page.length = l.pager.1.pageSize := by
    intro x h0 hle
    by_cases hx : x = 1
    · exact hx ▸ hc.first
    · rw [hc.resident x hx]
      exact h.inMemory.resident_eq h.complete h0 hle
  refine ⟨⟨?_, ?_, h.freelist.nodup, ?_⟩, h.leafless, h.first, h.held, ?_, ?_, hlog, ?_, ?_⟩
  · rw [hsize, hfirst]
    refine h.freelist.chain.congr fun x hx => ?_
    obtain ⟨h0, hle⟩ := h.freelist.inFile x hx
    have hne : x ≠ 1 := by
      rintro rfl
      exact h.first hx
    obtain ⟨page, hpage, -⟩ := h.inMemory.resident_eq h.complete h0 hle
    rw [pageSeen_of_resident h0 (UInt32.le_trans hle (effectiveCount_ge _)) hpage,
      pageSeen_of_resident h0 (by rw [heff]; exact hle) ((hc.resident x hne).trans hpage)]
  · rw [hcount]
    exact h.freelist.count
  · rw [hc.pageCount]
    exact h.freelist.inFile
  · refine ⟨hc.failAt, fun x h0 hle => ?_⟩
    obtain ⟨page, hpage, -⟩ := hres x h0 (hc.pageCount ▸ hle)
    exact Option.isSome_iff_exists.mpr ⟨page, hpage⟩
  · intro x h0 hle
    obtain ⟨page, hpage, hlen⟩ := hres x h0 (heff ▸ hle)
    exact ⟨page, pageSeen_of_resident h0 hle hpage, hlen.trans hsize.symm⟩
  · have hvac := h.noVacuum
    rw [PagerState.autoVacuum] at hvac ⊢
    rw [hroot]
    exact hvac
  · rw [hc.pageCount]
    exact h.notEmpty

theorem Ledger.Sound.quiet (hq : Quiet l.pager q) (hmem : InMemory q) :
    Ledger.Sound { l with pager := q } trunks := by
  have hch := hq.changes ∅
  refine ⟨h.freelist.changes hch hq.header (by simp), h.leafless, h.first, h.held, hmem,
    hch.complete h.complete, hch.wal.trans h.noLog, hch.autoVacuum.trans h.noVacuum, ?_⟩
  rw [hch.pageCount]
  exact h.notEmpty

theorem Ledger.Sound.allocated (halloc : Allocated l.pager q trunks rest pgno) (hmem : InMemory q) :
    Ledger.Sound ⟨q, pgno :: l.held⟩ rest where
  freelist := halloc.freelist
  leafless := halloc.leafless h.leafless
  first hmem := h.first (halloc.rest_subset 1 hmem)
  held := by
    intro x hx hfree
    rcases List.mem_cons.mp hx with rfl | hx
    · exact halloc.not_free hfree
    · exact h.held x hx (halloc.rest_subset x hfree)
  inMemory := hmem
  complete := halloc.complete h.complete
  noLog := halloc.grows.wal.trans h.noLog
  noVacuum := halloc.grows.autoVacuum.trans h.noVacuum
  notEmpty := UInt32.le_trans h.notEmpty halloc.grows.pageCount

theorem Ledger.Sound.begun {src : SaltSource} (hrun : beginWrite src l.pager = .ok () q) :
    Ledger.Sound { l with pager := q } trunks := by
  have hfirst := h.inMemory.resident_eq h.complete (by decide : (1 : UInt32) ≠ 0) h.notEmpty
  refine h.committed ?_
  cases htxn : l.pager.1.txn with
  | none =>
      obtain ⟨-, rfl⟩ := (performs_beginWrite htxn src l.pager.2).of_ok hrun
      exact .of_resident (failAt_applyAll_none h.inMemory.failAt _) (fun _ => rfl)
        ⟨_, _, _, _, rfl⟩ hfirst
  | some t =>
      have hin : l.pager.1.inWriteTxn = true := by rw [PagerState.inWriteTxn, htxn]; rfl
      simp only [beginWrite, getState_bind, hin, if_true] at hrun
      cases hrun
      exact .of_resident h.inMemory.failAt (fun _ => rfl) ⟨_, _, _, _, rfl⟩ hfirst

theorem Ledger.Sound.freed (hne : pgno ≠ 1) (hnew : pgno ∉ freePages trunks)
    (hrun : freePage pgno l.pager = .ok () q) :
    Ledger.Sound ⟨q, l.held.filter (· ≠ pgno)⟩ ((pgno, []) :: trunks) := by
  have hfail := h.inMemory.failAt
  have heff := effectiveCount_of_noLog h.noLog
  have hin : pgno ≠ 0 ∧ pgno ≤ l.pager.1.pageCount := by
    by_contra hout
    have herr : ∃ e, pageSeen l.pager.1 l.pager.2.disk pgno = .error e := by
      rw [pageSeen, if_pos (by rw [heff]; by_contra hin; exact hout (by simpa using hin))]
      exact ⟨_, rfl⟩
    obtain ⟨e, herr⟩ := herr
    obtain ⟨w, -, hrun'⟩ := freePage_error hfail herr
    rw [show l.pager = (l.pager.1, l.pager.2) from rfl, hrun'] at hrun
    cases hrun
  obtain ⟨h0, hle⟩ := hin
  obtain ⟨q', hrun', hch, hheader, hpage⟩ := freePage_ok hfail h.complete h0
    (by rw [heff]; exact hle) (by simp [h.noVacuum])
  rw [hrun'] at hrun
  cases hrun
  replace hch : Changes l.pager q {pgno} := by
    refine hch.mono ?_
    rintro x (rfl | ⟨hvac, -⟩)
    · rfl
    · rw [h.noVacuum] at hvac
      cases hvac
  refine ⟨h.freelist.freed hch hheader hpage h0 hle hnew, ?_, ?_, ?_,
    Keeps.of_ok ((inMemory_primitives).freePage pgno) h.inMemory hrun', hch.complete h.complete,
    hch.wal.trans h.noLog, hch.autoVacuum.trans h.noVacuum, ?_⟩
  · intro t ht
    rcases List.mem_cons.mp ht with rfl | ht
    · rfl
    · exact h.leafless t ht
  · intro hmem
    rcases List.mem_cons.mp (by simpa using hmem) with heq | hmem
    · exact hne heq.symm
    · exact h.first hmem
  · intro x hx hmem
    obtain ⟨hx, hxne⟩ := List.mem_filter.mp hx
    rcases List.mem_cons.mp (by simpa using hmem) with heq | hmem
    · exact (of_decide_eq_true hxne) heq
    · exact h.held x hx hmem
  · rw [hch.pageCount]
    exact h.notEmpty

theorem Ledger.Sound.not_freed {e : Error} (hrun : freePage pgno l.pager = .error e q) :
    Ledger.Sound { l with pager := q } trunks := by
  have hfail := h.inMemory.failAt
  have hout : pgno = 0 ∨ l.pager.1.effectiveCount < pgno := by
    by_contra hin
    push Not at hin
    obtain ⟨q', hrun', -⟩ := freePage_ok hfail h.complete hin.1 (UInt32.not_lt.mp hin.2)
      (by simp [h.noVacuum])
    rw [hrun'] at hrun
    cases hrun
  have herr : ∃ e, pageSeen l.pager.1 l.pager.2.disk pgno = .error e := by
    rw [pageSeen, if_pos hout]
    exact ⟨_, rfl⟩
  obtain ⟨e', herr⟩ := herr
  obtain ⟨w, hw, hrun'⟩ := freePage_error hfail herr
  rw [show l.pager = (l.pager.1, l.pager.2) from rfl, hrun'] at hrun
  cases hrun
  refine h.quiet ⟨⟨_, _, rfl⟩, failAt_probed hw hfail, fun x => ?_⟩
    ⟨failAt_probed hw hfail, h.inMemory.page⟩
  rw [disk_probed hw]

end

theorem Ledger.Sound.step {l' : Ledger} (h : l.Sound trunks) {c : SpaceCall} (hallows : l.Allows c)
    (hstep : l.step c = some l') : ∃ trunks', l'.Sound trunks' := by
  have hfail := h.inMemory.failAt
  cases c with
  | begin src =>
      simp only [Ledger.step] at hstep
      split at hstep
      · rename_i q hrun
        cases hstep
        exact ⟨trunks, h.begun hrun⟩
      · cases hstep
  | allocate =>
      have halloc := allocatePage_ok hfail h.freelist
      simp only [Ledger.step] at hstep
      split at hstep
      · rename_i pgno q hrun
        rw [hrun] at halloc
        cases hstep
        obtain ⟨rest, halloc⟩ := halloc
        exact ⟨rest, h.allocated halloc (Keeps.of_ok (inMemory_primitives).allocatePage
            h.inMemory hrun)⟩
      · cases hstep
  | free pgno =>
      obtain ⟨hne, hnew⟩ := hallows
      simp only [Ledger.step] at hstep
      split at hstep
      · rename_i q hrun
        cases hstep
        exact ⟨_, h.freed hne (hnew trunks h.freelist.chain) hrun⟩
      · rename_i e q hrun
        split_ifs at hstep
        cases hstep
        exact ⟨trunks, h.not_freed hrun⟩
  | find nFin =>
      obtain ⟨r, q, hrun, hfound⟩ := findFreePageAtOrBelow_ok nFin.toNat hfail h.freelist h.leafless
      have hmem := Keeps.of_ok ((inMemory_primitives).findFreePageAtOrBelow nFin.toNat)
          h.inMemory hrun
      simp only [Ledger.step, hrun] at hstep
      cases hstep
      cases r with
      | none => exact ⟨trunks, h.quiet hfound hmem⟩
      | some pgno =>
          obtain ⟨rest, halloc⟩ := hfound
          exact ⟨rest, h.allocated halloc hmem⟩
  | commit order src =>
      simp only [Ledger.step] at hstep
      split at hstep
      · rename_i q hrun
        cases hstep
        exact ⟨trunks, h.committed (commit_ok order src h.inMemory h.complete h.noLog h.noVacuum
          h.notEmpty hrun)⟩
      · cases hstep

theorem Reachable.sound (h : Reachable l) : ∃ trunks, l.Sound trunks := by
  induction h with
  | fresh hw h => exact ⟨[], sound_fresh hw h⟩
  | step c h hallows hstep ih =>
      obtain ⟨trunks, hsound⟩ := ih
      exact hsound.step hallows hstep

/-- In every run from a new database the freelist is accounted for. -/
theorem Reachable.accounts (h : Reachable l) : ∃ trunks, l.Accounts trunks := by
  obtain ⟨trunks, hsound⟩ := h.sound
  refine ⟨trunks, hsound.freelist.chain, hsound.freelist.count, hsound.freelist.nodup, hsound.held,
    fun pgno q hrun => ?_⟩
  have halloc := allocatePage_ok hsound.inMemory.failAt hsound.freelist
  rw [hrun] at halloc
  obtain ⟨rest, halloc⟩ := halloc
  rw [effectiveCount_of_noLog hsound.noLog]
  exact halloc.source

end Steps

/-! ## Two runs -/

def listedOrder : DrainOrder := ⟨Overlay.pairs, fun _ => .refl _⟩

def Ledger.run (l : Ledger) (calls : List SpaceCall) : Option Ledger := calls.foldlM Ledger.step l

def commitStamped (order : DrainOrder) (src : SaltSource) : PagerM Unit := do
  let pageCount := (← getState).effectiveCount
  stampPageOne
  writeOut order src pageCount

def PagerState.modified (s : PagerState) : Bool :=
  s.inWriteTxn && !s.dirty.keys.isEmpty && !s.vacuums

theorem commit_of_modified (h : p.1.modified = true) (order : DrainOrder) (src : SaltSource) :
    commit order src p = commitStamped order src p := by
  simp only [PagerState.modified, Bool.and_eq_true, Bool.not_eq_true'] at h
  obtain ⟨⟨htxn, hkeys⟩, hvacuums⟩ := h
  have hdirty : p.1.dirty ≠ ∅ := by
    intro hempty
    rw [hempty] at hkeys
    cases hkeys
  simp only [commit, getState_bind, htxn, Bool.true_eq_false, if_false, if_neg hdirty, hvacuums,
    Bool.false_eq_true]
  rfl

theorem exists_of_run {l : Ledger} {calls : List SpaceCall} (test : Ledger → Bool)
    (h : (l.run calls).any (fun l => l.pager.1.modified &&
      endsWith (commitStamped listedOrder firstSource) l.pager fun _ q =>
        test { l with pager := q }) = true) :
    ∃ l₁ l₂, l.run calls = some l₁ ∧ l₁.step (.commit listedOrder firstSource) = some l₂ ∧
      test l₂ = true := by
  simp only [Option.any_eq_true, Bool.and_eq_true] at h
  obtain ⟨l₁, hrun, hmodified, hends⟩ := h
  obtain ⟨_, q, hcommit, htest⟩ := exists_of_endsWith _ _ _ hends
  refine ⟨l₁, _, hrun, ?_, htest⟩
  rw [Ledger.step, commit_of_modified hmodified, hcommit]

def Ledger.nextTrunk (l : Ledger) (pgno : UInt32) : Option UInt32 :=
  match pageSeen l.pager.1 l.pager.2.disk pgno with
  | .ok page => some (readBe32 page)
  | .error _ => none

def freshLedger : Ledger := ⟨freshPager, []⟩

theorem reachable_freshLedger : Reachable freshLedger := by
  obtain ⟨s, q, hrun, -⟩ := exists_of_endsWith (createFresh 512)
    ((), ⟨Function.update (fun _ => none) .db (some []), [], none⟩) (fun _ _ => true)
    (by decide)
  have hfresh : freshLedger = ⟨(s, q.2), []⟩ := by
    simp only [freshLedger, freshPager, hrun]
  rw [hfresh]
  exact .fresh rfl hrun

theorem Reachable.begin_allocate {l l₂ : Ledger} (h : Reachable l)
    (hrun : l.run [.begin firstSource, .allocate] = some l₂) : Reachable l₂ := by
  simp only [Ledger.run, List.foldlM_cons, List.foldlM_nil, Option.bind_eq_bind,
    Option.bind_eq_some_iff, Option.pure_def, Option.some.injEq] at hrun
  obtain ⟨l₁, hbegin, l₂', hallocate, rfl⟩ := hrun
  have h₁ : Reachable l₁ := h.step (.begin firstSource) trivial hbegin
  exact h₁.step .allocate trivial hallocate

/-- A page goes back to the list and is committed there. -/
theorem accounts_of_freed : ∃ l, Reachable l ∧ l.pager.1.header.freelistCount = 1 ∧
    ∃ trunks, l.Accounts trunks := by
  have hstart : (freshLedger.run [.begin firstSource, .allocate]).any (fun l =>
      l.pager.1.header.firstFreelistTrunk == 0 &&
        (l.run [.free 2]).any (fun l => l.pager.1.modified &&
          endsWith (commitStamped listedOrder firstSource) l.pager fun _ q =>
            q.1.header.freelistCount == 1)) = true := by
    decide +kernel
  rw [Option.any_eq_true] at hstart
  obtain ⟨l₂, hrun, htest⟩ := hstart
  rw [Bool.and_eq_true, beq_iff_eq] at htest
  obtain ⟨hempty, hrest⟩ := htest
  obtain ⟨l₃, l₄, hfree, hcommit, hone⟩ := exists_of_run
    (fun l => l.pager.1.header.freelistCount == 1) hrest
  have hallows : l₂.Allows (.free 2) := by
    refine ⟨by decide, fun trunks hchain => ?_⟩
    cases trunks with
    | nil => simp
    | cons t trunks => exact absurd (hchain.1.symm.trans hempty) hchain.2.1
  have hfree' : l₂.step (.free 2) = some l₃ := by
    simpa [Ledger.run] using hfree
  have h₃ : Reachable l₃ := ((reachable_freshLedger).begin_allocate hrun).step _ hallows hfree'
  have h₄ : Reachable l₄ := h₃.step (.commit listedOrder firstSource) trivial hcommit
  exact ⟨l₄, h₄, by simpa using hone, h₄.accounts⟩

/-- A page that is freed twice is a trunk that is followed by itself. -/
theorem not_accounts_of_freed_twice : ∃ l₁ l₂,
    freshLedger.run [.begin firstSource, .allocate, .free 2, .free 2] = some l₁ ∧
      l₁.step (.commit listedOrder firstSource) = some l₂ ∧ ∀ trunks, ¬ l₂.Accounts trunks := by
  obtain ⟨l₁, l, hrun, hcommit, htest⟩ := @exists_of_run freshLedger
    [.begin firstSource, .allocate, .free 2, .free 2]
    (fun l => l.pager.1.header.firstFreelistTrunk == 2 && l.nextTrunk 2 == some 2)
    (by decide +kernel)
  simp only [Bool.and_eq_true, beq_iff_eq] at htest
  obtain ⟨hfirst, hnext⟩ := htest
  refine ⟨l₁, l, hrun, hcommit, fun trunks haccounts => ?_⟩
  have hchain := haccounts.chain
  have hnodup := haccounts.nodup
  rw [ChainShown, hfirst] at hchain
  have htwo : (2 : UInt32) ≠ 0 := by decide
  cases trunks with
  | nil => exact absurd hchain htwo
  | cons t trunks =>
      obtain ⟨trunk, leaves⟩ := t
      obtain ⟨rfl, -, page, hpage, -, hrest⟩ := hchain
      rw [Ledger.nextTrunk, hpage, Option.some.injEq] at hnext
      rw [hnext] at hrest
      cases trunks with
      | nil => exact absurd hrest htwo
      | cons t trunks =>
          obtain ⟨trunk, leaves⟩ := t
          obtain ⟨rfl, -⟩ := hrest
          simp at hnodup

end Rustqlite.Pager
