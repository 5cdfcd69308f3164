import Rustqlite.Pager.Freeing

/-!
# Replacing pages

A part of a tree is rewritten: some of its pages stay, others are added from the
freelist or at the end of the file.  Whatever else is in use is left alone.
-/

namespace Rustqlite.Pager

open Foundation Format Btree FileM

/-! ## The end of a run -/

def endOf {α : Type} (m : PagerM α) (p : PagerState × World DbFile) : PagerState × World DbFile :=
  match m p with
  | .ok _ q | .error _ q => q

section End

variable {α β : Type} {m : PagerM α} {f : α → PagerM β} {p q : PagerState × World DbFile} {a : α}
  {e : Error}

theorem endOf_ok (h : m p = .ok a q) : endOf m p = q := by rw [endOf, h]

theorem endOf_error (h : m p = .error e q) : endOf m p = q := by rw [endOf, h]

theorem endOf_bind (h : m p = .ok a q) : endOf (m >>= f) p = endOf (f a) q := by
  rw [endOf, bind_ok h]
  rfl

theorem endOf_bind_error (h : m p = .error e q) : endOf (m >>= f) p = q := by
  rw [endOf, bind_error h]

end End

/-! ## Pages in use -/

structure SoundStore (p : PagerState × World DbFile) (trunks : List (UInt32 × List UInt32)) :
    Prop where
  failAt : p.2.failAt = none
  complete : Complete p
  freelist : Freelist p trunks
  /-- The first page exists, and is not free. -/
  counted : 1 ≤ p.1.pageCount
  first : 1 ∉ freePages trunks
  unreserved : p.1.autoVacuum = true → ∀ x ∈ freePages trunks,
    isReservedPage p.1.geometry.usableSize x.toNat = false

structure InUse (p : PagerState × World DbFile) (trunks : List (UInt32 × List UInt32))
    (pages : List UInt32) : Prop where
  nodup : pages.Nodup
  notFree : ∀ x ∈ pages, x ∉ freePages trunks
  inFile : ∀ x ∈ pages, x ≠ 0 ∧ x ≤ p.1.pageCount
  unreserved : p.1.autoVacuum = true → ∀ x ∈ pages,
    isReservedPage p.1.geometry.usableSize x.toNat = false

variable {x : UInt32} {p q : PagerState × World DbFile} {trunks : List (UInt32 × List UInt32)}
  {pages : List UInt32}

namespace InUse

variable {p : PagerState × World DbFile} {trunks : List (UInt32 × List UInt32)}
  {pages pages' : List UInt32}

theorem nil (p : PagerState × World DbFile) (trunks : List (UInt32 × List UInt32)) :
    InUse p trunks [] :=
  ⟨List.nodup_nil, by simp, by simp, by simp⟩

theorem sublist (h : InUse p trunks pages) (hsub : List.Sublist pages' pages) :
    InUse p trunks pages' where
  nodup := h.nodup.sublist hsub
  notFree x hx := h.notFree x (hsub.subset hx)
  inFile x hx := h.inFile x (hsub.subset hx)
  unreserved hvac x hx := h.unreserved hvac x (hsub.subset hx)

theorem perm (h : InUse p trunks pages) (hperm : pages'.Perm pages) : InUse p trunks pages' where
  nodup := hperm.nodup_iff.mpr h.nodup
  notFree x hx := h.notFree x (hperm.subset hx)
  inFile x hx := h.inFile x (hperm.subset hx)
  unreserved hvac x hx := h.unreserved hvac x (hperm.subset hx)

theorem single (h : InUse p trunks pages) (hx : x ∈ pages) : InUse p trunks [x] :=
  h.sublist (List.singleton_sublist.mpr hx)

theorem left (h : InUse p trunks (pages ++ pages')) : InUse p trunks pages :=
  h.sublist (List.sublist_append_left _ _)

theorem right (h : InUse p trunks (pages ++ pages')) : InUse p trunks pages' :=
  h.sublist (List.sublist_append_right _ _)

theorem apart (h : InUse p trunks (pages ++ pages')) (hx : x ∈ pages) (hx' : x ∈ pages') : False :=
  (List.nodup_append.mp h.nodup).2.2 x hx x hx' rfl

theorem append (h : InUse p trunks pages) (h' : InUse p trunks pages')
    (hapart : ∀ x ∈ pages, x ∉ pages') : InUse p trunks (pages ++ pages') where
  nodup := List.nodup_append.mpr ⟨h.nodup, h'.nodup, fun x hx _ hy hxy =>
    hapart x hx (hxy ▸ hy)⟩
  notFree x hx := (List.mem_append.mp hx).elim (h.notFree x) (h'.notFree x)
  inFile x hx := (List.mem_append.mp hx).elim (h.inFile x) (h'.inFile x)
  unreserved hvac x hx := (List.mem_append.mp hx).elim (h.unreserved hvac x) (h'.unreserved hvac x)

end InUse

def Fresh (p : PagerState × World DbFile) (trunks : List (UInt32 × List UInt32)) (x : UInt32) :
    Prop :=
  x ∈ freePages trunks ∨ p.1.pageCount < x

theorem InUse.not_fresh (h : InUse p trunks pages) (hx : x ∈ pages) : ¬ Fresh p trunks x := by
  rintro (hfree | hlt)
  · exact h.notFree x hx hfree
  · exact UInt32.not_lt.mpr (h.inFile x hx).2 hlt

/-! ## Pages to allocate -/

section Spare

variable {s s' : PagerState} {trunks : List (UInt32 × List UInt32)} {m n : Nat}

/-- There is a free page, or a page number behind the end of the file that is not reserved. -/
def CanAllocate (s : PagerState) (trunks : List (UInt32 × List UInt32)) : Prop :=
  trunks ≠ [] ∨ ∃ x, s.pageCount < x ∧ s.reserves x = false

def Spare (s : PagerState) (trunks : List (UInt32 × List UInt32)) (n : Nat) : Prop :=
  ∃ l : List UInt32, l.Nodup ∧ l.length = n ∧
    ∀ x ∈ l, x ∈ freePages trunks ∨ (s.pageCount < x ∧ s.reserves x = false)

theorem Spare.canAllocate (h : Spare s trunks (n + 1)) :
    CanAllocate s trunks := by
  obtain ⟨l, -, hlen, hl⟩ := h
  obtain ⟨x, l, rfl⟩ := List.exists_cons_of_length_eq_add_one hlen
  rcases hl x (by simp) with hfree | hend
  · exact .inl (by rintro rfl; simp at hfree)
  · exact .inr ⟨x, hend⟩

theorem Spare.mono (h : Spare s trunks n) (hle : m ≤ n) :
    Spare s trunks m := by
  obtain ⟨l, hnodup, hlen, hl⟩ := h
  exact ⟨l.take m, hnodup.sublist (List.take_sublist m l), by rw [List.length_take]; omega,
    fun x hx => hl x (List.mem_of_mem_take hx)⟩

theorem Spare.congr (h : Spare s trunks n) (hcount : s'.pageCount = s.pageCount)
    (hreserves : ∀ x, s'.reserves x = s.reserves x) : Spare s' trunks n := by
  simpa only [Spare, hcount, hreserves] using h

end Spare

/-! ## What a change leaves alone -/

theorem reserves_of_grows {S : Set UInt32} (h : Grows p q S) (x : UInt32) :
    q.1.reserves x = p.1.reserves x := by
  simp only [PagerState.reserves, h.geometry, h.autoVacuum]

structure Replaced (p q : PagerState × World DbFile) (trunks rest : List (UInt32 × List UInt32))
    (pages pages' : List UInt32) : Prop where
  grows : Grows p q { x | x ∈ freePages trunks ∨ x ∈ touched p.1 pages }
  sound : SoundStore q rest
  rest_subset : ∀ x ∈ freePages rest, x ∈ freePages trunks
  inUse : InUse q rest pages'
  source : ∀ x ∈ pages', x ∈ pages ∨ Fresh p trunks x
  spare : ∀ n, Spare p.1 trunks n → Spare q.1 rest (n + pages.length - pages'.length)
  available : ∀ x ∈ pages', x ∈ pages ∨ x ∈ freePages trunks ∨ p.1.reserves x = false

namespace Replaced

variable {p q r : PagerState × World DbFile} {trunks rest rest' : List (UInt32 × List UInt32)}
  {pages pages' pages'' others : List UInt32}

section

variable (h : Replaced p q trunks rest pages pages')

include h

theorem view (hin : InUse p trunks (pages ++ others)) :
    ∀ x ∈ others, pageSeen q.1 q.2.disk x = pageSeen p.1 p.2.disk x := by
  intro x hx
  have hfile := hin.right.inFile x hx
  refine h.grows.view x ?_ hfile.1 hfile.2
  rintro (hfree | hmem | ⟨hvac, hres⟩)
  · exact hin.right.notFree x hx hfree
  · exact hin.apart hmem hx
  · rw [hin.right.unreserved hvac x hx] at hres
    cases hres

theorem frame (hin : InUse p trunks (pages ++ others)) : InUse q rest (pages' ++ others) := by
  have hothers : InUse q rest others := {
    nodup := hin.right.nodup
    notFree := fun x hx hfree => hin.right.notFree x hx (h.rest_subset x hfree)
    inFile := fun x hx => ⟨(hin.right.inFile x hx).1,
      UInt32.le_trans (hin.right.inFile x hx).2 h.grows.pageCount⟩
    unreserved := fun hvac x hx => by
      rw [h.grows.geometry]
      exact hin.right.unreserved (h.grows.autoVacuum ▸ hvac) x hx }
  refine h.inUse.append hothers fun x hx hx' => ?_
  rcases h.source x hx with hmem | hfresh
  · exact hin.apart hmem hx'
  · exact hin.right.not_fresh hx' hfresh

theorem widen (hin : InUse p trunks (pages ++ others)) :
    Replaced p q trunks rest (pages ++ others) (pages' ++ others) where
  grows := h.grows.mono fun x hx => by
    rcases hx with hfree | hmem | hres
    · exact .inl hfree
    · exact .inr (.inl (List.mem_append_left _ hmem))
    · exact .inr (.inr hres)
  sound := h.sound
  rest_subset := h.rest_subset
  inUse := h.frame hin
  source x hx := by
    rcases List.mem_append.mp hx with hx | hx
    · exact (h.source x hx).imp_left (List.mem_append_left _)
    · exact .inl (List.mem_append_right _ hx)
  spare n hn := (h.spare n hn).mono (by simp only [List.length_append]; omega)
  available x hx := by
    rcases List.mem_append.mp hx with hx | hx
    · exact (h.available x hx).imp_left (List.mem_append_left _)
    · exact .inl (List.mem_append_right _ hx)

theorem perm {pages₁ pages₁' : List UInt32} (hpages : pages₁.Perm pages)
    (hperm : pages₁'.Perm pages') :
    Replaced p q trunks rest pages₁ pages₁' where
  grows := h.grows.mono fun x hx => by
    rcases hx with hfree | hmem | hres
    · exact .inl hfree
    · exact .inr (.inl (hpages.symm.subset hmem))
    · exact .inr (.inr hres)
  sound := h.sound
  rest_subset := h.rest_subset
  inUse := h.inUse.perm hperm
  source x hx := (h.source x (hperm.subset hx)).imp_left fun hin => hpages.symm.subset hin
  spare n hn := by
    rw [hpages.length_eq, hperm.length_eq]
    exact h.spare n hn
  available x hx := (h.available x (hperm.subset hx)).imp_left fun hin => hpages.symm.subset hin

theorem trans (h' : Replaced q r rest rest' pages' pages'') :
    Replaced p r trunks rest' pages pages'' := by
  have hfresh : ∀ x, Fresh q rest x → Fresh p trunks x := fun x hx =>
    hx.imp (h.rest_subset x) (UInt32.lt_of_le_of_lt h.grows.pageCount)
  have hsource : ∀ x, x ∈ pages' ∨ Fresh q rest x → x ∈ pages ∨ Fresh p trunks x := by
    rintro x (hx | hx)
    · exact h.source x hx
    · exact .inr (hfresh x hx)
  constructor
  · refine ⟨h'.grows.geometry.trans h.grows.geometry, h'.grows.wal.trans h.grows.wal,
      h'.grows.autoVacuum.trans h.grows.autoVacuum, h'.grows.failAt,
      UInt32.le_trans h.grows.pageCount h'.grows.pageCount, fun x hx h0 hle => ?_⟩
    refine (h'.grows.view x ?_ h0 (UInt32.le_trans hle h.grows.pageCount)).trans
      (h.grows.view x hx h0 hle)
    rintro (hfree | hmem | ⟨hvac, hres⟩)
    · exact hx (.inl (h.rest_subset x hfree))
    · rcases h.source x hmem with hin | hfree | hlt
      · exact hx (.inr (.inl hin))
      · exact hx (.inl hfree)
      · exact UInt32.not_lt.mpr hle hlt
    · rw [h.grows.geometry] at hres
      exact hx (.inr (.inr ⟨h.grows.autoVacuum ▸ hvac, hres⟩))
  · exact h'.sound
  · exact fun x hx => h.rest_subset x (h'.rest_subset x hx)
  · exact h'.inUse
  · exact fun x hx => hsource x (h'.source x hx)
  · exact fun n hn => (h'.spare _ (h.spare n hn)).mono (by omega)
  · intro x hx
    rcases h'.available x hx with hmem | hfree | hopen
    · exact h.available x hmem
    · exact .inr (.inl (h.rest_subset x hfree))
    · exact .inr (.inr (reserves_of_grows h.grows x ▸ hopen))

end

theorem part {first mid others aside : List UInt32} {target : UInt32}
    (h : Replaced p q trunks rest first mid)
    (hin : InUse p trunks (first ++ aside)) (hmid : mid.Perm ([target] ++ others))
    (hrep : Replaced q r rest rest' [target] pages') :
    Replaced p r trunks rest' (first ++ aside) (pages' ++ (others ++ aside)) ∧
      ∀ x ∈ others ++ aside, pageSeen r.1 r.2.disk x = pageSeen q.1 q.2.disk x := by
  have hperm : (mid ++ aside).Perm ([target] ++ (others ++ aside)) := by
    rw [← List.append_assoc]
    exact hmid.append_right aside
  have hin' := (h.frame hin).perm hperm.symm
  exact ⟨(h.widen hin).trans ((hrep.widen hin').perm hperm (.refl _)), hrep.view hin'⟩

theorem inPlace {y : UInt32} (h : Replaced p q trunks rest [y] [y]) (hin : InUse p trunks pages)
    (hy : y ∈ pages) : InUse q rest pages ∧
      ∀ x ∈ pages, x ≠ y → pageSeen q.1 q.2.disk x = pageSeen p.1 p.2.disk x := by
  have hperm : pages.Perm ([y] ++ pages.erase y) := List.perm_cons_erase hy
  have hin' := hin.perm hperm.symm
  refine ⟨(h.frame hin').perm hperm, fun x hx hne => h.view hin' x ?_⟩
  exact (List.mem_erase_of_ne hne).mpr hx

theorem aside (h : Replaced p q trunks rest [] []) (hin : InUse p trunks pages) :
    InUse q rest pages ∧ ∀ x ∈ pages, pageSeen q.1 q.2.disk x = pageSeen p.1 p.2.disk x :=
  ⟨h.frame hin, h.view hin⟩

end Replaced

structure Rewrites (p q : PagerState × World DbFile) (trunks rest : List (UInt32 × List UInt32))
    (pages written : List UInt32) : Prop where
  replaced : Replaced p q trunks rest pages pages
  view : ∀ x ∈ pages, x ∉ written → pageSeen q.1 q.2.disk x = pageSeen p.1 p.2.disk x

namespace Rewrites

variable {p q r : PagerState × World DbFile} {trunks rest rest' : List (UInt32 × List UInt32)}
  {pages written written' : List UInt32}

section

variable (h : Rewrites p q trunks rest pages written)

include h

theorem sound : SoundStore q rest := h.replaced.sound

theorem inUse : InUse q rest pages := h.replaced.inUse

theorem geometry : q.1.geometry = p.1.geometry :=
  h.replaced.grows.geometry

theorem autoVacuum :
    q.1.autoVacuum = p.1.autoVacuum := h.replaced.grows.autoVacuum

theorem pageSize : q.1.pageSize = p.1.pageSize :=
  h.replaced.grows.pageSize

theorem trans (h' : Rewrites q r rest rest' pages written') :
    Rewrites p r trunks rest' pages (written ++ written') where
  replaced := h.replaced.trans h'.replaced
  view x hx hnot := by
    rw [List.mem_append, not_or] at hnot
    exact (h'.view x hx hnot.2).trans (h.view x hx hnot.1)

end

end Rewrites

section Rewriting

variable {p q : PagerState × World DbFile} {trunks rest : List (UInt32 × List UInt32)}
  {pages : List UInt32} {y : UInt32}

theorem Replaced.rewrites (h : Replaced p q trunks rest [y] [y]) (hin : InUse p trunks pages)
    (hy : y ∈ pages) : Rewrites p q trunks rest pages [y] where
  replaced := by
    have hperm : pages.Perm ([y] ++ pages.erase y) := List.perm_cons_erase hy
    exact (h.widen (hin.perm hperm.symm)).perm hperm hperm
  view x hx hne := (h.inPlace hin hy).2 x hx (by simpa using hne)

theorem Replaced.rewrites_nil (h : Replaced p q trunks rest [] []) (hin : InUse p trunks pages) :
    Rewrites p q trunks rest pages [] where
  replaced := h.widen hin
  view x hx _ := (h.aside hin).2 x hx

end Rewriting

structure SameOn (p q : PagerState × World DbFile) (pages : List UInt32) : Prop where
  geometry : q.1.geometry = p.1.geometry
  view : ∀ x ∈ pages, pageSeen q.1 q.2.disk x = pageSeen p.1 p.2.disk x

theorem SameOn.trans {r : PagerState × World DbFile} (h : SameOn p q pages)
    (h' : SameOn q r pages) :
    SameOn p r pages where
  geometry := h'.geometry.trans h.geometry
  view x hx := (h'.view x hx).trans (h.view x hx)

theorem Quiet.sameOn (h : Quiet p q) (pages : List UInt32) : SameOn p q pages :=
  ⟨h.geometry, fun x _ => h.view x⟩

theorem InUse.sameOn (hin : InUse p trunks pages) (h : Grows p q ∅) : SameOn p q pages :=
  ⟨h.geometry, fun x hx => h.view x (Set.notMem_empty x) (hin.inFile x hx).1 (hin.inFile x hx).2⟩

/-! ## Single steps -/

section Steps

variable {p q : PagerState × World DbFile} {trunks : List (UInt32 × List UInt32)}

section

variable (h : SoundStore p trunks)

include h

theorem SoundStore.changes (hin : InUse p trunks pages) (hq : Changes p q (touched p.1 pages))
    (hheader : q.1.header = p.1.header) :
    Replaced p q trunks trunks pages pages where
  grows := hq.grows.mono fun x hx => .inr hx
  sound := {
    failAt := hq.failAt
    complete := hq.complete h.complete
    freelist := by
      refine h.freelist.changes hq hheader fun x hx => ?_
      rintro (hmem | ⟨hvac, hres⟩)
      · exact hin.notFree x hmem hx
      · rw [h.unreserved hvac x hx] at hres
        cases hres
    counted := by rw [hq.pageCount]; exact h.counted
    first := h.first
    unreserved := by
      rw [hq.autoVacuum, hq.geometry]
      exact h.unreserved }
  rest_subset x hx := hx
  inUse := {
    nodup := hin.nodup
    notFree := hin.notFree
    inFile := by rw [hq.pageCount]; exact hin.inFile
    unreserved := by
      rw [hq.autoVacuum, hq.geometry]
      exact hin.unreserved }
  source x hx := .inl hx
  spare n hn := by
    rw [Nat.add_sub_cancel]
    refine hn.congr hq.pageCount fun x => ?_
    simp only [PagerState.reserves, hq.geometry, hq.autoVacuum]
  available x hx := .inl hx

theorem SoundStore.not_fresh_one : ¬ Fresh p trunks 1 := by
  rintro (hfree | hlt)
  · exact h.first hfree
  · exact UInt32.not_lt.mpr h.counted hlt

theorem SoundStore.quiet (hq : Quiet p q) : Replaced p q trunks trunks [] [] :=
  h.changes (.nil p trunks) (hq.changes _) hq.header

theorem SoundStore.rewrites (hin : InUse p trunks pages) : Rewrites p p trunks trunks pages [] :=
  (h.quiet ⟨⟨p.1.cache, p.1.txn, rfl⟩, h.failAt, fun _ => rfl⟩).rewrites_nil hin

theorem SoundStore.writePage {pgno : UInt32} (hin : InUse p trunks [pgno]) {data : Bytes}
    (hlen : data.length = p.1.pageSize) :
    ∃ q, writePage pgno data p = .ok () q ∧ Replaced p q trunks trunks [pgno] [pgno] ∧
      pageSeen q.1 q.2.disk pgno = .ok data := by
  have hfile := hin.inFile pgno (by simp)
  refine ⟨_, writePage_ok pgno hlen, ?_, pageSeen_written _ _ _ hfile.1
    (UInt32.le_trans hfile.2 (effectiveCount_ge p.1))⟩
  refine h.changes hin ((changes_written h.failAt pgno hlen).mono fun x hx => ?_) rfl
  exact .inl (by simpa using hx)

theorem SoundStore.ptrmapPut {pgno : UInt32} (h0 : pgno ≠ 0) (h1 : pgno ≠ 1)
    (hle : pgno ≤ p.1.pageCount) (hres : isReservedPage p.1.geometry.usableSize pgno.toNat = false)
    (hvac : p.1.autoVacuum = true) (ty : PtrMapType) (parent : UInt32) :
    ∃ q, ptrmapPut pgno ty parent p = .ok () q ∧ Replaced p q trunks trunks [] [] := by
  have hmapped := mapped_of_unreserved h0 h1 hres
  obtain ⟨q, hrun, hq, hheader⟩ := ptrmapPut_ok h.failAt h.complete hmapped
    (UInt32.le_trans hle (effectiveCount_ge p.1)) ty parent
  refine ⟨q, hrun, h.changes (.nil p trunks) (hq.mono fun x hx => ?_) hheader⟩
  rw [Set.mem_singleton_iff.mp hx]
  exact .inr ⟨hvac, isReservedPage_mapPage p.1.geometry.le_usable hmapped⟩

end

variable {pgno : UInt32} {e : Error}

theorem not_reserved_of_reserves {s : PagerState} (h : s.reserves pgno = false)
    (hvac : s.autoVacuum = true) : isReservedPage s.geometry.usableSize pgno.toNat = false := by
  rw [PagerState.reserves, hvac, Bool.true_and, Bool.or_eq_false_iff] at h
  rw [isReservedPage, h.1, h.2]
  rfl

theorem allocatePage_cons {t : UInt32 × List UInt32} (h : SoundStore p (t :: trunks)) :
    ∃ pgno rest q, allocatePage p = .ok pgno q ∧ Allocated p q (t :: trunks) rest pgno := by
  obtain ⟨pgno, rest, q, hrun, halloc⟩ := allocateFromFreelist_ok h.failAt h.freelist
  have hpos : 0 < p.1.header.freelistCount := by
    rw [UInt32.lt_iff_toNat_lt, h.freelist.count]
    simp
  refine ⟨pgno, rest, q, ?_, halloc⟩
  simp only [allocatePage, getState_bind, h.freelist.chain.1,
    if_pos (show 0 < p.1.header.freelistCount ∧ t.1 ≠ 0 from ⟨hpos, h.freelist.chain.2.1⟩), hrun]

theorem allocatePage_unreserved (h : SoundStore p trunks) (hrun : allocatePage p = .ok pgno q)
    (habove : pgno ∉ freePages trunks) : p.1.reserves pgno = false := by
  cases trunks with
  | nil =>
      have hempty : p.1.freelistEmpty := by
        have := h.freelist.chain
        simp only [Trunks] at this
        simp [PagerState.freelistEmpty, this]
      have hspec := allocatePage_spec hempty p.2
      simp only [Prod.mk.eta, hrun] at hspec
      exact hspec.1.free
  | cons t trunks =>
      obtain ⟨pgno', rest, q', hrun', halloc⟩ := allocatePage_cons h
      rw [hrun'] at hrun
      cases hrun
      exact absurd ((halloc.fromList (by simp)).2.symm.subset (by simp)) habove

theorem extendFile_error (left : Nat) (s : PagerState) {w : World DbFile} (hw : w.failAt = none)
    (hleft : left + s.pageCount.toNat = 2 ^ 32 - 1)
    (hrun : extendFile s.geometry left (s, w) = .error e q) : Grows (s, w) q ∅ := by
  induction left generalizing s with
  | zero =>
      cases hrun
      exact .refl hw
  | succ left ih =>
      have hnext := toNat_succ_pageCount hleft
      rw [extendFile_succ] at hrun
      split_ifs at hrun
      exact (grows_extended hw hnext).trans
        (ih s.extended (by simp only [PagerState.extended, hnext]; omega) hrun)

theorem allocatePage_error (h : SoundStore p trunks) (hrun : allocatePage p = .error e q) :
    Grows p q ∅ := by
  cases trunks with
  | nil =>
      have hempty : ¬ (0 < p.1.header.freelistCount ∧ p.1.header.firstFreelistTrunk ≠ 0) := by
        have := h.freelist.chain
        simp only [Trunks] at this
        simp [this]
      simp only [allocatePage, getState_bind, if_neg hempty] at hrun
      exact extendFile_error _ p.1 h.failAt (by have := p.1.pageCount.toNat_lt; omega) hrun
  | cons t trunks =>
      obtain ⟨pgno', rest, q', hrun', -⟩ := allocatePage_cons h
      rw [hrun'] at hrun
      cases hrun

theorem allocatePage_ok_iff (h : SoundStore p trunks) :
    (∃ pgno q, allocatePage p = .ok pgno q) ↔ CanAllocate p.1 trunks := by
  cases trunks with
  | nil =>
      have hempty : p.1.freelistEmpty := by
        have := h.freelist.chain
        simp only [Trunks] at this
        simp [PagerState.freelistEmpty, this]
      have hspec := allocatePage_spec hempty p.2
      cases hrun : allocatePage p with
      | ok pgno q =>
          simp only [Prod.mk.eta, hrun] at hspec
          exact ⟨fun _ => .inr ⟨pgno, hspec.1.above, hspec.1.free⟩, fun _ => ⟨pgno, q, rfl⟩⟩
      | error e q =>
          simp only [Prod.mk.eta, hrun] at hspec
          refine ⟨fun hok => ?_, ?_⟩
          · obtain ⟨_, _, hok⟩ := hok
            cases hok
          rintro (hne | ⟨x, habove, hfree⟩)
          · exact absurd rfl hne
          · rw [hspec x habove] at hfree
            cases hfree
  | cons t trunks =>
      obtain ⟨pgno, rest, q, hrun, -⟩ := allocatePage_cons h
      exact ⟨fun _ => .inl (by simp), fun _ => ⟨pgno, q, hrun⟩⟩

theorem Quiet.canAllocate (h : Quiet p q) : CanAllocate q.1 trunks ↔ CanAllocate p.1 trunks := by
  have hreserves : ∀ x, q.1.reserves x = p.1.reserves x := reserves_congr h.geometry h.header
  simp only [CanAllocate, hreserves, (h.changes ∅).pageCount]

theorem Spare.allocated {rest : List (UInt32 × List UInt32)} {n : Nat}
    (h : Spare p.1 trunks (n + 1)) (halloc : Allocated p q trunks rest pgno)
    (hrun : Pager.allocatePage p = .ok pgno q) (hfree : Freelist p trunks) : Spare q.1 rest n := by
  obtain ⟨l, hnodup, hlen, hl⟩ := h
  have hreserves := reserves_of_grows halloc.grows
  have herase : n ≤ (l.erase pgno).length := by
    rw [List.length_erase]
    split_ifs <;> omega
  refine Spare.mono ⟨l.erase pgno, hnodup.erase pgno, rfl, fun x hx => ?_⟩ herase
  have hmem := (hnodup.mem_erase_iff.mp hx).2
  have hne := (hnodup.mem_erase_iff.mp hx).1
  rw [hreserves]
  cases trunks with
  | nil =>
      have hempty : p.1.freelistEmpty := by
        have := hfree.chain
        simp only [Trunks] at this
        simp [PagerState.freelistEmpty, this]
      have hspec := allocatePage_spec hempty p.2
      simp only [Prod.mk.eta, hrun] at hspec
      rcases hl x hmem with hin | ⟨habove, hunres⟩
      · simp at hin
      · refine .inr ⟨?_, hunres⟩
        rw [hspec.1.pageCount]
        by_contra hle
        have hlt : x < pgno := by
          rw [UInt32.lt_iff_toNat_lt] at hle ⊢
          have : x.toNat ≠ pgno.toNat := fun heq => hne (UInt32.toNat_inj.mp heq)
          omega
        rw [hspec.1.skipped x habove hlt] at hunres
        cases hunres
  | cons t trunks =>
      obtain ⟨hcount, hperm⟩ := halloc.fromList (by simp)
      rw [hcount]
      refine (hl x hmem).imp_left fun hin => ?_
      exact (List.mem_cons.mp (hperm.subset hin)).resolve_left hne

theorem SoundStore.allocatePage (h : SoundStore p trunks) :
    match allocatePage p with
    | .ok pgno q => pgno ≠ 1 ∧ Fresh p trunks pgno ∧
        ∃ rest, Replaced p q trunks rest [] [pgno]
    | .error e q => Exhausted e q ∧ Grows p q ∅ := by
  have halloc := allocatePage_ok h.failAt h.freelist
  cases hrun : Pager.allocatePage p with
  | error e q =>
      rw [hrun] at halloc
      exact ⟨halloc, allocatePage_error h hrun⟩
  | ok pgno q =>
      rw [hrun] at halloc
      obtain ⟨rest, halloc⟩ := halloc
      have hone : pgno ≠ 1 := by
        rintro rfl
        rcases halloc.source with hfree | hlt
        · exact h.first hfree
        · exact UInt32.not_lt.mpr h.counted hlt
      have hres : p.1.autoVacuum = true →
          isReservedPage p.1.geometry.usableSize pgno.toNat = false := by
        intro hvac
        by_cases hfree : pgno ∈ freePages trunks
        · exact h.unreserved hvac pgno hfree
        · exact not_reserved_of_reserves (allocatePage_unreserved h hrun hfree) hvac
      refine ⟨hone, halloc.source, rest, halloc.grows.mono fun x hx => .inl hx, ?_,
        halloc.rest_subset, ?_, fun x hx => .inr (by simpa using List.mem_singleton.mp hx ▸
          halloc.source), fun n hn => ?_, fun x hx => ?_⟩
      · refine ⟨halloc.grows.failAt, halloc.complete h.complete, halloc.freelist,
          UInt32.le_trans h.counted halloc.grows.pageCount,
          fun hin => h.first (halloc.rest_subset 1 hin), fun hvac x hx => ?_⟩
        rw [halloc.grows.geometry]
        exact h.unreserved (halloc.grows.autoVacuum ▸ hvac) x (halloc.rest_subset x hx)
      · refine ⟨by simp, by simpa using halloc.not_free, by simpa using ⟨halloc.ne_zero, halloc.le⟩,
          fun hvac x hx => ?_⟩
        rw [List.mem_singleton.mp hx, halloc.grows.geometry]
        exact hres (halloc.grows.autoVacuum ▸ hvac)
      · cases n with
        | zero => exact ⟨[], List.nodup_nil, rfl, by simp⟩
        | succ n => exact hn.allocated halloc hrun h.freelist
      · rw [List.mem_singleton.mp hx]
        by_cases hfree : pgno ∈ freePages trunks
        · exact .inr (.inl hfree)
        · exact .inr (.inr (allocatePage_unreserved h hrun hfree))

end Steps

end Rustqlite.Pager
