import Rustqlite.Pager.Freelist

/-!
# Freeing many pages

A tree that is dropped gives its pages back one by one, and each of them becomes
the first trunk.  What is not freed, and is no pointer map, is shown as before.
-/

namespace Rustqlite.Pager

open Foundation Format Btree FileM

/-! ## What changes -/

def touched (s : PagerState) (pages : List UInt32) : Set UInt32 :=
  { q | q ∈ pages ∨ s.autoVacuum = true ∧
    isReservedPage s.geometry.usableSize q.toNat = true }

variable {p q : PagerState × World DbFile} {S : Set UInt32} {s : PagerState} {pgno : UInt32}
  {pages : List UInt32} {trunks : List (UInt32 × List UInt32)}

theorem touched_eq (h : Changes p q S) (pages : List UInt32) :
    touched q.1 pages = touched p.1 pages := by
  simp only [touched, h.autoVacuum, h.geometry]

theorem inRange_of_seen {disk : Disk DbFile} {page : Bytes} (h : pageSeen s disk pgno = .ok page) :
    pgno ≠ 0 ∧ pgno ≤ s.effectiveCount := by
  rw [pageSeen] at h
  split_ifs at h with hout
  rw [not_or] at hout
  exact ⟨hout.1, UInt32.not_lt.mp hout.2⟩

theorem mapped_of_unreserved {usable : Nat} (h0 : pgno ≠ 0) (h1 : pgno ≠ 1)
    (hres : isReservedPage usable pgno.toNat = false) : Mapped usable pgno := by
  refine ⟨?_, hres⟩
  have hne0 : pgno.toNat ≠ 0 := fun h => h0 (UInt32.toNat_inj.mp h)
  have hne1 : pgno.toNat ≠ 1 := fun h => h1 (UInt32.toNat_inj.mp h)
  omega

theorem freeTouches_subset (hmem : pgno ∈ pages)
    (hmapped : s.autoVacuum = true → Mapped s.geometry.usableSize pgno) :
    freeTouches s pgno ⊆ touched s pages := by
  rintro q (rfl | ⟨hvac, rfl⟩)
  · exact .inl hmem
  · exact .inr ⟨hvac, isReservedPage_mapPage s.geometry.le_usable (hmapped hvac)⟩

/-! ## Sound lists -/

theorem names_trunkPage (s : PagerState) : Names s.pageSize (trunkPage s) [] := by
  have hbig : 512 ≤ s.pageSize := s.geometry.pageSize.le_size
  refine ⟨?_, by simp only [List.length_nil]; omega, ?_, by simp⟩
  · simp only [trunkPage, List.length_append, length_be32, List.length_replicate]
    omega
  · have hdrop : (trunkPage s).drop 4 = List.replicate (s.pageSize - 4) 0 := by
      rw [trunkPage, List.drop_left' (length_be32 _)]
    have htake : (List.replicate (s.pageSize - 4) (0 : UInt8)).take 4 = [0, 0, 0, 0] := by
      rw [List.take_replicate, Nat.min_eq_left (by omega)]
      rfl
    rw [hdrop, readBe32, htake]
    rfl

structure SoundFreelist (p : PagerState × World DbFile) (trunks : List (UInt32 × List UInt32)) :
    Prop where
  chain : Trunks p.1.pageSize (pageSeen p.1 p.2.disk) p.1.header.firstFreelistTrunk trunks
  count : p.1.header.freelistCount.toNat = (freePages trunks).length
  nodup : (freePages trunks).Nodup
  inRange : ∀ x ∈ freePages trunks, x ≠ 0 ∧ x ≤ p.1.effectiveCount

theorem Freelist.sound (h : Freelist p trunks) : SoundFreelist p trunks where
  chain := h.chain
  count := h.count
  nodup := h.nodup
  inRange x hx :=
    ⟨(h.inFile x hx).1, UInt32.le_trans (h.inFile x hx).2 (effectiveCount_ge p.1)⟩

theorem SoundFreelist.freed (h : SoundFreelist p trunks) (hq : Changes p q S)
    (hS : ∀ x ∈ freePages trunks, x ∉ S) (hheader : q.1.header = freedHeader p.1.header pgno)
    (hpage : pageSeen q.1 q.2.disk pgno = .ok (trunkPage p.1)) (h0 : pgno ≠ 0)
    (hle : pgno ≤ p.1.effectiveCount) (hnew : pgno ∉ freePages trunks) :
    SoundFreelist q ((pgno, []) :: trunks) := by
  have hsize : q.1.pageSize = p.1.pageSize := by
    rw [PagerState.pageSize, PagerState.pageSize, hq.geometry]
  have hnodup : (pgno :: freePages trunks).Nodup := List.nodup_cons.mpr ⟨hnew, h.nodup⟩
  have hzero : 0 ∉ pgno :: freePages trunks := by
    intro hmem
    rcases List.mem_cons.mp hmem with heq | hmem
    · exact h0 heq.symm
    · exact (h.inRange 0 hmem).1 rfl
  constructor
  · refine ⟨by rw [hheader]; rfl, h0, _, hpage, by rw [hsize]; exact names_trunkPage p.1, ?_⟩
    have hnext : readBe32 (trunkPage p.1) = p.1.header.firstFreelistTrunk := by
      rw [trunkPage, readBe32_be32_append]
    rw [hnext, hsize]
    exact h.chain.congr fun x hx => hq.view x (hS x hx)
  · have hshort := length_le_of_nodup (List.nodup_cons.mpr ⟨hzero, hnodup⟩)
    rw [hheader]
    change (p.1.header.freelistCount + 1).toNat = _
    rw [UInt32.toNat_add, UInt32.toNat_one, h.count, freePages_cons]
    simp only [List.length_cons, List.nil_append] at hshort ⊢
    omega
  · simpa using hnodup
  · intro x hx
    rw [hq.effectiveCount]
    rcases List.mem_cons.mp (by simpa using hx) with rfl | hx
    · exact ⟨h0, hle⟩
    · exact h.inRange x hx

theorem SoundFreelist.changes (h : SoundFreelist p trunks) (hq : Changes p q S)
    (hheader : q.1.header = p.1.header) (hS : ∀ x ∈ freePages trunks, x ∉ S) :
    SoundFreelist q trunks where
  chain := by
    rw [hheader, PagerState.pageSize, hq.geometry]
    exact h.chain.congr fun x hx => hq.view x (hS x hx)
  count := by rw [hheader]; exact h.count
  nodup := h.nodup
  inRange := by rw [hq.effectiveCount]; exact h.inRange

theorem Freelist.freed (h : Freelist p trunks) (hq : Changes p q {pgno})
    (hheader : q.1.header = freedHeader p.1.header pgno)
    (hpage : pageSeen q.1 q.2.disk pgno = .ok (trunkPage p.1)) (h0 : pgno ≠ 0)
    (hle : pgno ≤ p.1.pageCount) (hnew : pgno ∉ freePages trunks) :
    Freelist q ((pgno, []) :: trunks) := by
  have hS : ∀ x ∈ freePages trunks, x ∉ ({pgno} : Set UInt32) := by
    rintro x hx rfl
    exact hnew hx
  have hsound := h.sound.freed hq hS hheader hpage h0
    (UInt32.le_trans hle (effectiveCount_ge p.1)) hnew
  refine ⟨hsound.chain, hsound.count, hsound.nodup, fun x hx => ?_⟩
  rw [hq.pageCount]
  rcases List.mem_cons.mp (by simpa using hx) with rfl | hx
  · exact ⟨h0, hle⟩
  · exact h.inFile x hx

@[simp] theorem freePages_append (a b : List (UInt32 × List UInt32)) :
    freePages (a ++ b) = freePages a ++ freePages b := by
  simp [freePages]

def asTrunks (pages : List UInt32) : List (UInt32 × List UInt32) :=
  pages.reverse.map fun x => (x, [])

@[simp] theorem freePages_asTrunks (pages : List UInt32) :
    freePages (asTrunks pages) = pages.reverse := by
  rw [asTrunks, freePages, List.flatMap_map]
  exact List.flatMap_singleton' _

theorem asTrunks_append (a b : List UInt32) : asTrunks (a ++ b) = asTrunks b ++ asTrunks a := by
  simp [asTrunks]

/-- What allows the pages `pages` to be freed, in any order. -/
structure Freeable (p : PagerState × World DbFile) (trunks : List (UInt32 × List UInt32))
    (pages : List UInt32) : Prop where
  failAt : p.2.failAt = none
  complete : Complete p
  freelist : SoundFreelist p trunks
  nodup : (pages ++ freePages trunks).Nodup
  inRange : ∀ x ∈ pages, x ≠ 0 ∧ x ≤ p.1.effectiveCount
  mapped : p.1.autoVacuum = true → ∀ x ∈ pages ++ freePages trunks,
    Mapped p.1.geometry.usableSize x

structure Freed (p q : PagerState × World DbFile) (trunks : List (UInt32 × List UInt32))
    (pages : List UInt32) : Prop where
  changes : Changes p q (touched p.1 pages)
  freelist : SoundFreelist q (asTrunks pages ++ trunks)

section Many

variable {p q r : PagerState × World DbFile} {trunks : List (UInt32 × List UInt32)}
  {pages a b : List UInt32}

theorem Freeable.perm (h : Freeable p trunks a) (hab : a.Perm b) : Freeable p trunks b where
  failAt := h.failAt
  complete := h.complete
  freelist := h.freelist
  nodup := (hab.append_right _).nodup_iff.mp h.nodup
  inRange x hx := h.inRange x (hab.mem_iff.mpr hx)
  mapped hvac x hx := h.mapped hvac x ((hab.append_right _).mem_iff.mpr hx)

theorem Freed.refl (h : Freeable p trunks pages) : Freed p p trunks [] :=
  ⟨Changes.refl h.failAt, h.freelist⟩

theorem Freed.trans (h : Freed p q trunks a) (h' : Freed q r (asTrunks a ++ trunks) b) :
    Freed p r trunks (a ++ b) where
  changes := by
    have hb := h'.changes
    rw [touched_eq h.changes] at hb
    refine (h.changes.mono ?_).trans (hb.mono ?_)
    · exact fun x hx => hx.imp_left fun hmem => List.mem_append_left b hmem
    · exact fun x hx => hx.imp_left fun hmem => List.mem_append_right a hmem
  freelist := by
    rw [asTrunks_append, List.append_assoc]
    exact h'.freelist

theorem Freeable.quiet (h : Freeable p trunks pages) (hq : Quiet p q) :
    Freeable q trunks pages where
  failAt := hq.failAt
  complete := (hq.changes ∅).complete h.complete
  freelist := h.freelist.changes (hq.changes ∅) hq.header fun _ _ => Set.notMem_empty _
  nodup := h.nodup
  inRange := by rw [hq.effectiveCount]; exact h.inRange
  mapped := by rw [(hq.changes ∅).autoVacuum, hq.geometry]; exact h.mapped

theorem Freed.of_quiet (hq : Quiet p q) (h : Freed q r trunks pages) : Freed p r trunks pages where
  changes := by
    have hch := h.changes
    rw [touched_eq (hq.changes ∅)] at hch
    exact (hq.changes _).trans hch
  freelist := h.freelist

theorem Freeable.untouched (h : Freeable p trunks (a ++ b)) : ∀ x ∈ b, x ∉ touched p.1 a := by
  rintro x hx (hmem | ⟨hvac, hres⟩)
  · have hdisj := (List.nodup_append.mp (List.nodup_append.mp h.nodup).1).2.2
    exact hdisj x hmem x hx rfl
  · have hmap := h.mapped hvac x (by simp [hx])
    rw [hmap.not_reserved] at hres
    cases hres

theorem Freeable.view (h : Freeable p trunks (a ++ b)) (hq : Freed p q trunks a) :
    ∀ x ∈ b, pageSeen q.1 q.2.disk x = pageSeen p.1 p.2.disk x :=
  fun x hx => hq.changes.view x (h.untouched x hx)

theorem Freeable.rest (h : Freeable p trunks (a ++ b)) (hq : Freed p q trunks a) :
    Freeable q (asTrunks a ++ trunks) b where
  failAt := hq.changes.failAt
  complete := hq.changes.complete h.complete
  freelist := hq.freelist
  nodup := by
    rw [freePages_append, freePages_asTrunks]
    have hperm : (a ++ b ++ freePages trunks).Perm (b ++ (a.reverse ++ freePages trunks)) := by
      rw [← List.append_assoc]
      exact (List.perm_append_comm.trans ((List.reverse_perm a).symm.append_left b)).append_right _
    exact hperm.nodup_iff.mp h.nodup
  inRange x hx := by
    rw [hq.changes.effectiveCount]
    exact h.inRange x (List.mem_append_right a hx)
  mapped hvac x hx := by
    rw [hq.changes.geometry]
    refine h.mapped (hq.changes.autoVacuum ▸ hvac) x ?_
    simp only [freePages_append, freePages_asTrunks, List.mem_append, List.mem_reverse] at hx ⊢
    tauto

theorem freePage_freed {rest : List UInt32} (h : Freeable p trunks (pgno :: rest)) :
    ∃ q, freePage pgno p = .ok () q ∧ Freed p q trunks [pgno] := by
  obtain ⟨h0, hle⟩ := h.inRange pgno List.mem_cons_self
  have hmapped : p.1.autoVacuum = true → Mapped p.1.geometry.usableSize pgno := fun hvac =>
    h.mapped hvac pgno (by simp)
  obtain ⟨q, hrun, hch, hheader, hpage⟩ := freePage_ok h.failAt h.complete h0 hle hmapped
  replace hch := hch.mono (freeTouches_subset (List.mem_singleton_self pgno) hmapped)
  have hnew : pgno ∉ freePages trunks := by
    have hnodup := (List.nodup_cons.mp h.nodup).1
    exact fun hmem => hnodup (List.mem_append_right rest hmem)
  refine ⟨q, hrun, hch, h.freelist.freed hch ?_ hheader hpage h0 hle hnew⟩
  rintro x hx (hmem | ⟨hvac, hres⟩)
  · exact hnew (List.mem_singleton.mp hmem ▸ hx)
  · have hmap := h.mapped hvac x (by simp [hx])
    rw [hmap.not_reserved] at hres
    cases hres

end Many

end Rustqlite.Pager
