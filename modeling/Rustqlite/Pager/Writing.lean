import Rustqlite.Pager.Reading
import Rustqlite.Pager.Rollback

/-!
# What writing changes

The write path of a tree reads pages, rewrites some of them and hands others to
the freelist.  Everything else is shown as before.
-/

namespace Rustqlite.Pager

open Foundation Format Btree FileM

def Complete (p : PagerState × World DbFile) : Prop :=
  ∀ pgno, pgno ≠ 0 → pgno ≤ p.1.effectiveCount →
    ∃ page, pageSeen p.1 p.2.disk pgno = .ok page ∧ page.length = p.1.pageSize

def readable (p : PagerState × World DbFile) (pgno : UInt32) : Bool :=
  match pageSeen p.1 p.2.disk pgno with
  | .ok page => page.length == p.1.pageSize
  | .error _ => false

variable {p q : PagerState × World DbFile} {pgno : UInt32} {page data : Bytes} {usable : Nat}

theorem complete_of_readable (h : (List.range p.1.effectiveCount.toNat).all
      (fun n => readable p (UInt32.ofNat (n + 1))) = true) : Complete p := by
  intro pgno h0 hle
  have hpos : pgno.toNat ≠ 0 := fun h => h0 (UInt32.toNat_inj.mp h)
  rw [UInt32.le_iff_toNat_le] at hle
  have hpage := List.all_eq_true.mp h (pgno.toNat - 1) (List.mem_range.mpr (by omega))
  rw [Nat.sub_add_cancel (by omega), UInt32.ofNat_toNat, readable] at hpage
  cases hseen : pageSeen p.1 p.2.disk pgno with
  | ok page => exact ⟨page, rfl, by simpa [hseen] using hpage⟩
  | error e => simp [hseen] at hpage

/-- At most the pages of `S` are shown in another way. -/
structure Changes (p q : PagerState × World DbFile) (S : Set UInt32) : Prop where
  geometry : q.1.geometry = p.1.geometry
  pageCount : q.1.pageCount = p.1.pageCount
  wal : q.1.wal = p.1.wal
  autoVacuum : q.1.autoVacuum = p.1.autoVacuum
  failAt : q.2.failAt = none
  view : ∀ pgno ∉ S, pageSeen q.1 q.2.disk pgno = pageSeen p.1 p.2.disk pgno
  complete : Complete p → Complete q

namespace Changes

variable {p q r : PagerState × World DbFile} {S T : Set UInt32}

theorem effectiveCount (h : Changes p q S) : q.1.effectiveCount = p.1.effectiveCount := by
  rw [PagerState.effectiveCount, PagerState.effectiveCount, h.wal, h.pageCount]

theorem refl (h : p.2.failAt = none) : Changes p p S :=
  ⟨rfl, rfl, rfl, rfl, h, fun _ _ => rfl, id⟩

theorem mono (h : Changes p q S) (hST : S ⊆ T) : Changes p q T :=
  { h with view := fun pgno hpgno => h.view pgno fun hS => hpgno (hST hS) }

theorem trans (h : Changes p q S) (h' : Changes q r S) : Changes p r S where
  geometry := h'.geometry.trans h.geometry
  pageCount := h'.pageCount.trans h.pageCount
  wal := h'.wal.trans h.wal
  autoVacuum := h'.autoVacuum.trans h.autoVacuum
  failAt := h'.failAt
  view pgno hpgno := (h'.view pgno hpgno).trans (h.view pgno hpgno)
  complete hp := h'.complete (h.complete hp)

end Changes

structure Quiet (p q : PagerState × World DbFile) : Prop where
  state : ∃ cache txn, q.1 = { p.1 with cache := cache, txn := txn }
  failAt : q.2.failAt = none
  view : ∀ pgno, pageSeen q.1 q.2.disk pgno = pageSeen p.1 p.2.disk pgno

namespace Quiet

variable {p q r : PagerState × World DbFile}

theorem header (h : Quiet p q) : q.1.header = p.1.header := by
  obtain ⟨cache, txn, hq⟩ := h.state
  rw [hq]

theorem geometry (h : Quiet p q) : q.1.geometry = p.1.geometry := by
  obtain ⟨cache, txn, hq⟩ := h.state
  rw [hq]

theorem effectiveCount (h : Quiet p q) : q.1.effectiveCount = p.1.effectiveCount := by
  obtain ⟨cache, txn, hq⟩ := h.state
  rw [hq]
  rfl

theorem changes (h : Quiet p q) (S : Set UInt32) : Changes p q S := by
  obtain ⟨cache, txn, hq⟩ := h.state
  refine ⟨by rw [hq], by rw [hq], by rw [hq], by rw [hq]; rfl, h.failAt, fun pgno _ => h.view pgno,
    fun hp pgno hne hle => ?_⟩
  rw [h.effectiveCount] at hle
  obtain ⟨page, hpage, hlen⟩ := hp pgno hne hle
  refine ⟨page, (h.view pgno).trans hpage, ?_⟩
  rw [hlen, PagerState.pageSize, PagerState.pageSize, h.geometry]

theorem trans (h : Quiet p q) (h' : Quiet q r) : Quiet p r where
  state := by
    obtain ⟨c, t, hc⟩ := h.state
    obtain ⟨c', t', hc'⟩ := h'.state
    exact ⟨c', t', by rw [hc', hc]⟩
  failAt := h'.failAt
  view pgno := (h'.view pgno).trans (h.view pgno)

end Quiet

theorem SameView.quiet (h : SameView p q) : Quiet p q := by
  obtain ⟨cache, hq⟩ := h.state
  exact ⟨⟨cache, p.1.txn, hq⟩, h.failAt, h.view⟩

theorem getPage_ok (hp : p.2.failAt = none) (h : pageSeen p.1 p.2.disk pgno = .ok page) :
    ∃ q, getPage pgno p = .ok page q ∧ Quiet p q := by
  obtain ⟨q, hq, hrun⟩ := sameView_getPage hp pgno
  rw [h] at hrun
  exact ⟨q, hrun, hq.quiet⟩

theorem journalPage_ok (hp : p.2.failAt = none) (pgno : UInt32) (preimage : Bytes) :
    ∃ q, journalPage pgno preimage p = .ok () q ∧ Quiet p q := by
  have hok : p.2.failAt ≠ some 0 := by simp [hp]
  have hrun := journalPage_run (s := p.1) hok pgno preimage
  cases hj : mustJournal p.1 pgno with
  | none =>
      rw [hj] at hrun
      exact ⟨p, hrun, ⟨p.1.cache, p.1.txn, rfl⟩, hp, fun _ => rfl⟩
  | some t =>
      rw [hj] at hrun
      refine ⟨_, hrun, ⟨p.1.cache, _, rfl⟩, by simp [World.apply, hp], fun q => ?_⟩
      have hside : FileOp.sideOnly (.write DbFile.journal t.journalOff
          (buildRecord pgno preimage t.cksumInit)) = true := rfl
      have hdisk := applyOp_of_sideOnly hside p.2.disk
      have hstored := storedPage_congr (s := { p.1 with txn := some (t.record p.1.pageSize pgno) })
        rfl rfl hdisk.1 hdisk.2 q
      refine pageSeen_congr (s := p.1) rfl fun _ => ?_
      exact congrArg (fun stored => (p.1.resident q).elim stored .ok) hstored

theorem readPageForWrite_ok (hp : p.2.failAt = none) (h : pageSeen p.1 p.2.disk pgno = .ok page) :
    ∃ q, readPageForWrite pgno p = .ok page q ∧ Quiet p q := by
  obtain ⟨q, hget, hq⟩ := getPage_ok hp h
  obtain ⟨r, hjournal, hr⟩ := journalPage_ok hq.failAt pgno page
  refine ⟨r, ?_, hq.trans hr⟩
  rw [readPageForWrite, bind_ok hget, bind_ok hjournal]
  rfl

@[simp] theorem liftResult_ok_bind {α β : Type} (a : α) (f : α → PagerM β) :
    (liftResult (.ok a) >>= f) = f a := rfl

theorem of_liftResult_ok {α : Type} {r : Result α} {a : α} (h : liftResult r p = .ok a q) :
    r = .ok a ∧ q = p := by
  cases r with
  | ok b =>
      cases h
      exact ⟨rfl, rfl⟩
  | error e => cases h

theorem of_getPage_ok (hp : p.2.failAt = none) (h : getPage pgno p = .ok page q) :
    pageSeen p.1 p.2.disk pgno = .ok page ∧ Quiet p q := by
  obtain ⟨q', hq', hrun⟩ := sameView_getPage hp pgno
  rw [hrun] at h
  cases hseen : pageSeen p.1 p.2.disk pgno with
  | ok page' =>
      rw [hseen] at h
      cases h
      exact ⟨rfl, hq'.quiet⟩
  | error e =>
      rw [hseen] at h
      cases h

/-! ## Writing -/

def PagerState.written (s : PagerState) (pgno : UInt32) (data : Bytes) : PagerState :=
  { s with dirty := s.dirty.insert pgno data }

theorem writePage_ok (pgno : UInt32) (h : data.length = p.1.pageSize) :
    writePage pgno data p = .ok () (p.1.written pgno data, p.2) := by
  simp only [writePage, getState_bind, h, ne_eq, not_true_eq_false, if_false]
  rfl

theorem pageSeen_written (s : PagerState) (disk : Disk DbFile) (data : Bytes) (h0 : pgno ≠ 0)
    (hle : pgno ≤ s.effectiveCount) : pageSeen (s.written pgno data) disk pgno = .ok data := by
  have hcount : (s.written pgno data).effectiveCount = s.effectiveCount := rfl
  have hin : ¬ (pgno = 0 ∨ s.effectiveCount < pgno) := by
    rintro (h | h)
    · exact h0 h
    · exact UInt32.not_lt.mpr hle h
  have hres : (s.written pgno data).resident pgno = some data := by
    simp [PagerState.resident, PagerState.written]
  simp only [pageSeen, hcount, if_neg hin, hres]

theorem pageSeen_written_of_ne (s : PagerState) (disk : Disk DbFile) {q : UInt32} (data : Bytes)
    (h : q ≠ pgno) : pageSeen (s.written pgno data) disk q = pageSeen s disk q := by
  refine pageSeen_congr (s := s) (show (s.written pgno data).effectiveCount = _ from rfl)
    fun _ => ?_
  have hres : (s.written pgno data).resident q = s.resident q := by
    simp [PagerState.resident, PagerState.written, AList.lookup_insert_ne h]
  rw [hres]
  rfl

theorem changes_written (hp : p.2.failAt = none) (pgno : UInt32) (h : data.length = p.1.pageSize) :
    Changes p (p.1.written pgno data, p.2) {pgno} where
  geometry := rfl
  pageCount := rfl
  wal := rfl
  autoVacuum := rfl
  failAt := hp
  view q hq := pageSeen_written_of_ne _ _ _ hq
  complete hcomp q h0 hle := by
    by_cases hq : q = pgno
    · subst hq
      exact ⟨data, pageSeen_written _ _ _ h0 hle, h⟩
    · rw [pageSeen_written_of_ne _ _ _ hq]
      exact hcomp q h0 hle

/-! ## Pointer maps -/

structure Mapped (usable : Nat) (pgno : UInt32) : Prop where
  two_le : 2 ≤ pgno.toNat
  not_reserved : isReservedPage usable pgno.toNat = false

theorem ptrmapPageno_lt (h : Mapped usable pgno) :
    ptrmapPageno usable pgno.toNat < pgno.toNat ∧ 2 ≤ ptrmapPageno usable pgno.toNat := by
  obtain ⟨htwo, hres⟩ := h
  simp only [isReservedPage, isPtrmapPage, isPendingBytePage, htwo, decide_true, Bool.true_and,
    Bool.or_eq_false_iff, beq_eq_false_iff_ne, ne_eq] at hres
  obtain ⟨hmap, hpending⟩ := hres
  have hmul := Nat.div_mul_le_self (pgno.toNat - 2) (pagesPerMapPage usable)
  simp only [ptrmapPageno, if_neg (show ¬ pgno.toNat < 2 by omega)] at hmap ⊢
  split_ifs at hmap ⊢ <;> omega

theorem ptrmapPageno_offset (h : Mapped usable pgno) :
    ptrmapEntrySize * (pgno.toNat - ptrmapPageno usable pgno.toNat - 1) + ptrmapEntrySize ≤
      usable := by
  have hlt := (ptrmapPageno_lt h).1
  have htwo := h.two_le
  have hk : pagesPerMapPage usable = usable / 5 + 1 := rfl
  have hrem := Nat.div_add_mod (pgno.toNat - 2) (pagesPerMapPage usable)
  have hmod := Nat.mod_lt (pgno.toNat - 2) (show 0 < pagesPerMapPage usable by omega)
  rw [Nat.mul_comm] at hrem
  simp only [ptrmapPageno, if_neg (show ¬ pgno.toNat < 2 by omega), ptrmapEntrySize] at hlt ⊢
  split_ifs at hlt ⊢ <;> omega

def mapPage (usable : Nat) (pgno : UInt32) : UInt32 :=
  UInt32.ofNat (ptrmapPageno usable pgno.toNat)

theorem toNat_mapPage (h : Mapped usable pgno) :
    (mapPage usable pgno).toNat = ptrmapPageno usable pgno.toNat := by
  have hlt := (ptrmapPageno_lt h).1
  have := pgno.toNat_lt
  rw [mapPage, UInt32.toNat_ofNat']
  omega

theorem isReservedPage_mapPage (hu : 480 ≤ usable) (h : Mapped usable pgno) :
    isReservedPage usable (mapPage usable pgno).toNat = true := by
  rw [toNat_mapPage h, isReservedPage, Bool.or_eq_true]
  left
  have hk : 97 ≤ pagesPerMapPage usable := by
    rw [pagesPerMapPage, ptrmapEntrySize]
    omega
  have htwo := (ptrmapPageno_lt h).2
  rw [isPtrmapPage, Bool.and_eq_true]
  constructor
  · simpa using htwo
  · generalize hpm : ptrmapPageno usable pgno.toNat = pm at htwo
    have hne : ¬ pgno.toNat < 2 := by
      have := h.two_le
      omega
    simp only [ptrmapPageno, if_neg hne] at hpm
    generalize hm : pagesPerMapPage usable = m at hk hpm
    generalize ha : (pgno.toNat - 2) / m = a at hpm
    have hdiv : ∀ r < m, (a * m + r) / m = a := by
      intro r hr
      rw [Nat.mul_comm, Nat.mul_add_div (by omega), Nat.div_eq_of_lt hr, Nat.add_zero]
    simp only [ptrmapPageno, if_neg (show ¬ pm < 2 by omega), hm, beq_iff_eq]
    split_ifs at hpm with hb
    · have h1 : (pm - 2) / m = a := by
        have : pm - 2 = a * m + 1 := by omega
        rw [this, hdiv 1 (by omega)]
      rw [h1, if_pos hb, hpm]
    · have h1 : (pm - 2) / m = a := by
        have : pm - 2 = a * m + 0 := by omega
        rw [this, hdiv 0 (by omega)]
      rw [h1, if_neg hb, hpm]

theorem ptrmapOffset_ok (h : Mapped usable pgno) (p : PagerState × World DbFile) :
    ptrmapOffset (ptrmapPageno usable pgno.toNat) pgno.toNat p =
      .ok (ptrmapEntrySize * (pgno.toNat - ptrmapPageno usable pgno.toNat - 1)) p := by
  rw [ptrmapOffset, if_neg (by have := (ptrmapPageno_lt h).1; omega)]
  rfl

theorem ptrmapWrite_ok (hp : p.2.failAt = none) (h : Mapped p.1.geometry.usableSize pgno)
    (ty : PtrMapType) (parent : UInt32)
    (hpage : pageSeen p.1 p.2.disk (mapPage p.1.geometry.usableSize pgno) = .ok page)
    (hlen : page.length = p.1.pageSize) :
    ∃ q, ptrmapWrite (ptrmapPageno p.1.geometry.usableSize pgno.toNat) pgno ty parent p =
        .ok () q ∧
      Changes p q {mapPage p.1.geometry.usableSize pgno} ∧ q.1.header = p.1.header := by
  obtain ⟨q, hread, hq⟩ := readPageForWrite_ok hp hpage
  set pm := ptrmapPageno p.1.geometry.usableSize pgno.toNat with hpm
  set off := ptrmapEntrySize * (pgno.toNat - pm - 1) with hoff
  set data := splice page off (ty.code :: be32 parent) with hdata
  have hsize : q.1.pageSize = p.1.pageSize := by
    rw [PagerState.pageSize, PagerState.pageSize, hq.geometry]
  have hfits := ptrmapPageno_offset h
  have husable := p.1.geometry.usable_le
  have hdlen : data.length = q.1.pageSize := by
    rw [hdata, length_splice, hsize, hlen]
    have : p.1.pageSize = p.1.geometry.pageSize.size := rfl
    simp only [ptrmapEntrySize, List.length_cons, length_be32] at hfits ⊢
    rw [hlen, hoff, ptrmapEntrySize]
    omega
  have hwrite := writePage_ok (p := q) (mapPage p.1.geometry.usableSize pgno) hdlen
  refine ⟨_, ?_, (hq.changes _).trans (changes_written hq.failAt _ hdlen), hq.header⟩
  rw [ptrmapWrite]
  change (readPageForWrite (mapPage p.1.geometry.usableSize pgno) >>= _) p = _
  rw [bind_ok hread, bind_ok (ptrmapOffset_ok h q)]
  exact hwrite

theorem ptrmapPut_ok (hp : p.2.failAt = none) (hcomp : Complete p)
    (h : Mapped p.1.geometry.usableSize pgno) (hle : pgno ≤ p.1.effectiveCount) (ty : PtrMapType)
    (parent : UInt32) :
    ∃ q, ptrmapPut pgno ty parent p = .ok () q ∧
      Changes p q {mapPage p.1.geometry.usableSize pgno} ∧ q.1.header = p.1.header := by
  have hmap := toNat_mapPage h
  have hpm := ptrmapPageno_lt h
  have hin : mapPage p.1.geometry.usableSize pgno ≤ p.1.effectiveCount := by
    rw [UInt32.le_iff_toNat_le] at hle ⊢
    omega
  have hne : mapPage p.1.geometry.usableSize pgno ≠ 0 := by
    intro h0
    rw [h0] at hmap
    change 0 = _ at hmap
    omega
  obtain ⟨page, hpage, hlen⟩ := hcomp _ hne hin
  obtain ⟨q, hget, hq⟩ := getPage_ok hp hpage
  have hpage' : pageSeen q.1 q.2.disk (mapPage p.1.geometry.usableSize pgno) = .ok page :=
    (hq.view _).trans hpage
  have htry : tryResult (getPage (mapPage p.1.geometry.usableSize pgno)) p = .ok (.ok page) q := by
    rw [tryResult, hget]
  have hfits := ptrmapPageno_offset h
  have hdiffers : ptrmapDiffers p.1.geometry.usableSize
      (ptrmapPageno p.1.geometry.usableSize pgno.toNat) pgno ty parent page q = .ok
      (page.getD (ptrmapEntrySize * (pgno.toNat -
          ptrmapPageno p.1.geometry.usableSize pgno.toNat - 1)) 0 != ty.code ||
        readBe32 (page.drop (ptrmapEntrySize * (pgno.toNat -
          ptrmapPageno p.1.geometry.usableSize pgno.toNat - 1) + 1)) != parent) q := by
    rw [ptrmapDiffers, bind_ok (ptrmapOffset_ok h q), if_neg (by omega)]
    rfl
  rw [ptrmapPut]
  simp only [getState_bind, if_neg (show ptrmapPageno p.1.geometry.usableSize pgno.toNat ≠ 0 by
    omega)]
  change ∃ r, (tryResult (getPage (mapPage p.1.geometry.usableSize pgno)) >>= _) p = _ ∧ _
  rw [bind_ok htry]
  simp only [bind_ok hdiffers]
  split_ifs
  · obtain ⟨r, hwrite, hr, hheader⟩ := ptrmapWrite_ok (p := q) hq.failAt
      (by rw [hq.geometry]; exact h) ty parent (by rw [hq.geometry]; exact hpage')
      (by rw [hlen, PagerState.pageSize, PagerState.pageSize, hq.geometry])
    rw [hq.geometry] at hwrite hr
    exact ⟨r, hwrite, (hq.changes _).trans hr, hheader.trans hq.header⟩
  · exact ⟨q, rfl, hq.changes _, hq.header⟩

/-! ## Freeing -/

def freeTouches (s : PagerState) (pgno : UInt32) : Set UInt32 :=
  { q | q = pgno ∨ s.autoVacuum = true ∧ q = mapPage s.geometry.usableSize pgno }

def trunkPage (s : PagerState) : Bytes :=
  be32 s.header.firstFreelistTrunk ++ List.replicate (s.pageSize - 4) 0

def freedHeader (h : DbHeader) (pgno : UInt32) : DbHeader :=
  { h with firstFreelistTrunk := pgno, freelistCount := h.freelistCount + 1 }

theorem freePage_ok (hp : p.2.failAt = none) (hcomp : Complete p) (h0 : pgno ≠ 0)
    (hle : pgno ≤ p.1.effectiveCount)
    (hmapped : p.1.autoVacuum = true → Mapped p.1.geometry.usableSize pgno) :
    ∃ q, freePage pgno p = .ok () q ∧ Changes p q (freeTouches p.1 pgno) ∧
      q.1.header = freedHeader p.1.header pgno ∧
      pageSeen q.1 q.2.disk pgno = .ok (trunkPage p.1) := by
  obtain ⟨page, hpage, hlen⟩ := hcomp pgno h0 hle
  obtain ⟨q₁, hget, h₁⟩ := getPage_ok hp hpage
  obtain ⟨q₂, hjournal, h₂⟩ := journalPage_ok h₁.failAt pgno page
  have hq := h₁.trans h₂
  have hsize : q₂.1.pageSize = p.1.pageSize := by
    rw [PagerState.pageSize, PagerState.pageSize, hq.geometry]
  have hbig : 512 ≤ p.1.pageSize := p.1.geometry.pageSize.le_size
  have hdata : (be32 q₂.1.header.firstFreelistTrunk ++ List.replicate (page.length - 4) 0) =
      trunkPage p.1 := by
    rw [trunkPage, hq.header, hlen]
  have hdlen : (trunkPage p.1).length = q₂.1.pageSize := by
    simp [trunkPage, hsize]
    omega
  have hwrite := writePage_ok (p := q₂) pgno hdlen
  set s₃ : PagerState := { q₂.1.written pgno (trunkPage p.1) with
    header := freedHeader q₂.1.header pgno } with hs₃
  have hauto : s₃.autoVacuum = p.1.autoVacuum := by
    change (q₂.1.header.largestRootPage != 0) = _
    rw [hq.header]
    rfl
  have hcount : s₃.effectiveCount = p.1.effectiveCount := hq.effectiveCount
  have hch : Changes p (s₃, q₂.2) {pgno} := by
    have := (hq.changes {pgno}).trans (changes_written hq.failAt _ hdlen)
    exact { this with autoVacuum := hauto }
  have hseen : pageSeen s₃ q₂.2.disk pgno = .ok (trunkPage p.1) :=
    pageSeen_written q₂.1 q₂.2.disk (trunkPage p.1) h0 (by rwa [hq.effectiveCount])
  have hheader : s₃.header = freedHeader p.1.header pgno := by
    rw [← hq.header]
  have hrun : freePage pgno p =
      (if s₃.autoVacuum then ptrmapPut pgno .freePage 0 else pure () : PagerM Unit) (s₃, q₂.2) := by
    rw [freePage, bind_ok hget, bind_ok hjournal]
    simp only [getState_bind]
    rw [hdata, bind_ok hwrite]
    rfl
  rw [hrun]
  split_ifs with hvac
  · have hm := hmapped (hauto.symm.trans hvac)
    obtain ⟨r, hput, hr, hrheader⟩ := ptrmapPut_ok (p := (s₃, q₂.2)) hq.failAt (hch.complete hcomp)
      (by rw [hch.geometry]; exact hm) (by rw [hcount]; exact hle) .freePage 0
    rw [hch.geometry] at hr
    have hne : pgno ≠ mapPage p.1.geometry.usableSize pgno := by
      intro heq
      have := congrArg UInt32.toNat heq
      rw [toNat_mapPage hm] at this
      have := (ptrmapPageno_lt hm).1
      omega
    refine ⟨r, hput, (hch.mono ?_).trans (hr.mono ?_), hrheader.trans hheader, ?_⟩
    · exact fun q hq => .inl hq
    · exact fun q hq => .inr ⟨hauto.symm.trans hvac, hq⟩
    · rw [hr.view pgno hne]
      exact hseen
  · exact ⟨_, rfl, hch.mono fun q hq => .inl hq, hheader, hseen⟩

end Rustqlite.Pager
