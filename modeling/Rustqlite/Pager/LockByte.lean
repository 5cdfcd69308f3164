import Rustqlite.Pager.Replacing

/-!
# The page of the lock byte

Byte `0x40000000` of a file is where locks are taken, and its page holds no data.
The source looks for it in a file with pages of 4096 bytes; with another page
size an allocation returns the page, unless it is skipped as a pointer-map page.
-/

namespace Rustqlite.Pager

open Foundation Format Btree FileM

def pendingByte : Nat := 0x40000000

def pageOfByte (pageSize off : Nat) : Nat := off / pageSize + 1

theorem isPendingBytePage_pageOfByte (ps : PageSize) :
    isPendingBytePage (pageOfByte ps.size pendingByte) = true ↔ ps.size = 4096 := by
  rw [isPendingBytePage, beq_iff_eq, pageOfByte]
  constructor
  · intro h
    obtain ⟨k, hlo, hhi, hpow⟩ := ps.exists_pow
    rw [hpow] at h ⊢
    interval_cases k <;> first | rfl | cases h
  · intro h
    rw [h]
    rfl

theorem pageOfByte_lt (ps : PageSize) : pageOfByte ps.size pendingByte < 2 ^ 32 := by
  have hle : pendingByte / ps.size ≤ pendingByte / 512 := Nat.div_le_div_left ps.le_size (by omega)
  rw [pageOfByte]
  simp only [pendingByte] at hle ⊢
  omega

section Pending

variable {p q : PagerState × World DbFile} {trunks rest : List (UInt32 × List UInt32)}
  {pgno x : UInt32}

def Pending (s : PagerState) (trunks : List (UInt32 × List UInt32)) (x : UInt32) : Prop :=
  x ∈ freePages trunks ∨ (s.pageCount < x ∧ s.reserves x = false)

theorem freelistEmpty_of_nil (h : Freelist p []) : p.1.freelistEmpty := by
  have hchain := h.chain
  simp only [Trunks] at hchain
  simp [PagerState.freelistEmpty, hchain]

def FromListOrEnd (p q : PagerState × World DbFile) (trunks rest : List (UInt32 × List UInt32))
    (pgno : UInt32) : Prop :=
  (freePages trunks).Perm (pgno :: freePages rest) ∧ q.1.pageCount = p.1.pageCount ∨
    trunks = [] ∧ rest = [] ∧ ExtendedTo p.1 q.1 pgno

theorem allocatePage_cases (hp : p.2.failAt = none) (h : Freelist p trunks) :
    (∃ pgno q rest, allocatePage p = .ok pgno q ∧ Allocated p q trunks rest pgno ∧
        FromListOrEnd p q trunks rest pgno) ∨
      trunks = [] ∧ (∃ e q, allocatePage p = .error e q) ∧
        ∀ x, p.1.pageCount < x → p.1.reserves x = true := by
  have hok := allocatePage_ok hp h
  cases trunks with
  | nil =>
      have hspec := allocatePage_spec (freelistEmpty_of_nil h) p.2
      simp only [Prod.mk.eta] at hspec
      cases hrun : allocatePage p with
      | ok pgno q =>
          rw [hrun] at hok hspec
          obtain ⟨rest, halloc⟩ := hok
          have hrest : rest = [] := by
            cases rest with
            | nil => rfl
            | cons t rest => simpa using halloc.rest_subset t.1 (by simp)
          exact .inl ⟨pgno, q, rest, rfl, halloc, .inr ⟨rfl, hrest, hspec.1⟩⟩
      | error e q =>
          rw [hrun] at hspec
          exact .inr ⟨rfl, ⟨e, q, rfl⟩, hspec⟩
  | cons t trunks =>
      obtain ⟨pgno, rest, q, hrun, halloc⟩ := allocateFromFreelist_ok hp h
      have hpos : 0 < p.1.header.freelistCount := by
        rw [UInt32.lt_iff_toNat_lt, h.count]
        simp
      have hlist := halloc.fromList (by simp)
      refine .inl ⟨pgno, q, rest, ?_, halloc, .inl ⟨hlist.2, hlist.1⟩⟩
      simp only [allocatePage, getState_bind, h.chain.1,
        if_pos (show 0 < p.1.header.freelistCount ∧ t.1 ≠ 0 from ⟨hpos, h.chain.2.1⟩), hrun]

theorem pending_allocated (halloc : Allocated p q trunks rest pgno)
    (hcases : FromListOrEnd p q trunks rest pgno) :
    Pending p.1 trunks x ↔ pgno = x ∨ Pending q.1 rest x := by
  have hreserves := reserves_of_grows halloc.grows x
  rcases hcases with ⟨hperm, hcount⟩ | ⟨rfl, rfl, hext⟩
  · rw [Pending, Pending, hperm.mem_iff, List.mem_cons, hcount, hreserves, or_assoc, eq_comm]
  · have habove := UInt32.lt_iff_toNat_lt.mp hext.above
    simp only [Pending, freePages_nil, List.not_mem_nil, false_or, hext.pageCount, hreserves]
    constructor
    · rintro ⟨hlt, hfree⟩
      by_cases hx : pgno = x
      · exact .inl hx
      · refine .inr ⟨?_, hfree⟩
        by_contra hle
        have hskip := hext.skipped x hlt (by
          have hne : pgno.toNat ≠ x.toNat := fun h => hx (UInt32.toNat_inj.mp h)
          rw [UInt32.lt_iff_toNat_lt] at hle ⊢
          omega)
        rw [hfree] at hskip
        cases hskip
    · rintro (rfl | ⟨hlt, hfree⟩)
      · exact ⟨hext.above, hext.free⟩
      · exact ⟨UInt32.lt_trans hext.above hlt, hfree⟩

def Pending.distance (s : PagerState) (trunks : List (UInt32 × List UInt32)) (x : UInt32) : Nat :=
  (freePages trunks).length + (x.toNat - s.pageCount.toNat)

theorem distance_lt (hcases : FromListOrEnd p q trunks rest pgno) (hx : Pending q.1 rest x) :
    Pending.distance q.1 rest x < Pending.distance p.1 trunks x := by
  rw [Pending.distance, Pending.distance]
  rcases hcases with ⟨hperm, hcount⟩ | ⟨rfl, rfl, hext⟩
  · rw [hperm.length_eq, hcount, List.length_cons]
    omega
  · have habove := UInt32.lt_iff_toNat_lt.mp hext.above
    simp only [Pending, freePages_nil, List.not_mem_nil, false_or, hext.pageCount] at hx
    have hlt := UInt32.lt_iff_toNat_lt.mp hx.1
    rw [hext.pageCount]
    omega

theorem exists_allocation_of_pending (hp : p.2.failAt = none) (h : Freelist p trunks)
    (hx : Pending p.1 trunks x) : ∃ n, ∃ a ∈ allocations n p, a.2 = x := by
  induction hd : Pending.distance p.1 trunks x using Nat.strong_induction_on
    generalizing p trunks with
  | _ d ih =>
      rcases allocatePage_cases hp h with ⟨pgno, q, rest, hrun, halloc, hcases⟩ | ⟨rfl, -, hall⟩
      · rcases (pending_allocated halloc hcases).mp hx with rfl | hrest
        · exact ⟨1, (p.1.effectiveCount, pgno), by simp [allocations, hrun], rfl⟩
        · obtain ⟨n, a, hmem, ha⟩ := ih _ (hd ▸ distance_lt hcases hrest) halloc.grows.failAt
            halloc.freelist hrest rfl
          refine ⟨n + 1, a, ?_, ha⟩
          rw [allocations, hrun]
          exact List.mem_cons_of_mem _ hmem
      · rcases hx with hfree | ⟨hlt, hfree⟩
        · simp at hfree
        · rw [hall x hlt] at hfree
          cases hfree

theorem pending_of_mem_allocations (hp : p.2.failAt = none) (h : Freelist p trunks) {n : Nat}
    {a : UInt32 × UInt32} (ha : a ∈ allocations n p) : Pending p.1 trunks a.2 := by
  induction n generalizing p trunks with
  | zero => simp [allocations] at ha
  | succ n ih =>
      rw [allocations] at ha
      rcases allocatePage_cases hp h with
        ⟨pgno, q, rest, hrun, halloc, hcases⟩ | ⟨-, ⟨e, q, hrun⟩, -⟩
      · rw [hrun] at ha
        refine (pending_allocated halloc hcases).mpr ?_
        rcases List.mem_cons.mp ha with rfl | ha
        · exact .inl rfl
        · exact .inr (ih halloc.grows.failAt halloc.freelist ha)
      · rw [hrun] at ha
        cases ha

/--
No run of allocations returns the page of the lock byte exactly when that page is
not free and either is in the file already or is skipped: for the page size that
the source takes for granted, and as a pointer-map page.
-/
theorem allocations_avoid_lockByte_iff (hp : p.2.failAt = none) (h : Freelist p trunks) :
    (∀ n, ∀ a ∈ allocations n p, a.2.toNat ≠ pageOfByte p.1.pageSize pendingByte) ↔
      (∀ y ∈ freePages trunks, y.toNat ≠ pageOfByte p.1.pageSize pendingByte) ∧
        (pageOfByte p.1.pageSize pendingByte ≤ p.1.pageCount.toNat ∨ p.1.pageSize = 4096 ∨
          p.1.autoVacuum = true ∧
            isPtrmapPage p.1.geometry.usableSize (pageOfByte p.1.pageSize pendingByte) = true) := by
  set ps := p.1.geometry.pageSize with hps
  have hsize : p.1.pageSize = ps.size := rfl
  obtain ⟨x, hx⟩ : ∃ x : UInt32, x.toNat = pageOfByte ps.size pendingByte :=
    ⟨UInt32.ofNat (pageOfByte ps.size pendingByte),
      UInt32.toNat_ofNat_of_lt' (pageOfByte_lt ps)⟩
  have hreserves : p.1.reserves x = true ↔ ps.size = 4096 ∨ p.1.autoVacuum = true ∧
      isPtrmapPage p.1.geometry.usableSize (pageOfByte ps.size pendingByte) = true := by
    rw [PagerState.reserves, hx, Bool.or_eq_true, Bool.and_eq_true, isPendingBytePage_pageOfByte]
  have hpending : ¬Pending p.1 trunks x ↔ x ∉ freePages trunks ∧
      (x.toNat ≤ p.1.pageCount.toNat ∨ p.1.reserves x = true) := by
    rw [Pending, not_or, not_and_or, Bool.not_eq_false, UInt32.not_lt, UInt32.le_iff_toNat_le]
  have hfree : x ∉ freePages trunks ↔
      ∀ y ∈ freePages trunks, y.toNat ≠ pageOfByte ps.size pendingByte := by
    rw [← hx]
    constructor
    · intro hnot y hy heq
      exact hnot (UInt32.toNat_inj.mp heq ▸ hy)
    · exact fun hall hmem => hall x hmem rfl
  rw [hsize, ← hfree, ← hreserves, ← hx, ← hpending]
  constructor
  · intro hnone hsome
    obtain ⟨n, a, hmem, rfl⟩ := exists_allocation_of_pending hp h hsome
    exact hnone n a hmem rfl
  · intro hnot n a hmem heq
    exact hnot (UInt32.toNat_inj.mp heq ▸ pending_of_mem_allocations hp h hmem)

end Pending

/-! ## A new database with pages of 512 bytes -/

theorem freelist_freshPager : Freelist freshPager [] where
  chain := by
    simp only [Trunks]
    decide +kernel
  count := by
    simp only [freePages_nil, List.length_nil]
    decide +kernel
  nodup := by simp
  inFile := by simp

theorem allocations_avoid_lockByte_iff_freshPager :
    (∀ n, ∀ a ∈ allocations n freshPager,
        a.2.toNat ≠ pageOfByte freshPager.1.pageSize pendingByte) ↔
      (∀ y ∈ freePages [], y.toNat ≠ pageOfByte freshPager.1.pageSize pendingByte) ∧
        (pageOfByte freshPager.1.pageSize pendingByte ≤ freshPager.1.pageCount.toNat ∨
          freshPager.1.pageSize = 4096 ∨ freshPager.1.autoVacuum = true ∧
            isPtrmapPage freshPager.1.geometry.usableSize
              (pageOfByte freshPager.1.pageSize pendingByte) = true) :=
  allocations_avoid_lockByte_iff (by decide +kernel) freelist_freshPager

/-- As it grows, some allocation returns the page with the lock byte, which is page 2097153. -/
theorem lockByte_page_allocated : ¬ ∀ (p : PagerState × World DbFile)
    (trunks : List (UInt32 × List UInt32)), p.2.failAt = none → Freelist p trunks →
    ∀ n, ∀ a ∈ allocations n p, a.2.toNat ≠ pageOfByte p.1.pageSize pendingByte := by
  intro h
  have hpending : Pending freshPager.1 [] 2097153 :=
    .inr ⟨by decide +kernel, by decide +kernel⟩
  have hfail : freshPager.2.failAt = none := by decide +kernel
  obtain ⟨n, a, hmem, ha⟩ := exists_allocation_of_pending hfail freelist_freshPager hpending
  refine h freshPager [] hfail freelist_freshPager n a hmem ?_
  rw [ha]
  decide +kernel

end Rustqlite.Pager
