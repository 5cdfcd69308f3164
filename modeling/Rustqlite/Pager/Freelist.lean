import Rustqlite.Pager.WalAllocation
import Rustqlite.Pager.Writing

/-!
# The freelist

The free pages of a database form a chain of trunks, each of which names some
more free pages.  An allocation takes one page off the chain, or extends the
file; a freed page becomes the first trunk.
-/

namespace Rustqlite.Pager

open Foundation Format Btree FileM

/-! ## The chain -/

structure Names (size : Nat) (page : Bytes) (leaves : List UInt32) : Prop where
  length : page.length = size
  room : 8 + leaves.length * 4 ≤ size
  count : (readBe32 (page.drop 4)).toNat = leaves.length
  leaf : ∀ i (h : i < leaves.length), readBe32 (page.drop (8 + i * 4)) = leaves[i]

def Trunks (size : Nat) (view : UInt32 → Result Bytes) :
    UInt32 → List (UInt32 × List UInt32) → Prop
  | first, [] => first = 0
  | first, (trunk, leaves) :: rest => first = trunk ∧ trunk ≠ 0 ∧
      ∃ page, view trunk = .ok page ∧ Names size page leaves ∧
        Trunks size view (readBe32 page) rest

def freePages (trunks : List (UInt32 × List UInt32)) : List UInt32 :=
  trunks.flatMap fun t => t.1 :: t.2

@[simp] theorem freePages_nil : freePages [] = [] := rfl

@[simp] theorem freePages_cons (t : UInt32 × List UInt32) (trunks : List (UInt32 × List UInt32)) :
    freePages (t :: trunks) = t.1 :: (t.2 ++ freePages trunks) := by
  simp [freePages]

variable {size : Nat} {trunks rest : List (UInt32 × List UInt32)} {p q : PagerState × World DbFile}
  {S : Set UInt32} {s : PagerState} {w : World DbFile} {page : Bytes} {leaves : List UInt32}
  {leaf pgno trunk : UInt32}

theorem Trunks.congr {view view' : UInt32 → Result Bytes} {first : UInt32}
    (h : Trunks size view first trunks) (hsame : ∀ q ∈ freePages trunks, view' q = view q) :
    Trunks size view' first trunks := by
  induction trunks generalizing first with
  | nil => exact h
  | cons t trunks ih =>
      obtain ⟨trunk, leaves⟩ := t
      obtain ⟨rfl, hne, page, hpage, hnames, hrest⟩ := h
      refine ⟨rfl, hne, page, (hsame _ (by simp)).trans hpage, hnames,
        ih hrest fun q hq => hsame q ?_⟩
      rw [freePages_cons]
      exact List.mem_cons_of_mem _ (List.mem_append_right _ hq)

structure Freelist (p : PagerState × World DbFile) (trunks : List (UInt32 × List UInt32)) :
    Prop where
  chain : Trunks p.1.pageSize (pageSeen p.1 p.2.disk) p.1.header.firstFreelistTrunk trunks
  count : p.1.header.freelistCount.toNat = (freePages trunks).length
  nodup : (freePages trunks).Nodup
  inFile : ∀ q ∈ freePages trunks, q ≠ 0 ∧ q ≤ p.1.pageCount

structure Grows (p q : PagerState × World DbFile) (S : Set UInt32) : Prop where
  geometry : q.1.geometry = p.1.geometry
  wal : q.1.wal = p.1.wal
  autoVacuum : q.1.autoVacuum = p.1.autoVacuum
  failAt : q.2.failAt = none
  pageCount : p.1.pageCount ≤ q.1.pageCount
  view : ∀ x ∉ S, x ≠ 0 → x ≤ p.1.pageCount →
    pageSeen q.1 q.2.disk x = pageSeen p.1 p.2.disk x

namespace Grows

variable {p q r : PagerState × World DbFile} {S T : Set UInt32}

theorem refl (h : p.2.failAt = none) : Grows p p S :=
  ⟨rfl, rfl, rfl, h, UInt32.le_refl _, fun _ _ _ _ => rfl⟩

theorem mono (h : Grows p q S) (hST : S ⊆ T) : Grows p q T :=
  { h with view := fun x hx => h.view x fun hS => hx (hST hS) }

theorem trans (h : Grows p q S) (h' : Grows q r S) : Grows p r S where
  geometry := h'.geometry.trans h.geometry
  wal := h'.wal.trans h.wal
  autoVacuum := h'.autoVacuum.trans h.autoVacuum
  failAt := h'.failAt
  pageCount := UInt32.le_trans h.pageCount h'.pageCount
  view x hx h0 hle :=
    (h'.view x hx h0 (UInt32.le_trans hle h.pageCount)).trans (h.view x hx h0 hle)

theorem pageSize (h : Grows p q S) : q.1.pageSize = p.1.pageSize := by
  rw [PagerState.pageSize, PagerState.pageSize, h.geometry]

end Grows

theorem Changes.grows (h : Changes p q S) :
    Grows p q S where
  geometry := h.geometry
  wal := h.wal
  autoVacuum := h.autoVacuum
  failAt := h.failAt
  pageCount := by rw [h.pageCount]; exact UInt32.le_refl _
  view x hx _ _ := h.view x hx

theorem Freelist.changes (h : Freelist p trunks) (hq : Changes p q S)
    (hheader : q.1.header = p.1.header) (hS : ∀ x ∈ freePages trunks, x ∉ S) :
    Freelist q trunks where
  chain := by
    rw [hheader, PagerState.pageSize, hq.geometry]
    exact h.chain.congr fun x hx => hq.view x (hS x hx)
  count := by rw [hheader]; exact h.count
  nodup := h.nodup
  inFile x hx := by
    rw [hq.pageCount]
    exact h.inFile x hx

theorem effectiveCount_ge (s : PagerState) : s.pageCount ≤ s.effectiveCount := by
  rw [UInt32.le_iff_toNat_le, toNat_effectiveCount]
  exact Nat.le_max_right _ _

/-- No list of different page numbers is longer than `2 ^ 32`. -/
theorem length_le_of_nodup {chain : List UInt32} (h : chain.Nodup) : chain.length ≤ 2 ^ 32 := by
  have hnodup : (chain.map UInt32.toNat).Nodup :=
    h.map fun _ _ => UInt32.toNat_inj.mp
  have hsub : chain.map UInt32.toNat ⊆ List.range (2 ^ 32) := by
    intro n hn
    obtain ⟨x, -, rfl⟩ := List.mem_map.mp hn
    exact List.mem_range.mpr x.toNat_lt
  have hle := (List.subperm_of_subset hnodup hsub).length_le
  rwa [List.length_map, List.length_range] at hle

/-! ## At the end of the file -/

theorem length_zeroPage (g : Geometry) : (zeroPage g).length = g.pageSize.size := by
  simp [zeroPage]

section

variable (h : (s.pageCount + 1).toNat = s.pageCount.toNat + 1)

include h

theorem effectiveCount_extended (x : UInt32) :
    x ≤ s.extended.effectiveCount ↔ x ≤ s.effectiveCount ∨ x = s.pageCount + 1 := by
  have hlog : s.extended.logCount = s.logCount := rfl
  have hcount : s.extended.pageCount = s.pageCount + 1 := rfl
  rw [UInt32.le_iff_toNat_le, UInt32.le_iff_toNat_le, toNat_effectiveCount, toNat_effectiveCount,
    hlog, hcount, h, ← UInt32.toNat_inj, h]
  omega

theorem pageSeen_extended (disk : Disk DbFile) :
    pageSeen s.extended disk (s.pageCount + 1) = .ok (zeroPage s.geometry) := by
  have hin : ¬ (s.pageCount + 1 = 0 ∨ s.extended.effectiveCount < s.pageCount + 1) := by
    rintro (h0 | hlt)
    · rw [← UInt32.toNat_inj, h] at h0
      cases h0
    · exact UInt32.not_lt.mpr ((effectiveCount_extended h _).mpr (.inr rfl)) hlt
  have hres : s.extended.resident (s.pageCount + 1) = some (zeroPage s.geometry) := by
    simp [PagerState.resident, PagerState.extended]
  simp only [pageSeen, if_neg hin, hres]

theorem pageSeen_extended_of_le (disk : Disk DbFile) {x : UInt32} (h0 : x ≠ 0)
    (hle : x ≤ s.effectiveCount) (hne : x ≠ s.pageCount + 1) :
    pageSeen s.extended disk x = pageSeen s disk x := by
  have hle' := (effectiveCount_extended h x).mpr (.inl hle)
  have hres : s.extended.resident x = s.resident x := by
    simp [PagerState.resident, PagerState.extended, AList.lookup_insert_ne hne]
  have hstored : storedPage s.extended disk x = storedPage s disk x :=
    storedPage_congr rfl rfl rfl rfl x
  rw [pageSeen, pageSeen, hres, hstored, if_neg (by simp [h0, UInt32.not_lt.mpr hle']),
    if_neg (by simp [h0, UInt32.not_lt.mpr hle])]

end

theorem grows_extended (hw : w.failAt = none)
    (h : (s.pageCount + 1).toNat = s.pageCount.toNat + 1) :
    Grows (s, w) (s.extended, w) ∅ where
  geometry := rfl
  wal := rfl
  autoVacuum := rfl
  failAt := hw
  pageCount := by
    change s.pageCount ≤ s.pageCount + 1
    rw [UInt32.le_iff_toNat_le, h]
    omega
  view x _ h0 hle := by
    refine pageSeen_extended_of_le h w.disk h0 (UInt32.le_trans hle (effectiveCount_ge s)) ?_
    rintro rfl
    change s.pageCount + 1 ≤ s.pageCount at hle
    rw [UInt32.le_iff_toNat_le, h] at hle
    omega

theorem complete_extended (h : (s.pageCount + 1).toNat = s.pageCount.toNat + 1)
    (hcomp : Complete (s, w)) : Complete (s.extended, w) := by
  intro x h0 hle
  by_cases hx : x = s.pageCount + 1
  · subst hx
    exact ⟨_, pageSeen_extended h w.disk, length_zeroPage _⟩
  · have hle' : x ≤ s.effectiveCount := by
      rcases (effectiveCount_extended h x).mp hle with hle | heq
      · exact hle
      · exact absurd heq hx
    rw [pageSeen_extended_of_le h w.disk h0 hle' hx]
    exact hcomp x h0 hle'

def Exhausted (e : Error) (q : PagerState × World DbFile) : Prop :=
  e.code = .panic ∧ q.1.pageCount.toNat = 2 ^ 32 - 1

structure GrownTo (p q : PagerState × World DbFile) (pgno : UInt32) : Prop where
  grows : Grows p q ∅
  header : q.1.header = p.1.header
  pageCount : q.1.pageCount = pgno
  above : p.1.pageCount < pgno
  page : pageSeen q.1 q.2.disk pgno = .ok (zeroPage p.1.geometry)
  complete : Complete p → Complete q

theorem extendFile_grownTo (left : Nat) (s : PagerState) (hw : w.failAt = none)
    (hleft : left + s.pageCount.toNat = 2 ^ 32 - 1) :
    match extendFile s.geometry left (s, w) with
    | .ok pgno q => GrownTo (s, w) q pgno
    | .error e q => Exhausted e q := by
  induction left generalizing s with
  | zero =>
      rw [Nat.zero_add] at hleft
      exact ⟨rfl, hleft⟩
  | succ left ih =>
      have hnext := toNat_succ_pageCount hleft
      have hlt : s.pageCount < s.pageCount + 1 := by
        rw [UInt32.lt_iff_toNat_lt, hnext]
        omega
      have hone := grows_extended hw hnext
      rw [extendFile_succ]
      split_ifs
      · have hrest := ih s.extended (by simp only [PagerState.extended, hnext]; omega)
        change match extendFile s.extended.geometry left (s.extended, w) with
          | .ok pgno q => GrownTo (s, w) q pgno
          | .error e q => Exhausted e q
        split at hrest
        · exact ⟨hone.trans hrest.grows, hrest.header, hrest.pageCount,
            UInt32.lt_trans hlt hrest.above, hrest.page,
            fun hcomp => hrest.complete (complete_extended hnext hcomp)⟩
        · exact hrest
      · exact ⟨hone, rfl, rfl, hlt, pageSeen_extended hnext w.disk, complete_extended hnext⟩

/-! ## From the list -/

theorem readBe32_splice {data : Bytes} {off i : Nat} (h : off + data.length ≤ page.length)
    (hi : i + 4 ≤ off ∨ off + data.length ≤ i) :
    readBe32 ((splice page off data).drop i) = readBe32 (page.drop i) := by
  change UInt32.ofNat (beNat (slice _ i 4)) = UInt32.ofNat (beNat (slice _ i 4))
  rw [slice_splice_of_disjoint (by omega) hi]

theorem Names.pop (h : Names size page (leaves ++ [leaf])) :
    readBe32 (page.drop (4 + (leaves.length + 1) * 4)) = leaf ∧
      Names size (splice page 4 (be32 (UInt32.ofNat leaves.length))) leaves ∧
      readBe32 (splice page 4 (be32 (UInt32.ofNat leaves.length))) = readBe32 page := by
  have hroom := h.room
  have hlen := h.length
  simp only [List.length_append, List.length_singleton] at hroom
  have hfits : 4 + (be32 (UInt32.ofNat leaves.length)).length ≤ page.length := by
    rw [length_be32]
    omega
  have hcount := h.count
  simp only [List.length_append, List.length_singleton] at hcount
  have hbound := (readBe32 (page.drop 4)).toNat_lt
  refine ⟨?_, ⟨?_, by omega, ?_, fun i hi => ?_⟩, ?_⟩
  · have := h.leaf leaves.length (by simp)
    rw [List.getElem_concat_length] at this
    · rw [← this]
      congr 2
      omega
    · rfl
  · rw [length_splice hfits, hlen]
  · have hdrop : (splice page 4 (be32 (UInt32.ofNat leaves.length))).drop 4 =
        be32 (UInt32.ofNat leaves.length) ++ page.drop 8 := by
      rw [splice, List.append_assoc, List.drop_append_of_le_length (by simp; omega)]
      simp
    rw [hdrop, readBe32_be32_append, UInt32.toNat_ofNat']
    omega
  · rw [readBe32_splice hfits (.inr (by rw [length_be32]; omega)), h.leaf i (by simp; omega),
      List.getElem_append_left hi]
  · exact readBe32_splice (i := 0) hfits (.inl (by omega))

structure Allocated (p q : PagerState × World DbFile) (trunks rest : List (UInt32 × List UInt32))
    (pgno : UInt32) : Prop where
  grows : Grows p q { x | x ∈ freePages trunks }
  freelist : Freelist q rest
  rest_subset : ∀ x ∈ freePages rest, x ∈ freePages trunks
  not_free : pgno ∉ freePages rest
  source : pgno ∈ freePages trunks ∨ p.1.pageCount < pgno
  ne_zero : pgno ≠ 0
  le : pgno ≤ q.1.pageCount
  complete : Complete p → Complete q
  leafless : (∀ t ∈ trunks, t.2 = []) → ∀ t ∈ rest, t.2 = []
  /-- The file does not grow as long as there are free pages. -/
  fromList : trunks ≠ [] → q.1.pageCount = p.1.pageCount ∧
    (freePages trunks).Perm (pgno :: freePages rest)

theorem tryResult_ok {α : Type} {m : PagerM α} {a : α} (h : m p = .ok a q) :
    tryResult m p = .ok (.ok a) q := by
  rw [tryResult, h]

theorem toNat_sub_one {n : UInt32} {k : Nat} (h : n.toNat = k + 1) : (n - 1).toNat = k := by
  rw [UInt32.toNat_sub_of_le, h]
  · rfl
  · rw [UInt32.le_iff_toNat_le, h]
    exact Nat.le_add_left 1 k

/-- Taking `pgno` off the list: the pages `S` were rewritten, and the header is `h`. -/
theorem changes_taken (hq : Changes p q S) {h : DbHeader}
    (hroot : h.largestRootPage = q.1.header.largestRootPage) (pgno : UInt32) (hS : pgno ∈ S) :
    Changes p ({ q.1 with header := h }.written pgno (zeroPage p.1.geometry), q.2) S := by
  have hheader : Changes q ({ q.1 with header := h }, q.2) S :=
    { Changes.refl hq.failAt with
      autoVacuum := by simp only [PagerState.autoVacuum, hroot] }
  have hlen : (zeroPage p.1.geometry).length = PagerState.pageSize { q.1 with header := h } := by
    rw [length_zeroPage, ← hq.geometry]
    rfl
  have hwritten := changes_written (p := ({ q.1 with header := h }, q.2)) hq.failAt pgno
    hlen
  exact (hq.trans hheader).trans (hwritten.mono (by simpa using hS))

theorem Freelist.allocated (h : Freelist p trunks) (hq : Changes p q S)
    (hS : ∀ x ∈ S, x ∈ freePages trunks) (hperm : (freePages trunks).Perm (pgno :: freePages rest))
    (hchain : Trunks p.1.pageSize (pageSeen q.1 q.2.disk) q.1.header.firstFreelistTrunk rest)
    (hcount : q.1.header.freelistCount = p.1.header.freelistCount - 1)
    (hleafless : (∀ t ∈ trunks, t.2 = []) → ∀ t ∈ rest, t.2 = []) :
    Allocated p q trunks rest pgno := by
  have hnodup := hperm.nodup_iff.mp h.nodup
  have hmem : ∀ x, x ∈ freePages trunks ↔ x = pgno ∨ x ∈ freePages rest := by
    intro x
    rw [hperm.mem_iff, List.mem_cons]
  have hpgno := h.inFile pgno ((hmem pgno).mpr (.inl rfl))
  have hsize : q.1.pageSize = p.1.pageSize := by
    rw [PagerState.pageSize, PagerState.pageSize, hq.geometry]
  constructor
  · exact (hq.mono hS).grows
  · constructor
    · rw [hsize]
      exact hchain
    · rw [hcount]
      apply toNat_sub_one
      rw [h.count, hperm.length_eq, List.length_cons]
    · exact (List.nodup_cons.mp hnodup).2
    · intro x hx
      rw [hq.pageCount]
      exact h.inFile x ((hmem x).mpr (.inr hx))
  · exact fun x hx => (hmem x).mpr (.inr hx)
  · exact (List.nodup_cons.mp hnodup).1
  · exact .inl ((hmem pgno).mpr (.inl rfl))
  · exact hpgno.1
  · rw [hq.pageCount]
    exact hpgno.2
  · exact hq.complete
  · exact hleafless
  · exact fun _ => ⟨hq.pageCount, hperm⟩

theorem takeFree_trunk (h : Freelist p ((trunk, []) :: rest)) (hq : Quiet p q)
    (hnames : Names p.1.pageSize page [])
    (hrest : Trunks p.1.pageSize (pageSeen p.1 p.2.disk) (readBe32 page) rest) :
    ∃ pgno r, takeFree trunk page q = .ok pgno r ∧
      Allocated p (r.1.written pgno (zeroPage p.1.geometry), r.2) ((trunk, []) :: rest) rest
        pgno := by
  have hk : readBe32 (page.drop 4) = 0 := UInt32.toNat_inj.mp hnames.count
  refine ⟨trunk, _, by simp only [takeFree, hk, if_true]; rfl, ?_⟩
  have hch := changes_taken (hq.changes {trunk}) (h := { q.1.header with
    firstFreelistTrunk := readBe32 page, freelistCount := q.1.header.freelistCount - 1 })
    rfl trunk rfl
  refine h.allocated hch (by simp) (by simp) ?_ ?_ fun hall t ht => hall t (by simp [ht])
  · refine hrest.congr fun x hx => hch.view x ?_
    have := h.nodup
    rw [freePages_cons, List.nodup_cons] at this
    rintro rfl
    exact this.1 (List.mem_append_right _ hx)
  · change q.1.header.freelistCount - 1 = _
    rw [hq.header]

theorem takeFree_leaf (h : Freelist p ((trunk, leaves ++ [leaf]) :: rest)) (hq : Quiet p q)
    (hnames : Names p.1.pageSize page (leaves ++ [leaf]))
    (hrest : Trunks p.1.pageSize (pageSeen p.1 p.2.disk) (readBe32 page) rest) :
    ∃ pgno r, takeFree trunk page q = .ok pgno r ∧
      Allocated p (r.1.written pgno (zeroPage p.1.geometry), r.2)
        ((trunk, leaves ++ [leaf]) :: rest) ((trunk, leaves) :: rest) pgno := by
  obtain ⟨hleaf, hpop, hnext⟩ := hnames.pop
  have hcount := hnames.count
  rw [List.length_append, List.length_singleton] at hcount
  have hnodup := h.nodup
  rw [freePages_cons, List.nodup_cons] at hnodup
  have hne : leaf ≠ trunk := by
    rintro rfl
    exact hnodup.1 (by simp)
  have hk0 : readBe32 (page.drop 4) ≠ 0 := by
    intro h0
    rw [h0] at hcount
    exact absurd hcount (by simp)
  have hk : readBe32 (page.drop 4) - 1 = UInt32.ofNat leaves.length := by
    rw [← UInt32.toNat_inj, toNat_sub_one hcount, UInt32.toNat_ofNat']
    have := (readBe32 (page.drop 4)).toNat_lt
    omega
  have hroom := hnames.room
  have hlen := hnames.length
  simp only [List.length_append, List.length_singleton] at hroom
  set popped := splice page 4 (be32 (UInt32.ofNat leaves.length)) with hpopped
  have hsize : popped.length = q.1.pageSize := by
    rw [hpop.length, PagerState.pageSize, PagerState.pageSize, hq.geometry]
  have hwrite := writePage_ok (p := q) trunk hsize
  have hrun : takeFree trunk page q = .ok leaf
      ({ q.1.written trunk popped with
        header := { q.1.header with freelistCount := q.1.header.freelistCount - 1 } }, q.2) := by
    have hin : ¬ page.length < 4 + (leaves.length + 1) * 4 + 4 := by omega
    simp only [takeFree, if_neg hk0, takeLeaf, hcount, if_neg hin, hleaf, hk, ← hpopped,
      bind_ok (tryResult_ok hwrite), if_neg hne]
    rfl
  refine ⟨leaf, _, hrun, ?_⟩
  have hwritten : Changes p (q.1.written trunk popped, q.2) {trunk, leaf} :=
    (hq.changes _).trans ((changes_written hq.failAt _ hsize).mono (by simp))
  have hch := changes_taken hwritten (h := { q.1.header with
    freelistCount := q.1.header.freelistCount - 1 }) rfl leaf (by simp)
  refine h.allocated hch (by simp) ?_ ?_ ?_ ?_
  · simp only [freePages_cons, List.append_assoc, List.singleton_append]
    exact (List.perm_middle.cons trunk).trans (.swap ..)
  · have htrunk := h.inFile trunk (by simp)
    refine ⟨?_, htrunk.1, popped, ?_, hpop, ?_⟩
    · change q.1.header.firstFreelistTrunk = trunk
      rw [hq.header]
      exact h.chain.1
    · refine (pageSeen_written_of_ne _ _ _ hne.symm).trans ?_
      refine pageSeen_written q.1 q.2.disk popped htrunk.1 ?_
      rw [hq.effectiveCount]
      exact UInt32.le_trans htrunk.2 (effectiveCount_ge p.1)
    · rw [hnext]
      refine hrest.congr fun x hx => hch.view x ?_
      have hmid := (List.nodup_append.mp hnodup.2).2.2
      rintro (rfl | rfl)
      · exact hnodup.1 (List.mem_append_right _ hx)
      · exact hmid x (by simp) x hx rfl
  · change q.1.header.freelistCount - 1 = _
    rw [hq.header]
  · intro hall
    have := hall (trunk, leaves ++ [leaf]) List.mem_cons_self
    simp at this

theorem allocateFromFreelist_ok (hp : p.2.failAt = none) {t : UInt32 × List UInt32}
    (h : Freelist p (t :: trunks)) :
    ∃ pgno rest q, allocateFromFreelist t.1 p = .ok pgno q ∧
      Allocated p q (t :: trunks) rest pgno := by
  obtain ⟨trunk, leaves⟩ := t
  obtain ⟨-, -, page, hpage, hnames, hrest⟩ := h.chain
  obtain ⟨q, hget, hq⟩ := getPage_ok hp hpage
  have hrun : ∀ {pgno r}, takeFree trunk page q = .ok pgno r →
      allocateFromFreelist trunk p =
        .ok pgno (r.1.written pgno (zeroPage p.1.geometry), r.2) := by
    intro pgno r htake
    simp only [allocateFromFreelist, getState_bind, bind_ok (tryResult_ok hget)]
    change (takeFree trunk page >>= _) q = _
    rw [bind_ok htake]
    rfl
  rcases List.eq_nil_or_concat leaves with rfl | ⟨init, leaf, rfl⟩
  · obtain ⟨pgno, r, htake, halloc⟩ := takeFree_trunk h hq hnames hrest
    exact ⟨pgno, _, _, hrun htake, halloc⟩
  · rw [List.concat_eq_append] at h hnames ⊢
    obtain ⟨pgno, r, htake, halloc⟩ := takeFree_leaf h hq hnames hrest
    exact ⟨pgno, _, _, hrun htake, halloc⟩

theorem GrownTo.allocated (h : GrownTo p q pgno) (hfree : Freelist p []) :
    Allocated p q [] [] pgno where
  grows := h.grows.mono (by simp)
  freelist := {
    chain := by rw [h.header]; exact hfree.chain
    count := by rw [h.header]; exact hfree.count
    nodup := List.nodup_nil
    inFile := by simp }
  rest_subset := by simp
  not_free := by simp
  source := .inr h.above
  ne_zero := by
    rintro rfl
    exact UInt32.not_lt_zero h.above
  le := by rw [h.pageCount]; exact UInt32.le_refl _
  complete := h.complete
  leafless := by simp
  fromList := by simp

theorem allocatePage_ok (hp : p.2.failAt = none) (h : Freelist p trunks) :
    match allocatePage p with
    | .ok pgno q => ∃ rest, Allocated p q trunks rest pgno
    | .error e q => Exhausted e q := by
  cases trunks with
  | nil =>
      have hempty : ¬ (0 < p.1.header.freelistCount ∧ p.1.header.firstFreelistTrunk ≠ 0) := by
        have := h.chain
        simp only [Trunks] at this
        simp [this]
      have hspec := extendFile_grownTo (2 ^ 32 - 1 - p.1.pageCount.toNat) p.1 hp (by
        have := p.1.pageCount.toNat_lt
        omega)
      simp only [allocatePage, getState_bind, if_neg hempty]
      split at hspec
      · rename_i pgno q hrun
        simp only [hrun]
        exact ⟨[], hspec.allocated h⟩
      · rename_i e q hrun
        simp only [hrun]
        exact hspec
  | cons t trunks =>
      have hpos : 0 < p.1.header.freelistCount := by
        rw [UInt32.lt_iff_toNat_lt, h.count]
        simp
      have hsome : 0 < p.1.header.freelistCount ∧ t.1 ≠ 0 := ⟨hpos, h.chain.2.1⟩
      obtain ⟨pgno, rest, q, hrun, halloc⟩ := allocateFromFreelist_ok hp h
      simp only [allocatePage, getState_bind, h.chain.1, if_pos hsome, hrun]
      exact ⟨rest, halloc⟩

end Rustqlite.Pager
