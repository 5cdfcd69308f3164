import Rustqlite.Btree.IndexCursor
import Rustqlite.Btree.TableWalk
import Rustqlite.Pager.Freeing

/-!
# Deleting during a scan

A deletion changes one leaf and gives the overflow pages of one cell to the
freelist.  The cursor that asked for it stays on its way: behind it are the rows
that were kept, ahead of it the rows that it has not seen.
-/

namespace Rustqlite.Btree

open Foundation Format Pager FileM

/-! ## The table without a row -/

def without (stored : UInt32 → List StoredRow) (l : UInt32) (i : Nat) :
    UInt32 → List StoredRow :=
  Function.update stored l ((stored l).eraseIdx i)

variable {l x pgno : UInt32} {i fuel n : Nat} {page : Bytes} {hdr : PageHeader}
  {before rest chain inner leaves : List UInt32} {p : PagerState × World DbFile}
  {view : UInt32 → Result Bytes} {rs : List StoredRow} {stack : List Frame} {c : TableCursor}

section Without

variable {usable : Nat} {view view' : UInt32 → Result Bytes} {root : UInt32} {depth : Nat}
  {inner leaves : List UInt32} {stored : UInt32 → List StoredRow}

theorem flatMap_sublist {α β : Type} {f g : α → List β} {l : List α}
    (h : ∀ a ∈ l, List.Sublist (f a) (g a)) : List.Sublist (l.flatMap f) (l.flatMap g) := by
  induction l with
  | nil => simp
  | cons a l ih =>
      rw [List.flatMap_cons, List.flatMap_cons]
      exact (h a (by simp)).append (ih fun b hb => h b (by simp [hb]))

theorem owned_without (l : UInt32) (i : Nat) :
    List.Sublist (owned leaves (without stored l i)) (owned leaves stored) := by
  refine (List.Sublist.refl leaves).append (flatMap_sublist fun x _ => ?_)
  by_cases hx : x = l
  · subst hx
    rw [without, Function.update_self, chains, chains, List.flatMap_def, List.flatMap_def]
    exact ((List.eraseIdx_sublist _ i).map _).flatten
  · rw [without, Function.update_of_ne hx]

/-- No page of another leaf is a page of `l`. -/
theorem owned_apart (h : (owned leaves stored).Nodup) (hl : l ∈ leaves) (hx : x ∈ leaves)
    (hne : x ≠ l) {q : UInt32} (hq : q = x ∨ q ∈ chains (stored x)) :
    q ≠ l ∧ q ∉ chains (stored l) := by
  obtain ⟨-, hchains, hdisj⟩ := List.nodup_append.mp h
  have hmem : ∀ y ∈ leaves, ∀ r ∈ chains (stored y), r ∈ leaves.flatMap fun l =>
      chains (stored l) :=
    fun y hy r hr => List.mem_flatMap.mpr ⟨y, hy, hr⟩
  rcases hq with rfl | hq
  · exact ⟨hne, fun hin => hdisj q hx q (hmem l hl q hin) rfl⟩
  · refine ⟨fun heq => hdisj l hl q (hmem x hx q hq) heq.symm, fun hin => ?_⟩
    have hpair := (List.nodup_flatMap.mp hchains).2
    have hsymm : Std.Symm (Function.onFun List.Disjoint fun l => chains (stored l)) :=
      ⟨fun _ _ hd => hd.symm⟩
    exact hpair.forall hx hl hne hq hin

theorem TableHolds.delete (h : TableHolds usable view root depth inner leaves stored)
    (hl : l ∈ leaves) (hi : i < (stored l).length)
    (hsame : ∀ q ∈ inner ++ owned leaves stored, q ≠ l → q ∉ (stored l)[i].chain →
      view' q = view q) (hleaf : LeafAt usable view' l ((stored l).eraseIdx i) page hdr) :
    TableHolds usable view' root depth inner leaves (without stored l i) := by
  have hchain : ∀ q, q ∉ chains (stored l) → q ∉ (stored l)[i].chain := by
    intro q hq hin
    exact hq (List.mem_flatMap.mpr ⟨_, List.getElem_mem hi, hin⟩)
  have hown : ∀ q, q ∈ leaves ∨ (∃ x ∈ leaves, q ∈ chains (stored x)) →
      q ∈ inner ++ owned leaves stored := by
    intro q hq
    simp only [owned, List.mem_append, List.mem_flatMap]
    exact .inr hq
  have hleaves : ∀ x ∈ leaves, ∃ page hdr, LeafAt usable view' x (without stored l i x) page
      hdr := by
    intro x hx
    by_cases hne : x = l
    · subst hne
      exact ⟨page, hdr, by rwa [without, Function.update_self]⟩
    · obtain ⟨page', hdr', hx'⟩ := h.leaf x hx
      refine ⟨page', hdr', ?_⟩
      rw [without, Function.update_of_ne hne]
      refine hx'.congr ?_ fun q hq => ?_
      · obtain ⟨hxl, hxc⟩ := owned_apart h.distinct hl hx hne (.inl rfl)
        exact hsame x (hown x (.inl hx)) hxl (hchain x hxc)
      · obtain ⟨hql, hqc⟩ := owned_apart h.distinct hl hx hne (.inr hq)
        exact hsame q (hown q (.inr ⟨x, hx, hq⟩)) hql (hchain q hqc)
  refine ⟨h.spine.congr (fun q hq => ?_) fun x hx => ?_, hleaves,
    h.distinct.sublist (owned_without l i), fun q hq hin => ?_⟩
  · have hout := h.apart q hq
    simp only [owned, List.mem_append, not_or] at hout
    refine hsame q (by simp [hq]) (fun heq => hout.1 (heq ▸ hl)) fun hin => ?_
    exact hout.2 (List.mem_flatMap.mpr ⟨l, hl, List.mem_flatMap.mpr ⟨_, List.getElem_mem hi, hin⟩⟩)
  · obtain ⟨page', hdr', hx'⟩ := hleaves x hx
    exact ⟨page', hdr', hx'.shown, hx'.parse, hx'.pageType⟩
  · exact h.apart q hq ((owned_without l i).subset hin)

theorem rowsOf_without (hnodup : (before ++ l :: rest).Nodup) (i : Nat) :
    rowsOf before (without stored l i) = rowsOf before stored ∧
      rowsOf rest (without stored l i) = rowsOf rest stored := by
  have hsame : ∀ ls : List UInt32, l ∉ ls → rowsOf ls (without stored l i) = rowsOf ls stored := by
    intro ls hls
    refine List.flatMap_congr fun x hx => ?_
    have hne : x ≠ l := by
      rintro rfl
      exact hls hx
    rw [without, Function.update_of_ne hne]
  obtain ⟨-, hcons, hdisj⟩ := List.nodup_append.mp hnodup
  exact ⟨hsame before fun hin => hdisj l hin l (by simp) rfl,
    hsame rest (List.nodup_cons.mp hcons).1⟩

end Without

/-! ## Overflow chains -/

theorem freeOverflowChain_ok (hp : p.2.failAt = none) (hcomp : Complete p) {first : UInt32}
    (h : Linked (pageSeen p.1 p.2.disk) first chain) (hnodup : chain.Nodup) (hone : 1 ∉ chain)
    (hres : p.1.autoVacuum = true → ∀ q ∈ chain,
      isReservedPage p.1.geometry.usableSize q.toNat = false) (hfuel : chain.length < fuel) :
    ∃ q, freeOverflowChain fuel first p = .ok () q ∧ Changes p q (touched p.1 chain) ∧
      q.1.header.textEncoding = p.1.header.textEncoding := by
  induction chain generalizing p first fuel with
  | nil =>
      obtain ⟨fuel, rfl⟩ : ∃ n, fuel = n + 1 := ⟨fuel - 1, by omega⟩
      obtain rfl : first = 0 := h
      exact ⟨p, rfl, Changes.refl hp, rfl⟩
  | cons pgno chain ih =>
      obtain ⟨fuel, rfl⟩ : ∃ n, fuel = n + 1 := ⟨fuel - 1, by omega⟩
      obtain ⟨rfl, h0, page, hpage, hrest⟩ := h
      obtain ⟨hnotin, hnodup'⟩ := List.nodup_cons.mp hnodup
      have hrange := inRange_of_seen hpage
      have hmapped : p.1.autoVacuum = true → Mapped p.1.geometry.usableSize first := fun hvac =>
        mapped_of_unreserved h0 (fun heq => hone (by simp [heq])) (hres hvac first (by simp))
      obtain ⟨page', hpage', hlen⟩ := hcomp first hrange.1 hrange.2
      cases hpage.symm.trans hpage'
      have hbig : 512 ≤ p.1.pageSize := p.1.geometry.pageSize.le_size
      obtain ⟨q₁, hget, h₁⟩ := getPage_ok hp hpage
      have hch₁ := h₁.changes (touched p.1 (first :: chain))
      obtain ⟨q₂, hfree, h₂, hheader, -⟩ := freePage_ok h₁.failAt (hch₁.complete hcomp) hrange.1
        (by rw [h₁.effectiveCount]; exact hrange.2)
        (fun hvac => by rw [h₁.geometry]; exact hmapped (hch₁.autoVacuum ▸ hvac))
      have hch₂ : Changes q₁ q₂ (touched p.1 (first :: chain)) := by
        refine h₂.mono ?_
        rw [← touched_eq hch₁]
        refine freeTouches_subset (by simp) fun hvac => ?_
        rw [h₁.geometry]
        exact hmapped (hch₁.autoVacuum ▸ hvac)
      have hch := hch₁.trans hch₂
      have hrest' : Linked (pageSeen q₂.1 q₂.2.disk) (readBe32 page) chain := by
        refine hrest.congr fun x hx => ?_
        rw [h₂.view, h₁.view]
        rintro (rfl | ⟨hvac, rfl⟩)
        · exact hnotin hx
        · have hvac' : p.1.autoVacuum = true := hch₁.autoVacuum ▸ hvac
          have hmap := isReservedPage_mapPage p.1.geometry.le_usable (hmapped hvac')
          rw [h₁.geometry] at hx
          rw [hres hvac' _ (by simp [hx])] at hmap
          cases hmap
      have hencoding : q₂.1.header.textEncoding = p.1.header.textEncoding := by
        rw [hheader, ← h₁.header]
        rfl
      obtain ⟨q, hrun, hq, hq'⟩ := ih hch.failAt (hch.complete hcomp) hrest' hnodup'
        (fun hin => hone (by simp [hin]))
        (fun hvac x hx => by
          rw [hch.geometry]
          exact hres (hch.autoVacuum ▸ hvac) x (by simp [hx]))
        (by simpa using hfuel)
      rw [touched_eq hch] at hq
      refine ⟨q, ?_, hch.trans (hq.mono fun x hx => ?_), hq'.trans hencoding⟩
      · rw [freeOverflowChain, if_neg h0, bind_ok hget, pointerAt_zero (by omega)]
        change (freePage first >>= fun _ => freeOverflowChain fuel (readBe32 page)) q₁ = _
        rw [bind_ok hfree, hrun]
      · exact hx.imp_left fun hmem => by simp [hmem]

/-! ## The leaf -/

theorem forall₂_eraseIdx {α β : Type} {R : α → β → Prop} {l : List α} {m : List β}
    (h : List.Forall₂ R l m) (i : Nat) : List.Forall₂ R (l.eraseIdx i) (m.eraseIdx i) := by
  rw [List.eraseIdx_eq_take_drop_succ, List.eraseIdx_eq_take_drop_succ]
  exact List.rel_append (List.forall₂_take i h) (List.forall₂_drop (i + 1) h)

theorem range_filter_ne (hi : i < n) :
    (List.range n).filter (fun j => decide (j ≠ i)) = (List.range n).eraseIdx i := by
  have herase := List.nodup_range.erase_getElem (i := i) (l := List.range n) (by simpa using hi)
  rw [List.getElem_range] at herase
  rw [← herase, List.nodup_range.erase_eq_filter]
  congr 1
  funext j
  by_cases hj : j = i <;> simp [hj]

theorem survivingCells_ok {usable : Nat} (h : LeafAt usable view l rs page hdr)
    (hi : i < rs.length) :
    survivingCells page hdr usable i = .ok ((rs.eraseIdx i).map StoredRow.bytes) := by
  rw [survivingCells, range_filter_ne (h.numCells ▸ hi), Result.mapM_eq_ok,
    List.forall₂_map_right_iff]
  refine forall₂_eraseIdx (List.forall₂_iff_get.mpr ⟨by simp [h.numCells], fun j hj hj' => ?_⟩) i
  obtain ⟨off, hoff, hstands⟩ := h.cells j hj'
  have hvalid := h.valid rs[j] (List.getElem_mem hj')
  have hsize := hstands.cellOnPageSize hvalid.pos hvalid.size
  have hlen := hstands.length_le hvalid.pos
  simp only [List.get_eq_getElem, List.getElem_range, hoff, hsize, Result.ok_bind, cellBytes,
    if_neg (show ¬ page.length < off + rs[j].bytes.length by omega), hstands.slice_eq]

theorem flatMap_apart {α β : Type} {f : α → List β} {l : List α} (h : (l.flatMap f).Nodup)
    (hi : i < l.length) {a : α} (ha : a ∈ l.eraseIdx i) {b : β} (hb : b ∈ f a) : b ∉ f l[i] := by
  have hsplit : l = l.take i ++ l[i] :: l.drop (i + 1) := by
    rw [List.cons_getElem_drop_succ, List.take_append_drop]
  rw [hsplit, List.flatMap_append, List.flatMap_cons] at h
  obtain ⟨-, hnodup, hdisj⟩ := List.nodup_append.mp h
  obtain ⟨-, -, hdisj'⟩ := List.nodup_append.mp hnodup
  rw [List.eraseIdx_eq_take_drop_succ, List.mem_append] at ha
  intro hin
  rcases ha with ha | ha
  · exact hdisj b (List.mem_flatMap.mpr ⟨a, ha, hb⟩) b (by simp [hin]) rfl
  · exact hdisj' b hin b (List.mem_flatMap.mpr ⟨a, ha, hb⟩) rfl

structure TableIn (p : PagerState × World DbFile) (root : UInt32) (depth : Nat)
    (inner leaves : List UInt32) (stored : UInt32 → List StoredRow) : Prop where
  holds : TableHolds p.1.geometry.usableSize (pageSeen p.1 p.2.disk) root depth inner leaves stored
  complete : Complete p
  failAt : p.2.failAt = none
  /-- The first page is no overflow page. -/
  first : ∀ l ∈ leaves, 1 ∉ chains (stored l)
  unreserved : p.1.autoVacuum = true → ∀ q ∈ inner ++ owned leaves stored,
    isReservedPage p.1.geometry.usableSize q.toNat = false

namespace TableIn

variable {p q : PagerState × World DbFile} {root : UInt32} {depth : Nat}
  {inner leaves : List UInt32} {stored : UInt32 → List StoredRow}

section

variable (h : TableIn p root depth inner leaves stored)

include h

theorem quiet (hq : Quiet p q) :
    TableIn q root depth inner leaves stored where
  holds := by
    rw [hq.geometry, show pageSeen q.1 q.2.disk = pageSeen p.1 p.2.disk from funext hq.view]
    exact h.holds
  complete := (hq.changes ∅).complete h.complete
  failAt := hq.failAt
  first := h.first
  unreserved := by
    rw [hq.geometry, (hq.changes ∅).autoVacuum]
    exact h.unreserved

theorem freeOverflowOf {l : UInt32} (hl : l ∈ leaves) {r : StoredRow} (hr : r ∈ stored l)
    {cell : TableLeafCell}
    (hlinked : Linked (pageSeen p.1 p.2.disk) (cell.overflowPage.getD 0) r.chain) {fuel : Nat}
    (hfuel : (owned leaves stored).length < fuel) :
    ∃ q, freeOverflowOf fuel cell p = .ok () q ∧ Changes p q (touched p.1 r.chain) := by
  have hmem : ∀ x ∈ r.chain, x ∈ chains (stored l) := fun x hx =>
    List.mem_flatMap.mpr ⟨r, hr, hx⟩
  have hsub : List.Sublist r.chain (owned leaves stored) := by
    rw [owned]
    refine List.Sublist.trans ?_ (List.sublist_append_right _ _)
    rw [List.flatMap_def]
    refine List.Sublist.trans ?_ (List.sublist_flatten_of_mem (List.mem_map_of_mem hl))
    rw [chains, List.flatMap_def]
    exact List.sublist_flatten_of_mem (List.mem_map_of_mem hr)
  rw [Btree.freeOverflowOf]
  cases ho : cell.overflowPage with
  | none => exact ⟨p, rfl, Changes.refl h.failAt⟩
  | some first =>
      rw [ho] at hlinked
      have hchain : r.chain.length < fuel := hsub.length_le.trans_lt hfuel
      obtain ⟨q, hrun, hq, -⟩ := freeOverflowChain_ok h.failAt h.complete hlinked
        (h.holds.distinct.sublist hsub) (fun hone => h.first l hl (hmem 1 hone))
        (fun hvac x hx => h.unreserved hvac x (List.mem_append_right _ (hsub.subset hx))) hchain
      exact ⟨q, hrun, hq⟩

theorem untouched (hch : Changes p q (touched p.1 (l :: chain))) :
    ∀ x ∈ inner ++ owned leaves stored, x ≠ l → x ∉ chain →
      pageSeen q.1 q.2.disk x = pageSeen p.1 p.2.disk x := by
  intro x hx hxl hxc
  refine hch.view x ?_
  rintro (hmem | ⟨hvac, hres⟩)
  · rcases List.mem_cons.mp hmem with rfl | hmem
    · exact hxl rfl
    · exact hxc hmem
  · rw [h.unreserved hvac x hx] at hres
    cases hres

theorem inner_apart (hl : l ∈ leaves) (hi : i < (stored l).length) (hx : x ∈ inner) :
    x ≠ l ∧ x ∉ (stored l)[i].chain := by
  have hout := h.holds.apart x hx
  simp only [owned, List.mem_append, not_or] at hout
  refine ⟨fun heq => hout.1 (heq ▸ hl), fun hin => hout.2 ?_⟩
  exact List.mem_flatMap.mpr ⟨l, hl, List.mem_flatMap.mpr ⟨_, List.getElem_mem hi, hin⟩⟩

theorem delete (hl : l ∈ leaves) (hi : i < (stored l).length)
    (hch : Changes p q (touched p.1 (l :: (stored l)[i].chain)))
    (hpage : pageSeen q.1 q.2.disk l = .ok page)
    (hlaid : LaidOut page (btreeHeaderOffset l) .leafTable none
      (((stored l).eraseIdx i).map StoredRow.bytes) hdr)
    (hfits : btreeHeaderOffset l + 8 + ((stored l).eraseIdx i).length * 2 +
      (((stored l).eraseIdx i).map StoredRow.bytes).flatten.length ≤ page.length) :
    TableIn q root depth inner leaves (without stored l i) := by
  have hsame := h.untouched hch
  obtain ⟨-, hchains, hdisj⟩ := List.nodup_append.mp h.holds.distinct
  have hown : ∀ x ∈ chains (stored l), x ∈ leaves.flatMap fun l => chains (stored l) :=
    fun x hx => List.mem_flatMap.mpr ⟨l, hl, hx⟩
  have hnodup : (chains (stored l)).Nodup := (List.nodup_flatMap.mp hchains).1 l hl
  obtain ⟨page₀, hdr₀, hleaf⟩ := h.holds.leaf l hl
  have hsub : ∀ r ∈ (stored l).eraseIdx i, r ∈ stored l := fun r hr =>
    (List.eraseIdx_sublist _ _).subset hr
  have hleaf' : LeafAt p.1.geometry.usableSize (pageSeen q.1 q.2.disk) l ((stored l).eraseIdx i)
      page hdr := by
    refine ⟨hpage, hlaid.parse, hlaid.pageType_eq, by simp [hlaid.numCells], fun j hj => ?_,
      fun r hr => ?_, hfits⟩
    · have hcell := hlaid.cells j (by simpa using hj)
      rw [List.getElem_map] at hcell
      exact hcell
    · refine (hleaf.valid r (hsub r hr)).congr fun x hx => ?_
      have hxc : x ∈ chains (stored l) := List.mem_flatMap.mpr ⟨r, hsub r hr, hx⟩
      refine hsame x ?_ (fun heq => hdisj l hl x (hown x hxc) heq.symm)
          (flatMap_apart hnodup hi hr hx)
      exact List.mem_append_right _ (List.mem_append_right _ (hown x hxc))
  have howned : owned leaves (without stored l i) ⊆ owned leaves stored :=
    (owned_without l i).subset
  refine ⟨?_, hch.complete h.complete, hch.failAt, fun x hx hone => ?_, fun hvac x hx => ?_⟩
  · rw [hch.geometry]
    exact h.holds.delete hl hi hsame hleaf'
  · by_cases hxl : x = l
    · subst hxl
      rw [without, Function.update_self] at hone
      obtain ⟨r, hr, hone⟩ := List.mem_flatMap.mp hone
      exact h.first x hl (List.mem_flatMap.mpr ⟨r, hsub r hr, hone⟩)
    · rw [without, Function.update_of_ne hxl] at hone
      exact h.first x hx hone
  · rw [hch.geometry]
    refine h.unreserved (hch.autoVacuum ▸ hvac) x ?_
    rcases List.mem_append.mp hx with hx | hx
    · exact List.mem_append_left _ hx
    · exact List.mem_append_right _ (howned hx)

theorem leafDeleteCurrent {l : UInt32} (hl : l ∈ leaves) {i : Nat} (hi : i < (stored l).length)
    {fuel : Nat} (hfuel : (owned leaves stored).length < fuel) :
    ∃ q, leafDeleteCurrent fuel l i p = .ok () q ∧
      TableIn q root depth inner leaves (without stored l i) ∧
      ∀ x ∈ inner, pageSeen q.1 q.2.disk x = pageSeen p.1 p.2.disk x := by
  obtain ⟨page, hdr, hleaf⟩ := h.holds.leaf l hl
  have hrange := inRange_of_seen hleaf.shown
  have hlen : page.length = p.1.pageSize := by
    obtain ⟨page', hpage', hlen⟩ := h.complete l hrange.1 hrange.2
    cases hleaf.shown.symm.trans hpage'
    exact hlen
  -- the cell, and what is behind it
  obtain ⟨off, hoff, hstands⟩ := hleaf.cells i hi
  have hr : (stored l)[i] ∈ stored l := List.getElem_mem hi
  have hvalid := hleaf.valid _ hr
  obtain ⟨cell, hcell, -, hlinked, -⟩ := hvalid.decodes
  have hparse := hstands.parseTableLeafCell hvalid.pos hcell
  obtain ⟨q₁, hread, h₁⟩ := readPageForWrite_ok h.failAt hleaf.shown
  obtain ⟨q₂, hfree, h₂⟩ := (h.quiet h₁).freeOverflowOf hl hr
    (by
      rw [show pageSeen q₁.1 q₁.2.disk = pageSeen p.1 p.2.disk from funext h₁.view]
      exact hlinked) hfuel
  rw [touched_eq (h₁.changes ∅)] at h₂
  have hch : Changes p q₂ (touched p.1 (stored l)[i].chain) := (h₁.changes _).trans h₂
  -- the leaf without the cell
  have hsub : List.Sublist ((stored l).eraseIdx i) (stored l) := List.eraseIdx_sublist _ _
  have hfits : btreeHeaderOffset l + 8 + ((stored l).eraseIdx i).length * 2 +
      (((stored l).eraseIdx i).map StoredRow.bytes).flatten.length ≤ page.length := by
    have hfits := hleaf.fits
    have hcount := hsub.length_le
    have hbytes := (hsub.map StoredRow.bytes).flatten.length_le
    omega
  obtain ⟨page', hdr', hlayout, hlen', hlaid⟩ := writePageCells_spec
    (btreeHeaderOffset l) .leafTable none (((stored l).eraseIdx i).map StoredRow.bytes)
    (by rw [hlen]; exact p.1.geometry.pageSize.size_le) (fun _ => rfl)
    (by
      intro b hb
      obtain ⟨r, hr, rfl⟩ := List.mem_map.mp hb
      exact (hleaf.valid r (hsub.subset hr)).pos)
    (by simpa [PageType.headerSize, PageType.isLeaf] using hfits)
  have hlen₂ : page'.length = q₂.1.pageSize := by
    rw [hlen', hlen, PagerState.pageSize, PagerState.pageSize, hch.geometry]
  have hput := writePage_ok (p := q₂) l hlen₂
  have hch' : Changes p (q₂.1.written l page', q₂.2)
      (touched p.1 (l :: (stored l)[i].chain)) := by
    refine (hch.mono fun x hx => ?_).trans ((changes_written hch.failAt _ hlen₂).mono
        fun x hx => ?_)
    · exact hx.imp_left fun hmem => by simp [hmem]
    · exact .inl (by rw [Set.mem_singleton_iff.mp hx]; simp)
  refine ⟨(q₂.1.written l page', q₂.2), ?_, h.delete hl hi hch' ?_ hlaid (by rwa [hlen']),
    fun x hx => ?_⟩
  · have hcount : ¬ hdr.numCells ≤ i := by
      rw [← hleaf.numCells]
      omega
    rw [Btree.leafDeleteCurrent, bind_ok hread]
    simp only [hleaf.parse, liftResult_ok_bind, hleaf.pageType, ne_eq, not_true_eq_false, if_false,
      if_neg hcount, hoff, getState_bind, h₁.geometry, hparse]
    rw [bind_ok hfree]
    simp only [survivingCells_ok hleaf hi, liftResult_ok_bind, hlayout]
    exact hput
  · exact pageSeen_written _ _ _ hrange.1 (by rw [hch.effectiveCount]; exact hrange.2)
  · obtain ⟨hxl, hxc⟩ := h.inner_apart hl hi hx
    exact h.untouched hch' x (List.mem_append_left _ hx) hxl hxc

end

end TableIn

/-! ## The parent of the leaf -/

theorem pointerAt_of_parse {off : Nat} {cell : TableInteriorCell}
    (h : parseTableInteriorCell page off = .ok cell) : pointerAt page off = .ok cell.leftChild := by
  simp only [parseTableInteriorCell, Result.bind_eq_ok, Prod.exists] at h
  obtain ⟨d, hd, rowid, n, -, hcell⟩ := h
  cases hcell
  rw [slicePage] at hd
  split_ifs at hd with hfit
  cases hd
  rw [pointerAt, if_neg (by omega)]
  simp only [slice, readBe32, List.take_take, min_self]

namespace TableCursor

variable {view view' : UInt32 → Result Bytes} {inner : List UInt32} {D : Nat}

variable {f : Frame} {cs : List UInt32}

theorem visitedChild_ok (hcs : NodeHolds tableKind f.page f.hdr cs) (hlt : f.next - 1 < cs.length) :
    visitedChild f = .ok cs[f.next - 1]? := by
  have hchild := hcs.2 (f.next - 1) hlt
  rw [List.getElem?_eq_getElem hlt, visitedChild]
  split_ifs with hnum
  · obtain ⟨off, cell, hoff, hcell, hleft⟩ := cell_of_interiorChild hnum hchild
    simp only [hoff, pointerAt_of_parse hcell, Result.ok_bind, hleft]
    rfl
  · have hlen := hcs.1
    rw [TreePosition.interiorChild, if_neg hnum, if_pos (by omega)] at hchild
    exact hchild

theorem frames_ok (h : Ahead view inner D stack rest) :
    ∀ f ∈ stack, f.hdr.pageType.isLeaf = false ∧ ∃ child, visitedChild f = .ok (some child) := by
  induction h with
  | nil => simp
  | cons htype hcs hpos hle hdepth hls hrest ih =>
      rename_i f stack cs lss rest depth
      intro g hg
      rcases List.mem_cons.mp hg with rfl | hg
      · refine ⟨by rw [htype]; rfl, cs[g.next - 1], ?_⟩
        rw [visitedChild_ok hcs (by omega), List.getElem?_eq_getElem (by omega)]
      · exact ih g hg

/-- The walk ends with the leaf, although it is meant to end with its parent. -/
theorem resolveLoop_leaf {leafPgno : UInt32} {frames : List Frame}
    (hframes : ∀ g ∈ frames ++ [f], g.hdr.pageType.isLeaf = false ∧
      ∃ child, visitedChild g = .ok (some child)) (hlast : visitedChild f = .ok (some leafPgno)) :
    resolveLoop leafPgno pgno (frames ++ [f]) = .ok (some leafPgno) := by
  induction frames generalizing pgno with
  | nil =>
      have hint := (hframes f (by simp)).1
      simp [resolveLoop, hint, hlast]
      rfl
  | cons g frames ih =>
      obtain ⟨hint, child, hchild⟩ := hframes g (by simp)
      rw [List.cons_append, resolveLoop, hint]
      simp only [Bool.false_eq_true, if_false, hchild, Result.ok_bind]
      split_ifs with heq
      · rw [heq]
        rfl
      · exact ih fun x hx => hframes x (by simp at hx ⊢; tauto)

theorem findLeftChild_ok (hcs : NodeHolds tableKind f.page f.hdr cs) (leafPgno : UInt32)
    {left : Nat} (hle : i + left ≤ f.hdr.numCells) :
    ∃ r, findLeftChild f leafPgno left i = .ok (some r) := by
  induction left generalizing i with
  | zero => exact ⟨none, rfl⟩
  | succ left ih =>
      have hlen := hcs.1
      obtain ⟨off, cell, hoff, hcell, -⟩ :=
        cell_of_interiorChild (by omega) (hcs.2 i (by omega))
      rw [findLeftChild]
      simp only [hoff, pointerAt_of_parse hcell, Result.ok_bind]
      split_ifs
      · exact ⟨some i, rfl⟩
      · exact ih (by omega)

theorem parentInfo_leaf (h : OnLeaf view inner D c.toTreePosition l rest) :
    ∃ info, c.parentInfo l = .ok info ∧ ∀ r, info = some r → r.1 = l := by
  cases hstack : c.stack with
  | nil =>
      refine ⟨none, ?_, by simp⟩
      rw [parentInfo, hstack]
  | cons f stack =>
      have hahead := h.ahead
      rw [hstack] at hahead
      obtain ⟨cs, hcs, hlast⟩ := h.last f (by rw [hstack]; rfl)
      have hframes := frames_ok hahead
      have hvisited : visitedChild f = .ok (some l) := by
        cases hahead with
        | cons htype hcs' hpos hle hdepth hls hrest =>
            have hlt : f.next - 1 < cs.length := by
              rw [hcs.1, ← hcs'.1]
              omega
            rw [visitedChild_ok hcs hlt, hlast]
      have hresolve : c.resolveParentPgno l = .ok (some l) := by
        rw [resolveParentPgno, if_neg (by simp [hstack]), hstack, List.reverse_cons]
        refine resolveLoop_leaf (fun g hg => hframes g ?_) hvisited
        simpa [or_comm] using hg
      have hle : 0 + f.hdr.numCells ≤ f.hdr.numCells := by omega
      obtain ⟨r, hr⟩ := findLeftChild_ok hcs l hle
      rw [parentInfo, hstack]
      simp only [hresolve, hr, Result.ok_bind]
      cases r with
      | some i => exact ⟨_, rfl, by rintro _ ⟨⟩; rfl⟩
      | none =>
          split_ifs
          · exact ⟨_, rfl, by rintro _ ⟨⟩; rfl⟩
          · exact ⟨none, rfl, by simp⟩

theorem rebalance_ok (hp : p.2.failAt = none) (h : OnLeaf view inner D c.toTreePosition l rest)
    (hpage : pageSeen p.1 p.2.disk l = .ok page)
    (hparse : PageHeader.parse page (btreeHeaderOffset l) = .ok hdr)
    (htype : hdr.pageType = .leafTable) : ∃ q, c.rebalance l p = .ok c q ∧ Quiet p q := by
  obtain ⟨info, hinfo, hself⟩ := parentInfo_leaf h
  rw [rebalance, hinfo, liftResult_ok_bind]
  cases info with
  | none => exact ⟨p, rfl, ⟨p.1.cache, p.1.txn, rfl⟩, hp, fun _ => rfl⟩
  | some r =>
      obtain ⟨parentPgno, childIdx, isRootParent⟩ := r
      obtain rfl : parentPgno = l := hself _ rfl
      obtain ⟨q₁, hget₁, h₁⟩ := getPage_ok hp hpage
      obtain ⟨q₂, hget₂, h₂⟩ := getPage_ok h₁.failAt ((h₁.view parentPgno).trans hpage)
      have hrun : ∃ q, rebalanceTableLeafAfterDelete parentPgno parentPgno childIdx isRootParent p =
          .ok none q ∧ Quiet p q := by
        simp only [rebalanceTableLeafAfterDelete, getState_bind]
        rw [bind_ok hget₁]
        simp only [hparse, liftResult_ok_bind, htype, ne_eq, not_true_eq_false, if_false]
        split_ifs
        · exact ⟨q₁, rfl, h₁⟩
        · rw [bind_ok hget₂]
          simp only [hparse, liftResult_ok_bind, htype, if_true]
          exact ⟨q₂, rfl, h₁.trans h₂⟩
      obtain ⟨q, hq, hquiet⟩ := hrun
      refine ⟨q, ?_, hquiet⟩
      simp only [bind_ok hq]
      rfl

theorem refreshLeaf_ok (c : TableCursor) (hp : p.2.failAt = none)
    (hpage : pageSeen p.1 p.2.disk l = .ok page)
    (hparse : PageHeader.parse page (btreeHeaderOffset l) = .ok hdr) :
    ∃ q, c.refreshLeaf l p = .ok { c with leaf := some (page, hdr), pendingAdvance := true } q ∧
      Quiet p q := by
  obtain ⟨q, hget, hq⟩ := getPage_ok hp hpage
  refine ⟨q, ?_, hq⟩
  rw [refreshLeaf, bind_ok hget, hparse, liftResult_ok_bind]
  rfl

end TableCursor

/-! ## A step of the scan -/

theorem Ahead.congr {view' : UInt32 → Result Bytes} {D : Nat} (h : Ahead view inner D stack leaves)
    (hinner : ∀ q ∈ inner, view' q = view q) (hleaves : ∀ l ∈ leaves, IsLeaf view' l) :
    Ahead view' inner D stack leaves := by
  induction h with
  | nil => exact .nil
  | cons htype hcs hpos hle hdepth hls hrest ih =>
      refine .cons htype hcs hpos hle hdepth ?_ (ih fun l hl => hleaves l (by simp [hl]))
      refine forall₂_imp_of_mem hls fun c m hm hc => hc.congr hinner fun l hl => hleaves l ?_
      exact List.mem_append_left _ (List.mem_flatten.mpr ⟨m, hm, hl⟩)

section Step

variable {p : PagerState × World DbFile} {root : UInt32} {depth : Nat}
  {inner leaves : List UInt32} {stored : UInt32 → List StoredRow}

theorem TableIn.isLeaf (h : TableIn p root depth inner leaves stored) (hl : l ∈ leaves) :
    IsLeaf (pageSeen p.1 p.2.disk) l := by
  obtain ⟨page, hdr, hleaf⟩ := h.holds.leaf l hl
  exact ⟨page, hdr, hleaf.shown, hleaf.parse, hleaf.pageType⟩

theorem deleteCurrent_ok (h : TableIn p root depth inner leaves stored)
    (hleaves : leaves = before ++ l :: rest)
    (hon : OnLeaf (pageSeen p.1 p.2.disk) inner depth c.toTreePosition l rest)
    (hidx : c.cellIdx < (stored l).length) (hflag : c.rebalanceInProgress = false)
    (hfuel : (owned leaves stored).length < fuel) :
    ∃ c' q, c.deleteCurrent fuel p = .ok c' q ∧
      TableIn q root depth inner leaves (without stored l c.cellIdx) ∧
      OnLeaf (pageSeen q.1 q.2.disk) inner depth c'.toTreePosition l rest ∧
      c'.cellIdx = c.cellIdx ∧ c'.pendingAdvance = true ∧ c'.nullRow = c.nullRow ∧
      c'.rebalanceInProgress = false := by
  have hl : l ∈ leaves := by simp [hleaves]
  obtain ⟨page₀, hdr₀, hleaf₀⟩ := h.holds.leaf l hl
  obtain ⟨hcleaf, hcells⟩ := TreePosition.leafCells_onLeaf hon hleaf₀
  have hvalid : c.isValid = true := by
    simp [TreePosition.isValid, hon.atEnd, hcleaf, hcells, hidx]
  obtain ⟨q₁, hdel, h₁, hinner⟩ := h.leafDeleteCurrent hl hidx hfuel
  obtain ⟨page, hdr, hleaf⟩ := h₁.holds.leaf l hl
  obtain ⟨q₂, hrefresh, h₂⟩ := c.refreshLeaf_ok h₁.failAt hleaf.shown hleaf.parse
  set c₂ : TableCursor := { c with leaf := some (page, hdr), pendingAdvance := true } with hc₂
  have hview₂ : pageSeen q₂.1 q₂.2.disk = pageSeen q₁.1 q₁.2.disk := funext h₂.view
  have hon₂ : OnLeaf (pageSeen q₁.1 q₁.2.disk) inner depth c₂.toTreePosition l rest := by
    refine ⟨hon.leafPgno, hon.ahead.congr hinner fun x hx => h₁.isLeaf (by simp [hleaves, hx]),
      hon.last, hon.atEnd, page, hdr, rfl, hleaf.shown, hleaf.parse⟩
  obtain ⟨q₃, hbal, h₃⟩ := TableCursor.rebalance_ok
    (c := { c₂ with rebalanceInProgress := true }) h₂.failAt hon₂
    (hview₂ ▸ hleaf.shown) hleaf.parse hleaf.pageType
  have hview₃ : pageSeen q₃.1 q₃.2.disk = pageSeen q₁.1 q₁.2.disk :=
    (funext h₃.view).trans hview₂
  refine ⟨{ c₂ with rebalanceInProgress := false }, q₃, ?_, (h₁.quiet h₂).quiet h₃, ?_, rfl, rfl,
    rfl, rfl⟩
  · rw [TableCursor.deleteCurrent]
    simp only [hvalid, Bool.true_eq_false, if_false, hon.leafPgno]
    rw [bind_ok hdel, bind_ok hrefresh]
    rw [if_neg (show ¬ c₂.rebalanceInProgress = true by simp [hc₂, hflag]),
      show c₂.leafPgno = l from hon.leafPgno, bind_ok hbal]
    rfl
  · rw [hview₃]
    exact hon₂

theorem currentRow_ok (h : TableIn p root depth inner leaves stored) (hl : l ∈ leaves)
    (hon : OnLeaf (pageSeen p.1 p.2.disk) inner depth c.toTreePosition l rest)
    (hidx : c.cellIdx < (stored l).length) (hnull : c.nullRow = false) :
    c.rowid p.1.geometry.usableSize = .ok (stored l)[c.cellIdx].row.1 ∧
      (c.payload p.1.geometry.usableSize).eval (pageSeen p.1 p.2.disk) =
        .ok (stored l)[c.cellIdx].row.2 := by
  obtain ⟨page, hdr, hleaf⟩ := h.holds.leaf l hl
  obtain ⟨hcleaf, hcells⟩ := TreePosition.leafCells_onLeaf hon hleaf
  obtain ⟨off, hoff, hstands⟩ := hleaf.cells c.cellIdx hidx
  have hvalid := hleaf.valid _ (List.getElem_mem hidx)
  obtain ⟨cell, hcell, hrowid, -, hpayload⟩ := hvalid.decodes
  have hparse := hstands.parseTableLeafCell hvalid.pos hcell
  have hcurrent : c.currentCell p.1.geometry.usableSize = .ok cell := by
    have hv : c.isValid = true := by
      simp [TreePosition.isValid, hon.atEnd, hcleaf, hcells, hidx]
    simp only [TableCursor.currentCell, hcleaf, hv, Bool.true_eq_false, if_false, hoff,
      Result.ok_bind, hparse]
  constructor
  · simp only [TableCursor.rowid, hnull, Bool.false_eq_true, if_false, hcurrent, Result.ok_bind,
      hrowid]
    rfl
  · simp only [TableCursor.payload, hnull, Bool.false_eq_true, if_false, Reading.eval_bind,
      Reading.eval_lift, hcurrent, Result.ok_bind, hpayload]

def spared {α : Type} (delete : Nat → Bool) : Nat → List α → List α
  | _, [] => []
  | i, a :: l => if delete i then spared delete (i + 1) l else a :: spared delete (i + 1) l

theorem run_ok {α : Type} {m : Reading α} (hp : p.2.failAt = none) {a : α}
    (h : m.eval (pageSeen p.1 p.2.disk) = .ok a) : ∃ q, m.run p = .ok a q ∧ Quiet p q := by
  obtain ⟨q, hq, hrun⟩ := run_eq_eval m hp
  rw [h] at hrun
  exact ⟨q, hrun, hq.quiet⟩

theorem next_ok (h : TableIn p root depth inner leaves stored)
    (hleaves : leaves = before ++ l :: rest)
    (hon : OnLeaf (pageSeen p.1 p.2.disk) inner depth c.toTreePosition l rest) {j : Nat}
    (hj : j = if c.pendingAdvance then c.cellIdx else c.cellIdx + 1) (hle : j ≤ (stored l).length)
    (hfuel : TreePosition.walkFuel depth leaves.length ≤ fuel) :
    ∃ c' q, (c.next fuel).run p = .ok c' q ∧ TableIn q root depth inner leaves stored ∧
      Stands (pageSeen q.1 q.2.disk) inner leaves depth stored c'.toTreePosition
        (rowsOf before stored ++ ((stored l).take j).map StoredRow.row)
        (((stored l).drop j).map StoredRow.row ++ rowsOf rest stored) ∧
      c'.nullRow = false ∧ c'.rebalanceInProgress = c.rebalanceInProgress := by
  obtain ⟨pos, hst, hrun⟩ := next_stands h.holds.leaf hleaves hon hj hle
  have heval : (c.next fuel).eval (pageSeen p.1 p.2.disk) =
      .ok { c with toTreePosition := pos, nullRow := false } := by
    rw [TableCursor.next, if_neg (by simp [hon.atEnd])]
    simp only [Reading.eval_bind, hrun fuel hfuel, Result.ok_bind]
    rfl
  obtain ⟨q, hq, hquiet⟩ := run_ok h.failAt heval
  refine ⟨_, q, hq, h.quiet hquiet, ?_, rfl, rfl⟩
  rw [show pageSeen q.1 q.2.disk = pageSeen p.1 p.2.disk from funext hquiet.view]
  exact hst

theorem take_eraseIdx_self {α : Type} {l : List α} (h : i < l.length) :
    (l.eraseIdx i).take i = l.take i ∧ (l.eraseIdx i).drop i = l.drop (i + 1) := by
  have hlen : (l.take i).length = i := by
    rw [List.length_take]
    omega
  rw [List.eraseIdx_eq_take_drop_succ]
  exact ⟨List.take_left' hlen, List.drop_left' hlen⟩

variable {behind ahead : List (Int64 × Bytes)}

theorem visit_step (h : TableIn p root depth inner leaves stored) {y : Int64 × Bytes}
    (hst : Stands (pageSeen p.1 p.2.disk) inner leaves depth stored c.toTreePosition behind
      (y :: ahead)) (hnull : c.nullRow = false) (hflag : c.rebalanceInProgress = false) (del : Bool)
    (hwalk : TreePosition.walkFuel depth leaves.length ≤ fuel)
    (hown : (owned leaves stored).length < fuel) :
    c.isValid = true ∧ c.rowid p.1.geometry.usableSize = .ok y.1 ∧
      (c.payload p.1.geometry.usableSize).eval (pageSeen p.1 p.2.disk) = .ok y.2 ∧
      ∀ p', Quiet p p' → ∃ c₁ q₁ c' q stored',
        c.deleteIf fuel del p' = .ok c₁ q₁ ∧
        (c₁.next fuel).run q₁ = .ok c' q ∧ TableIn q root depth inner leaves stored' ∧
        List.Sublist (owned leaves stored') (owned leaves stored) ∧
        Stands (pageSeen q.1 q.2.disk) inner leaves depth stored' c'.toTreePosition
          (if del then behind else behind ++ [y]) ahead ∧
        c'.nullRow = false ∧ c'.rebalanceInProgress = false := by
  generalize hall : y :: ahead = all at hst
  cases hst with
  | done => cases hall
  | here hleaves hon hidx hpending =>
      rename_i before rest l
      have hl : l ∈ leaves := by simp [hleaves]
      rw [List.drop_eq_getElem_cons hidx, List.map_cons, List.cons_append, List.cons.injEq] at hall
      obtain ⟨rfl, rfl⟩ := hall
      obtain ⟨hrowid, hpayload⟩ := currentRow_ok h hl hon hidx hnull
      have hvalid : c.isValid = true := by
        obtain ⟨page, hdr, hleaf⟩ := h.holds.leaf l hl
        obtain ⟨hcleaf, hcells⟩ := TreePosition.leafCells_onLeaf hon hleaf
        simp [TreePosition.isValid, hon.atEnd, hcleaf, hcells, hidx]
      refine ⟨hvalid, hrowid, hpayload, fun p' hp' => ?_⟩
      have h' := h.quiet hp'
      have hon' : OnLeaf (pageSeen p'.1 p'.2.disk) inner depth c.toTreePosition l rest := by
        rw [show pageSeen p'.1 p'.2.disk = pageSeen p.1 p.2.disk from funext hp'.view]
        exact hon
      cases del with
      | false =>
          obtain ⟨c', q, hnext, hq, hst, hnull', hflag'⟩ := next_ok h' hleaves hon'
            (j := c.cellIdx + 1) (by simp [hpending]) hidx hwalk
          refine ⟨c, p', c', q, stored, rfl, hnext, hq, .refl _, ?_, hnull', hflag'.trans hflag⟩
          rw [List.take_succ_eq_append_getElem hidx, List.map_append, ← List.append_assoc] at hst
          exact hst
      | true =>
          obtain ⟨c₁, q₁, hdel, h₁, hon₁, hidx₁, hpending₁, hnull₁, hflag₁⟩ :=
            deleteCurrent_ok h' hleaves hon' hidx hflag hown
          have hstored : without stored l c.cellIdx l = (stored l).eraseIdx c.cellIdx := by
            rw [without, Function.update_self]
          have hlen : c.cellIdx ≤ (without stored l c.cellIdx l).length := by
            rw [hstored, List.length_eraseIdx_of_lt hidx]
            omega
          obtain ⟨c', q, hnext, hq, hst, hnull', hflag'⟩ := next_ok h₁ hleaves hon₁
            (j := c.cellIdx) (by simp [hpending₁, hidx₁]) hlen hwalk
          have hnodup := (List.nodup_append.mp h.holds.distinct).1
          rw [hleaves] at hnodup
          obtain ⟨hbefore, hrest⟩ := rowsOf_without hnodup c.cellIdx
          obtain ⟨htake, hdrop⟩ := take_eraseIdx_self hidx
          rw [hstored, hbefore, hrest, htake, hdrop] at hst
          exact ⟨c₁, q₁, c', q, _, hdel, hnext, hq, owned_without _ _, hst, hnull',
            hflag'.trans hflag₁⟩

theorem visitsDeleting_ok (delete : Nat → Bool) (h : TableIn p root depth inner leaves stored)
    (hst : Stands (pageSeen p.1 p.2.disk) inner leaves depth stored c.toTreePosition behind ahead)
    (hnull : c.nullRow = false) (hflag : c.rebalanceInProgress = false)
    (hwalk : TreePosition.walkFuel depth leaves.length ≤ fuel)
    (hown : (owned leaves stored).length < fuel) (hn : ahead.length < n) (i : Nat) :
    ∃ q stored', c.visitsDeleting fuel delete n i p = .ok ahead q ∧
      TableIn q root depth inner leaves stored' ∧
      rowsOf leaves stored' = behind ++ spared delete i ahead := by
  obtain ⟨n, rfl⟩ : ∃ m, n = m + 1 := ⟨n - 1, by omega⟩
  induction ahead generalizing p c behind stored n i with
  | nil =>
      generalize hall : ([] : List (Int64 × Bytes)) = all at hst
      cases hst with
      | done hend hleaf =>
          have hvalid : c.isValid = false := by simp [TreePosition.isValid, hend]
          refine ⟨p, stored, ?_, h, by rw [← hall]; simp [spared]⟩
          rw [TableCursor.visitsDeleting, if_pos hvalid]
          rfl
      | here hleaves hon hidx hpending =>
          rw [List.drop_eq_getElem_cons hidx] at hall
          simp only [List.map_cons, List.cons_append] at hall
          cases hall
  | cons y ahead ih =>
      obtain ⟨hvalid, hrowid, hpayload, hstep⟩ :=
        visit_step h hst hnull hflag (delete i) hwalk hown
      obtain ⟨p', hpay, hp'⟩ := run_ok h.failAt hpayload
      obtain ⟨c₁, q₁, c', q, stored', hdel, hnext, hq, hsub, hst', hnull', hflag'⟩ := hstep p' hp'
      have hle := hsub.length_le
      obtain ⟨n, rfl⟩ : ∃ m, n = m + 1 := ⟨n - 1, by simp at hn; omega⟩
      obtain ⟨r, stored'', hrun, hr, hrows⟩ := ih hq hst' hnull' hflag' (by omega) (i + 1) n
        (by simpa using hn)
      refine ⟨r, stored'', ?_, hr, ?_⟩
      · rw [TableCursor.visitsDeleting, if_neg (by simp [hvalid])]
        simp only [getState_bind, hrowid, liftResult_ok_bind]
        rw [bind_ok hpay, bind_ok hdel, bind_ok hnext, bind_ok hrun]
        rfl
      · rw [hrows, spared]
        cases delete i <;> simp

end Step

/-! ## The whole scan -/

def WellFormedTable (p : PagerState × World DbFile) (root : UInt32) (rows : List (Int64 × Bytes)) :
    Prop :=
  (rows.map Prod.fst).Pairwise (· < ·) ∧
    ∃ depth inner leaves stored, TableIn p root depth inner leaves stored ∧
      rows = rowsOf leaves stored

theorem scanTable_ok {root : UInt32} {depth : Nat} {stored : UInt32 → List StoredRow}
    (h : TableIn p root depth inner leaves stored) {d : Nat} (hd : depth ≤ d) :
    ∃ q, scanTable d root p = .ok (rowsOf leaves stored) q ∧ Quiet p q := by
  have heval := visitTable_of_spine h.holds.spine h.holds.leaf hd
  exact run_ok h.failAt heval

/--
A scan that deletes any choice of rows on its way sees every row once, by
ascending rowid, and leaves exactly the others.
-/
theorem scanDeleting_spec (delete : Nat → Bool) {p : PagerState × World DbFile} {root : UInt32}
    {rows : List (Int64 × Bytes)} (h : WellFormedTable p root rows) :
    (rows.map Prod.fst).Pairwise (· < ·) ∧ ∃ N, ∀ fuel ≥ N,
      (∃ q, scanTable fuel root p = .ok rows q) ∧
      ∃ q, scanDeleting fuel delete root p = .ok rows q ∧
        ∃ q', scanTable fuel root q = .ok (spared delete 0 rows) q' := by
  obtain ⟨hsorted, depth, inner, leaves, stored, htable, rfl⟩ := h
  refine ⟨hsorted, TreePosition.walkFuel depth leaves.length + (owned leaves stored).length +
    (rowsOf leaves stored).length + 1, fun fuel hfuel => ?_⟩
  have hdepth : depth ≤ fuel := by
    rw [TreePosition.walkFuel] at hfuel
    omega
  obtain ⟨q₀, hscan, -⟩ := scanTable_ok htable hdepth
  refine ⟨⟨q₀, hscan⟩, ?_⟩
  obtain ⟨pos, hst, hrewind⟩ := rewind_stands htable.holds.spine htable.holds.leaf
  have heval : ((TableCursor.new root).rewind fuel).eval (pageSeen p.1 p.2.disk) =
      .ok { TableCursor.new root with toTreePosition := pos, nullRow := false } := by
    have hroot : (TreePosition.rewind tableKind fuel (TableCursor.new root).root).eval
        (pageSeen p.1 p.2.disk) = .ok pos := hrewind fuel (by omega)
    simp only [TableCursor.rewind, Reading.eval_bind, hroot, Result.ok_bind]
    rfl
  obtain ⟨p', hrun, hp'⟩ := run_ok htable.failAt heval
  have hst' : Stands (pageSeen p'.1 p'.2.disk) inner leaves depth stored pos []
      (rowsOf leaves stored) := by
    rw [show pageSeen p'.1 p'.2.disk = pageSeen p.1 p.2.disk from funext hp'.view]
    exact hst
  have hwalk : TreePosition.walkFuel depth leaves.length ≤ fuel := by omega
  have hown : (owned leaves stored).length < fuel := by omega
  have hrowsFuel : (rowsOf leaves stored).length < fuel := by omega
  obtain ⟨q, stored', hvisits, hq, hrows⟩ := visitsDeleting_ok delete (htable.quiet hp')
    (c := { TableCursor.new root with toTreePosition := pos, nullRow := false }) hst' rfl rfl
    hwalk hown hrowsFuel 0
  obtain ⟨q', hscan', -⟩ := scanTable_ok hq hdepth
  refine ⟨q, ?_, q', ?_⟩
  · rw [scanDeleting, bind_ok hrun]
    exact hvisits
  · rw [hscan', hrows, List.nil_append]

/-! ## A table of two leaves -/

def smallRow (k : UInt8) : StoredRow where
  bytes := [1, k, k]
  row := (Int64.ofNat k.toNat, [k])
  chain := []

set_option maxRecDepth 10000 in
theorem smallRow_valid (view : UInt32 → Result Bytes) {k : UInt8} (hk : k ∈ [1, 2, 3]) :
    (smallRow k).Valid 512 view := by
  have hcell : ∀ k ∈ [(1 : UInt8), 2, 3], cellOnPageSize (smallRow k).bytes 0 512 = .ok 3 ∧
      parseTableLeafCell (smallRow k).bytes 0 512 =
        .ok ⟨1, (smallRow k).row.1, [k], none⟩ := by decide
  obtain ⟨hsize, hparse⟩ := hcell k hk
  exact ⟨hsize, _, hparse, rfl, rfl, rfl⟩

theorem layOut_laid (t : PageType) (rightMost : Option UInt32) (bs : List Bytes)
    (hleaf : t.isLeaf = true → rightMost = none) (hpos : ∀ b ∈ bs, 0 < b.length)
    (hfit : t.headerSize + bs.length * 2 + bs.flatten.length ≤ 512) :
    (layOut t rightMost bs).length = 512 ∧
      ∃ hdr, LaidOut (layOut t rightMost bs) 0 t rightMost bs hdr := by
  have hzero : (List.replicate 512 (0 : UInt8)).length = 512 := List.length_replicate
  obtain ⟨page, hdr, hrun, hlen, hlaid⟩ := writePageCells_spec 0 t rightMost bs
    (show (List.replicate 512 (0 : UInt8)).length ≤ 65536 by omega) hleaf hpos (by omega)
  have hpage : layOut t rightMost bs = page := by
    rw [layOut, hrun]
    rfl
  rw [hpage]
  exact ⟨hlen.trans hzero, hdr, hlaid⟩

theorem leafAt_layOut (hne : pgno ≠ 1)
    (hview : view pgno = .ok (layOut .leafTable none (rs.map StoredRow.bytes)))
    (hvalid : ∀ r ∈ rs, r.Valid 512 view)
    (hfits : 8 + rs.length * 2 + (rs.map StoredRow.bytes).flatten.length ≤ 512) :
    ∃ page hdr, LeafAt 512 view pgno rs page hdr := by
  obtain ⟨hlen, hdr, hlaid⟩ := layOut_laid .leafTable none (rs.map StoredRow.bytes) (fun _ => rfl)
    (List.forall_mem_map.mpr fun r hr => (hvalid r hr).pos) (by rwa [List.length_map])
  have hbase : btreeHeaderOffset pgno = 0 := if_neg hne
  refine ⟨_, hdr, hview, by rw [hbase]; exact hlaid.parse, hlaid.pageType_eq,
    by simp [hlaid.numCells], fun i hi => ?_, hvalid, by rw [hbase, hlen]; omega⟩
  have hcell := hlaid.cells i (by simpa using hi)
  rw [List.getElem_map] at hcell
  exact hcell

def twoLeaves : PagerState × World DbFile := databaseWith [
  layOut .interiorTable (some 4) [buildTableInteriorCell 3 1],
  layOut .leafTable none ([smallRow 1].map StoredRow.bytes),
  layOut .leafTable none ([smallRow 2, smallRow 3].map StoredRow.bytes)]

def twoLeavesRows (l : UInt32) : List StoredRow :=
  if l = 3 then [smallRow 1] else if l = 4 then [smallRow 2, smallRow 3] else []

set_option maxRecDepth 10000 in
theorem leaf_twoLeaves (l : UInt32) (hl : l ∈ [(3 : UInt32), 4]) :
    ∃ page hdr, LeafAt 512 (pageSeen twoLeaves.1 twoLeaves.2.disk) l (twoLeavesRows l) page
        hdr := by
  have hview : ∀ l ∈ [(3 : UInt32), 4], l ≠ 1 ∧ pageSeen twoLeaves.1 twoLeaves.2.disk l =
      .ok (layOut .leafTable none ((twoLeavesRows l).map StoredRow.bytes)) ∧
      8 + (twoLeavesRows l).length * 2 +
        ((twoLeavesRows l).map StoredRow.bytes).flatten.length ≤ 512 := by
    rw [List.forall_mem_cons, List.forall_mem_singleton]
    constructor <;> decide
  obtain ⟨hne, hpage, hfits⟩ := hview l hl
  refine leafAt_layOut hne hpage (fun r hr => ?_) hfits
  have hsmall : ∀ r ∈ twoLeavesRows l, ∃ k ∈ [(1 : UInt8), 2, 3], r = smallRow k := by
    fin_cases hl <;> simp [twoLeavesRows]
  obtain ⟨k, hk, rfl⟩ := hsmall r hr
  exact smallRow_valid _ hk

set_option maxRecDepth 10000 in
theorem spine_twoLeaves :
    Spine (pageSeen twoLeaves.1 twoLeaves.2.disk) [2] 2 2 [3, 4] := by
  have hsize : (List.replicate 512 (0 : UInt8)).length ≤ 65536 := by decide
  obtain ⟨page, hdr, hrun, hlen, hlaid⟩ := writePageCells_spec 0 .interiorTable
    (some 4) ([((3 : UInt32), (1 : Int64))].map fun d => buildTableInteriorCell d.1 d.2) hsize
    (by decide) (by decide) (by decide)
  have hroot : pageSeen twoLeaves.1 twoLeaves.2.disk 2 = .ok page := by
    have : pageSeen twoLeaves.1 twoLeaves.2.disk 2 =
      .ok (layOut .interiorTable (some 4) [buildTableInteriorCell 3 1]) := by decide
    rw [this, layOut]
    exact congrArg (fun r => Except.ok (r.toOption.getD [])) hrun
  have hleaf : ∀ l ∈ [(3 : UInt32), 4],
      Spine (pageSeen twoLeaves.1 twoLeaves.2.disk) [2] 1 l [l] := by
    intro l hl
    obtain ⟨page, hdr, h⟩ := leaf_twoLeaves l hl
    exact ⟨page, hdr, h.shown, h.parse, .inl ⟨h.pageType, rfl⟩⟩
  refine ⟨page, hdr, hroot, hlaid.parse, .inr ⟨by simp, hlaid.pageType_eq, [3, 4], [[3], [4]],
    hlaid.nodeHolds, .cons (hleaf 3 (by simp)) (.cons (hleaf 4 (by simp)) .nil), rfl⟩⟩

set_option maxRecDepth 10000 in
theorem wellFormed_twoLeaves :
    WellFormedTable twoLeaves 2 [(1, [1]), (2, [2]), (3, [3])] := by
  refine ⟨by decide, 2, [2], [3, 4], twoLeavesRows, ?_, by decide⟩
  have hapart : ∀ q ∈ [(2 : UInt32)], q ∉ owned [3, 4] twoLeavesRows := by
    rw [List.forall_mem_singleton]
    decide
  have hfirst : ∀ l ∈ [(3 : UInt32), 4], 1 ∉ chains (twoLeavesRows l) := by
    rw [List.forall_mem_cons, List.forall_mem_singleton]
    constructor <;> decide
  have hfixed : twoLeaves.1.autoVacuum = false := by decide
  exact ⟨⟨spine_twoLeaves, leaf_twoLeaves, by decide, hapart⟩,
    complete_of_readable (by decide), rfl, hfirst, fun hvac => by simp [hfixed] at hvac⟩

/-- The second of three rows is deleted. -/
theorem scanDeleting_twoLeaves : ∃ N, ∀ fuel ≥ N,
    ∃ q, scanDeleting fuel (· == 1) 2 twoLeaves = .ok [(1, [1]), (2, [2]), (3, [3])] q ∧
      ∃ q', scanTable fuel 2 q = .ok [(1, [1]), (3, [3])] q' := by
  obtain ⟨-, N, hN⟩ := scanDeleting_spec (· == 1) wellFormed_twoLeaves
  exact ⟨N, fun fuel hfuel => (hN fuel hfuel).2⟩

end Rustqlite.Btree
