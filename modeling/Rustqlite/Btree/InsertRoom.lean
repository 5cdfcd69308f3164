import Rustqlite.Btree.CellSpace
import Rustqlite.Btree.InsertRun
import Rustqlite.Btree.SearchPages

/-!
# Room for a row

An insertion ends when the half that it goes on with has room at some time.  A
leaf below a parent is split once, and the half is a table of its own then.  The
pages around the leaf make a table in order of what takes its place.
-/

namespace Rustqlite.Btree

open Foundation Format Pager FileM

/-! ## A page without a parent -/

structure Ready (p : PagerState × World DbFile) (trunks : List (UInt32 × List UInt32))
    (pgno : UInt32) (rs : List StoredRow) (row : StoredRow) : Prop where
  sound : SoundStore p trunks
  ne_one : pgno ≠ 1
  leaf : CompactLeaf p pgno rs
  valid : row.Valid p.1.geometry.usableSize (pageSeen p.1 p.2.disk)
  inUse : InUse p trunks ([pgno] ++ chains (row :: rs))

section Alone

variable {p q : PagerState × World DbFile} {trunks rest : List (UInt32 × List UInt32)}
  {pgno left right : UInt32} {page : Bytes} {hdr : PageHeader} {rs : List StoredRow}
  {row : StoredRow} {k m fuel : Nat}

theorem StoredRow.Valid.quiet (h : row.Valid p.1.geometry.usableSize (pageSeen p.1 p.2.disk))
    (hq : Quiet p q) : row.Valid q.1.geometry.usableSize (pageSeen q.1 q.2.disk) := by
  rw [hq.geometry]
  exact h.congr fun x _ => hq.view x

theorem LeafOf.quiet
    (h : LeafOf p.1.geometry.usableSize (pageSeen p.1 p.2.disk) pgno rs page hdr)
    (hq : Quiet p q) :
    LeafOf q.1.geometry.usableSize (pageSeen q.1 q.2.disk) pgno rs page hdr := by
  rw [hq.geometry]
  exact h.congr (hq.view pgno) fun x _ => hq.view x

theorem RootHalves.ready (h : RootHalves p q trunks rest pgno left right rs)
    (hin : InUse p trunks ([pgno] ++ chains (row :: rs)))
    (hrow : row.Valid p.1.geometry.usableSize (pageSeen p.1 p.2.disk)) (rowid : Int64) :
    Ready q rest (if rowid ≤ splitRowid p.1.geometry.usableSize rs then left else right)
      (halfFor p.1.geometry.usableSize rowid rs) row := by
  rw [halfFor]
  split_ifs with hle
  · obtain ⟨hvalid, hin'⟩ := h.next hin hrow (show left ∈ [left, right] by simp)
      (List.take_sublist _ rs)
    exact ⟨h.replaced.sound, h.left_ne_one, h.atLeft, hvalid, hin'⟩
  · obtain ⟨hvalid, hin'⟩ := h.next hin hrow (show right ∈ [left, right] by simp)
      (List.drop_sublist _ rs)
    exact ⟨h.replaced.sound, h.right_ne_one, h.atRight, hvalid, hin'⟩

theorem balanceLeaf_halves (hs : SoundStore p trunks)
    (h : LeafOf p.1.geometry.usableSize (pageSeen p.1 p.2.disk) pgno rs page hdr)
    (hrow : row.Valid p.1.geometry.usableSize (pageSeen p.1 p.2.disk))
    (hin : InUse p trunks ([pgno] ++ chains (row :: rs))) (hne : rs ≠ [])
    (hspare : Spare p.1 trunks (2 * (k + 1))) :
    ∃ q rest left right, RootHalves p q trunks rest pgno left right rs ∧
      balanceLeaf pgno [] row.row.1 p =
        .ok (if row.row.1 ≤ splitRowid p.1.geometry.usableSize rs then left else right) q ∧
      Ready q rest (if row.row.1 ≤ splitRowid p.1.geometry.usableSize rs then left else right)
        (halfFor p.1.geometry.usableSize row.row.1 rs) row ∧
      Spare q.1 rest (2 * k) := by
  have hspec := balanceLeaf_root hs h
    (hin.sublist (List.Sublist.append_left (chains_sublist row rs) _)) row.row.1
  cases hbalance : balanceLeaf pgno [] row.row.1 p with
  | error e q =>
      rw [hbalance] at hspec
      rcases hspec with hnil | hnone
      · exact absurd hnil hne
      · exact absurd (hspare.mono (by omega)) hnone
  | ok target q =>
      rw [hbalance] at hspec
      obtain ⟨-, left, right, rest, hhalves, rfl⟩ := hspec
      refine ⟨q, rest, left, right, hhalves, rfl, hhalves.ready hin hrow row.row.1, ?_⟩
      exact (hhalves.replaced.spare _ hspare).mono (by
        simp only [List.length_cons, List.length_nil]
        omega)

theorem insert_halve (hs : SoundStore p trunks)
    (h : LeafOf p.1.geometry.usableSize (pageSeen p.1 p.2.disk) pgno rs page hdr)
    (hrow : row.Valid p.1.geometry.usableSize (pageSeen p.1 p.2.disk))
    (hin : InUse p trunks ([pgno] ++ chains (row :: rs)))
    (hfull : ¬ HasRoom pgno rs hdr row.bytes.length) (hne : rs ≠ [])
    (hspare : Spare p.1 trunks (2 * (k + 1))) (fuel : Nat) :
    ∃ target q rest, insertWithSplitting (fuel + 1) pgno row.row.1 row.bytes [] p =
        insertWithSplitting fuel target row.row.1 row.bytes [] q ∧
      Ready q rest target (halfFor p.1.geometry.usableSize row.row.1 rs) row ∧
      Spare q.1 rest (2 * k) ∧ q.1.geometry = p.1.geometry := by
  obtain ⟨p₁, hq₁, hrun₁⟩ := insert_full row hs.failAt h hfull fuel []
  have hbegin := hs.quiet hq₁
  obtain ⟨q, rest, left, right, hhalves, hbalance, hready, hleft⟩ := balanceLeaf_halves
    hbegin.sound (h.quiet hq₁) (hrow.quiet hq₁) (hbegin.aside hin).1 hne (hbegin.spare _ hspare)
  rw [hq₁.geometry] at hready hbalance
  exact ⟨_, q, rest, by rw [hrun₁, bind_ok hbalance], hready, hleft,
    hhalves.replaced.grows.geometry.trans hq₁.geometry⟩

theorem insert_settles_ok (h : Ready p trunks pgno rs row)
    (hsettles : Settles p.1.geometry.usableSize p.1.pageSize row.row.1 row.bytes.length rs k)
    (hspare : Spare p.1 trunks (2 * k)) (hfuel : k < fuel) :
    ∃ q, insertWithSplitting fuel pgno row.row.1 row.bytes [] p = .ok () q := by
  induction k generalizing p trunks pgno rs fuel with
  | zero =>
      obtain ⟨fuel, rfl⟩ : ∃ n, fuel = n + 1 := ⟨fuel - 1, by omega⟩
      obtain ⟨page, hdr, hleaf, hstart⟩ := h.leaf
      cases hsettles with
      | fits hfits =>
          obtain ⟨q, -, -, hrun, -⟩ := insert_room h.sound hleaf h.valid h.inUse
            ((hasRoom_compact h.ne_one hstart).mpr hfits) fuel []
          exact ⟨q, hrun⟩
  | succ k ih =>
      obtain ⟨fuel, rfl⟩ : ∃ n, fuel = n + 1 := ⟨fuel - 1, by omega⟩
      obtain ⟨page, hdr, hleaf, hstart⟩ := h.leaf
      cases hsettles with
      | halve hfull hne hnext =>
          obtain ⟨target, q, rest, hrun, hready, hleft, hgeometry⟩ := insert_halve h.sound hleaf
            h.valid h.inUse (fun hroom => hfull ((hasRoom_compact h.ne_one hstart).mp hroom)) hne
            hspare fuel
          rw [hrun]
          refine ih hready ?_ hleft (by omega)
          rw [PagerState.pageSize, hgeometry]
          exact hnext

end Alone

/-! ## Below a parent -/

def splitHalf (usable : Nat) (rowid : Int64) (rs : List StoredRow) (right leaf : UInt32) :
    List StoredRow :=
  if right = leaf then halfFor usable rowid rs else rightRows usable rs

def StaysLeft (usable : Nat) (rowid : Int64) (rs : List StoredRow) (right leaf : UInt32) : Prop :=
  right = leaf ∧ rowid ≤ splitRowid usable rs

instance (usable : Nat) (rowid : Int64) (rs : List StoredRow) (right leaf : UInt32) :
    Decidable (StaysLeft usable rowid rs right leaf) :=
  inferInstanceAs (Decidable (_ ∧ _))

theorem splitHalf_eq (usable : Nat) (rowid : Int64) (rs : List StoredRow) (right leaf : UInt32) :
    splitHalf usable rowid rs right leaf =
      if StaysLeft usable rowid rs right leaf then leftRows usable rs else rightRows usable rs := by
  rw [splitHalf, halfFor]
  by_cases hright : right = leaf
  · by_cases hle : rowid ≤ splitRowid usable rs
    · rw [if_pos hright, if_pos hle, if_pos ⟨hright, hle⟩]
    · rw [if_pos hright, if_neg hle, if_neg fun h => hle h.2]
  · rw [if_neg hright, if_neg fun h => hright h.1]

structure LeafBelow (p : PagerState × World DbFile) (trunks : List (UInt32 × List UInt32))
    (leaf parent right : UInt32) (rs : List StoredRow) (ds : List Divider) (row : StoredRow)
    (page pbuf : Bytes) (hdr phdr : PageHeader) : Prop where
  sound : SoundStore p trunks
  atLeaf : LeafOf p.1.geometry.usableSize (pageSeen p.1 p.2.disk) leaf rs page hdr
  ne_one : leaf ≠ 1
  atParent : NodeAt (pageSeen p.1 p.2.disk) parent ds right pbuf phdr
  child : leaf ∈ ds.map Divider.child ++ [right]
  valid : row.Valid p.1.geometry.usableSize (pageSeen p.1 p.2.disk)
  inUse : InUse p trunks ([leaf, parent] ++ chains (row :: rs))
  old : ∀ x ∈ ds.map Divider.child ++ [right], ¬ Fresh p trunks x

variable {r : PagerState × World DbFile} {pages' : List UInt32} {rows' : List (Int64 × Bytes)}

section Below

variable {p q : PagerState × World DbFile} {trunks rest : List (UInt32 × List UInt32)}
  {leaf parent right new : UInt32} {page pbuf : Bytes} {hdr phdr : PageHeader}
  {rs : List StoredRow} {ds : List Divider} {row : StoredRow} {k m fuel : Nat}

theorem LeafHalves.quiet (h : LeafHalves p q trunks rest leaf parent new right rs ds)
    (hq : Quiet q r) :
    LeafHalves p r trunks rest leaf parent new right rs ds where
  ne_one := h.ne_one
  fresh := h.fresh
  replaced := h.replaced.trans ((h.replaced.sound.quiet hq).widen h.replaced.inUse)
  atLeaf := h.atLeaf.quiet hq
  atNew := h.atNew.quiet hq
  atParent := by
    obtain ⟨upage, uhdr, hup⟩ := h.atParent
    exact ⟨upage, uhdr, hup.congr (hq.view parent)⟩

theorem balanceLeaf_split (ancestors : List UInt32)
    (h : LeafBelow p trunks leaf parent right rs ds row page pbuf hdr phdr) (hne : rs ≠ [])
    (halloc : CanAllocate p.1 trunks)
    (hfit : DividerFits parent ds phdr (splitRowid p.1.geometry.usableSize rs)) :
    ∃ new q rest, balanceLeaf leaf (parent :: ancestors) row.row.1 p =
        .ok (if StaysLeft p.1.geometry.usableSize row.row.1 rs right leaf then leaf else new) q ∧
      LeafHalves p q trunks rest leaf parent new right rs ds := by
  obtain ⟨new, p₁, rest, hsplit, hhalves⟩ := splitLeaf_ok h.sound h.atLeaf h.ne_one
    (h.inUse.sublist (List.Sublist.append_left (chains_sublist row rs) _)) h.atParent h.child hne
    halloc hfit
  obtain ⟨upage, uhdr, hup⟩ := hhalves.atParent
  have hbegin : balanceLeaf leaf (parent :: ancestors) row.row.1 p =
      targetAfterSplit parent new row.row.1 p₁ := by
    simp only [balanceLeaf]
    rw [bind_ok (tryResult_ok hsplit)]
  by_cases hright : right = leaf
  · subst hright
    rw [divided, if_pos rfl] at hup
    have hnot : new ∉ (ds ++ [Divider.built right (splitRowid p.1.geometry.usableSize rs)]).map
        Divider.child := by
      rw [List.map_append]
      exact fun hmem => h.old new hmem hhalves.fresh
    obtain ⟨q, htarget, hq⟩ :=
      targetAfterSplit_last hhalves.replaced.sound.failAt hup hnot row.row.1
    refine ⟨new, q, rest, ?_, hhalves.quiet hq⟩
    rw [hbegin, htarget]
    by_cases hle : row.row.1 ≤ splitRowid p.1.geometry.usableSize rs
    · rw [if_neg (Int64.not_lt.mpr hle), if_pos ⟨rfl, hle⟩]
    · rw [if_pos (Int64.not_le.mp hle), if_neg fun hstays => hle hstays.2]
  · rw [divided, if_neg hright] at hup
    obtain ⟨q, htarget, hq⟩ := targetAfterSplit_found hhalves.replaced.sound.failAt hup
      (show new ∈ _ by simp [Divider.built]) row.row.1
    refine ⟨new, q, rest, ?_, hhalves.quiet hq⟩
    rw [hbegin, htarget, if_neg fun hstays => hright hstays.1]

theorem LeafHalves.ready (h : LeafHalves p q trunks rest leaf parent new right rs ds)
    (hb : LeafBelow p trunks leaf parent right rs ds row page pbuf hdr phdr) :
    Ready q rest (if StaysLeft p.1.geometry.usableSize row.row.1 rs right leaf then leaf else new)
      (splitHalf p.1.geometry.usableSize row.row.1 rs right leaf) row := by
  have hall := h.replaced.frame hb.inUse
  have hvalid : row.Valid q.1.geometry.usableSize (pageSeen q.1 q.2.disk) := by
    rw [h.replaced.grows.geometry]
    refine hb.valid.congr fun x hx => h.replaced.view hb.inUse x ?_
    exact List.mem_flatMap.mpr ⟨row, by simp, hx⟩
  have hin : ∀ target rs', target ∈ [new, leaf, parent] → rs'.Sublist rs →
      InUse q rest ([target] ++ chains (row :: rs')) := fun target rs' hmem hsub =>
    hall.sublist (List.Sublist.append (List.singleton_sublist.mpr hmem)
      ((hsub.cons_cons row).flatMap _))
  rw [splitHalf_eq]
  split_ifs with hstays
  · exact ⟨h.replaced.sound, hb.ne_one, h.atLeaf, hvalid,
      hin _ _ (by simp) (List.take_sublist _ rs)⟩
  · exact ⟨h.replaced.sound, h.ne_one, h.atNew, hvalid, hin _ _ (by simp) (List.drop_sublist _ rs)⟩

end Below

/-! ## Rows in their order -/

section Order

variable {usable : Nat} {view : UInt32 → Result Bytes} {lo hi : Option Int64} {pgno : UInt32}
  {rs : List StoredRow} {row : StoredRow}

theorem placed_cons (r : StoredRow) (rs : List StoredRow) (row : StoredRow) :
    placed (r :: rs) row =
      if row.row.1 ≤ r.row.1 then row :: r :: rs else r :: placed rs row := by
  by_cases hle : row.row.1 ≤ r.row.1
  · simp [placed, placeOf, List.findIdx_cons, hle]
  · simp [placed, placeOf, List.findIdx_cons, hle]

theorem ascends_placed (hasc : Ascends (rs.map StoredRow.row))
    (hnew : row.row.1 ∉ rs.map fun r => r.row.1) :
    Ascends ((placed rs row).map StoredRow.row) := by
  induction rs with
  | nil => exact List.pairwise_singleton _ _
  | cons r rs ih =>
      rw [List.map_cons, Ascends, List.pairwise_cons] at hasc
      rw [List.map_cons, List.mem_cons, not_or] at hnew
      rw [placed_cons]
      split_ifs with hle
      · have hlt : row.row.1 < r.row.1 := Int64.lt_of_le_of_ne hle hnew.1
        refine List.Pairwise.cons (fun x hx => ?_) (List.Pairwise.cons hasc.1 hasc.2)
        rcases List.mem_cons.mp hx with rfl | hx
        · exact hlt
        · exact Int64.lt_trans hlt (hasc.1 x hx)
      · refine List.Pairwise.cons (fun x hx => ?_) (ih hasc.2 hnew.2)
        rw [((placed_perm rs row).map StoredRow.row).mem_iff, List.map_cons, List.mem_cons] at hx
        rcases hx with rfl | hx
        · exact Int64.not_le.mp hle
        · exact hasc.1 x hx

theorem splitRowid_parts (usable : Nat) (hne : rs ≠ []) (hasc : Ascends (rs.map StoredRow.row)) :
    (∃ r ∈ rs, splitRowid usable rs = r.row.1) ∧
      (∀ r ∈ leftRows usable rs, r.row.1 ≤ splitRowid usable rs) ∧
      ∀ r ∈ rightRows usable rs, splitRowid usable rs < r.row.1 := by
  obtain ⟨init, last, hleft, hrowid⟩ := exists_last_leftRows usable hne
  have hlast : last ∈ leftRows usable rs := by
    rw [hleft]
    exact List.mem_append_right _ (List.mem_singleton_self last)
  rw [← leftRows_append_rightRows usable rs, List.map_append, Ascends, List.pairwise_append] at hasc
  obtain ⟨hascLeft, -, hbetween⟩ := hasc
  refine ⟨⟨last, leftRows_subset hlast, hrowid⟩, fun r hr => ?_, fun r hr => ?_⟩
  · rw [hrowid]
    rw [hleft, List.mem_append, List.mem_singleton] at hr
    rw [hleft, List.map_append, List.pairwise_append] at hascLeft
    rcases hr with hr | rfl
    · exact Int64.le_of_lt (hascLeft.2.2 _ (List.mem_map_of_mem hr) _ (by simp))
    · exact Int64.le_refl _
  · rw [hrowid]
    exact hbetween _ (List.mem_map_of_mem hlast) _ (List.mem_map_of_mem hr)

structure InBounds (lo hi : Option Int64) (rs : List StoredRow) : Prop where
  ascends : Ascends (rs.map StoredRow.row)
  within : ∀ r ∈ rs, Within lo hi r.row.1

theorem InBounds.searchPages {page : Bytes} {hdr : PageHeader} (h : InBounds lo hi rs)
    (hleaf : LeafOf usable view pgno rs page hdr) :
    SearchPages usable view 1 lo hi pgno (pgno :: chains rs) (rs.map StoredRow.row) :=
  .leaf hleaf h.ascends h.within

theorem InBounds.placed (h : InBounds lo hi rs) (hrow : Within lo hi row.row.1)
    (hnew : row.row.1 ∉ rs.map fun r => r.row.1) : InBounds lo hi (placed rs row) where
  ascends := ascends_placed h.ascends hnew
  within r hr := by
    rcases List.mem_cons.mp ((placed_perm rs row).subset hr) with rfl | hr
    · exact hrow
    · exact h.within r hr

theorem InBounds.split (h : InBounds lo hi rs) (usable : Nat) (hne : rs ≠ []) :
    Within lo hi (splitRowid usable rs) ∧
      InBounds lo (some (splitRowid usable rs)) (leftRows usable rs) ∧
      InBounds (some (splitRowid usable rs)) hi (rightRows usable rs) := by
  obtain ⟨hrowid, hleft, hright⟩ := splitRowid_parts usable hne h.ascends
  obtain ⟨r, hr, heq⟩ := hrowid
  refine ⟨heq ▸ h.within r hr, ⟨?_, fun r hr => ?_⟩, ⟨?_, fun r hr => ?_⟩⟩
  · exact h.ascends.sublist ((List.take_sublist _ rs).map _)
  · exact ⟨(h.within r (leftRows_subset hr)).1, fun k hk => Option.mem_some_iff.mp hk ▸ hleft r hr⟩
  · exact h.ascends.sublist ((List.drop_sublist _ rs).map _)
  · exact ⟨fun k hk => Option.mem_some_iff.mp hk ▸ hright r hr,
      (h.within r (rightRows_subset hr)).2⟩

variable {k : Int64} {pages : List UInt32}

theorem within_left (h : Within lo hi row.row.1) (hle : row.row.1 ≤ k) :
    Within lo (some k) row.row.1 :=
  ⟨h.1, fun _ hj => Option.mem_some_iff.mp hj ▸ hle⟩

theorem within_right (h : Within lo hi row.row.1) (hlt : ¬ row.row.1 ≤ k) :
    Within (some k) hi row.row.1 :=
  ⟨fun _ hj => Option.mem_some_iff.mp hj ▸ Int64.not_le.mp hlt, h.2⟩

theorem not_mem_rowids {rs' : List StoredRow} (hnew : row.row.1 ∉ rs.map fun r => r.row.1)
    (hsub : rs' ⊆ rs) : row.row.1 ∉ rs'.map fun r => r.row.1 :=
  fun hmem => hnew (List.map_subset _ hsub hmem)

theorem halves_perm (other : UInt32) {half half' : List StoredRow}
    (hhalves : (half ++ half').Perm rs) (hpages : pages'.Perm (pages ++ chains (row :: half)))
    (hrows : rows'.Perm (row.row :: half.map StoredRow.row)) :
    (pages' ++ (other :: chains half')).Perm (pages ++ [other] ++ chains (row :: rs)) ∧
      (rows' ++ half'.map StoredRow.row).Perm (row.row :: rs.map StoredRow.row) := by
  have hchains := chains_perm hhalves
  have hall := hhalves.map StoredRow.row
  rw [chains, List.flatMap_append] at hchains
  rw [List.map_append] at hall
  constructor
  · rw [List.perm_iff_count] at hpages hchains ⊢
    intro x
    have hx := hpages x
    have hx' := hchains x
    simp only [chains_cons, List.count_append, List.count_cons, List.count_nil] at hx hx' ⊢
    simp only [chains] at hx hx' ⊢
    omega
  · rw [List.perm_iff_count] at hrows hall ⊢
    intro x
    have hx := hrows x
    have hx' := hall x
    simp only [List.count_append, List.count_cons] at hx hx' ⊢
    omega

theorem Grown.searchPages (h : Grown usable view row pgno rs pages) (hin : InBounds lo hi rs)
    (hrow : Within lo hi row.row.1) (hnew : row.row.1 ∉ rs.map fun r => r.row.1) :
    ∃ d pages' rows', SearchPages usable view d lo hi pgno pages' rows' ∧
      pages'.Perm (pages ++ chains (row :: rs)) ∧
      rows'.Perm (row.row :: rs.map StoredRow.row) := by
  induction h generalizing lo hi with
  | @fits pgno rs page hdr h =>
      refine ⟨1, _, _, (hin.placed hrow hnew).searchPages h,
        (chains_perm (placed_perm rs row)).cons pgno, ?_⟩
      rw [← List.map_cons]
      exact (placed_perm rs row).map _
  | @left pgno left right rs page page' hdr hdr' pages hne h hle hbelow hright ih =>
      obtain ⟨hk, hinLeft, hinRight⟩ := hin.split usable hne
      obtain ⟨d, pages', rows', htree, hpages, hrows⟩ := ih hinLeft (within_left hrow hle)
        (not_mem_rowids hnew leftRows_subset)
      obtain ⟨hpages', hrows'⟩ := halves_perm right
        (.of_eq (leftRows_append_rightRows usable rs)) hpages hrows
      exact ⟨_, _, _, .two h hk htree (hinRight.searchPages hright), hpages'.cons pgno, hrows'⟩
  | @right pgno left right rs page page' hdr hdr' pages hne h hlt hleft hbelow ih =>
      obtain ⟨hk, hinLeft, hinRight⟩ := hin.split usable hne
      obtain ⟨d, pages', rows', htree, hpages, hrows⟩ := ih hinRight (within_right hrow hlt)
        (not_mem_rowids hnew rightRows_subset)
      obtain ⟨hpages', hrows'⟩ := halves_perm left (List.perm_append_comm.trans
        (.of_eq (leftRows_append_rightRows usable rs))) hpages hrows
      have hsame : (pages ++ [left] ++ chains (row :: rs)).Perm
          (left :: pages ++ chains (row :: rs)) :=
        (List.perm_append_singleton left pages).append_right _
      exact ⟨_, _, _, .two h hk (hinLeft.searchPages hleft) htree,
        (List.perm_append_comm.trans (hpages'.trans hsame)).cons pgno,
        List.perm_append_comm.trans hrows'⟩

end Order

/-! ## One insertion -/

section Step

variable {p q : PagerState × World DbFile} {trunks rest : List (UInt32 × List UInt32)}
  {root leaf target : UInt32} {pages path : List UInt32} {rows : List (Int64 × Bytes)}
  {rs : List StoredRow} {row : StoredRow} {page : Bytes} {hdr : PageHeader} {rowid : Int64}
  {k m n : Nat} {view view' : UInt32 → Result Bytes}

theorem Ready.grows (h : Ready p trunks target rs row)
    (hsettles : Settles p.1.geometry.usableSize p.1.pageSize row.row.1 row.bytes.length rs k)
    (hspare : Spare p.1 trunks (2 * k)) :
    ∃ q rest pages, insertWithSplitting (k + 1) target row.row.1 row.bytes [] p = .ok () q ∧
      Replaced p q trunks rest [target] pages ∧
      Grown q.1.geometry.usableSize (pageSeen q.1 q.2.disk) row target rs pages := by
  obtain ⟨q, hrun⟩ := insert_settles_ok h hsettles hspare (Nat.lt_succ_self k)
  obtain ⟨page, hdr, hleaf, -⟩ := h.leaf
  obtain ⟨rest, pages, -, hrep, hgrown, -⟩ := insert_alone_of_ok h.sound hleaf h.valid h.inUse hrun
  exact ⟨q, rest, pages, hrun, hrep, hgrown⟩

/--
The leaf at the end of `path` takes a cell of `n` bytes with `m` new pages: it has
room, or it is the root, or it is the right-most child of a page with room for a
divider.
-/
inductive Takes (usable pageSize : Nat) (view : UInt32 → Result Bytes) (leaf : UInt32)
    (rs : List StoredRow) (hdr : PageHeader) (rowid : Int64) (n : Nat) :
    List UInt32 → Nat → Prop where
  | room {path : List UInt32} (h : HasRoom leaf rs hdr n) :
      Takes usable pageSize view leaf rs hdr rowid n path 0
  | root {k : Nat} (hfull : ¬ HasRoom leaf rs hdr n) (hne : rs ≠ [])
      (h : Settles usable pageSize rowid n (halfFor usable rowid rs) k) :
      Takes usable pageSize view leaf rs hdr rowid n [] (2 * k + 2)
  | last {k : Nat} {parent : UInt32} {ancestors : List UInt32} {ds : List Divider} {pbuf : Bytes}
      {phdr : PageHeader} (hfull : ¬ HasRoom leaf rs hdr n) (hne : rs ≠ [])
      (hparent : NodeAt view parent ds leaf pbuf phdr) (hlast : ∀ d ∈ ds, d.rowid < rowid)
      (hfit : DividerFits parent ds phdr (splitRowid usable rs))
      (h : Settles usable pageSize rowid n (halfFor usable rowid rs) k) :
      Takes usable pageSize view leaf rs hdr rowid n (parent :: ancestors) (2 * k + 1)

theorem Takes.congr {usable pageSize : Nat}
    (h : Takes usable pageSize view leaf rs hdr rowid n path m)
    (hsame : ∀ x ∈ path, view' x = view x) :
    Takes usable pageSize view' leaf rs hdr rowid n path m := by
  cases h with
  | room h => exact .room h
  | root hfull hne h => exact .root hfull hne h
  | last hfull hne hparent hlast hfit h =>
      exact .last hfull hne (hparent.congr (hsame _ List.mem_cons_self)) hlast hfit h

theorem Routed.root_mem (h : Routed view rowid root leaf path) : root ∈ leaf :: path := by
  induction h with
  | here => exact List.mem_cons_self
  | child _ _ ih => exact List.mem_cons_of_mem _ ih

theorem Routed.parent {parent : UInt32} (h : Routed view rowid root leaf (parent :: path)) :
    Routed view rowid root parent path := by
  cases h with
  | child h _ => exact h

theorem insertAtLeaf_full (f : UInt32 → PagerM Unit) (hp : p.2.failAt = none)
    (h : LeafOf p.1.geometry.usableSize (pageSeen p.1 p.2.disk) leaf rs page hdr)
    (hfull : ¬ HasRoom leaf rs hdr row.bytes.length) (path : List UInt32) :
    ∃ q, Quiet p q ∧ insertAtLeaf f leaf page hdr row.row.1 row.bytes path p =
      (balanceLeaf leaf path row.row.1 >>= f) q := by
  obtain ⟨q, hread, hq⟩ := readPageForWrite_ok hp h.shown
  refine ⟨q, hq, ?_⟩
  rw [insertAtLeaf, leafInsertIndex_ok h, liftResult_ok_bind, bind_ok hread,
    insertLeafCell_full h (placeOf_le rs row.row.1) hfull]
  simp only [isPageFull_pageFullError, if_true]

theorem insertAtLeaf_room (f : UInt32 → PagerM Unit) (hs : SoundStore p trunks)
    (h : LeafOf p.1.geometry.usableSize (pageSeen p.1 p.2.disk) leaf rs page hdr)
    (hrow : row.Valid p.1.geometry.usableSize (pageSeen p.1 p.2.disk))
    (hin : InUse p trunks ([leaf] ++ chains (row :: rs)))
    (hroom : HasRoom leaf rs hdr row.bytes.length) (path : List UInt32) :
    ∃ q page' hdr', insertAtLeaf f leaf page hdr row.row.1 row.bytes path p = .ok () q ∧
      Replaced p q trunks trunks [leaf] [leaf] ∧
      LeafOf q.1.geometry.usableSize (pageSeen q.1 q.2.disk) leaf (placed rs row) page' hdr' := by
  obtain ⟨p₁, hread, hq₁⟩ := readPageForWrite_ok hs.failAt h.shown
  obtain ⟨page', hdr', hinsert, hlen, hcarries, -⟩ := insertLeafCell_ok h hrow hroom
  have h₁ := (hs.quiet hq₁).widen hin.left
  obtain ⟨q, hwrite, hrep, hseen⟩ := h₁.sound.writePage h₁.inUse
    (show page'.length = p₁.1.pageSize by
      rw [hlen, h₁.grows.pageSize]
      exact length_shown hs hin (by simp) h.shown)
  have hall := h₁.trans hrep
  refine ⟨q, page', hdr', ?_, hall, hseen, hcarries, fun r hr => ?_⟩
  · rw [insertAtLeaf, leafInsertIndex_ok h, liftResult_ok_bind, bind_ok hread, hinsert]
    exact hwrite
  · refine valid_of_replaced hall hin (List.Subset.refl _) ?_ r ((placed_perm rs row).subset hr)
    rw [List.forall_mem_cons]
    exact ⟨hrow, h.valid⟩

theorem balanceLeaf_grows (hs : SoundStore p trunks)
    (h : LeafOf p.1.geometry.usableSize (pageSeen p.1 p.2.disk) leaf rs page hdr)
    (hrow : row.Valid p.1.geometry.usableSize (pageSeen p.1 p.2.disk))
    (hin : InUse p trunks ([leaf] ++ chains (row :: rs))) (hne : rs ≠ [])
    (hsettles : Settles p.1.geometry.usableSize p.1.pageSize row.row.1 row.bytes.length
      (halfFor p.1.geometry.usableSize row.row.1 rs) k)
    (hspare : Spare p.1 trunks (2 * (k + 1))) :
    ∃ q rest pages, (balanceLeaf leaf [] row.row.1 >>= fun target =>
        insertWithSplitting (k + 1) target row.row.1 row.bytes []) p = .ok () q ∧
      Replaced p q trunks rest [leaf] pages ∧
      Grown q.1.geometry.usableSize (pageSeen q.1 q.2.disk) row leaf rs pages := by
  obtain ⟨p₁, rest₁, left, right, hhalves, hbalance, hready, hleft⟩ :=
    balanceLeaf_halves hs h hrow hin hne hspare
  have hgeometry := hhalves.replaced.grows.geometry
  obtain ⟨q, rest, pages, hrun, hrep, hgrown⟩ := hready.grows
    (by rwa [PagerState.pageSize, hgeometry]) hleft
  rw [bind_ok hbalance]
  by_cases hle : row.row.1 ≤ splitRowid p.1.geometry.usableSize rs
  · rw [halfFor, if_pos hle] at hgrown
    rw [if_pos hle] at hrun hrep hgrown ⊢
    obtain ⟨hall, hwhole⟩ := Grown.of_left hhalves hin hne hle hrep hgrown
    exact ⟨q, rest, _, hrun, hall, hwhole⟩
  · rw [halfFor, if_neg hle] at hgrown
    rw [if_neg hle] at hrun hrep hgrown ⊢
    obtain ⟨hall, hwhole⟩ := Grown.of_right hhalves hin hne hle hrep hgrown
    exact ⟨q, rest, _, hrun, hall, hwhole⟩

structure LeafDivided (q : PagerState × World DbFile) (lo hi : Option Int64) (parent leaf : UInt32)
    (ds : List Divider) (row : StoredRow) (rs : List StoredRow) (left behind : List UInt32) :
    Prop where
  node : ∃ k new page hdr d rowsLeft rowsBehind, Within lo hi k ∧
    NodeAt (pageSeen q.1 q.2.disk) parent (ds ++ [.built leaf k]) new page hdr ∧
    SearchPages q.1.geometry.usableSize (pageSeen q.1 q.2.disk) d lo (some k) leaf left rowsLeft ∧
    SearchPages q.1.geometry.usableSize (pageSeen q.1 q.2.disk) d (some k) hi new behind
      rowsBehind ∧
    (rowsLeft ++ rowsBehind).Perm (row.row :: rs.map StoredRow.row)

theorem perm_parent {other : UInt32} {aside : List UInt32} (parent : UInt32) :
    (parent :: (pages ++ [other] ++ aside)).Perm (pages ++ ([other, parent] ++ aside)) := by
  rw [List.perm_iff_count]
  intro x
  simp only [List.count_append, List.count_cons, List.count_nil]
  omega

variable {parent : UInt32} {ds : List Divider} {pbuf : Bytes} {phdr : PageHeader}

theorem LeafBelow.grows {lo hi : Option Int64} (ancestors : List UInt32)
    (h : LeafBelow p trunks leaf parent leaf rs ds row page pbuf hdr phdr) (hne : rs ≠ [])
    (hfit : DividerFits parent ds phdr (splitRowid p.1.geometry.usableSize rs))
    (hsettles : Settles p.1.geometry.usableSize p.1.pageSize row.row.1 row.bytes.length
      (halfFor p.1.geometry.usableSize row.row.1 rs) k) (hspare : Spare p.1 trunks (2 * k + 1))
    (hin : InBounds lo hi rs) (hrow : Within lo hi row.row.1)
    (hnew : row.row.1 ∉ rs.map fun r => r.row.1) :
    ∃ q rest left behind, (balanceLeaf leaf (parent :: ancestors) row.row.1 >>= fun target =>
        insertWithSplitting (k + 1) target row.row.1 row.bytes []) p = .ok () q ∧
      Replaced p q trunks rest ([leaf, parent] ++ chains (row :: rs))
        (parent :: (left ++ behind)) ∧
      LeafDivided q lo hi parent leaf ds row rs left behind := by
  obtain ⟨new, p₁, rest₁, hbalance, hhalves⟩ :=
    balanceLeaf_split ancestors h hne hspare.canAllocate hfit
  have hready := hhalves.ready h
  have hgeometry := hhalves.replaced.grows.geometry
  rw [splitHalf, if_pos rfl] at hready
  have hleft : Spare p₁.1 rest₁ (2 * k) := (hhalves.replaced.spare _ hspare).mono (by
    simp only [List.length_cons, List.length_nil]
    omega)
  obtain ⟨q, rest, pages, hrun, hrep, hgrown⟩ := hready.grows
    (by rwa [PagerState.pageSize, hgeometry]) hleft
  have hall := hhalves.replaced.frame h.inUse
  obtain ⟨hk, hinLeft, hinRight⟩ := hin.split p.1.geometry.usableSize hne
  obtain ⟨upage, uhdr, hup⟩ := hhalves.atParent
  rw [divided, if_pos rfl] at hup
  have hstays : StaysLeft p.1.geometry.usableSize row.row.1 rs leaf leaf ↔
      row.row.1 ≤ splitRowid p.1.geometry.usableSize rs := and_iff_right rfl
  have hchains : ∀ half ⊆ rs, chains half ⊆ chains (row :: rs) := fun half hsub =>
    chains_subset fun r hr => List.mem_cons_of_mem row (hsub hr)
  rw [bind_ok hbalance]
  by_cases hle : row.row.1 ≤ splitRowid p.1.geometry.usableSize rs
  · rw [if_pos (hstays.mpr hle)] at hrun hrep hgrown ⊢
    rw [halfFor, if_pos hle] at hgrown
    obtain ⟨hrest, hview⟩ := hhalves.replaced.part h.inUse (List.Perm.swap leaf new [parent]) hrep
    obtain ⟨d, pages', rows', htree, hpages, hrows⟩ := hgrown.searchPages hinLeft
      (within_left hrow hle) (not_mem_rowids hnew leftRows_subset)
    obtain ⟨hpages', hrows'⟩ := halves_perm new
      (.of_eq (leftRows_append_rightRows p.1.geometry.usableSize rs)) hpages hrows
    obtain ⟨npage, nhdr, hbehind, -⟩ := hhalves.atNew
    rw [← hrep.grows.geometry] at hbehind
    have hbehind' := hbehind.congr (hview new (by simp)) fun x hx =>
      hview x (List.mem_append_right _ (hchains _ rightRows_subset hx))
    refine ⟨q, rest, pages', _, hrun, hrest.perm (.refl _) ?_, _, new, upage, uhdr, max d 1,
      rows', _, hk, hup.congr (hview parent (by simp)), htree.deepen (Nat.le_max_left ..),
      (hinRight.searchPages hbehind').deepen (Nat.le_max_right ..), hrows'⟩
    exact (hpages'.cons parent).trans (perm_parent parent)
  · rw [if_neg fun hmem => hle (hstays.mp hmem)] at hrun hrep hgrown ⊢
    rw [halfFor, if_neg hle] at hgrown
    obtain ⟨hrest, hview⟩ := hhalves.replaced.part h.inUse (.refl [new, leaf, parent]) hrep
    obtain ⟨d, pages', rows', htree, hpages, hrows⟩ := hgrown.searchPages hinRight
      (within_right hrow hle) (not_mem_rowids hnew rightRows_subset)
    obtain ⟨hpages', hrows'⟩ := halves_perm leaf (List.perm_append_comm.trans
      (.of_eq (leftRows_append_rightRows p.1.geometry.usableSize rs))) hpages hrows
    obtain ⟨lpage, lhdr, hleaf, -⟩ := hhalves.atLeaf
    rw [← hrep.grows.geometry] at hleaf
    have hleaf' := hleaf.congr (hview leaf (by simp)) fun x hx =>
      hview x (List.mem_append_right _ (hchains _ leftRows_subset hx))
    refine ⟨q, rest, _, pages', hrun, hrest.perm (.refl _) ?_, _, new, upage, uhdr, max d 1,
      _, rows', hk, hup.congr (hview parent (by simp)),
      (hinLeft.searchPages hleaf').deepen (Nat.le_max_right ..), htree.deepen (Nat.le_max_left ..),
      List.perm_append_comm.trans hrows'⟩
    exact ((List.perm_append_comm.trans hpages').cons parent).trans (perm_parent parent)

structure Reached (p : PagerState × World DbFile) (trunks : List (UInt32 × List UInt32))
    (root : UInt32) (pages : List UInt32) (rows : List (Int64 × Bytes)) (row : StoredRow)
    (leaf : UInt32) (path : List UInt32) (rs : List StoredRow) (page : Bytes) (hdr : PageHeader)
    (m : Nat) : Prop where
  sound : SoundStore p trunks
  tree : ∃ d, SearchPages p.1.geometry.usableSize (pageSeen p.1 p.2.disk) d none none root pages
    rows
  inUse : InUse p trunks (pages ++ row.chain)
  /-- Only a root is the first page. -/
  first : 1 ∈ pages → root = 1
  way : Routed (pageSeen p.1 p.2.disk) row.row.1 root leaf path
  atLeaf : LeafOf p.1.geometry.usableSize (pageSeen p.1 p.2.disk) leaf rs page hdr
  takes : Takes p.1.geometry.usableSize p.1.pageSize (pageSeen p.1 p.2.disk) leaf rs hdr row.row.1
    row.bytes.length path m
  valid : row.Valid p.1.geometry.usableSize (pageSeen p.1 p.2.disk)
  spare : Spare p.1 trunks m
  new : row.row.1 ∉ rows.map Prod.fst

structure PutInto (p q : PagerState × World DbFile) (trunks rest : List (UInt32 × List UInt32))
    (root : UInt32) (pages pages' : List UInt32) (rows rows' : List (Int64 × Bytes))
    (row : StoredRow) : Prop where
  replaced : Replaced p q trunks rest (pages ++ row.chain) pages'
  tree : ∃ d, SearchPages q.1.geometry.usableSize (pageSeen q.1 q.2.disk) d none none root pages'
    rows'
  rows_perm : rows'.Perm (row.row :: rows)

theorem within_unbounded (rowid : Int64) : Within none none rowid :=
  ⟨fun _ h => absurd h (by simp), fun _ h => absurd h (by simp)⟩

section Arrival

variable (h : Reached p trunks root pages rows row leaf path rs page hdr m)
include h

theorem Reached.putInto_of_grown (hrep : Replaced p q trunks rest [leaf] pages')
    (hgrown : Grown q.1.geometry.usableSize (pageSeen q.1 q.2.disk) row leaf rs pages') :
    ∃ pages' rows', PutInto p q trunks rest root pages pages' rows rows' row := by
  obtain ⟨depth, htree⟩ := h.tree
  obtain ⟨s, inner, within, hparts, hwithin, -⟩ := htree.routed (within_unbounded _) h.way
  obtain ⟨d, hinner⟩ := hparts.tree
  obtain ⟨rfl, rfl, hasc, hin⟩ := hinner.leaf_inv h.atLeaf
  have hnew : row.row.1 ∉ rs.map fun r => r.row.1 := fun hmem => h.new (by
    rw [hparts.rows_eq, List.map_append, List.map_append, List.map_map]
    exact List.mem_append_left _ (List.mem_append_right _ hmem))
  obtain ⟨d', grown, rows', hgrown', hpages, hrows⟩ := hgrown.searchPages ⟨hasc, hin⟩ hwithin hnew
  have hperm : (pages ++ row.chain).Perm ([leaf] ++ (s.others ++ chains (row :: rs))) := by
    refine (hparts.pages_perm.append_right row.chain).trans ?_
    rw [List.perm_iff_count]
    intro x
    simp only [chains_cons, List.count_append, List.count_cons, List.count_nil]
    omega
  have hin' := h.inUse.perm hperm.symm
  rw [hrep.grows.geometry] at hgrown'
  obtain ⟨d'', whole, hwhole, hothers⟩ := hparts.around _ d' grown rows' hgrown'
    fun x hx => hrep.view hin' x (List.mem_append_left _ hx)
  rw [← hrep.grows.geometry] at hwhole
  refine ⟨whole, _, (hrep.widen hin').perm hperm ?_, ⟨d'', hwhole⟩, ?_⟩
  · refine (hothers.trans (hpages.append_left _)).trans ?_
    rw [List.perm_iff_count]
    intro x
    simp only [List.count_append]
    omega
  · rw [hparts.rows_eq]
    rw [List.perm_iff_count] at hrows ⊢
    intro x
    have hx := hrows x
    simp only [List.count_append, List.count_cons] at hx ⊢
    omega

theorem Reached.putInto_last {ancestors : List UInt32} (hpath : path = parent :: ancestors)
    (hne : rs ≠ []) (hparent : NodeAt (pageSeen p.1 p.2.disk) parent ds leaf pbuf phdr)
    (hlast : ∀ d ∈ ds, d.rowid < row.row.1)
    (hfit : DividerFits parent ds phdr (splitRowid p.1.geometry.usableSize rs))
    (hsettles : Settles p.1.geometry.usableSize p.1.pageSize row.row.1 row.bytes.length
      (halfFor p.1.geometry.usableSize row.row.1 rs) k) (hspare : Spare p.1 trunks (2 * k + 1)) :
    ∃ q rest pages' rows', (balanceLeaf leaf path row.row.1 >>= fun target =>
        insertWithSplitting (k + 1) target row.row.1 row.bytes []) p = .ok () q ∧
      PutInto p q trunks rest root pages pages' rows rows' row := by
  subst hpath
  obtain ⟨depth, htree⟩ := h.tree
  obtain ⟨s, inner, within, hparts, hwithin, hancestors⟩ :=
    htree.routed (within_unbounded _) h.way.parent
  obtain ⟨d, hinner⟩ := hparts.tree
  obtain ⟨d', lo', others, inner', before, within', hleaf, hwithin', hpages, rfl, hfill⟩ :=
    hinner.last_child hparent hwithin hlast
  obtain ⟨rfl, rfl, hasc, hin⟩ := hleaf.leaf_inv h.atLeaf
  have hnew : row.row.1 ∉ rs.map fun r => r.row.1 := fun hmem => h.new (by
    rw [hparts.rows_eq]
    simp only [List.map_append, List.map_map, List.mem_append]
    exact .inl (.inr (.inr hmem)))
  have hperm : (pages ++ row.chain).Perm
      (([leaf, parent] ++ chains (row :: rs)) ++ (s.others ++ others)) := by
    refine ((hparts.pages_perm.trans (hpages.append_left _)).append_right row.chain).trans ?_
    rw [List.perm_iff_count]
    intro x
    simp only [chains_cons, List.count_append, List.count_cons, List.count_nil]
    omega
  have hinUse := h.inUse.perm hperm.symm
  have hpagesIn := h.inUse.left
  have hone : leaf ≠ 1 := by
    rintro rfl
    have hroot := h.first (hparts.pages_perm.symm.subset
      (List.mem_append_right _ (hpages.symm.subset (by simp))))
    have hmem := hroot ▸ h.way.parent.root_mem
    rcases List.mem_cons.mp hmem with heq | hmem
    · have hnodup := hinUse.left.left.nodup
      simp [heq] at hnodup
    · exact hinUse.apart (by simp) (List.mem_append_left _ (hancestors hmem))
  have hbelow : LeafBelow p trunks leaf parent leaf rs ds row page pbuf hdr phdr := {
    sound := h.sound
    atLeaf := h.atLeaf
    ne_one := hone
    atParent := hparent
    child := List.mem_append_right _ (List.mem_singleton_self leaf)
    valid := h.valid
    inUse := hinUse.left
    old := fun x hx => hpagesIn.not_fresh ((hparts.pages_perm.symm.subset
      (List.mem_append_right _ (hinner.children_subset hparent hx)))) }
  obtain ⟨q, rest, left, behind, hrun, hrep, hdivided⟩ :=
    hbelow.grows ancestors hne hfit hsettles hspare ⟨hasc, hin⟩ hwithin' hnew
  obtain ⟨j, new, upage, uhdr, d₁, rowsLeft, rowsBehind, hj, hup, hleft, hbehind, hrows⟩ :=
    hdivided.node
  have hview := hrep.view hinUse
  rw [hrep.grows.geometry] at hleft hbehind
  obtain ⟨d₂, hmid⟩ := hfill _ j new upage uhdr d₁ left behind rowsLeft rowsBehind hup hj hleft
    hbehind fun x hx => hview x (List.mem_append_right _ hx)
  obtain ⟨d₃, whole, hwhole, hothers⟩ := hparts.around _ d₂ _ _ hmid
    fun x hx => hview x (List.mem_append_left _ hx)
  rw [← hrep.grows.geometry] at hwhole
  refine ⟨q, rest, whole, _, hrun, (hrep.widen hinUse).perm hperm ?_, ⟨d₃, hwhole⟩, ?_⟩
  · refine hothers.trans ?_
    rw [List.perm_iff_count]
    intro x
    simp only [List.count_append, List.count_cons]
    omega
  · rw [hparts.rows_eq]
    rw [List.perm_iff_count] at hrows ⊢
    intro x
    have hx := hrows x
    simp only [List.count_append, List.count_cons] at hx ⊢
    omega

end Arrival


theorem Reached.quiet (h : Reached p trunks root pages rows row leaf path rs page hdr m)
    (hq : Quiet p q) : Reached q trunks root pages rows row leaf path rs page hdr m where
  sound := (h.sound.quiet hq).sound
  tree := by
    obtain ⟨d, htree⟩ := h.tree
    rw [hq.geometry]
    exact ⟨d, htree.congr fun x _ => hq.view x⟩
  inUse := ((h.sound.quiet hq).aside h.inUse).1
  first := h.first
  way := h.way.congr fun x _ => hq.view x
  atLeaf := h.atLeaf.quiet hq
  takes := by
    rw [PagerState.pageSize, hq.geometry]
    exact h.takes.congr fun x _ => hq.view x
  valid := h.valid.quiet hq
  spare := (h.sound.quiet hq).spare _ h.spare
  new := h.new

theorem PutInto.of_quiet (h : PutInto q r trunks rest root pages pages' rows rows' row)
    (hs : SoundStore p trunks) (hin : InUse p trunks (pages ++ row.chain)) (hq : Quiet p q) :
    PutInto p r trunks rest root pages pages' rows rows' row where
  replaced := ((hs.quiet hq).widen hin).trans h.replaced
  tree := h.tree
  rows_perm := h.rows_perm

theorem Reached.inUse_leaf (h : Reached p trunks root pages rows row leaf path rs page hdr m) :
    InUse p trunks ([leaf] ++ chains (row :: rs)) := by
  obtain ⟨depth, htree⟩ := h.tree
  obtain ⟨s, inner, within, hparts, -, -⟩ := htree.routed (within_unbounded _) h.way
  obtain ⟨d, hinner⟩ := hparts.tree
  obtain ⟨rfl, -, -, -⟩ := hinner.leaf_inv h.atLeaf
  have hperm : (pages ++ row.chain).Perm (([leaf] ++ chains (row :: rs)) ++ s.others) := by
    refine (hparts.pages_perm.append_right row.chain).trans ?_
    rw [List.perm_iff_count]
    intro x
    simp only [chains_cons, List.count_append, List.count_cons, List.count_nil]
    omega
  exact (h.inUse.perm hperm.symm).left

theorem Reached.inserts (h : Reached p trunks root pages rows row leaf path rs page hdr m) :
    ∃ fuel q rest pages' rows', insertAtLeaf
        (fun target => insertWithSplitting fuel target row.row.1 row.bytes []) leaf page hdr
        row.row.1 row.bytes path p = .ok () q ∧
      PutInto p q trunks rest root pages pages' rows rows' row := by
  cases htakes : h.takes with
  | room hroom =>
      obtain ⟨q, page', hdr', hrun, hrep, hleaf⟩ := insertAtLeaf_room
        (fun target => insertWithSplitting 0 target row.row.1 row.bytes []) h.sound h.atLeaf h.valid
        h.inUse_leaf hroom path
      obtain ⟨pages', rows', hput⟩ := h.putInto_of_grown hrep (.fits hleaf)
      exact ⟨0, q, trunks, pages', rows', hrun, hput⟩
  | @root k hfull hne hsettles =>
      obtain ⟨p₁, hq, hrun₁⟩ := insertAtLeaf_full
        (fun target => insertWithSplitting (k + 1) target row.row.1 row.bytes []) h.sound.failAt
        h.atLeaf hfull []
      have h₁ := h.quiet hq
      obtain ⟨q, rest, grown, hrun, hrep, hgrown⟩ := balanceLeaf_grows h₁.sound h₁.atLeaf h₁.valid
        h₁.inUse_leaf hne (by rwa [PagerState.pageSize, hq.geometry]) h₁.spare
      obtain ⟨pages', rows', hput⟩ := h₁.putInto_of_grown hrep hgrown
      exact ⟨k + 1, q, rest, pages', rows', hrun₁.trans hrun, hput.of_quiet h.sound h.inUse hq⟩
  | @last k parent ancestors ds pbuf phdr hfull hne hparent hlast hfit hsettles =>
      obtain ⟨p₁, hq, hrun₁⟩ := insertAtLeaf_full
        (fun target => insertWithSplitting (k + 1) target row.row.1 row.bytes []) h.sound.failAt
        h.atLeaf hfull (parent :: ancestors)
      have h₁ := h.quiet hq
      obtain ⟨q, rest, pages', rows', hrun, hput⟩ := h₁.putInto_last rfl hne
        (hparent.congr (hq.view parent)) hlast (by rwa [hq.geometry])
        (by rwa [PagerState.pageSize, hq.geometry]) h₁.spare
      exact ⟨k + 1, q, rest, pages', rows', hrun₁.trans hrun, hput.of_quiet h.sound h.inUse hq⟩

end Step

end Rustqlite.Btree
