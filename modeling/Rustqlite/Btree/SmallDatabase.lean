import Rustqlite.Btree.DeleteScan
import Rustqlite.Btree.PageTree
import Rustqlite.Pager.FreelistRun
import Rustqlite.Pager.Replacing

/-!
# Databases of pages that were laid out

The pages of a new database file behind the first one are given one by one.
What they were laid out from is what they hold.
-/

namespace Rustqlite.Btree

open Foundation Format Pager FileM

/-! ## The file -/

section File

variable {pages : List Bytes}

theorem slice_flatten {size : Nat} (hsize : ∀ page ∈ pages, page.length = size) {i : Nat}
    (hi : i < pages.length) : slice pages.flatten (i * size) size = pages[i] := by
  induction pages generalizing i with
  | nil => exact absurd hi (Nat.not_lt_zero i)
  | cons page pages ih =>
      have hpage : page.length = size := hsize page (by simp)
      have hrest : ∀ x ∈ pages, x.length = size := fun x hx => hsize x (by simp [hx])
      rw [List.flatten_cons]
      cases i with
      | zero =>
          rw [Nat.zero_mul, slice_append_left _ _ (by omega), slice_zero_of_length hpage]
          rfl
      | succ i =>
          have hmul : (i + 1) * size = i * size + size := Nat.succ_mul i size
          rw [slice_append_right _ _ (by omega), hmul, hpage, Nat.add_sub_cancel,
            ih hrest (by simpa using hi)]
          rfl

structure PagesOk (pages : List Bytes) : Prop where
  size : ∀ page ∈ pages, page.length = 512
  count : pages.length + 1 < 2 ^ 32

section

variable (h : PagesOk pages)

include h

theorem PagesOk.pageCount : (databaseWith pages).1.pageCount.toNat = pages.length + 1 := by
  have hcount : (UInt32.ofNat (pages.length + 1)).toNat = pages.length + 1 := by
    rw [UInt32.toNat_ofNat']
    exact Nat.mod_eq_of_lt h.count
  exact hcount

theorem PagesOk.pageSeen_eq {pgno : UInt32} (hzero : pgno ≠ 0) (hle : pgno.toNat ≤ pages.length + 1)
    {page : Bytes} (hlen : page.length = 512)
    (hpage : slice (buildFreshPage1 (freshHeader ⟨512, isValidPageSize_512⟩) 512 ++ pages.flatten)
      ((pgno.toNat - 1) * 512) 512 = page) :
    pageSeen (databaseWith pages).1 (databaseWith pages).2.disk pgno = .ok page := by
  have hfile : (databaseWith pages).2.disk .db =
      some (buildFreshPage1 (freshHeader ⟨512, isValidPageSize_512⟩) 512 ++ pages.flatten) := rfl
  have hsize : (databaseWith pages).1.pageSize = 512 := rfl
  have hwal : (databaseWith pages).1.walFrame pgno = none := rfl
  have hnone : (databaseWith pages).1.resident pgno = none := by
    simp [PagerState.resident, databaseWith]
  have hin : ¬ (databaseWith pages).1.effectiveCount < pgno := by
    change ¬ (databaseWith pages).1.pageCount < pgno
    rw [UInt32.lt_iff_toNat_lt, h.pageCount]
    omega
  rw [Pager.pageSeen, if_neg (by rintro (heq | hlt) <;> contradiction), hnone]
  simp only [storedPage, hwal, hsize, hfile, Option.getD_some, hpage, hlen, lt_irrefl, if_false]

theorem PagesOk.pageSeen {i : Nat} (hi : i < pages.length) {pgno : UInt32}
    (hpgno : pgno.toNat = i + 2) :
    pageSeen (databaseWith pages).1 (databaseWith pages).2.disk pgno = .ok pages[i] := by
  have hfirst : (buildFreshPage1 (freshHeader ⟨512, isValidPageSize_512⟩) 512).length = 512 :=
    length_buildFreshPage1 _ (Nat.le_refl 512)
  have hzero : pgno ≠ 0 := fun heq => by simp [heq] at hpgno
  refine h.pageSeen_eq hzero (by omega) (h.size _ (List.getElem_mem hi)) ?_
  rw [slice_append_right _ _ (by omega), hfirst, hpgno,
    show (i + 2 - 1) * 512 - 512 = i * 512 by omega, slice_flatten h.size hi]

theorem PagesOk.shows {i : Nat} {page : Bytes} (hi : pages[i]? = some page) {pgno : UInt32}
    (hpgno : pgno.toNat = i + 2) :
    Pager.pageSeen (databaseWith pages).1 (databaseWith pages).2.disk pgno = .ok page := by
  obtain ⟨hlt, rfl⟩ := List.getElem?_eq_some_iff.mp hi
  exact h.pageSeen hlt hpgno

theorem PagesOk.complete : Complete (databaseWith pages) := by
  intro pgno hzero hle
  have hle' : pgno.toNat ≤ pages.length + 1 := by
    rw [← h.pageCount]
    exact UInt32.le_iff_toNat_le.mp hle
  have hpos : pgno.toNat ≠ 0 := fun heq => hzero (UInt32.toNat_inj.mp heq)
  by_cases hone : pgno.toNat = 1
  · have hfirst : (buildFreshPage1 (freshHeader ⟨512, isValidPageSize_512⟩) 512).length = 512 :=
      length_buildFreshPage1 _ (Nat.le_refl 512)
    refine ⟨_, h.pageSeen_eq hzero hle' hfirst ?_, hfirst⟩
    rw [hone, Nat.sub_self, Nat.zero_mul, slice_append_left _ _ (by omega),
      slice_zero_of_length hfirst]
  · have hi : pgno.toNat - 2 < pages.length := by omega
    exact ⟨pages[pgno.toNat - 2], h.pageSeen hi (by omega), h.size _ (List.getElem_mem hi)⟩

theorem PagesOk.soundStore : SoundStore (databaseWith pages) [] where
  failAt := rfl
  complete := h.complete
  freelist := ⟨rfl, rfl, List.nodup_nil, by simp⟩
  counted := by
    rw [UInt32.le_iff_toNat_le, h.pageCount]
    exact Nat.le_add_left 1 _
  first := by simp
  unreserved _ := by simp

theorem PagesOk.inUse {xs : List UInt32} (hnodup : xs.Nodup)
    (hin : ∀ x ∈ xs, x ≠ 0 ∧ x.toNat ≤ pages.length + 1) : InUse (databaseWith pages) [] xs where
  nodup := hnodup
  notFree _ _ := by simp
  inFile x hx := ⟨(hin x hx).1, by
    rw [UInt32.le_iff_toNat_le, h.pageCount]
    exact (hin x hx).2⟩
  unreserved hvac := absurd hvac Bool.false_ne_true

end

end File

/-! ## The pages -/

section Pages

variable {view : UInt32 → Result Bytes} {pgno right : UInt32} {rs : List StoredRow}
  {ds : List Divider}

theorem layOut_carries (t : PageType) (rightMost : Option UInt32) (bs : List Bytes)
    (hleaf : t.isLeaf = true → rightMost = none) (hpos : ∀ b ∈ bs, 0 < b.length)
    (hfit : t.headerSize + bs.length * 2 + bs.flatten.length ≤ 512) :
    (layOut t rightMost bs).length = 512 ∧ ∃ hdr, Carries (layOut t rightMost bs) 0 t rightMost
        bs hdr ∧
      hdr.cellContentStart = 512 - bs.flatten.length := by
  have hzero : (List.replicate 512 (0 : UInt8)).length = 512 := List.length_replicate
  obtain ⟨page, hdr, hrun, hlen, hcarries, hstart⟩ := writePageCells_carries
    0 t rightMost bs (show (List.replicate 512 (0 : UInt8)).length ≤ 65536 by omega) hleaf hpos
        (by omega)
  have hpage : layOut t rightMost bs = page := by
    rw [layOut, hrun]
    rfl
  rw [hpage]
  exact ⟨by rw [hlen, hzero], hdr, hcarries, by rw [hstart, hzero]⟩

theorem leafOf_layOut (hne : pgno ≠ 1)
    (hview : view pgno = .ok (layOut .leafTable none (rs.map StoredRow.bytes)))
    (hvalid : ∀ r ∈ rs, r.Valid 512 view)
    (hfit : 8 + rs.length * 2 + (rs.map StoredRow.bytes).flatten.length ≤ 512) :
    ∃ page hdr, LeafOf 512 view pgno rs page hdr ∧
      hdr.cellContentStart = 512 - (rs.map StoredRow.bytes).flatten.length := by
  obtain ⟨-, hdr, hcarries, hstart⟩ := layOut_carries .leafTable none (rs.map StoredRow.bytes)
    (fun _ => rfl) (List.forall_mem_map.mpr fun r hr => (hvalid r hr).pos)
    (by rwa [List.length_map])
  have hbase : btreeHeaderOffset pgno = 0 := if_neg hne
  exact ⟨_, hdr, ⟨hview, by rwa [hbase], hvalid⟩, hstart⟩

theorem nodeAt_layOut (hne : pgno ≠ 1)
    (hview : view pgno = .ok (layOut .interiorTable (some right) (ds.map Divider.bytes)))
    (hvalid : ∀ d ∈ ds, d.Valid)
    (hfit : 12 + ds.length * 2 + (ds.map Divider.bytes).flatten.length ≤ 512) :
    ∃ page hdr, NodeAt view pgno ds right page hdr ∧
      hdr.cellContentStart = 512 - (ds.map Divider.bytes).flatten.length := by
  obtain ⟨-, hdr, hcarries, hstart⟩ := layOut_carries .interiorTable (some right)
    (ds.map Divider.bytes) (by simp [PageType.isLeaf])
    (List.forall_mem_map.mpr fun d hd => (hvalid d hd).pos) (by rwa [List.length_map])
  have hbase : btreeHeaderOffset pgno = 0 := if_neg hne
  exact ⟨_, hdr, ⟨hview, by rwa [hbase], hvalid⟩, hstart⟩

def localRow (rowid : Int64) (payload : Bytes) : StoredRow where
  bytes := rowBytes rowid payload payload.length none
  row := (rowid, payload)
  chain := []

theorem localRow_valid (view : UInt32 → Result Bytes) (rowid : Int64) {payload : Bytes}
    (h : payload.length ≤ 477) : (localRow rowid payload).Valid 512 view := by
  have hlen : localPayloadLen payload.length 512 (512 - 35) =
      (payload.length, (none : Option UInt32).isSome) := by
    rw [localPayloadLen, if_pos h]
    rfl
  have hstands : StandsAt (localRow rowid payload).bytes (localRow rowid payload).bytes 0 :=
    ⟨[], by simp⟩
  obtain ⟨hparse, hsize, -⟩ := rowBytes_reads (by omega) (Nat.le_refl _) hlen hstands
  refine ⟨hsize, _, hparse, rfl, rfl, ?_⟩
  have hfilled : Filled view 512 [] (payload.drop payload.length) := by simp [Filled]
  exact assemble_filled (by omega) (show Linked _ _ [] from rfl) hfilled (Nat.le_refl _)

end Pages

end Rustqlite.Btree
