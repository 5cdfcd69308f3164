import Rustqlite.Btree.DeleteScan
import Rustqlite.Btree.IndexTree
import Rustqlite.Btree.Overflow

/-!
# Deleting an entry of an index

The entry is looked up among the cells of the root, which has to be a leaf, by
the part of each key record that the root holds.
-/

namespace Rustqlite.Btree

open Foundation Format Pager FileM

def splitKey (values : List Value) : Result (List Value × Value) :=
  match values.getLast? with
  | some rowid => .ok (values.dropLast, rowid)
  | none => .error (.panic "index out of bounds")

/-- The columns from `i` on, as far as both sides have them. -/
def columnsEqual (keyInfo : List KeyField) : Nat → List Value → List Value → Bool
  | i, x :: xs, y :: ys =>
      memCompare x y (collationAt keyInfo i) == .eq && columnsEqual keyInfo (i + 1) xs ys
  | _, _, _ => true

def prefixesEqual (a b : List Value) (keyInfo : List KeyField) : Bool :=
  a.length == b.length && columnsEqual keyInfo 0 a b

section Find

variable (usable : Nat) (encoding : TextEncoding) (keyInfo : List KeyField)
  (searchColumns : List Value) (searchRowid : Value) (page : Bytes) (hdr : PageHeader)

def entryMatches (i : Nat) : Result Bool := do
  let off ← hdr.cellPointer page i
  let cell ← parseIndexLeafCell page off usable
  let existing ← decodeRecord cell.localPayload encoding
  let (columns, rowid) ← splitKey existing
  return prefixesEqual columns searchColumns keyInfo &&
    memCompare rowid searchRowid .binary == .eq

def findEntry : Nat → Nat → Result (Option Nat)
  | 0, _ => .ok none
  | left + 1, i => do
      if ← entryMatches usable encoding keyInfo searchColumns searchRowid page hdr i then
        return some i
      else findEntry left (i + 1)

end Find

def freeIndexOverflowOf (fuel : Nat) (cell : IndexLeafCell) : PagerM Unit :=
  match cell.overflowPage with
  | some firstOverflow => freeOverflowChain fuel firstOverflow
  | none => pure ()

def survivingIndexCells (page : Bytes) (hdr : PageHeader) (usable idxToRemove : Nat) :
    Result (List Bytes) :=
  ((List.range hdr.numCells).filter (· ≠ idxToRemove)).mapM fun i => do
    let off ← hdr.cellPointer page i
    cellBytes page off (indexCellOnPageSize page off usable)

def indexLeafDelete (fuel : Nat) (root : UInt32) (keyRecord : Bytes) (keyInfo : List KeyField) :
    PagerM Bool := do
  let s ← getState
  let usable := s.geometry.usableSize
  let base := btreeHeaderOffset root
  let page ← getPage root
  let hdr ← liftResult (PageHeader.parse page base)
  if hdr.pageType ≠ .leafIndex then
    throw (.corrupt "index_leaf_delete: not a leaf-index page")
  let encoding := s.header.textEncoding
  let searchValues ← liftResult (decodeRecord keyRecord encoding)
  let (searchColumns, searchRowid) ← liftResult (splitKey searchValues)
  match ← liftResult
      (findEntry usable encoding keyInfo searchColumns searchRowid page hdr hdr.numCells 0) with
  | none => return false
  | some idxToRemove => do
      let cellOff ← liftResult (hdr.cellPointer page idxToRemove)
      let cell ← liftResult (parseIndexLeafCell page cellOff usable)
      freeIndexOverflowOf fuel cell
      let cells ← liftResult (survivingIndexCells page hdr usable idxToRemove)
      let leaf ← readPageForWrite root
      let rebuilt ← liftResult (writePageCells leaf base .leafIndex none cells)
      writePage root rebuilt
      return true

def idxDelete (fuel : Nat) (root : UInt32) (key : List Value) (keyInfo : List KeyField) :
    PagerM Unit := do
  let _ ← indexLeafDelete fuel root (encodeRecord key) keyInfo
  return ()

/-! ## What is on the page -/

def localPart (usable : Nat) (keyRecord : Bytes) : Bytes :=
  keyRecord.take (localPayloadLen keyRecord.length usable (indexMaxLocal usable)).1

variable {left fuel i : Nat} {record : Bytes} {encoding : TextEncoding} {values vs : List Value}
  {view : UInt32 → Result Bytes}

section Assemble

open Reading

variable {view : UInt32 → Result Bytes} {usable total : Nat}

theorem prefix_of_assembleLoop {next : Option UInt32} {payload r : Bytes}
    (h : (assembleLoop usable total left next payload).eval view = .ok r) : payload <+: r := by
  induction left generalizing next payload with
  | zero =>
      cases h
      exact List.prefix_rfl
  | succ left ih =>
      rw [assembleLoop] at h
      split_ifs at h with hlt
      · cases hnext : next.filter (· ≠ 0) with
        | none =>
            rw [hnext] at h
            cases h
            exact List.prefix_rfl
        | some pgno =>
            rw [hnext] at h
            simp only [eval_bind, eval_getPage, Result.bind_eq_ok] at h
            obtain ⟨page, -, h⟩ := h
            split_ifs at h with hshort
            · cases h
            all_goals exact (List.prefix_append _ _).trans (ih h)
      · cases h
        exact List.prefix_rfl

theorem localPart_of_assemble {cell : IndexLeafCell}
    (h : (assembleIndexPayload usable cell).eval view = .ok record)
    (hlocal : cell.localPayload.length =
      (localPayloadLen cell.payloadSize usable (indexMaxLocal usable)).1)
    (hle : cell.localPayload.length ≤ cell.payloadSize) :
    cell.localPayload = localPart usable record := by
  simp only [assembleIndexPayload, assemble, eval_bind, Result.bind_eq_ok] at h
  obtain ⟨r, hr, h⟩ := h
  have hprefix := prefix_of_assembleLoop hr
  split_ifs at h with hshort
  · cases h
  obtain rfl : r.take cell.payloadSize = record := Except.ok.inj h
  have hlen : (r.take cell.payloadSize).length = cell.payloadSize := by
    rw [List.length_take]
    omega
  rw [localPart, hlen, ← hlocal, List.take_take, min_eq_left hle]
  exact List.prefix_iff_eq_take.mp hprefix

end Assemble

theorem decodeColumns_append {bs rest : Bytes} {headerLen : Nat} (hle : headerLen ≤ bs.length)
    {headerPos bodyPos : Nat}
    (h : decodeColumns bs headerLen encoding fuel headerPos bodyPos values = .ok vs) :
    decodeColumns (bs ++ rest) headerLen encoding fuel headerPos bodyPos values = .ok vs := by
  induction fuel generalizing headerPos bodyPos values with
  | zero => exact h
  | succ fuel ih =>
      rw [decodeColumns] at h ⊢
      split_ifs at h with hlt
      · rw [if_pos hlt]
        cases hread : readVarint (bs.drop headerPos) with
        | none =>
            rw [hread] at h
            cases h
        | some r =>
            obtain ⟨code, k⟩ := r
            rw [hread] at h
            rw [List.drop_append_of_le_length (by omega), (readVarint_append rest hread).1]
            dsimp only at h ⊢
            split_ifs at h with hover hshort
            rw [if_neg hover, if_neg (by rw [List.length_append]; omega)]
            have hslice : slice (bs ++ rest) bodyPos (SerialType.fromCode code).byteLen =
                slice bs bodyPos (SerialType.fromCode code).byteLen := by
              rw [slice, slice, List.drop_append_of_le_length (by omega),
                List.take_append_of_le_length (by simp; omega)]
            rw [hslice]
            cases hdec : (SerialType.fromCode code).decode
                (slice bs bodyPos (SerialType.fromCode code).byteLen) encoding with
            | error e =>
                rw [hdec] at h
                cases h
            | ok v =>
                rw [hdec] at h
                exact ih h
      · rw [if_neg hlt]
        exact h

theorem decodeRecord_take {n : Nat} (h : decodeRecord (record.take n) encoding = .ok vs) :
        decodeRecord record encoding = .ok vs := by
  rw [← List.take_append_drop n record]
  rw [decodeRecord] at h ⊢
  cases hread : readVarint (record.take n) with
  | none =>
      rw [hread] at h
      cases h
  | some r =>
      obtain ⟨headerLen, n0⟩ := r
      rw [hread] at h
      rw [(readVarint_append (record.drop n) hread).1]
      dsimp only at h ⊢
      split_ifs at h with hout
      rw [if_neg (by rw [List.length_append]; omega)]
      exact decodeColumns_append (by omega) h

/-! ## The search -/

section Find

variable {usable : Nat} {encoding : TextEncoding} {keyInfo : List KeyField}
  {asI64 : Value → Int64} {view : UInt32 → Result Bytes} {pgno : UInt32} {ks : List StoredKey}
  {page : Bytes} {hdr : PageHeader}

theorem localPayload_of_parse {bytes : Bytes} {off : Nat} {cell : IndexLeafCell}
    (h : parseIndexLeafCell bytes off usable = .ok cell) :
    cell.localPayload.length =
      (localPayloadLen cell.payloadSize usable (indexMaxLocal usable)).1 := by
  simp only [parseIndexLeafCell, Result.bind_eq_ok, Prod.exists] at h
  obtain ⟨size, n1, -, d, hd, o, -, hcell⟩ := h
  cases hcell
  rw [slicePage] at hd
  split_ifs at hd with hfit
  cases hd
  simp only [slice, List.length_take, List.length_drop]
  omega

theorem localPayloadLen_le (payload : Nat) :
    (localPayloadLen payload usable (indexMaxLocal usable)).1 ≤ payload := by
  cases hspill : (localPayloadLen payload usable (indexMaxLocal usable)).2 with
  | true => exact (localPayloadLen_spills (minLocal_le_indexMaxLocal usable) hspill).1.le
  | false => exact (localPayloadLen_whole hspill).1.le

theorem IndexLeafAt.cell (h : IndexLeafAt usable encoding asI64 view pgno ks page hdr) {i : Nat}
    (hi : i < ks.length) :
    ∃ off cell, hdr.cellPointer page i = .ok off ∧
      parseIndexLeafCell page off usable = .ok cell ∧
      cell.localPayload = localPart usable ks[i].entry.1 ∧
      Linked view (cell.overflowPage.getD 0) ks[i].chain ∧
      indexCellOnPageSize page off usable = ks[i].bytes.length ∧
      StandsAt ks[i].bytes page off := by
  obtain ⟨off, hoff, hstands⟩ := h.cells i hi
  have hvalid := h.valid ks[i] (List.getElem_mem hi)
  obtain ⟨cell, hcell, hlinked, hpayload⟩ := hvalid.decodes
  have hlocal := localPayload_of_parse hcell
  refine ⟨off, cell, hoff, hstands.parseIndexLeafCell hvalid.pos hcell, ?_, hlinked,
    hstands.indexCellOnPageSize hvalid.pos hvalid.size, hstands⟩
  refine localPart_of_assemble hpayload hlocal ?_
  rw [hlocal]
  exact localPayloadLen_le _

theorem columnsEqual_iff {xs ys : List Value} :
    columnsEqual keyInfo i xs ys = true ↔ compareColumns keyInfo i xs ys = .eq := by
  induction xs generalizing i ys with
  | nil => simp [columnsEqual, compareColumns]
  | cons x xs ih =>
      cases ys with
      | nil => simp [columnsEqual, compareColumns]
      | cons y ys =>
          rw [columnsEqual, compareColumns, Bool.and_eq_true, beq_iff_eq, Ordering.then_eq_eq, ih]

theorem matches_iff {a b : List Value} :
    (prefixesEqual a.dropLast b.dropLast keyInfo &&
      memCompare (a.getLastD .null) (b.getLastD .null) .binary == .eq) = true ↔
      compareRecords keyInfo a b = .eq := by
  rw [compareRecords, compareRecordPrefixes, Ordering.then_eq_eq, Ordering.then_eq_eq,
    compare_eq_iff_eq, prefixesEqual, Bool.and_eq_true, Bool.and_eq_true, beq_iff_eq, beq_iff_eq,
    columnsEqual_iff]
  tauto

theorem splitKey_ok (h : values ≠ []) :
    splitKey values = .ok (values.dropLast, values.getLastD .null) := by
  rw [splitKey, List.getLast?_eq_some_getLast h, List.getLastD_eq_getLast?,
    List.getLast?_eq_some_getLast h]
  rfl

theorem ne_nil_of_rowid {rowid : Int64} (h : keyRecordRowid encoding asI64 record = .ok rowid)
    (hvalues : decodeRecord record encoding = .ok values) : values ≠ [] := by
  rintro rfl
  simp [keyRecordRowid, hvalues] at h

def ReadsOnPage (usable : Nat) (encoding : TextEncoding) (e : Bytes × Int64) : Prop :=
  (decodeRecord (localPart usable e.1) encoding).isOk = true

theorem entryMatches_ok (h : IndexLeafAt usable encoding asI64 view pgno ks page hdr)
    (hi : i < ks.length) (hreads : ReadsOnPage usable encoding ks[i].entry) (search : List Value) :
    entryMatches usable encoding keyInfo search.dropLast (search.getLastD .null) page hdr i =
      .ok (decide (compareRecords keyInfo (keyValues encoding ks[i].entry) search = .eq)) := by
  obtain ⟨off, cell, hoff, hcell, hlocal, -⟩ := h.cell hi
  unfold ReadsOnPage at hreads
  cases hdec : decodeRecord (localPart usable ks[i].entry.1) encoding with
  | error e =>
      rw [hdec] at hreads
      cases hreads
  | ok values =>
      have hfull := decodeRecord_take hdec
      have hne := ne_nil_of_rowid (h.valid _ (List.getElem_mem hi)).rowid hfull
      have hvalues : keyValues encoding ks[i].entry = values := by
        rw [keyValues, hfull]
        rfl
      simp only [entryMatches, hoff, hcell, hlocal, hdec, splitKey_ok hne, Result.ok_bind, hvalues,
        ← matches_iff, Bool.decide_eq_true]
      rfl

theorem entryMatches_error (h : IndexLeafAt usable encoding asI64 view pgno ks page hdr)
    (hi : i < ks.length) (hreads : ¬ReadsOnPage usable encoding ks[i].entry)
    (searchColumns : List Value) (searchRowid : Value) :
    ∃ e, entryMatches usable encoding keyInfo searchColumns searchRowid page hdr i = .error e := by
  obtain ⟨off, cell, hoff, hcell, hlocal, -⟩ := h.cell hi
  unfold ReadsOnPage at hreads
  cases hdec : decodeRecord (localPart usable ks[i].entry.1) encoding with
  | error e =>
      refine ⟨e, ?_⟩
      simp only [entryMatches, hoff, hcell, hlocal, hdec, Result.ok_bind]
      rfl
  | ok values =>
      rw [hdec] at hreads
      exact absurd rfl hreads

theorem findEntry_skips {searchColumns : List Value} {searchRowid : Value} {start : Nat}
    (hskip : ∀ j < i, start ≤ j →
      entryMatches usable encoding keyInfo searchColumns searchRowid page hdr j = .ok false)
    (hi : start ≤ i) (hlt : i < start + left) :
    findEntry usable encoding keyInfo searchColumns searchRowid page hdr left start =
      findEntry usable encoding keyInfo searchColumns searchRowid page hdr
        (start + left - i) i := by
  induction left generalizing start with
  | zero => omega
  | succ left ih =>
      rcases hi.eq_or_lt with rfl | hlt'
      · rw [Nat.add_sub_cancel_left]
      · rw [findEntry, hskip start hlt' le_rfl]
        simp only [Result.ok_bind, Bool.false_eq_true, if_false]
        rw [ih (fun j hj hle => hskip j hj (by omega)) (by omega) (by omega)]
        congr 1
        omega

theorem survivingIndexCells_ok (h : IndexLeafAt usable encoding asI64 view pgno ks page hdr)
    (hi : i < ks.length) :
    survivingIndexCells page hdr usable i = .ok ((ks.eraseIdx i).map StoredKey.bytes) := by
  rw [survivingIndexCells, range_filter_ne (h.numCells ▸ hi), Result.mapM_eq_ok,
    List.forall₂_map_right_iff]
  refine forall₂_eraseIdx (List.forall₂_iff_get.mpr ⟨by simp [h.numCells], fun j hj hj' => ?_⟩) i
  obtain ⟨off, cell, hoff, -, -, -, hsize, hstands⟩ := h.cell hj'
  have hlen := hstands.length_le (h.valid _ (List.getElem_mem hj')).pos
  simp only [List.get_eq_getElem, List.getElem_range, hoff, hsize, Result.ok_bind, cellBytes,
    if_neg (show ¬ page.length < off + ks[j].bytes.length by omega), hstands.slice_eq]

end Find

/-! ## The deletion -/

structure WellFormedIndex (asI64 : Value → Int64) (p : PagerState × World DbFile) (root : UInt32)
    (keyInfo : List KeyField) (es : List (Bytes × Int64)) : Prop where
  tree : ∃ depth pages, IndexTree p.1.geometry.usableSize p.1.header.textEncoding asI64
      (pageSeen p.1 p.2.disk) depth root pages es ∧
    pages.Nodup ∧ 1 ∉ pages ∧
    (p.1.autoVacuum = true → ∀ q ∈ pages,
      isReservedPage p.1.geometry.usableSize q.toNat = false)
  sorted : SortedEntries p.1.header.textEncoding keyInfo es
  complete : Complete p
  failAt : p.2.failAt = none

section Delete

variable {asI64 : Value → Int64} {p : PagerState × World DbFile} {root : UInt32}
  {keyInfo : List KeyField} {ks : List StoredKey} {page : Bytes} {hdr : PageHeader}

theorem freeIndexOverflowOf_ok (hp : p.2.failAt = none) (hcomp : Complete p)
    (hnodup : (root :: ks.flatMap StoredKey.chain).Nodup)
    (hone : 1 ∉ root :: ks.flatMap StoredKey.chain)
    (hres : p.1.autoVacuum = true → ∀ q ∈ root :: ks.flatMap StoredKey.chain,
      isReservedPage p.1.geometry.usableSize q.toNat = false) (hi : i < ks.length)
    {cell : IndexLeafCell}
    (hlinked : Linked (pageSeen p.1 p.2.disk) (cell.overflowPage.getD 0) ks[i].chain)
    (hfuel : ks[i].chain.length < fuel) :
    ∃ q, freeIndexOverflowOf fuel cell p = .ok () q ∧ Changes p q (touched p.1 ks[i].chain) ∧
      q.1.header.textEncoding = p.1.header.textEncoding := by
  have hmem : ∀ x ∈ ks[i].chain, x ∈ root :: ks.flatMap StoredKey.chain := fun x hx =>
    List.mem_cons_of_mem _ (List.mem_flatMap.mpr ⟨_, List.getElem_mem hi, hx⟩)
  have hchain : ks[i].chain.Nodup :=
    (List.nodup_flatMap.mp (List.nodup_cons.mp hnodup).2).1 _ (List.getElem_mem hi)
  cases ho : cell.overflowPage with
  | none => exact ⟨p, by rw [freeIndexOverflowOf, ho]; rfl, Changes.refl hp, rfl⟩
  | some first =>
      rw [ho] at hlinked
      rw [freeIndexOverflowOf, ho]
      exact freeOverflowChain_ok hp hcomp hlinked hchain (fun h => hone (hmem 1 h))
        (fun hvac x hx => hres hvac x (hmem x hx)) hfuel

theorem exists_keyValues {e : Bytes × Int64} (h : keyRecordRowid encoding asI64 e.1 = .ok e.2) :
    decodeRecord e.1 encoding = .ok (keyValues encoding e) ∧ keyValues encoding e ≠ [] := by
  cases hdec : decodeRecord e.1 encoding with
  | error err => simp [keyRecordRowid, hdec] at h
  | ok values =>
      have hvalues : keyValues encoding e = values := by
        rw [keyValues, hdec]
        rfl
      rw [hvalues]
      exact ⟨rfl, ne_nil_of_rowid h hdec⟩

theorem compareRecords_self (h : ∀ v ∈ values, v.isOrdered) :
    compareRecords keyInfo values values = .eq := by
  rw [compareRecords_eq h h, Ordering.then_eq_eq]
  exact ⟨Std.ReflCmp.compare_self, Std.ReflCmp.compare_self⟩

variable {usable : Nat} {key : List Value}

theorem entryMatches_before (hleaf : IndexLeafAt usable encoding asI64 view root ks page hdr)
    (hsorted : SortedEntries encoding keyInfo (ks.map StoredKey.entry)) {j : Nat}
    (hi : i < ks.length) (hj : j < i) (hreads : ReadsOnPage usable encoding ks[j].entry) :
    entryMatches usable encoding keyInfo (keyValues encoding ks[i].entry).dropLast
      ((keyValues encoding ks[i].entry).getLastD .null) page hdr j = .ok false := by
  rw [entryMatches_ok hleaf (by omega) hreads]
  have hlt := List.pairwise_iff_getElem.mp hsorted.ascending j i (by simpa using hj.trans hi)
    (by simpa using hi) hj
  rw [List.getElem_map, List.getElem_map] at hlt
  rw [hlt]
  rfl

theorem findEntry_ok (hleaf : IndexLeafAt usable encoding asI64 view root ks page hdr)
    (hsorted : SortedEntries encoding keyInfo (ks.map StoredKey.entry)) (hi : i < ks.length)
    (hreads : ∀ j (hj : j < ks.length), j ≤ i → ReadsOnPage usable encoding ks[j].entry) :
    findEntry usable encoding keyInfo (keyValues encoding ks[i].entry).dropLast
      ((keyValues encoding ks[i].entry).getLastD .null) page hdr hdr.numCells 0 = .ok (some i) := by
  have hcount := hleaf.numCells
  have hskip : ∀ j < i, 0 ≤ j → entryMatches usable encoding keyInfo
      (keyValues encoding ks[i].entry).dropLast ((keyValues encoding ks[i].entry).getLastD .null)
      page hdr j = .ok false :=
    fun j hj _ => entryMatches_before hleaf hsorted hi hj (hreads j (by omega) hj.le)
  rw [findEntry_skips hskip (Nat.zero_le i) (by omega),
    show 0 + hdr.numCells - i = (hdr.numCells - i - 1) + 1 by omega, findEntry,
    entryMatches_ok hleaf hi (hreads i hi le_rfl)]
  have hself : compareRecords keyInfo _ _ = .eq := compareRecords_self
    (hsorted.ordered _ (List.mem_map_of_mem (List.getElem_mem hi)))
  simp only [hself, decide_true, Result.ok_bind, if_true]
  rfl

theorem idxDelete_leaf (hleaf : IndexLeafAt p.1.geometry.usableSize
      p.1.header.textEncoding asI64 (pageSeen p.1 p.2.disk) root ks page hdr)
    (hp : p.2.failAt = none) (hcomp : Complete p)
    (hnodup : (root :: ks.flatMap StoredKey.chain).Nodup)
    (hone : 1 ∉ root :: ks.flatMap StoredKey.chain)
    (hres : p.1.autoVacuum = true → ∀ q ∈ root :: ks.flatMap StoredKey.chain,
      isReservedPage p.1.geometry.usableSize q.toNat = false)
    (hsorted : SortedEntries p.1.header.textEncoding keyInfo (ks.map StoredKey.entry))
    (hi : i < ks.length) (hreads : ∀ j (hj : j < ks.length), j ≤ i →
      ReadsOnPage p.1.geometry.usableSize p.1.header.textEncoding ks[j].entry)
    (hkey : encodeRecord key = ks[i].entry.1) (hfuel : ks[i].chain.length < fuel) :
    ∃ q, idxDelete fuel root key keyInfo p = .ok () q ∧ q.2.failAt = none ∧
      ∃ page' hdr', IndexLeafAt q.1.geometry.usableSize q.1.header.textEncoding asI64
        (pageSeen q.1 q.2.disk) root (ks.eraseIdx i) page' hdr' := by
  have hrange := inRange_of_seen hleaf.shown
  have hlen : page.length = p.1.pageSize := by
    obtain ⟨page', hpage', hlen⟩ := hcomp root hrange.1 hrange.2
    cases hleaf.shown.symm.trans hpage'
    exact hlen
  obtain ⟨off, cell, hoff, hcell, -, hlinked, -⟩ := hleaf.cell hi
  obtain ⟨hvalues, hne⟩ := exists_keyValues (hleaf.valid _ (List.getElem_mem hi)).rowid
  obtain ⟨q₁, hget, h₁⟩ := getPage_ok hp hleaf.shown
  have hch₁ := h₁.changes (touched p.1 ks[i].chain)
  obtain ⟨q₂, hfree, h₂, henc⟩ := freeIndexOverflowOf_ok (p := q₁) h₁.failAt
    (hch₁.complete hcomp) hnodup hone
    (fun hvac x hx => by
      rw [h₁.geometry]
      exact hres (hch₁.autoVacuum ▸ hvac) x hx) hi
    (by rwa [show pageSeen q₁.1 q₁.2.disk = pageSeen p.1 p.2.disk from funext h₁.view]) hfuel
  rw [touched_eq hch₁] at h₂
  have hch := hch₁.trans h₂
  have hroot : pageSeen q₂.1 q₂.2.disk root = .ok page := by
    rw [hch.view root ?_, hleaf.shown]
    rintro (hmem | ⟨hvac, hreserved⟩)
    · exact (List.nodup_cons.mp hnodup).1
        (List.mem_flatMap.mpr ⟨_, List.getElem_mem hi, hmem⟩)
    · rw [hres hvac root (by simp)] at hreserved
      cases hreserved
  obtain ⟨q₃, hread, h₃⟩ := readPageForWrite_ok h₂.failAt hroot
  have hch₃ : Changes p q₃ (touched p.1 ks[i].chain) := hch.trans (h₃.changes _)
  -- the root without the cell
  have hsub : List.Sublist (ks.eraseIdx i) ks := List.eraseIdx_sublist _ _
  have hfits : btreeHeaderOffset root + 8 + (ks.eraseIdx i).length * 2 +
      ((ks.eraseIdx i).map StoredKey.bytes).flatten.length ≤ page.length := by
    have hfits := hleaf.fits
    have hcount := hsub.length_le
    have hbytes := (hsub.map StoredKey.bytes).flatten.length_le
    omega
  obtain ⟨page', hdr', hlayout, hlen', hlaid⟩ := writePageCells_spec
    (btreeHeaderOffset root) .leafIndex none ((ks.eraseIdx i).map StoredKey.bytes)
    (by rw [hlen]; exact p.1.geometry.pageSize.size_le) (fun _ => rfl)
    (by
      intro b hb
      obtain ⟨k, hk, rfl⟩ := List.mem_map.mp hb
      exact (hleaf.valid k (hsub.subset hk)).pos)
    (by simpa [PageType.headerSize, PageType.isLeaf] using hfits)
  have hlen₃ : page'.length = q₃.1.pageSize := by
    rw [hlen', hlen, PagerState.pageSize, PagerState.pageSize, hch₃.geometry]
  have hput := writePage_ok (p := q₃) root hlen₃
  have hch' : Changes p (q₃.1.written root page', q₃.2) (touched p.1 (root :: ks[i].chain)) := by
    refine (hch₃.mono fun x hx => ?_).trans
      ((changes_written hch₃.failAt _ hlen₃).mono fun x hx => ?_)
    · exact hx.imp_left fun hmem => by simp [hmem]
    · exact .inl (by rw [Set.mem_singleton_iff.mp hx]; simp)
  refine ⟨(q₃.1.written root page', q₃.2), ?_, hch'.failAt, page', hdr', ?_⟩
  · rw [idxDelete, indexLeafDelete]
    simp only [getState_bind, bind_assoc]
    rw [bind_ok hget]
    simp only [hleaf.parse, liftResult_ok_bind, hleaf.pageType, ne_eq, not_true_eq_false, if_false,
      hkey, hvalues, splitKey_ok hne, findEntry_ok hleaf hsorted hi hreads, hoff, hcell, bind_assoc]
    rw [bind_ok hfree]
    simp only [survivingIndexCells_ok hleaf hi, liftResult_ok_bind]
    rw [bind_ok hread]
    simp only [hlayout, liftResult_ok_bind]
    rw [bind_ok hput]
    rfl
  · have hencoding : (q₃.1.written root page').header.textEncoding = p.1.header.textEncoding := by
      change q₃.1.header.textEncoding = _
      rw [h₃.header, henc, h₁.header]
    rw [hch'.geometry, hencoding]
    refine ⟨pageSeen_written _ _ _ hrange.1 (by rw [hch₃.effectiveCount]; exact hrange.2),
      hlaid.parse, hlaid.pageType_eq, by simp [hlaid.numCells], fun j hj => ?_, fun k hk => ?_,
      by rwa [hlen']⟩
    · have hcells := hlaid.cells j (by simpa using hj)
      rw [List.getElem_map] at hcells
      exact hcells
    · refine (hleaf.valid k (hsub.subset hk)).congr fun x hx => ?_
      obtain ⟨hroot', hchains⟩ := List.nodup_cons.mp hnodup
      have hmem : x ∈ ks.flatMap StoredKey.chain :=
        List.mem_flatMap.mpr ⟨k, hsub.subset hk, hx⟩
      refine hch'.view x ?_
      rintro (hin | ⟨hvac, hreserved⟩)
      · rcases List.mem_cons.mp hin with rfl | hin
        · exact hroot' hmem
        · exact flatMap_apart hchains hi hk hx hin
      · rw [hres hvac x (List.mem_cons_of_mem _ hmem)] at hreserved
        cases hreserved

theorem of_idxDelete_ok {q : PagerState × World DbFile} (hp : p.2.failAt = none)
    (h : idxDelete fuel root key keyInfo p = .ok () q) :
    ∃ page hdr values columns rowid found, pageSeen p.1 p.2.disk root = .ok page ∧
      PageHeader.parse page (btreeHeaderOffset root) = .ok hdr ∧ hdr.pageType = .leafIndex ∧
      decodeRecord (encodeRecord key) p.1.header.textEncoding = .ok values ∧
      splitKey values = .ok (columns, rowid) ∧
      findEntry p.1.geometry.usableSize p.1.header.textEncoding keyInfo columns rowid page hdr
        hdr.numCells 0 = .ok found := by
  obtain ⟨b, r, hdel, -⟩ := of_bind_ok h
  simp only [indexLeafDelete, getState_bind] at hdel
  obtain ⟨page, q₁, hget, hdel⟩ := of_bind_ok hdel
  obtain ⟨hpage, -⟩ := of_getPage_ok hp hget
  obtain ⟨hdr, q₂, hparse, hdel⟩ := of_bind_ok hdel
  obtain ⟨hparse, -⟩ := of_liftResult_ok hparse
  by_cases htype : hdr.pageType = .leafIndex
  · simp only [htype, ne_eq, not_true_eq_false, if_false] at hdel
    obtain ⟨values, q₃, hvalues, hdel⟩ := of_bind_ok hdel
    obtain ⟨⟨columns, rowid⟩, q₄, hsplit, hdel⟩ := of_bind_ok hdel
    obtain ⟨found, q₅, hfind, -⟩ := of_bind_ok hdel
    exact ⟨page, hdr, values, columns, rowid, found, hpage, hparse, htype,
      (of_liftResult_ok hvalues).1, (of_liftResult_ok hsplit).1, (of_liftResult_ok hfind).1⟩
  · simp only [ne_eq, htype, not_false_eq_true, if_true] at hdel
    obtain ⟨_, _, hthrow, -⟩ := of_bind_ok hdel
    cases hthrow

/--
The deletion of the record of an entry removes that entry and nothing else if
and only if the root is a leaf, and the record of no entry up to that one goes on
in overflow pages.
-/
theorem idxDelete_removes_iff {es : List (Bytes × Int64)}
    (h : WellFormedIndex asI64 p root keyInfo es) {i : Nat} (hi : i < es.length) {key : List Value}
    (hkey : encodeRecord key = es[i].1) :
    (∃ N, ∀ fuel ≥ N, ∃ q, idxDelete fuel root key keyInfo p = .ok () q ∧
      ∃ q', scanIndex asI64 fuel root q = .ok (es.eraseIdx i) q') ↔
      IsIndexLeaf (pageSeen p.1 p.2.disk) root ∧
        ∀ j (hj : j < es.length), j ≤ i →
          ReadsOnPage p.1.geometry.usableSize p.1.header.textEncoding es[j] := by
  obtain ⟨⟨depth, pages, htree, hnodup, hone, hres⟩, hsorted, hcomp, hp⟩ := h
  have hcases : (∃ ks page hdr, IndexLeafAt p.1.geometry.usableSize p.1.header.textEncoding asI64
      (pageSeen p.1 p.2.disk) root ks page hdr ∧ pages = root :: ks.flatMap StoredKey.chain ∧
      es = ks.map StoredKey.entry) ∨ ¬IsIndexLeaf (pageSeen p.1 p.2.disk) root := by
    cases depth with
    | zero => exact htree.elim
    | succ depth =>
        refine htree.imp_right ?_
        rintro ⟨page, hdr, hpage, hparse, htype, -⟩ ⟨page', hdr', hpage', hparse', htype'⟩
        cases hpage.symm.trans hpage'
        cases hparse.symm.trans hparse'
        rw [htype] at htype'
        cases htype'
  rcases hcases with ⟨ks, page, hdr, hleaf, rfl, rfl⟩ | hnot
  · have hi' : i < ks.length := by simpa using hi
    rw [List.getElem_map] at hkey
    constructor
    · rintro ⟨N, hN⟩
      refine ⟨⟨page, hdr, hleaf.shown, hleaf.parse, hleaf.pageType⟩, ?_⟩
      obtain ⟨q, hdel, -⟩ := hN N le_rfl
      obtain ⟨page', hdr', values, columns, rowid, found, hpage, hparse, -, hvalues, hsplit,
        hfind⟩ := of_idxDelete_ok hp hdel
      cases hleaf.shown.symm.trans hpage
      cases hleaf.parse.symm.trans hparse
      obtain ⟨hvalues', hne⟩ := exists_keyValues (hleaf.valid _ (List.getElem_mem hi')).rowid
      rw [hkey, hvalues'] at hvalues
      cases hvalues
      rw [splitKey_ok hne] at hsplit
      cases hsplit
      intro j
      induction j using Nat.strongRecOn with
      | ind j ih =>
          intro hj hle
          rw [List.getElem_map]
          by_contra hreads
          have hj' : j < ks.length := by simpa using hj
          have hcount := hleaf.numCells
          have hskip : ∀ k < j, 0 ≤ k → entryMatches p.1.geometry.usableSize
              p.1.header.textEncoding keyInfo
              (keyValues p.1.header.textEncoding ks[i].entry).dropLast
              ((keyValues p.1.header.textEncoding ks[i].entry).getLastD .null) page hdr k =
                .ok false :=
            fun k hk _ => entryMatches_before hleaf hsorted hi' (hk.trans_le hle) (by
              have hread := ih k hk (hk.trans hj) (hk.le.trans hle)
              rwa [List.getElem_map] at hread)
          obtain ⟨e, he⟩ := entryMatches_error hleaf hj' hreads
            (keyValues p.1.header.textEncoding ks[i].entry).dropLast
            ((keyValues p.1.header.textEncoding ks[i].entry).getLastD .null)
          rw [findEntry_skips hskip (Nat.zero_le j) (by omega),
            show 0 + hdr.numCells - j = (hdr.numCells - j - 1) + 1 by omega, findEntry, he] at hfind
          cases hfind
    · rintro ⟨-, hreads⟩
      have hreads' : ∀ j (hj : j < ks.length), j ≤ i →
          ReadsOnPage p.1.geometry.usableSize p.1.header.textEncoding ks[j].entry := by
        intro j hj hle
        have hread := hreads j (by simpa using hj) hle
        rwa [List.getElem_map] at hread
      refine ⟨ks[i].chain.length + 1, fun fuel hfuel => ?_⟩
      obtain ⟨q, hdel, hq, page', hdr', hleaf'⟩ := idxDelete_leaf hleaf hp hcomp hnodup hone hres
        hsorted hi' hreads' hkey (show ks[i].chain.length < fuel by omega)
      obtain ⟨fuel, rfl⟩ : ∃ n, fuel = n + 1 := ⟨fuel - 1, by omega⟩
      refine ⟨q, hdel, ?_⟩
      have hscan := (run_eq_ok_iff (visitIndex q.1.geometry.usableSize q.1.header.textEncoding asI64
        (fuel + 1) root) hq _).mpr (hleaf'.visit fuel)
      rwa [← List.eraseIdx_map] at hscan
  · constructor
    · rintro ⟨N, hN⟩
      obtain ⟨q, hdel, -⟩ := hN N le_rfl
      obtain ⟨page, hdr, values, columns, rowid, found, hpage, hparse, htype, -⟩ :=
        of_idxDelete_ok hp hdel
      exact absurd ⟨page, hdr, hpage, hparse, htype⟩ hnot
    · rintro ⟨hroot, -⟩
      exact absurd hroot hnot

end Delete

/-! ## Small indexes -/

def smallStoredKey (k : Int64) : StoredKey := ⟨indexCell k, (smallKey k, k), []⟩

theorem smallStoredKey_inLeaf (view : UInt32 → Result Bytes) {k : Int64} (hk : k ∈ [1, 2, 3]) :
    (smallStoredKey k).InLeaf 512 .utf8 intValue view := by
  have hcell : ∀ k ∈ [(1 : Int64), 2, 3],
      indexLeafCellOnPageSize (indexCell k) 0 512 = .ok (indexCell k).length ∧
      parseIndexLeafCell (indexCell k) 0 512 = .ok ⟨(smallKey k).length, smallKey k, none⟩ ∧
      keyRecordRowid .utf8 intValue (smallKey k) = .ok k := by
    rw [List.forall_mem_cons, List.forall_mem_cons, List.forall_mem_singleton]
    refine ⟨?_, ?_, ?_⟩ <;> decide
  obtain ⟨hsize, hparse, hrowid⟩ := hcell k hk
  refine ⟨hsize, ⟨_, hparse, rfl, ?_⟩, hrowid⟩
  simp [assembleIndexPayload, assemble, assembleLoop]
  rfl

theorem indexLeafAt_layOut {pgno : UInt32} {ks : List StoredKey} (hne : pgno ≠ 1)
    (hview : view pgno = .ok (layOut .leafIndex none (ks.map StoredKey.bytes)))
    (hvalid : ∀ k ∈ ks, k.InLeaf 512 .utf8 intValue view)
    (hfits : 8 + ks.length * 2 + (ks.map StoredKey.bytes).flatten.length ≤ 512) :
    ∃ page hdr, IndexLeafAt 512 .utf8 intValue view pgno ks page hdr := by
  obtain ⟨hlen, hdr, hlaid⟩ := layOut_laid .leafIndex none (ks.map StoredKey.bytes) (fun _ => rfl)
    (List.forall_mem_map.mpr fun k hk => (hvalid k hk).pos) (by rwa [List.length_map])
  have hbase : btreeHeaderOffset pgno = 0 := if_neg hne
  refine ⟨_, hdr, hview, by rw [hbase]; exact hlaid.parse, hlaid.pageType_eq,
    by simp [hlaid.numCells], fun i hi => ?_, hvalid, by rw [hbase, hlen]; omega⟩
  have hcell := hlaid.cells i (by simpa using hi)
  rw [List.getElem_map] at hcell
  exact hcell

def oneLeafIndex : PagerState × World DbFile :=
  databaseWith [layOut .leafIndex none ([smallStoredKey 1, smallStoredKey 2].map StoredKey.bytes)]

set_option maxRecDepth 10000 in
theorem leaf_oneLeafIndex : ∃ page hdr, IndexLeafAt 512 .utf8 intValue
    (pageSeen oneLeafIndex.1 oneLeafIndex.2.disk) 2 [smallStoredKey 1, smallStoredKey 2] page
        hdr := by
  refine indexLeafAt_layOut (by decide) (by decide) (fun k hk => ?_) (by decide)
  obtain rfl | rfl : k = smallStoredKey 1 ∨ k = smallStoredKey 2 := by simpa using hk
  · exact smallStoredKey_inLeaf _ (by decide)
  · exact smallStoredKey_inLeaf _ (by decide)

set_option maxRecDepth 10000 in
theorem wellFormed_oneLeafIndex :
    WellFormedIndex intValue oneLeafIndex 2 [] [(smallKey 1, 1), (smallKey 2, 2)] := by
  obtain ⟨page, hdr, hleaf⟩ := leaf_oneLeafIndex
  have hfixed : oneLeafIndex.1.autoVacuum = false := by decide
  exact ⟨⟨1, [2], .inl ⟨_, page, hdr, hleaf, rfl, rfl⟩, by simp, by decide,
    fun hvac => by simp [hfixed] at hvac⟩, ⟨by decide, by decide⟩,
    complete_of_readable (by decide), rfl⟩

theorem idxDelete_oneLeafIndex : ∃ N, ∀ fuel ≥ N, ∃ q,
    idxDelete fuel 2 [.int 2, .int 2] [] oneLeafIndex = .ok () q ∧
      ∃ q', scanIndex intValue fuel 2 q = .ok [(smallKey 1, 1)] q' := by
  obtain ⟨page, hdr, hleaf⟩ := leaf_oneLeafIndex
  have hreads : ∀ e ∈ [(smallKey 1, (1 : Int64)), (smallKey 2, 2)], ReadsOnPage 512 .utf8 e := by
    rw [List.forall_mem_cons, List.forall_mem_singleton]
    unfold ReadsOnPage
    constructor <;> decide
  have hlt : 1 < [(smallKey 1, (1 : Int64)), (smallKey 2, 2)].length := by decide
  have hkey : encodeRecord [.int 2, .int 2] = [(smallKey 1, (1 : Int64)),
      (smallKey 2, 2)][1].1 := rfl
  exact (idxDelete_removes_iff wellFormed_oneLeafIndex hlt hkey).mpr
    ⟨⟨page, hdr, hleaf.shown, hleaf.parse, hleaf.pageType⟩,
      fun j hj _ => hreads _ (List.getElem_mem hj)⟩

def twoLevelIndex : PagerState × World DbFile := databaseWith [
  layOut .interiorIndex (some 4) [be32 3 ++ indexCell 2],
  layOut .leafIndex none ([smallStoredKey 1].map StoredKey.bytes),
  layOut .leafIndex none ([smallStoredKey 3].map StoredKey.bytes)]

set_option maxRecDepth 10000 in
theorem wellFormed_twoLevelIndex :
    WellFormedIndex intValue twoLevelIndex 2 []
      [(smallKey 1, 1), (smallKey 2, 2), (smallKey 3, 3)] := by
  have hfixed : twoLevelIndex.1.autoVacuum = false := by decide
  have hleft : ∃ page hdr, IndexLeafAt 512 .utf8 intValue
      (pageSeen twoLevelIndex.1 twoLevelIndex.2.disk) 3 [smallStoredKey 1] page hdr :=
    indexLeafAt_layOut (by decide) (by decide)
      (by simpa using smallStoredKey_inLeaf _ (by decide)) (by decide)
  have hright : ∃ page hdr, IndexLeafAt 512 .utf8 intValue
      (pageSeen twoLevelIndex.1 twoLevelIndex.2.disk) 4 [smallStoredKey 3] page hdr :=
    indexLeafAt_layOut (by decide) (by decide)
      (by simpa using smallStoredKey_inLeaf _ (by decide)) (by decide)
  obtain ⟨page₃, hdr₃, hleft⟩ := hleft
  obtain ⟨page₄, hdr₄, hright⟩ := hright
  have hsize : (List.replicate 512 (0 : UInt8)).length ≤ 65536 := by decide
  obtain ⟨page, hdr, hrun, -, hlaid⟩ := writePageCells_spec 0 .interiorIndex (some 4)
    [be32 3 ++ indexCell 2] hsize (by decide) (by decide) (by decide)
  have hroot : pageSeen twoLevelIndex.1 twoLevelIndex.2.disk 2 = .ok page := by
    have : pageSeen twoLevelIndex.1 twoLevelIndex.2.disk 2 =
      .ok (layOut .interiorIndex (some 4) [be32 3 ++ indexCell 2]) := by decide
    rw [this, layOut]
    exact congrArg (fun r => Except.ok (r.toOption.getD [])) hrun
  have hdivider : (⟨be32 3 ++ indexCell 2, (smallKey 2, 2), []⟩ : StoredKey).Divides 512 .utf8
      intValue (pageSeen twoLevelIndex.1 twoLevelIndex.2.disk) 3 := by
    refine ⟨by decide, ⟨⟨3, (smallKey 2).length, smallKey 2, none⟩, by decide, rfl,
      rfl, ?_⟩, by decide⟩
    simp [assembleIndexInteriorPayload, assemble, assembleLoop]
  refine ⟨⟨2, [2, 3, 4], .inr ⟨page, hdr, hroot, hlaid.parse, hlaid.pageType_eq,
      [⟨⟨be32 3 ++ indexCell 2, (smallKey 2, 2), []⟩, 3, [3], [(smallKey 1, 1)]⟩], 4, [4],
      [(smallKey 3, 3)], ?_⟩, by decide, by decide, fun hvac => by simp [hfixed] at hvac⟩,
    ⟨by decide, by decide⟩, complete_of_readable (by decide), rfl⟩
  refine ⟨hlaid.numCells.symm, fun i hi => ?_, ?_, hlaid.rightMost rfl,
    .inl ⟨_, page₄, hdr₄, hright, rfl, rfl⟩, rfl, rfl⟩
  · obtain rfl : i = 0 := by simpa using hi
    exact hlaid.cells 0 (by decide)
  · rw [List.forall_mem_singleton]
    exact ⟨hdivider, .inl ⟨_, page₃, hdr₃, hleft, rfl, rfl⟩⟩

set_option maxRecDepth 10000 in
/-- The entry that divides two leaves is stored, and cannot be deleted. -/
theorem idxDelete_refuses_divider :
    WellFormedIndex intValue twoLevelIndex 2 []
      [(smallKey 1, 1), (smallKey 2, 2), (smallKey 3, 3)] ∧
    encodeRecord [.int 2, .int 2] = smallKey 2 ∧
    ∀ fuel q, idxDelete fuel 2 [.int 2, .int 2] [] twoLevelIndex ≠ .ok () q := by
  refine ⟨wellFormed_twoLevelIndex, rfl, fun fuel q hdel => ?_⟩
  obtain ⟨page, hdr, values, columns, rowid, found, hpage, hparse, htype, -⟩ :=
    of_idxDelete_ok rfl hdel
  have hroot : (pageSeen twoLevelIndex.1 twoLevelIndex.2.disk 2).toOption.bind (fun page =>
      (PageHeader.parse page 0).toOption.map PageHeader.pageType) = some .interiorIndex := by
    decide
  rw [hpage] at hroot
  change (PageHeader.parse page (btreeHeaderOffset 2)).toOption.map _ = _ at hroot
  rw [hparse] at hroot
  cases htype.symm.trans (Option.some.inj hroot)

end Rustqlite.Btree
