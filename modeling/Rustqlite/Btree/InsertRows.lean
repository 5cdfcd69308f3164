import Rustqlite.Btree.InsertRoom
import Rustqlite.Btree.SmallDatabase

/-!
# Insertions one after another

A table in order is in order after every insertion, and holds one row more.  So
a scan after any number of them finds the rows in order, and a search finds
every one of them.
-/

namespace Rustqlite.Btree

open Foundation Format Pager FileM

/-! ## From the root to the leaf -/

section Descent

variable {p : PagerState × World DbFile} {root leaf : UInt32} {path : List UInt32}
  {rs : List StoredRow} {page : Bytes} {hdr : PageHeader} {rowid : Int64}

section

variable (hp : p.2.failAt = none)

include hp

theorem insertAutovac_descend {pgno right : UInt32} {ds : List Divider}
    (h : NodeAt (pageSeen p.1 p.2.disk) pgno ds right page hdr) (rowid : Int64) (payload : Bytes)
    (path : List UInt32) :
    ∃ q, Quiet p q ∧ ∀ fuel, insertWithSplittingAutovac (fuel + 1) pgno rowid payload path p =
      insertWithSplittingAutovac fuel (selected ds right rowid) rowid payload (pgno :: path) q := by
  obtain ⟨q, hget, hq⟩ := getPage_ok hp h.shown
  refine ⟨q, hq, fun fuel => ?_⟩
  rw [insertWithSplittingAutovac, bind_ok hget]
  simp only [h.carries.parse, liftResult_ok_bind, h.carries.pageType_eq, pickChild_ok h]

theorem quiet_refl : Quiet p p :=
  ⟨⟨p.1.cache, p.1.txn, rfl⟩, hp, fun _ => rfl⟩

theorem insert_routed (hway : Routed (pageSeen p.1 p.2.disk) rowid root leaf path) (cell : Bytes) :
    ∃ q, Quiet p q ∧ ∀ fuel, insertWithSplitting (fuel + path.length) root rowid cell [] p =
      insertWithSplitting fuel leaf rowid cell path q := by
  induction hway with
  | here => exact ⟨p, quiet_refl hp, fun _ => rfl⟩
  | @child pgno right path ds page hdr _ hnode ih =>
      obtain ⟨p₁, hq₁, hrun₁⟩ := ih
      obtain ⟨q, hq, hrun⟩ :=
        insert_descend hq₁.failAt (hnode.congr (hq₁.view pgno)) rowid cell path
      refine ⟨q, hq₁.trans hq, fun fuel => ?_⟩
      rw [List.length_cons, ← hrun, ← hrun₁, Nat.add_right_comm, Nat.add_assoc]

theorem insertAutovac_routed (hway : Routed (pageSeen p.1 p.2.disk) rowid root leaf path)
    (payload : Bytes) :
    ∃ q, Quiet p q ∧ ∀ fuel,
      insertWithSplittingAutovac (fuel + path.length) root rowid payload [] p =
        insertWithSplittingAutovac fuel leaf rowid payload path q := by
  induction hway with
  | here => exact ⟨p, quiet_refl hp, fun _ => rfl⟩
  | @child pgno right path ds page hdr _ hnode ih =>
      obtain ⟨p₁, hq₁, hrun₁⟩ := ih
      obtain ⟨q, hq, hrun⟩ := insertAutovac_descend hq₁.failAt (hnode.congr (hq₁.view pgno)) rowid
        payload path
      refine ⟨q, hq₁.trans hq, fun fuel => ?_⟩
      rw [List.length_cons, ← hrun, ← hrun₁, Nat.add_right_comm, Nat.add_assoc]

theorem insert_at_leaf (hway : Routed (pageSeen p.1 p.2.disk) rowid root leaf path)
    (h : LeafOf p.1.geometry.usableSize (pageSeen p.1 p.2.disk) leaf rs page hdr) (cell : Bytes) :
    ∃ q, Quiet p q ∧ ∀ fuel, insertWithSplitting (fuel + 1 + path.length) root rowid cell [] p =
      insertAtLeaf (fun target => insertWithSplitting fuel target rowid cell []) leaf page hdr rowid
        cell path q := by
  obtain ⟨p₁, hq₁, hrun₁⟩ := insert_routed hp hway cell
  obtain ⟨q, hget, hq⟩ := getPage_ok hq₁.failAt ((hq₁.view leaf).trans h.shown)
  refine ⟨q, hq₁.trans hq, fun fuel => ?_⟩
  rw [hrun₁, insertWithSplitting, bind_ok hget]
  simp only [h.carries.parse, liftResult_ok_bind, h.carries.pageType_eq]

theorem insertAutovac_at_leaf (hway : Routed (pageSeen p.1 p.2.disk) rowid root leaf path)
    (h : LeafOf p.1.geometry.usableSize (pageSeen p.1 p.2.disk) leaf rs page hdr)
    (payload : Bytes) :
    ∃ q, Quiet p q ∧ ∀ fuel,
      insertWithSplittingAutovac (fuel + 1 + path.length) root rowid payload [] p =
        (buildTableLeafCellWithHost rowid payload q.1.geometry.usableSize (some leaf) >>=
          fun cell => insertAtLeaf (fun target => insertWithSplitting fuel target rowid cell [])
            leaf page hdr rowid cell path) q := by
  obtain ⟨p₁, hq₁, hrun₁⟩ := insertAutovac_routed hp hway payload
  obtain ⟨q, hget, hq⟩ := getPage_ok hq₁.failAt ((hq₁.view leaf).trans h.shown)
  refine ⟨q, hq₁.trans hq, fun fuel => ?_⟩
  rw [hrun₁, insertWithSplittingAutovac, bind_ok hget]
  simp only [h.carries.parse, liftResult_ok_bind, h.carries.pageType_eq, getState_bind]

end

end Descent

/-! ## More fuel -/

section Fuel

def KeepsOk {α : Type} (m m' : PagerM α) : Prop := ∀ p a q, m p = .ok a q → m' p = .ok a q

theorem KeepsOk.refl {α : Type} (m : PagerM α) : KeepsOk m m := fun _ _ _ h => h

theorem KeepsOk.bind {α β : Type} {m : PagerM α} {f f' : α → PagerM β}
    (h : ∀ a, KeepsOk (f a) (f' a)) : KeepsOk (m >>= f) (m >>= f') := by
  intro p b q hrun
  obtain ⟨a, r, hm, hf⟩ := of_bind_ok hrun
  rw [bind_ok hm]
  exact h a r b q hf

theorem insertAtLeaf_keepsOk {f f' : UInt32 → PagerM Unit}
    (h : ∀ target, KeepsOk (f target) (f' target))
    (pgno : UInt32) (buf : Bytes) (hdr : PageHeader) (rowid : Int64) (cell : Bytes)
    (path : List UInt32) : KeepsOk (insertAtLeaf f pgno buf hdr rowid cell path)
      (insertAtLeaf f' pgno buf hdr rowid cell path) := by
  refine .bind fun idx => .bind fun leaf => ?_
  cases insertLeafCell leaf (btreeHeaderOffset pgno) idx cell with
  | ok leaf => exact .refl _
  | error e =>
      cases hfull : isPageFull e with
      | true => simpa only [hfull, if_true] using .bind h
      | false => simpa only [hfull] using .refl _

theorem insertWithSplitting_keepsOk (fuel : Nat) (pgno : UInt32) (rowid : Int64) (cell : Bytes)
    (path : List UInt32) : KeepsOk (insertWithSplitting fuel pgno rowid cell path)
      (insertWithSplitting (fuel + 1) pgno rowid cell path) := by
  induction fuel generalizing pgno path with
  | zero => exact fun p a q h => nomatch h
  | succ fuel ih =>
      rw [insertWithSplitting, insertWithSplitting]
      refine .bind fun buf => .bind fun hdr => ?_
      cases hdr.pageType with
      | leafTable =>
          exact insertAtLeaf_keepsOk (fun target => ih target []) pgno buf hdr rowid cell path
      | interiorTable => exact .bind fun child => ih child (pgno :: path)
      | interiorIndex => exact .refl _
      | leafIndex => exact .refl _

theorem insertWithSplittingAutovac_keepsOk (fuel : Nat) (pgno : UInt32) (rowid : Int64)
    (payload : Bytes) (path : List UInt32) :
    KeepsOk (insertWithSplittingAutovac fuel pgno rowid payload path)
      (insertWithSplittingAutovac (fuel + 1) pgno rowid payload path) := by
  induction fuel generalizing pgno path with
  | zero => exact fun p a q h => nomatch h
  | succ fuel ih =>
      rw [insertWithSplittingAutovac, insertWithSplittingAutovac]
      refine .bind fun buf => .bind fun hdr => ?_
      cases hdr.pageType with
      | leafTable =>
          exact .bind fun s => .bind fun cell => insertAtLeaf_keepsOk (fun target =>
            insertWithSplitting_keepsOk fuel target rowid cell []) pgno buf hdr rowid cell path
      | interiorTable => exact .bind fun child => ih child (pgno :: path)
      | interiorIndex => exact .refl _
      | leafIndex => exact .refl _

theorem tableInsert_keepsOk (fuel : Nat) (root : UInt32) (rowid : Int64) (payload : Bytes) :
    KeepsOk (tableInsert fuel root rowid payload) (tableInsert (fuel + 1) root rowid payload) := by
  refine .bind fun s => ?_
  cases s.autoVacuum with
  | true => exact insertWithSplittingAutovac_keepsOk fuel root rowid payload []
  | false => exact .bind fun cell => insertWithSplitting_keepsOk fuel root rowid cell []

theorem tableInsert_mono {p q : PagerState × World DbFile} {fuel fuel' : Nat} {root : UInt32}
    {rowid : Int64} {payload : Bytes} (h : tableInsert fuel root rowid payload p = .ok () q)
    (hle : fuel ≤ fuel') : tableInsert fuel' root rowid payload p = .ok () q := by
  induction hle with
  | refl => exact h
  | step _ ih => exact tableInsert_keepsOk _ root rowid payload p () q ih

end Fuel

/-! ## Runs of insertions -/

def TableAt (p : PagerState × World DbFile) (root : UInt32) (used : List UInt32)
    (rows : List (Int64 × Bytes)) : Prop :=
  ∃ trunks pages d, SoundStore p trunks ∧ InUse p trunks (pages ++ used) ∧
    SearchPages p.1.geometry.usableSize (pageSeen p.1 p.2.disk) d none none root pages rows ∧
    (1 ∈ pages → root = 1)

def CanInsert (p : PagerState × World DbFile) (root : UInt32) (row : Int64 × Bytes) : Prop :=
  ∃ leaf path rs page hdr m, Routed (pageSeen p.1 p.2.disk) row.1 root leaf path ∧
    LeafOf p.1.geometry.usableSize (pageSeen p.1 p.2.disk) leaf rs page hdr ∧
    Takes p.1.geometry.usableSize p.1.pageSize (pageSeen p.1 p.2.disk) leaf rs hdr row.1
      (cellLength p.1.geometry.usableSize row.1 row.2) path m ∧
    ∀ trunks, Freelist p trunks →
      Spare p.1 trunks (spilledPages p.1.geometry.usableSize row.2 + m)

inductive CanInsertAll (root : UInt32) :
    PagerState × World DbFile → List (Int64 × Bytes) → Prop where
  | nil (p : PagerState × World DbFile) : CanInsertAll root p []
  | cons {p : PagerState × World DbFile} {row : Int64 × Bytes} {rows : List (Int64 × Bytes)}
      (h : CanInsert p root row)
      (hrest : ∀ fuel q, tableInsert fuel root row.1 row.2 p = .ok () q →
        CanInsertAll root q rows) :
      CanInsertAll root p (row :: rows)

def insertRows (fuel : Nat) (root : UInt32) : List (Int64 × Bytes) → PagerM Unit
  | [] => return ()
  | row :: rows => do
      tableInsert fuel root row.1 row.2
      insertRows fuel root rows

section Runs

variable {p q r : PagerState × World DbFile} {trunks rest : List (UInt32 × List UInt32)}
  {root leaf : UInt32} {pages path used : List UInt32} {rows stored : List (Int64 × Bytes)}
  {rs : List StoredRow} {row : StoredRow} {page cell : Bytes} {hdr : PageHeader} {rowid : Int64}
  {payload : Bytes} {d m : Nat}

theorem reached_of_built (hin : InUse p trunks pages)
    (htree : SearchPages p.1.geometry.usableSize (pageSeen p.1 p.2.disk) d none none root pages
      rows)
    (hfirst : 1 ∈ pages → root = 1)
    (hway : Routed (pageSeen p.1 p.2.disk) rowid root leaf path)
    (hleaf : LeafOf p.1.geometry.usableSize (pageSeen p.1 p.2.disk) leaf rs page hdr)
    (htakes : Takes p.1.geometry.usableSize p.1.pageSize (pageSeen p.1 p.2.disk) leaf rs hdr rowid
      (cellLength p.1.geometry.usableSize rowid payload) path m)
    (hspare : Spare p.1 trunks (spilledPages p.1.geometry.usableSize payload + m))
    (hnew : rowid ∉ rows.map Prod.fst) (hbuilt : BuiltRow q rowid payload cell row)
    (hrep : Replaced p q trunks rest [] row.chain) :
    Reached q rest root pages rows row leaf path rs page hdr m := by
  have hgeometry := hrep.grows.geometry
  have hview := hrep.view hin
  obtain ⟨s, inner, within, hparts, -, hpath⟩ := htree.routed (within_unbounded _) hway
  obtain ⟨d', hinner⟩ := hparts.tree
  obtain ⟨rfl, -, -, -⟩ := hinner.leaf_inv hleaf
  have hinner : leaf :: chains rs ⊆ pages :=
    fun x hx => hparts.pages_perm.symm.subset (List.mem_append_right _ hx)
  have hancestors : path ⊆ pages :=
    fun x hx => hparts.pages_perm.symm.subset (List.mem_append_left _ (hpath hx))
  have hrowid : row.row.1 = rowid := congrArg Prod.fst hbuilt.row_eq
  have hlength := hbuilt.length
  have hchain := hbuilt.chain
  rw [hgeometry] at hlength hchain
  constructor
  · exact hrep.sound
  · rw [hgeometry]
    exact ⟨d, htree.congr hview⟩
  · exact (hrep.frame hin).perm List.perm_append_comm
  · exact hfirst
  · rw [hrowid]
    exact hway.congr fun x hx => hview x (hancestors hx)
  · rw [hgeometry]
    exact hleaf.congr (hview leaf (hinner List.mem_cons_self))
      fun x hx => hview x (hinner (List.mem_cons_of_mem _ hx))
  · rw [hgeometry, PagerState.pageSize, hgeometry, hrowid, hlength]
    exact htakes.congr fun x hx => hview x (hancestors hx)
  · exact hbuilt.valid
  · exact (hrep.spare _ hspare).mono (by simp [hchain])
  · rwa [hrowid]

theorem tableAt_of_putInto {pages' : List UInt32} {rows' : List (Int64 × Bytes)}
    (hin : InUse p trunks (pages ++ used)) (hs : SoundStore p trunks)
    (hfirst : 1 ∈ pages → root = 1) (hrow : row.row = (rowid, payload))
    {rest' : List (UInt32 × List UInt32)} (hrep : Replaced p q trunks rest [] row.chain)
    (hput : PutInto q r rest rest' root pages pages' rows rows' row) :
    TableAt r root used rows' ∧ rows'.Perm ((rowid, payload) :: rows) ∧
      ∀ x ∈ used, pageSeen r.1 r.2.disk x = pageSeen p.1 p.2.disk x := by
  have hpages : Replaced p q trunks rest pages (pages ++ row.chain) :=
    (hrep.widen hin.left).perm (.refl _) List.perm_append_comm
  have hall := hpages.trans hput.replaced
  obtain ⟨d, htree⟩ := hput.tree
  refine ⟨⟨rest', pages', d, hall.sound, hall.frame hin, htree, fun hone => ?_⟩,
    hrow ▸ hput.rows_perm, hall.view hin⟩
  rcases hall.source 1 hone with hmem | hfresh
  · exact hfirst hmem
  · exact absurd hfresh hs.not_fresh_one

theorem tableInsert_ok {row : Int64 × Bytes} (h : TableAt p root used rows)
    (hcan : CanInsert p root row) (hnew : row.1 ∉ rows.map Prod.fst) :
    ∃ fuel q rows', tableInsert fuel root row.1 row.2 p = .ok () q ∧ TableAt q root used rows' ∧
      rows'.Perm (row :: rows) ∧ ∀ x ∈ used, pageSeen q.1 q.2.disk x = pageSeen p.1 p.2.disk x := by
  obtain ⟨trunks, pages, d, hs, hin, htree, hfirst⟩ := h
  obtain ⟨leaf, path, rs, page, hdr, m, hway, hleaf, htakes, hspare⟩ := hcan
  obtain ⟨rowid, payload⟩ := row
  have hpages := hspare trunks hs.freelist
  by_cases hvac : p.1.autoVacuum = true
  · obtain ⟨p₁, hq₁, hdown⟩ := insertAutovac_at_leaf hs.failAt hway hleaf payload
    have h₁ := hs.quiet hq₁
    have hbuild := buildTableLeafCell_spec h₁.sound rowid payload (some leaf)
    cases hcell :
        buildTableLeafCellWithHost rowid payload p₁.1.geometry.usableSize (some leaf) p₁ with
    | error e p₂ =>
        rw [hcell, hq₁.geometry] at hbuild
        exact absurd ((h₁.spare _ hpages).mono (Nat.le_add_right _ m)) hbuild
    | ok cell p₂ =>
        rw [hcell] at hbuild
        obtain ⟨rest, row, hbuilt, hrep⟩ := hbuild
        have hbegin := h₁.trans hrep
        obtain ⟨fuel, q, rest', pages', rows', hrun, hput⟩ :=
          (reached_of_built hin.left htree hfirst
          hway hleaf htakes hpages hnew hbuilt hbegin).inserts
        obtain ⟨htable, hperm, hview⟩ :=
          tableAt_of_putInto hin hs hfirst hbuilt.row_eq hbegin hput
        refine ⟨fuel + 1 + path.length, q, rows', ?_, htable, hperm, hview⟩
        have hrowid : row.row.1 = rowid := congrArg Prod.fst hbuilt.row_eq
        rw [tableInsert, getState_bind, if_pos hvac, hdown, bind_ok hcell, ← hrun, hrowid,
          hbuilt.bytes_eq]
  · have hbuild := buildTableLeafCell_spec hs rowid payload none
    cases hcell : buildTableLeafCellWithHost rowid payload p.1.geometry.usableSize none p with
    | error e p₁ =>
        rw [hcell] at hbuild
        exact absurd (hpages.mono (Nat.le_add_right _ m)) hbuild
    | ok cell p₁ =>
        rw [hcell] at hbuild
        obtain ⟨rest, row, hbuilt, hrep⟩ := hbuild
        have hreached := reached_of_built hin.left htree hfirst hway hleaf htakes hpages hnew hbuilt
          hrep
        obtain ⟨p₂, hq₂, hdown⟩ :=
          insert_at_leaf hrep.sound.failAt hreached.way hreached.atLeaf cell
        obtain ⟨fuel, q, rest', pages', rows', hrun, hput⟩ := (hreached.quiet hq₂).inserts
        obtain ⟨htable, hperm, hview⟩ := tableAt_of_putInto hin hs hfirst hbuilt.row_eq hrep
          (hput.of_quiet hreached.sound hreached.inUse hq₂)
        refine ⟨fuel + 1 + path.length, q, rows', ?_, htable, hperm, hview⟩
        have hrowid : row.row.1 = rowid := congrArg Prod.fst hbuilt.row_eq
        rw [tableInsert, getState_bind, if_neg hvac, buildTableLeafCell, bind_ok hcell, ← hrowid,
          hdown, ← hrun, hbuilt.bytes_eq]

theorem insertRows_ok (h : TableAt p root used stored) (hcan : CanInsertAll root p rows)
    (hnew : ((stored ++ rows).map Prod.fst).Nodup) :
    ∃ N q all, (∀ fuel ≥ N, insertRows fuel root rows p = .ok () q) ∧
      TableAt q root used all ∧ all.Perm (stored ++ rows) ∧
      ∀ x ∈ used, pageSeen q.1 q.2.disk x = pageSeen p.1 p.2.disk x := by
  induction rows generalizing p stored with
  | nil =>
      exact ⟨0, p, stored, fun _ _ => rfl, h, by simp, fun _ _ => rfl⟩
  | cons row rows ih =>
      cases hcan with
      | cons hcan hrest =>
          have hrow : row.1 ∉ stored.map Prod.fst := by
            rw [List.map_append, List.map_cons] at hnew
            exact fun hmem => (List.nodup_append.mp hnew).2.2 _ hmem _ List.mem_cons_self rfl
          obtain ⟨fuel, p₁, rows₁, hrun, htable, hperm, hview⟩ := tableInsert_ok h hcan hrow
          have hall : (rows₁ ++ rows).Perm (stored ++ row :: rows) :=
            (hperm.append_right rows).trans List.perm_middle.symm
          obtain ⟨N, q, all, hruns, hlast, hperm', hview'⟩ := ih htable (hrest fuel p₁ hrun)
            ((hall.map Prod.fst).nodup_iff.mpr hnew)
          refine ⟨max N fuel, q, all, fun n hn => ?_, hlast, hperm'.trans hall,
            fun x hx => (hview' x hx).trans (hview x hx)⟩
          have hfirst := tableInsert_mono hrun (show fuel ≤ n by omega)
          rw [insertRows, bind_ok hfirst]
          exact hruns n (by omega)

theorem TableAt.scan (h : TableAt p root used rows) :
    Ascends rows ∧ ∃ N, ∀ fuel ≥ N, ∃ q, scanTable fuel root p = .ok rows q := by
  obtain ⟨trunks, pages, d, hs, -, htree, -⟩ := h
  refine ⟨htree.searchTree.ascending, d, fun fuel hfuel => ?_⟩
  obtain ⟨q, hrun, -⟩ := run_ok hs.failAt (htree.searchTree.visitTable_ok hfuel)
  exact ⟨q, hrun⟩

theorem TableAt.seek (h : TableAt p root used rows) (rowid : Int64) :
    ∃ N, ∀ fuel ≥ N, ∃ c q,
      ((TableCursor.new root).seekRowid p.1.geometry.usableSize rowid fuel).run p =
        .ok (c, decide (rowid ∈ rows.map Prod.fst)) q := by
  obtain ⟨trunks, pages, d, hs, -, htree, -⟩ := h
  obtain ⟨N, hN⟩ := seekRowid_found htree.searchTree rowid
  refine ⟨N, fun fuel hfuel => ?_⟩
  obtain ⟨c, heval⟩ := hN fuel hfuel
  obtain ⟨q, hrun, -⟩ := run_ok hs.failAt heval
  exact ⟨c, q, hrun⟩

/--
After a run of insertions that find leaves for their rows, a scan yields all the
rows in ascending order and a seek finds exactly their rowids; no page that is
used elsewhere has changed.
-/
theorem insertRows_scan (h : TableAt p root used stored) (hcan : CanInsertAll root p rows)
    (hnew : ((stored ++ rows).map Prod.fst).Nodup) :
    ∃ N q all, (∀ fuel ≥ N, insertRows fuel root rows p = .ok () q) ∧
      all.Perm (stored ++ rows) ∧ Ascends all ∧
      (∃ M, ∀ fuel ≥ M, ∃ q', scanTable fuel root q = .ok all q') ∧
      (∀ rowid, ∃ M, ∀ fuel ≥ M, ∃ c q',
        ((TableCursor.new root).seekRowid q.1.geometry.usableSize rowid fuel).run q =
          .ok (c, decide (rowid ∈ (stored ++ rows).map Prod.fst)) q') ∧
      ∀ x ∈ used, pageSeen q.1 q.2.disk x = pageSeen p.1 p.2.disk x := by
  obtain ⟨N, q, all, hruns, htable, hperm, hview⟩ := insertRows_ok h hcan hnew
  obtain ⟨hasc, hscan⟩ := htable.scan
  refine ⟨N, q, all, hruns, hperm, hasc, hscan, fun rowid => ?_, hview⟩
  have hseek := htable.seek rowid
  rwa [decide_eq_decide.mpr ((hperm.map Prod.fst).mem_iff (a := rowid))] at hseek

end Runs

/-! ## A root that is split -/

def broadRow (rowid : Int64) : StoredRow := localRow rowid (List.replicate 200 0)

def broadPages : List Bytes :=
  [layOut .leafTable none ([broadRow 1, broadRow 3].map StoredRow.bytes)]

/-- A table of one leaf, which has no room for a third row. -/
def broadTable : PagerState × World DbFile := databaseWith broadPages

set_option maxRecDepth 10000 in
theorem broadPages_ok : PagesOk broadPages where
  size page hpage := by
    have hall : (broadPages.all fun page => page.length == 512) = true := by decide
    exact beq_iff_eq.mp (List.all_eq_true.mp hall page hpage)
  count := by decide

set_option maxRecDepth 10000 in
theorem broadTable_leaf : ∃ page hdr,
    LeafOf 512 (pageSeen broadTable.1 broadTable.2.disk) 2 [broadRow 1, broadRow 3] page hdr ∧
      hdr.cellContentStart = 512 - 406 := by
  have hshown : pageSeen broadTable.1 broadTable.2.disk 2 =
      .ok (layOut .leafTable none ([broadRow 1, broadRow 3].map StoredRow.bytes)) :=
    (broadPages_ok).shows (i := 0) rfl rfl
  have hvalid : ∀ r ∈ [broadRow 1, broadRow 3],
      r.Valid 512 (pageSeen broadTable.1 broadTable.2.disk) := by
    rw [List.forall_mem_cons, List.forall_mem_singleton]
    exact ⟨localRow_valid _ 1 (by simp), localRow_valid _ 3 (by simp)⟩
  obtain ⟨page, hdr, hleaf, hstart⟩ := leafOf_layOut (by decide) hshown hvalid (by decide)
  have hcells : ([broadRow 1, broadRow 3].map StoredRow.bytes).flatten.length = 406 := by decide
  exact ⟨page, hdr, hleaf, hstart.trans (congrArg (512 - ·) hcells)⟩

set_option maxRecDepth 10000 in
theorem tableAt_broadTable :
    TableAt broadTable 2 [] ([broadRow 1, broadRow 3].map StoredRow.row) := by
  obtain ⟨page, hdr, hleaf, -⟩ := broadTable_leaf
  have hin : InUse broadTable [] ([2] ++ []) := (broadPages_ok).inUse (by decide) (by
    rw [List.append_nil, List.forall_mem_singleton]
    exact ⟨by decide, Nat.le_refl 2⟩)
  refine ⟨[], [2], 1, (broadPages_ok).soundStore, hin, ?_, fun hmem => absurd hmem (by decide)⟩
  have hbounds : InBounds none none [broadRow 1, broadRow 3] :=
    ⟨List.pairwise_pair.mpr (by change (1 : Int64) < 3; decide),
      fun r _ => within_unbounded r.row.1⟩
  exact hbounds.searchPages hleaf

set_option maxRecDepth 10000 in
theorem canInsert_broadTable : CanInsert broadTable 2 (4, List.replicate 200 0) := by
  obtain ⟨page, hdr, hleaf, hstart⟩ := broadTable_leaf
  have hcell : cellLength 512 4 (List.replicate 200 0) = 203 := by decide
  have hfull : ¬ HasRoom 2 [broadRow 1, broadRow 3] hdr 203 := not_hasRoom hstart (by decide)
  have hfits : Fits 512 (halfFor 512 4 [broadRow 1, broadRow 3]) 203 := by decide
  refine ⟨2, [], _, page, hdr, 2, .here, hleaf, ?_, fun trunks _ =>
    ⟨[3, 4], by decide, by decide, ?_⟩⟩
  · change Takes 512 512 _ 2 _ hdr 4 (cellLength 512 4 (List.replicate 200 0)) [] (2 * 0 + 2)
    rw [hcell]
    exact .root hfull (by decide) (.fits hfits)
  · have hend : ∀ x ∈ [(3 : UInt32), 4], UInt32.ofNat 2 < x ∧
        isPendingBytePage x.toNat = false := by simp [isPendingBytePage, pendingBytePage]
    exact fun x hx => .inr ⟨(hend x hx).1, Bool.or_eq_false_iff.mpr ⟨(hend x hx).2, rfl⟩⟩

theorem broadRows_nodup : (([broadRow 1, broadRow 3].map StoredRow.row ++
    [(4, List.replicate 200 0)]).map Prod.fst).Nodup := by
  have hrowids : ([broadRow 1, broadRow 3].map StoredRow.row ++
      [((4 : Int64), List.replicate 200 (0 : UInt8))]).map Prod.fst = [1, 3, 4] := by
    simp [broadRow, localRow, -List.reduceReplicate]
  rw [hrowids]
  decide

/-- The third row gets a leaf of its own with the second one. -/
theorem insertRows_scan_broadTable : ∃ N q all,
    (∀ fuel ≥ N, insertRows fuel 2 [(4, List.replicate 200 0)] broadTable = .ok () q) ∧
      all.Perm ([broadRow 1, broadRow 3].map StoredRow.row ++ [(4, List.replicate 200 0)]) ∧
      Ascends all ∧ (∃ M, ∀ fuel ≥ M, ∃ q', scanTable fuel 2 q = .ok all q') ∧
      (∀ rowid, ∃ M, ∀ fuel ≥ M, ∃ c q',
        ((TableCursor.new 2).seekRowid q.1.geometry.usableSize rowid fuel).run q =
          .ok (c, decide (rowid ∈ ([broadRow 1, broadRow 3].map StoredRow.row ++
            [(4, List.replicate 200 0)]).map Prod.fst)) q') ∧
      ∀ x ∈ [], pageSeen q.1 q.2.disk x = pageSeen broadTable.1 broadTable.2.disk x :=
  insertRows_scan tableAt_broadTable (.cons canInsert_broadTable fun _ q _ => .nil q)
    broadRows_nodup

end Rustqlite.Btree
