import Rustqlite.Btree.DeleteScan
import Rustqlite.Btree.TableSeek

/-!
# The parent of a leaf

A frame knows an interior page, but not its number.  The number is looked up by
following the frames from the root; the walk takes one step too many, and ends
with a child of the parent.
-/

namespace Rustqlite.Btree

open Foundation Format Pager Reading

inductive Arrives (usable : Nat) (view : UInt32 → Result Bytes) (root : UInt32) :
    TableCursor → Prop where
  | rewind {fuel : Nat} {c : TableCursor}
      (h : ((TableCursor.new root).rewind fuel).eval view = .ok c) : Arrives usable view root c
  | seek {fuel : Nat} {target : Int64} {c : TableCursor} {found : Bool}
      (h : ((TableCursor.new root).seekRowid usable target fuel).eval view = .ok (c, found)) :
      Arrives usable view root c
  | next {fuel : Nat} {c c' : TableCursor} (hc : Arrives usable view root c)
      (h : (c.next fuel).eval view = .ok c') : Arrives usable view root c'

/-- What `parent_info` should say about a leaf. -/
def ParentRight (view : UInt32 → Result Bytes) (root leafPgno : UInt32) :
    Option (UInt32 × Nat × Bool) → Prop
  | none => leafPgno = root
  | some (parentPgno, childIdx, isRootParent) => ∃ page hdr, view parentPgno = .ok page ∧
      PageHeader.parse page (btreeHeaderOffset parentPgno) = .ok hdr ∧
      hdr.pageType = .interiorTable ∧
      TreePosition.interiorChild tableKind hdr page childIdx = .ok (some leafPgno) ∧
      (isRootParent = true ↔ parentPgno = root)

section Lookup

variable {view : UInt32 → Result Bytes} {inner leaves : List UInt32} {root : UInt32}

def FrameIn (view : UInt32 → Result Bytes) (inner leaves : List UInt32) (f : Frame) : Prop :=
  f.hdr.pageType = .interiorTable ∧ ∃ cs depth ls, NodeHolds tableKind f.page f.hdr cs ∧
    List.Forall₂ (Spine view inner depth) cs ls ∧ ls.flatten.Sublist leaves

def ChildOf (f : Frame) (pgno : UInt32) : Prop :=
  ∃ cs, NodeHolds tableKind f.page f.hdr cs ∧ pgno ∈ cs ∧
    (f.next = 0 ∨ cs[f.next - 1]? = some pgno)

structure Above (view : UInt32 → Result Bytes) (inner leaves : List UInt32) (root : UInt32)
    (stack : List Frame) (pgno : UInt32) : Prop where
  frames : ∀ f ∈ stack, FrameIn view inner leaves f
  interior : stack ≠ [] → ¬IsTableLeaf view root
  child : ∀ f ∈ stack.head?, ChildOf f pgno
  root : stack = [] → pgno = root
  tree : ∃ depth ls, Spine view inner depth pgno ls ∧ ls.Sublist leaves

structure OnTree (view : UInt32 → Result Bytes) (inner leaves : List UInt32) (root : UInt32)
    (c : TreePosition) : Prop where
  above : Above view inner leaves root c.stack c.leafPgno
  leaf : IsTableLeaf view c.leafPgno

variable {pgno r : UInt32} {page : Bytes} {hdr : PageHeader} {depth fuel usable : Nat}
  {c c' : TreePosition} {target : Int64} {f : Frame}

theorem not_isTableLeaf (hpage : view pgno = .ok page)
    (hparse : PageHeader.parse page (btreeHeaderOffset pgno) =
        .ok hdr) (htype : hdr.pageType = .interiorTable) : ¬IsTableLeaf view pgno := by
  rintro ⟨page', hdr', hpage', hparse', htype'⟩
  cases hpage.symm.trans hpage'
  cases hparse.symm.trans hparse'
  rw [htype] at htype'
  cases htype'

theorem Spine.of_leaf {ls : List UInt32} (h : Spine view inner depth pgno ls)
    (hleaf : IsTableLeaf view pgno) : ls = [pgno] := by
  cases depth with
  | zero => exact h.elim
  | succ depth =>
      obtain ⟨page, hdr, hpage, hparse, ⟨-, rfl⟩ | ⟨-, htype, -⟩⟩ := h
      · rfl
      · exact absurd hleaf (not_isTableLeaf hpage hparse htype)

theorem Above.push {stack : List Frame} {child : UInt32} {k : Nat}
    (h : Above view inner leaves root stack pgno) (hpage : view pgno = .ok page)
    (hparse : PageHeader.parse page (btreeHeaderOffset pgno) = .ok hdr)
    (htype : hdr.pageType = .interiorTable)
    (hchild : ∀ cs, NodeHolds tableKind page hdr cs → child ∈ cs ∧
      (k = 0 ∨ cs[k - 1]? = some child)) :
    Above view inner leaves root (⟨page, hdr, k⟩ :: stack) child := by
  obtain ⟨depth, ls, hspine, hsub⟩ := h.tree
  cases depth with
  | zero => exact hspine.elim
  | succ depth =>
      obtain ⟨page', hdr', hpage', hparse', ⟨hleaf, -⟩ | ⟨-, -, cs, lss, hcs, hls, rfl⟩⟩ := hspine
      · exact absurd ⟨page', hdr', hpage', hparse', hleaf⟩ (not_isTableLeaf hpage hparse htype)
      · cases hpage.symm.trans hpage'
        cases hparse.symm.trans hparse'
        obtain ⟨hmem, hvisited⟩ := hchild cs hcs
        obtain ⟨i, hi, rfl⟩ := List.mem_iff_getElem.mp hmem
        have hi' : i < lss.length := hls.length_eq ▸ hi
        refine ⟨?_, fun _ => ?_, ?_, by simp, depth, lss[i], hls.get hi hi', ?_⟩
        · intro f hf
          rcases List.mem_cons.mp hf with rfl | hf
          · exact ⟨htype, cs, depth, lss, hcs, hls, hsub⟩
          · exact h.frames f hf
        · cases hstack : stack with
          | nil => exact h.root hstack ▸ not_isTableLeaf hpage hparse htype
          | cons f stack => exact h.interior (by simp [hstack])
        · simpa using ⟨cs, hcs, hmem, hvisited⟩
        · exact (List.sublist_flatten_of_mem (List.getElem_mem hi')).trans hsub

theorem descendLeft_onTree (h : Above view inner leaves root c.stack pgno)
    (hrun : (TreePosition.descendLeft tableKind fuel c pgno).eval view = .ok c') :
    OnTree view inner leaves root c' := by
  induction fuel generalizing c pgno with
  | zero => simp [TreePosition.descendLeft] at hrun
  | succ fuel ih =>
      simp only [TreePosition.descendLeft, eval_bind, eval_getPage, eval_lift,
        Result.bind_eq_ok] at hrun
      obtain ⟨page, hpage, hdr, hparse, hrun⟩ := hrun
      split_ifs at hrun with hleaf hinterior
      · cases hrun
        exact ⟨h, page, hdr, hpage, hparse, hleaf⟩
      · simp only [eval_bind, eval_lift, Result.bind_eq_ok] at hrun
        obtain ⟨first, hfirst, hrun⟩ := hrun
        cases first with
        | none => simp at hrun
        | some first =>
            refine ih (h.push hpage hparse hinterior fun cs hcs => ?_) hrun
            have hpos : 0 < cs.length := by
              rw [hcs.1]
              omega
            obtain rfl : cs[0] = first :=
              Option.some.inj (Except.ok.inj ((hcs.2 0 hpos).symm.trans hfirst))
            exact ⟨List.getElem_mem hpos, .inr (by simp [hpos])⟩
      · simp at hrun

theorem advance_onTree (hframes : ∀ f ∈ c.stack, FrameIn view inner leaves f)
    (hinterior : c.stack ≠ [] → ¬IsTableLeaf view root)
    (hrun : (TreePosition.advanceToNextLeaf tableKind fuel c).eval view = .ok c') :
    c'.atEnd = true ∧ c'.leaf = none ∨ OnTree view inner leaves root c' := by
  induction fuel generalizing c with
  | zero => simp [TreePosition.advanceToNextLeaf] at hrun
  | succ fuel ih =>
      rw [TreePosition.advanceToNextLeaf] at hrun
      split at hrun
      · cases hrun
        exact .inl ⟨rfl, rfl⟩
      · rename_i f rest hstack
        rw [hstack] at hframes
        have hroot := hinterior (by simp [hstack])
        simp only [eval_bind, eval_lift, Result.bind_eq_ok] at hrun
        obtain ⟨child, hchild, hrun⟩ := hrun
        cases child with
        | none => exact ih (fun g hg => hframes g (by simp [hg])) (fun _ => hroot) hrun
        | some child =>
            obtain ⟨htype, cs, depth, ls, hcs, hls, hsub⟩ := hframes f (by simp)
            have hlt : f.next < cs.length := by
              by_contra hge
              have hnone := TreePosition.interiorChild_length hcs (Nat.le_of_not_lt hge)
              rw [hnone] at hchild
              cases hchild
            obtain rfl : cs[f.next] = child :=
              Option.some.inj (Except.ok.inj ((hcs.2 _ hlt).symm.trans hchild))
            have hlt' : f.next < ls.length := hls.length_eq ▸ hlt
            have habove : Above view inner leaves root
                ({ f with next := f.next + 1 } :: rest) cs[f.next] := by
              refine ⟨?_, fun _ => hroot, ?_, by simp, depth, ls[f.next], hls.get hlt hlt',
                (List.sublist_flatten_of_mem (List.getElem_mem hlt')).trans hsub⟩
              · intro g hg
                rcases List.mem_cons.mp hg with rfl | hg
                · exact ⟨htype, cs, depth, ls, hcs, hls, hsub⟩
                · exact hframes g (by simp [hg])
              · simpa using ⟨cs, hcs, List.getElem_mem hlt, .inr (List.getElem?_eq_getElem hlt)⟩
            simp only [eval_bind, Result.bind_eq_ok] at hrun
            obtain ⟨c₁, hdesc, hrun⟩ := hrun
            have hon := descendLeft_onTree (c := { c with
              stack := { f with next := f.next + 1 } :: rest }) habove hdesc
            split_ifs at hrun
            · cases hrun
              exact .inr hon
            · exact ih hon.above.frames hon.above.interior hrun

/-! ## Every cursor -/

theorem mem_of_pickChildForRowidFrom {cs : List UInt32} (hcs : NodeHolds tableKind page hdr cs)
    {left i : Nat} (hn : i + left = hdr.numCells) {c : UInt32}
    (h : pickChildForRowidFrom target page hdr left i = .ok c) : c ∈ cs := by
  induction left generalizing i with
  | zero =>
      obtain ⟨init, right, rfl, hright, -⟩ := hcs.split
      rw [pickChildForRowidFrom, hright] at h
      cases h
      simp
  | succ left ih =>
      have hlt : i < cs.length := by
        rw [hcs.1]
        omega
      obtain ⟨off, cell, hoff, hcell, hleft⟩ := cell_of_interiorChild (by omega) (hcs.2 i hlt)
      simp only [pickChildForRowidFrom, hoff, hcell, Result.ok_bind] at h
      split_ifs at h
      · cases h
        exact hleft ▸ List.getElem_mem hlt
      · exact ih (by omega) h

theorem descendToTarget_onTree (h : Above view inner leaves root c.stack pgno)
    (hrun : (TableCursor.descendToTarget usable target fuel c pgno).eval view = .ok c') :
    OnTree view inner leaves root c' := by
  induction fuel generalizing c pgno with
  | zero => simp [TableCursor.descendToTarget] at hrun
  | succ fuel ih =>
      simp only [TableCursor.descendToTarget, eval_bind, eval_getPage, eval_lift,
        Result.bind_eq_ok] at hrun
      obtain ⟨page, hpage, hdr, hparse, hrun⟩ := hrun
      split at hrun
      · rename_i htype
        simp only [eval_bind, Result.bind_eq_ok] at hrun
        obtain ⟨idx, -, hrun⟩ := hrun
        cases hrun
        exact ⟨h, page, hdr, hpage, hparse, htype⟩
      · rename_i htype
        simp only [eval_bind, eval_lift, Result.bind_eq_ok] at hrun
        obtain ⟨child, hpick, hrun⟩ := hrun
        refine ih (h.push hpage hparse htype fun cs hcs => ?_) hrun
        exact ⟨mem_of_pickChildForRowidFrom hcs (Nat.zero_add _) hpick, .inl rfl⟩
      · simp at hrun

theorem Arrives.onTree {c : TableCursor} (hspine : Spine view inner depth root leaves)
    (h : Arrives usable view root c) :
    c.atEnd = true ∧ c.leaf = none ∨ OnTree view inner leaves root c.toTreePosition := by
  have hstart : Above view inner leaves root [] root :=
    ⟨by simp, fun hne => absurd rfl hne, by simp, fun _ => rfl, depth, leaves, hspine, .refl _⟩
  induction h with
  | rewind h =>
      simp only [TableCursor.rewind, eval_bind, Result.bind_eq_ok] at h
      obtain ⟨pos, hpos, h⟩ := h
      cases h
      simp only [TreePosition.rewind, eval_bind, Result.bind_eq_ok] at hpos
      obtain ⟨c₁, hdesc, hpos⟩ := hpos
      have hon := descendLeft_onTree (c := TreePosition.start) hstart hdesc
      split_ifs at hpos
      · exact advance_onTree hon.above.frames hon.above.interior hpos
      · cases hpos
        exact .inr hon
  | seek h =>
      simp only [TableCursor.seekRowid, eval_bind, Result.bind_eq_ok] at h
      obtain ⟨pos, hpos, h⟩ := h
      have hon := descendToTarget_onTree (c := TreePosition.start) hstart hpos
      split_ifs at h
      · simp only [eval_bind, eval_lift, Result.bind_eq_ok] at h
        obtain ⟨cell, -, h⟩ := h
        split_ifs at h
        · cases h
          exact .inr hon
        · cases h
          exact .inl ⟨rfl, rfl⟩
      · cases h
        exact .inr hon
  | @next fuel c c' hc h ih =>
      rw [TableCursor.next] at h
      split_ifs at h with hend
      · cases h
        exact ih
      · have hon := ih.resolve_left fun hdone => hend hdone.1
        simp only [eval_bind, Result.bind_eq_ok] at h
        obtain ⟨pos, hpos, h⟩ := h
        cases h
        rw [TreePosition.next, if_neg hend] at hpos
        cases hpending : c.pendingAdvance with
        | true =>
            simp only [hpending, if_true] at hpos
            split_ifs at hpos
            · cases hpos
              exact .inr ⟨hon.above, hon.leaf⟩
            · exact advance_onTree
                (c := { c.toTreePosition with pendingAdvance := false })
                hon.above.frames hon.above.interior hpos
        | false =>
            simp only [hpending, Bool.false_eq_true, if_false] at hpos
            split_ifs at hpos
            · cases hpos
              exact .inr ⟨hon.above, hon.leaf⟩
            · exact advance_onTree (c := { c.toTreePosition with
                cellIdx := c.cellIdx + 1
                pendingAdvance := false }) hon.above.frames hon.above.interior hpos

/-! ## The lookup -/

theorem resolveLoop_cases {leafPgno : UInt32} {frames : List Frame}
    (hframes : ∀ g ∈ frames ++ [f], g.hdr.pageType = .interiorTable)
    (h : TableCursor.resolveLoop leafPgno pgno (frames ++ [f]) = .ok (some r)) :
    r = leafPgno ∨ TableCursor.visitedChild f = .ok (some r) := by
  induction frames generalizing pgno with
  | nil =>
      have hint : f.hdr.pageType.isLeaf = false := by rw [hframes f (by simp)]; rfl
      simp only [List.nil_append, TableCursor.resolveLoop, hint, Bool.false_eq_true, if_false,
        Result.bind_eq_ok] at h
      obtain ⟨child, hchild, h⟩ := h
      cases child with
      | none => cases h
      | some child =>
          dsimp only at h
          split_ifs at h
          · cases h
            exact .inr hchild
          · cases h
            exact .inr hchild
  | cons g frames ih =>
      have hint : g.hdr.pageType.isLeaf = false := by rw [hframes g (by simp)]; rfl
      simp only [List.cons_append, TableCursor.resolveLoop, hint, Bool.false_eq_true, if_false,
        Result.bind_eq_ok] at h
      obtain ⟨child, hchild, h⟩ := h
      cases child with
      | none => cases h
      | some child =>
          dsimp only at h
          split_ifs at h with heq
          · cases h
            exact .inl heq
          · exact ih (fun x hx => hframes x (by simp at hx ⊢; tauto)) h

theorem OnTree.not_parent (h : OnTree view inner leaves root c) (hnodup : leaves.Nodup)
    {rest : List Frame} (hstack : c.stack = f :: rest)
    (hr : r = c.leafPgno ∨ TableCursor.visitedChild f = .ok (some r)) (hpage : view r = .ok page)
    (hparse : PageHeader.parse page (btreeHeaderOffset r) = .ok hdr)
    (htype : hdr.pageType = .interiorTable) (i : Nat) :
    TreePosition.interiorChild tableKind hdr page i ≠ .ok (some c.leafPgno) := by
  have hleaf := h.leaf
  have hnot := not_isTableLeaf hpage hparse htype
  have hne : r ≠ c.leafPgno := fun heq => hnot (heq ▸ hleaf)
  obtain ⟨cs, hcs, hmem, hvisited⟩ := h.above.child f (by rw [hstack]; rfl)
  obtain ⟨-, cs', depth, ls, hcs', hls, hsub⟩ := h.above.frames f (by simp [hstack])
  obtain rfl := hcs.unique hcs'
  obtain ⟨j, hj, hget⟩ := List.mem_iff_getElem.mp hmem
  have hpos : 0 < cs.length := by omega
  -- only a frame that a seek has pushed names another child, and that is the first one
  have hfirst : cs[0] = r := by
    have hchild := hr.resolve_left hne
    rcases hvisited with hzero | hlast
    · rw [TableCursor.visitedChild_ok hcs (by omega), hzero] at hchild
      simpa [List.getElem?_eq_getElem hpos] using Except.ok.inj hchild
    · have hlt : f.next - 1 < cs.length := (List.getElem?_eq_some_iff.mp hlast).1
      rw [TableCursor.visitedChild_ok hcs hlt, hlast] at hchild
      exact absurd (Option.some.inj (Except.ok.inj hchild)).symm hne
  intro hpoints
  have hspine := hls.get hpos (hls.length_eq ▸ hpos)
  have hspine' := hls.get hj (hls.length_eq ▸ hj)
  simp only [List.get_eq_getElem, hget] at hspine'
  have hj' : j < ls.length := hls.length_eq ▸ hj
  have hself : ls[j] = [c.leafPgno] := hspine'.of_leaf hleaf
  have hpos' : 0 < ls.length := by omega
  have hin : c.leafPgno ∈ ls[0] := by
    simp only [List.get_eq_getElem, hfirst] at hspine
    cases depth with
    | zero => exact hspine.elim
    | succ depth =>
        obtain ⟨page', hdr', hpage', hparse', ⟨htype', -⟩ | ⟨-, -, ds, lss, hds, hlss,
            heq⟩⟩ := hspine
        · exact absurd ⟨page', hdr', hpage', hparse', htype'⟩ hnot
        · cases hpage.symm.trans hpage'
          cases hparse.symm.trans hparse'
          have hlt : i < ds.length := by
            by_contra hge
            rw [TreePosition.interiorChild_length hds (Nat.le_of_not_lt hge)] at hpoints
            cases hpoints
          have hd : ds[i] = c.leafPgno :=
            Option.some.inj (Except.ok.inj ((hds.2 i hlt).symm.trans hpoints))
          have hlt' : i < lss.length := hlss.length_eq ▸ hlt
          have hchild := hlss.get hlt hlt'
          simp only [List.get_eq_getElem, hd] at hchild
          rw [heq, List.mem_flatten]
          exact ⟨lss[i], List.getElem_mem hlt', by simp [hchild.of_leaf hleaf]⟩
  have hdisjoint := List.pairwise_iff_getElem.mp
    (List.nodup_flatten.mp (hnodup.sublist hsub)).2 0 j
  rcases Nat.eq_zero_or_pos j with rfl | hlt
  · exact hne (hfirst.symm.trans hget)
  · exact hdisjoint (by omega) hj' hlt hin (by simp [hself])

end Lookup

/--
The lookup is right about the parent of a leaf exactly when there is none: it
names the leaf itself, or the first child of the parent.
-/
theorem parentInfo_right_iff {p : PagerState × World DbFile} {root : UInt32}
    {rows : List (Int64 × Bytes)} {c : TableCursor} (h : WellFormedTable p root rows)
    (hc : Arrives p.1.geometry.usableSize (pageSeen p.1 p.2.disk) root c)
    (hleaf : c.leaf.isSome = true) :
    (∃ info, c.parentInfo c.leafPgno = .ok info ∧
        ParentRight (pageSeen p.1 p.2.disk) root c.leafPgno info) ↔
      IsTableLeaf (pageSeen p.1 p.2.disk) root := by
  obtain ⟨-, depth, inner, leaves, stored, htable, -⟩ := h
  have hnodup : leaves.Nodup := (List.nodup_append.mp htable.holds.distinct).1
  have hon := (hc.onTree htable.holds.spine).resolve_left fun hdone => by simp [hdone.2] at hleaf
  cases hstack : c.stack with
  | nil =>
      have hroot := hon.above.root hstack
      rw [← hroot]
      refine ⟨fun _ => hon.leaf, fun _ => ⟨none, ?_, rfl⟩⟩
      rw [TableCursor.parentInfo, hstack]
  | cons f rest =>
      have hnot := hon.above.interior (by simp [hstack])
      refine ⟨?_, fun hroot => absurd hroot hnot⟩
      rintro ⟨info, hinfo, hright⟩
      cases info with
      | none => exact hright ▸ hon.leaf
      | some info =>
          obtain ⟨parentPgno, childIdx, isRootParent⟩ := info
          obtain ⟨page, hdr, hpage, hparse, htype, hchild, -⟩ := hright
          exfalso
          refine hon.not_parent hnodup hstack ?_ hpage hparse htype childIdx hchild
          simp only [TableCursor.parentInfo, hstack, Result.bind_eq_ok] at hinfo
          obtain ⟨parent, hresolve, hinfo⟩ := hinfo
          have hparent : parent = some parentPgno := by
            cases parent with
            | none => cases hinfo
            | some parent =>
                simp only [Result.bind_eq_ok] at hinfo
                obtain ⟨found, -, hinfo⟩ := hinfo
                split at hinfo
                · cases hinfo
                · cases hinfo
                  rfl
                · split_ifs at hinfo
                  · cases hinfo
                    rfl
                  · cases hinfo
          rw [hparent, TableCursor.resolveParentPgno, if_neg (by simp [hstack]), hstack,
            List.reverse_cons] at hresolve
          refine resolveLoop_cases (fun g hg => (hon.above.frames g ?_).1) hresolve
          rw [hstack]
          simp only [List.mem_append, List.mem_reverse, List.mem_singleton] at hg
          simpa [or_comm] using hg

theorem exists_of_any {α : Type} {m : Result α} (test : α → Bool)
    (h : m.toOption.any test = true) : ∃ a, m = .ok a ∧ test a = true := by
  cases m with
  | error e => simp [Except.toOption] at h
  | ok a => exact ⟨a, rfl, by simpa [Except.toOption] using h⟩

set_option maxRecDepth 10000 in
theorem wellFormed_oneLeafTable :
    WellFormedTable oneLeafTable 2 [(1, [1]), (2, [2]), (3, [3])] := by
  set stored : UInt32 → List StoredRow := fun _ => [smallRow 1, smallRow 2, smallRow 3]
    with hstored
  have hview : pageSeen oneLeafTable.1 oneLeafTable.2.disk 2 =
      .ok (layOut .leafTable none ((stored 2).map StoredRow.bytes)) := by decide
  have hvalid : ∀ r ∈ stored 2, r.Valid 512 (pageSeen oneLeafTable.1 oneLeafTable.2.disk) := by
    intro r hr
    have hsmall : ∃ k ∈ [(1 : UInt8), 2, 3], r = smallRow k := by
      simpa [hstored, or_comm, eq_comm] using hr
    obtain ⟨k, hk, rfl⟩ := hsmall
    exact smallRow_valid _ hk
  obtain ⟨page, hdr, hleaf⟩ := leafAt_layOut (by decide) hview hvalid (by decide)
  have hfixed : oneLeafTable.1.autoVacuum = false := by decide
  refine ⟨by decide, 1, [], [2], stored, ⟨⟨?_, ?_, by decide, by simp⟩,
    complete_of_readable (by decide), rfl, ?_, fun hvac => by simp [hfixed] at hvac⟩,
    by decide⟩
  · exact ⟨page, hdr, hleaf.shown, hleaf.parse, .inl ⟨hleaf.pageType, rfl⟩⟩
  · simpa using ⟨page, hdr, hleaf⟩
  · simp [hstored, chains, smallRow]

set_option maxRecDepth 10000 in
/-- In a table of one leaf there is no parent. -/
theorem parentInfo_right_oneLeaf : ∃ c, Arrives 512
      (pageSeen oneLeafTable.1 oneLeafTable.2.disk) 2 c ∧
    ∃ info, c.parentInfo c.leafPgno = .ok info ∧
      ParentRight (pageSeen oneLeafTable.1 oneLeafTable.2.disk) 2 c.leafPgno info := by
  obtain ⟨c, hrewind, hleaf⟩ := exists_of_any (fun c => c.leaf.isSome)
    (m := ((TableCursor.new 2).rewind 1).eval (pageSeen oneLeafTable.1 oneLeafTable.2.disk))
    (by decide)
  have hscan : (visitTable 512 1 2).eval (pageSeen oneLeafTable.1 oneLeafTable.2.disk) =
      .ok [(1, [1]), (2, [2]), (3, [3])] := by decide
  have hroot := And.left (searchTree_leaf hscan (by decide)
    (show ∀ row : Int64 × Bytes, row ∈ _ → Within none none row.1 by simp [Within]))
  exact ⟨c, .rewind hrewind,
    (parentInfo_right_iff wellFormed_oneLeafTable (.rewind hrewind) hleaf).mpr hroot⟩

set_option maxRecDepth 10000 in
/-- The first leaf of two is taken for its own parent. -/
theorem parentInfo_twoLeaves : WellFormedTable twoLeaves 2 [(1, [1]), (2, [2]), (3, [3])] ∧
    ∃ c, Arrives 512 (pageSeen twoLeaves.1 twoLeaves.2.disk) 2 c ∧ c.leaf.isSome = true ∧
      c.leafPgno = 3 ∧ c.parentInfo 3 = .ok (some (3, 0, true)) ∧
      ¬ParentRight (pageSeen twoLeaves.1 twoLeaves.2.disk) 2 3 (some (3, 0, true)) := by
  refine ⟨wellFormed_twoLeaves, ?_⟩
  obtain ⟨c, hrewind, htest⟩ := exists_of_any
    (fun c => c.leaf.isSome && decide (c.leafPgno = 3) &&
      decide (c.parentInfo 3 = .ok (some (3, 0, true))))
    (m := ((TableCursor.new 2).rewind 2).eval (pageSeen twoLeaves.1 twoLeaves.2.disk))
    (by decide)
  simp only [Bool.and_eq_true, decide_eq_true_eq] at htest
  refine ⟨c, .rewind hrewind, htest.1.1, htest.1.2, htest.2, ?_⟩
  rintro ⟨page, hdr, -, -, -, -, hroot⟩
  exact absurd (hroot.mp rfl) (by decide)

end Rustqlite.Btree
