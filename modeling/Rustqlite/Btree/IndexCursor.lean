import Rustqlite.Btree.Scan
import Rustqlite.Btree.TreeCursor
import Rustqlite.Types.Value

/-!
# The cursor of an index

The cursor walks the leaves of an index as a cursor of a table does.  A scan of
the index also returns the entries between the children of interior pages.
-/

namespace Rustqlite.Btree

open Foundation Format Pager Reading

def indexKind (usable : Nat) : TreeKind where
  leaf := .leafIndex
  interior := .interiorIndex
  leftChild page off := return (← parseIndexInteriorCell page off usable).leftChild
  noChildren := "interior index page with no children"
  wrongPage := "expected an index b-tree page during scan"
  leaf_ne_interior := by decide

structure IndexCursor extends TreePosition where
  root : UInt32
  keyInfo : List KeyField
  currentPayload : Option Bytes

namespace IndexCursor

variable (usable : Nat) (encoding : TextEncoding) (asI64 : Value → Int64)

def new (root : UInt32) (keyInfo : List KeyField) : IndexCursor := ⟨.new, root, keyInfo, none⟩

def refreshPayload (c : IndexCursor) : Reading IndexCursor :=
  match c.isValid, c.leaf with
  | true, some (leaf, hdr) => do
      let off ← hdr.cellPointer leaf c.cellIdx
      let cell ← parseIndexLeafCell leaf off usable
      let payload ← assembleIndexPayload usable cell
      return { c with currentPayload := some payload }
  | _, _ => return { c with currentPayload := none }

def rewind (fuel : Nat) (c : IndexCursor) : Reading IndexCursor := do
  let p ← TreePosition.rewind (indexKind usable) fuel c.root
  refreshPayload usable { c with toTreePosition := p, currentPayload := none }

def next (fuel : Nat) (c : IndexCursor) : Reading IndexCursor :=
  if c.atEnd then return c
  else do
    let p ← TreePosition.next (indexKind usable) fuel c.toTreePosition
    refreshPayload usable { c with toTreePosition := p }

def rowid (c : IndexCursor) : Result Int64 :=
  match c.currentPayload with
  | none => .error (.msg "index cursor is not positioned on an entry")
  | some payload => keyRecordRowid encoding asI64 payload

def payload (c : IndexCursor) : Bytes := c.currentPayload.getD []

def visits (fuel : Nat) : Nat → IndexCursor → Reading (List (Bytes × Int64))
  | 0, _ => fail endless
  | n + 1, c =>
      if c.isValid then do
        let rowid ← c.rowid encoding asI64
        let c' ← c.next usable fuel
        let rest ← visits fuel n c'
        return (c.payload, rowid) :: rest
      else return []

def walk (fuel : Nat) (root : UInt32) (keyInfo : List KeyField) :
    Reading (List (Bytes × Int64)) := do
  let c ← (new root keyInfo).rewind usable fuel
  c.visits usable encoding asI64 fuel fuel

end IndexCursor

/-! ## The walk -/

variable {depth : Nat}

section Walk

variable {usable : Nat} {encoding : TextEncoding} {asI64 : Value → Int64}
  {view : UInt32 → Result Bytes}

def indexEntryAt (usable : Nat) (encoding : TextEncoding) (asI64 : Value → Int64)
    (view : UInt32 → Result Bytes) (page : Bytes) (hdr : PageHeader) (i : Nat) :
    Result (Bytes × Int64) :=
  (indexLeafEntry usable encoding asI64 page hdr i).eval view

structure AtIndex (usable : Nat) (encoding : TextEncoding) (asI64 : Value → Int64)
    (view : UInt32 → Result Bytes) (c : IndexCursor) (ys : List (Bytes × Int64)) : Prop where
  position : At (indexKind usable) view (indexEntryAt usable encoding asI64 view)
    c.toTreePosition ys
  payload : c.currentPayload = ys.head?.map Prod.fst
  rowid : ∀ y ∈ ys.head?, keyRecordRowid encoding asI64 y.1 = .ok y.2

variable {c : IndexCursor} {ys : List (Bytes × Int64)}

theorem refreshPayload_at (h : At (indexKind usable) view (indexEntryAt usable encoding asI64 view)
      c.toTreePosition ys) :
    ∃ c', (c.refreshPayload usable).eval view = .ok c' ∧
      AtIndex usable encoding asI64 view c' ys := by
  cases ys with
  | nil =>
      refine ⟨{ c with currentPayload := none }, ?_, h, rfl, by simp⟩
      simp [IndexCursor.refreshPayload, h.isValid_nil]
  | cons y ys =>
      obtain ⟨hvalid, page, hdr, hleaf, hentry⟩ := h.current
      simp only [indexEntryAt, indexLeafEntry, eval_bind, eval_lift, Result.bind_eq_ok] at hentry
      obtain ⟨off, hoff, cell, hcell, key, hkey, rowid, hrowid, hy⟩ := hentry
      cases hy
      refine ⟨{ c with currentPayload := some key }, ?_, h, rfl, ?_⟩
      · simp [IndexCursor.refreshPayload, hvalid, hleaf, hoff, hcell, hkey]
      · simpa using hrowid

theorem next_atIndex {y : Bytes × Int64} (h : AtIndex usable encoding asI64 view c (y :: ys)) :
    ∃ c', AtIndex usable encoding asI64 view c' ys ∧
      ∃ N, ∀ fuel ≥ N, (c.next usable fuel).eval view = .ok c' := by
  obtain ⟨hvalid, -⟩ := h.position.current
  have hend : c.atEnd = false := by
    simp only [TreePosition.isValid, Bool.and_eq_true, Bool.not_eq_true'] at hvalid
    exact hvalid.1.1
  obtain ⟨p, hat, N, hN⟩ := TreePosition.next_at h.position
  obtain ⟨c', hrefresh, hc'⟩ := refreshPayload_at (c := { c with toTreePosition := p }) hat
  exact ⟨c', hc', N, fun fuel hfuel => by simp [IndexCursor.next, hend, hN fuel hfuel, hrefresh]⟩

theorem visits_at (h : AtIndex usable encoding asI64 view c ys) :
    ∃ N, ∀ fuel ≥ N, ∀ n > ys.length,
      (c.visits usable encoding asI64 fuel n).eval view = .ok ys := by
  induction ys generalizing c with
  | nil =>
      refine ⟨0, fun fuel _ n hn => ?_⟩
      obtain ⟨n, rfl⟩ : ∃ m, n = m + 1 := ⟨n - 1, by omega⟩
      simp [IndexCursor.visits, h.position.isValid_nil]
  | cons y ys ih =>
      obtain ⟨hvalid, -⟩ := h.position.current
      obtain ⟨c', hc', N, hN⟩ := next_atIndex h
      obtain ⟨N', hN'⟩ := ih hc'
      refine ⟨max N N', fun fuel hfuel n hn => ?_⟩
      obtain ⟨n, rfl⟩ : ∃ m, n = m + 1 := ⟨n - 1, by omega⟩
      have hrowid : c.rowid encoding asI64 = .ok y.2 := by
        rw [IndexCursor.rowid, h.payload]
        exact h.rowid y rfl
      have hpayload : c.payload = y.1 := by
        rw [IndexCursor.payload, h.payload]
        rfl
      have hstep := hN fuel (by omega)
      have hrest := hN' fuel (by omega) n (by simpa using hn)
      simp [IndexCursor.visits, hvalid, hrowid, hpayload, hstep, hrest]

theorem walk_of_leaves {root : UInt32} {xs : List (Bytes × Int64)} (keyInfo : List KeyField)
    (h : Leaves (indexKind usable) view (indexEntryAt usable encoding asI64 view) depth root xs) :
    ∃ N, ∀ fuel ≥ N,
      (IndexCursor.walk usable encoding asI64 fuel root keyInfo).eval view = .ok xs := by
  obtain ⟨p, hat, N, hN⟩ := TreePosition.rewind_at h
  obtain ⟨c, hrefresh, hc⟩ := refreshPayload_at
    (c := { IndexCursor.new root keyInfo with toTreePosition := p, currentPayload := none }) hat
  obtain ⟨N', hN'⟩ := visits_at hc
  refine ⟨max (max N N') (xs.length + 1), fun fuel hfuel => ?_⟩
  have hrewind : ((IndexCursor.new root keyInfo).rewind usable fuel).eval view = .ok c := by
    have hstart : (TreePosition.rewind (indexKind usable) fuel
        (IndexCursor.new root keyInfo).root).eval view = .ok p := hN fuel (by omega)
    simp only [IndexCursor.rewind, eval_bind, hstart, Result.ok_bind]
    exact hrefresh
  have hvisits := hN' fuel (by omega) fuel (by omega)
  simp [IndexCursor.walk, hrewind, hvisits]

end Walk

/-! ## Cursor and scan -/

section Scan

variable {usable : Nat} {encoding : TextEncoding} {asI64 : Value → Int64}
  {view : UInt32 → Result Bytes}

def NoDividers (view : UInt32 → Result Bytes) : Nat → UInt32 → Prop
  | 0, _ => True
  | depth + 1, pgno => ∀ page hdr, view pgno = .ok page →
      PageHeader.parse page (btreeHeaderOffset pgno) = .ok hdr →
      hdr.pageType = .interiorIndex →
        hdr.numCells = 0 ∧ ∀ right, hdr.rightMostPointer = some right →
          NoDividers view depth right

variable {page : Bytes} {hdr : PageHeader}

theorem leafHolds_of_mapM {E : Type} {entry : Bytes → PageHeader → Nat → Result E} {es : List E}
    (h : (List.range hdr.numCells).mapM (entry page hdr) = .ok es) :
    LeafHolds entry page hdr es := by
  have hall := Result.mapM_eq_ok.mp h
  have hlen := hall.length_eq
  rw [List.length_range] at hlen
  refine ⟨hlen.symm, fun i hi => ?_⟩
  have hi' : i < (List.range hdr.numCells).length := by simpa using hlen ▸ hi
  simpa using hall.get hi' hi

theorem rightMostPointer_of_interior {base : Nat} (h : PageHeader.parse page base = .ok hdr)
    (hint : hdr.pageType.isLeaf = false) : ∃ right, hdr.rightMostPointer = some right := by
  rw [PageHeader.parse] at h
  split_ifs at h
  split at h
  · cases h
  · rename_i pageType _
    split_ifs at h with _ hleaf
    · cases h
      rw [hleaf] at hint
      cases hint
    · cases h
      exact ⟨_, rfl⟩

theorem forall₂_split {α β γ δ : Type} {A : α → β → Prop} {B : β → γ → Prop} {L : γ → δ → Prop}
    {l : List α} {parts : List δ}
    (h : List.Forall₂ (fun a part => ∃ b c, A a b ∧ B b c ∧ L c part) l parts) :
    ∃ bs cs, List.Forall₂ A l bs ∧ List.Forall₂ B bs cs ∧ List.Forall₂ L cs parts := by
  induction h with
  | nil => exact ⟨[], [], .nil, .nil, .nil⟩
  | cons h _ ih =>
      obtain ⟨b, c, hA, hB, hL⟩ := h
      obtain ⟨bs, cs, hAs, hBs, hLs⟩ := ih
      exact ⟨b :: bs, c :: cs, .cons hA hAs, .cons hB hBs, .cons hL hLs⟩

theorem length_flatten_lt {γ δ : Type} {xss : List (List γ)} {parts : List (List δ)}
    (h : List.Forall₂ (fun xs part => xs.length < part.length) xss parts) :
    xss.flatten.length + parts.length ≤ parts.flatten.length := by
  induction h with
  | nil => simp
  | cons h _ ih =>
      simp only [List.flatten_cons, List.length_append, List.length_cons]
      omega

theorem sublist_flatten {γ : Type} {xss parts : List (List γ)}
    (h : List.Forall₂ (fun xs part => xs.Sublist part) xss parts) :
    xss.flatten.Sublist parts.flatten := by
  induction h with
  | nil => exact .refl _
  | cons h _ ih => exact h.append ih

theorem nodeHolds_append {kind : TreeKind} {cs : List UInt32} {right : UInt32}
    (hright : hdr.rightMostPointer = some right)
    (h : List.Forall₂ (fun i c => TreePosition.interiorChild kind hdr page i = .ok (some c))
      (List.range hdr.numCells) cs) : NodeHolds kind page hdr (cs ++ [right]) := by
  have hlen : cs.length = hdr.numCells := by simpa using h.length_eq.symm
  refine ⟨by simp [hlen], fun i hi => ?_⟩
  by_cases hlt : i < hdr.numCells
  · have := h.get (by simpa using hlt) (by simpa [hlen] using hlt)
    rw [List.getElem_append_left (by omega)]
    simpa using this
  · have heq : i = hdr.numCells := by
      simp [hlen] at hi
      omega
    subst heq
    rw [List.getElem_append_right (by omega)]
    simp only [TreePosition.interiorChild, lt_irrefl, if_false, if_true, hright, hlen, Nat.sub_self]
    rfl

theorem leaves_of_visitIndex {pgno : UInt32} {es : List (Bytes × Int64)}
    (h : (visitIndex usable encoding asI64 depth pgno).eval view = .ok es) :
    ∃ xs, Leaves (indexKind usable) view (indexEntryAt usable encoding asI64 view) depth pgno xs ∧
      xs.Sublist es ∧ (xs = es ↔ NoDividers view depth pgno) := by
  induction depth generalizing pgno es with
  | zero => simp [visitIndex] at h
  | succ depth ih =>
      simp only [visitIndex, eval_bind, eval_getPage, eval_lift, Result.bind_eq_ok] at h
      obtain ⟨page, hpage, hdr, hparse, h⟩ := h
      split at h
      · rename_i htype
        rw [eval_mapM] at h
        refine ⟨es, ⟨page, hdr, hpage, hparse, .inl ⟨htype, leafHolds_of_mapM h⟩⟩, .refl _, ?_⟩
        simp only [true_iff]
        intro page' hdr' hpage' hparse' htype'
        cases hpage.symm.trans hpage'
        cases hparse.symm.trans hparse'
        rw [htype] at htype'
        cases htype'
      · rename_i htype
        obtain ⟨right, hright⟩ := rightMostPointer_of_interior hparse (by rw [htype]; rfl)
        simp only [hright, eval_bind, eval_mapM, Result.bind_eq_ok] at h
        obtain ⟨parts, hparts, last, hlast, hes⟩ := h
        cases hes
        obtain ⟨ys, hys, hyssub, hyseq⟩ := ih hlast
        have hyslen := hyssub.length_le
        have hsplit : List.Forall₂ (fun i part => ∃ c xs,
            TreePosition.interiorChild (indexKind usable) hdr page i = .ok (some c) ∧
            Leaves (indexKind usable) view (indexEntryAt usable encoding asI64 view) depth c xs ∧
            (xs.Sublist part ∧ xs.length < part.length)) (List.range hdr.numCells) parts := by
          have hall := (List.forall₂_and_left (p := (· < hdr.numCells)) _ _).mpr
            ⟨fun i hi => List.mem_range.mp hi, Result.mapM_eq_ok.mp hparts⟩
          refine hall.imp fun i part hi => ?_
          obtain ⟨hlt, hpart⟩ := hi
          simp only [eval_lift, eval_pure, Result.bind_eq_ok] at hpart
          obtain ⟨off, hoff, cell, hcell, left, hleft, key, hkey, rowid, hrowid, hpart⟩ := hpart
          cases hpart
          obtain ⟨xs, hxs, hxssub, -⟩ := ih hleft
          have hxslen := hxssub.length_le
          refine ⟨cell.leftChild, xs, ?_, hxs, hxssub.trans (List.sublist_append_left _ _),
            by simp; omega⟩
          simp [TreePosition.interiorChild, hlt, hoff, indexKind, hcell]
        obtain ⟨cs, xss, hcs, hxss, hbelow⟩ := forall₂_split hsplit
        have hlen := hbelow.imp fun _ _ h => h.2
        have hcount := length_flatten_lt hlen
        have hnum : parts.length = hdr.numCells := by
          simpa using (Result.mapM_eq_ok.mp hparts).length_eq.symm
        refine ⟨xss.flatten ++ ys, ⟨page, hdr, hpage, hparse, .inr ⟨htype, cs ++ [right],
          xss ++ [ys], nodeHolds_append hright hcs, ?_, by simp⟩⟩, ?_, ?_⟩
        · exact List.rel_append hxss (.cons hys .nil)
        · exact (sublist_flatten (hbelow.imp fun _ _ h => h.1)).append hyssub
        · constructor
          · intro heq page' hdr' hpage' hparse' _
            cases hpage.symm.trans hpage'
            cases hparse.symm.trans hparse'
            have hlens := congrArg List.length heq
            simp only [List.length_append] at hlens
            have hzero : hdr.numCells = 0 := by omega
            refine ⟨hzero, fun right' hright' => ?_⟩
            cases hright.symm.trans hright'
            rw [hzero, List.length_eq_zero_iff] at hnum
            subst hnum
            rw [List.forall₂_nil_right_iff.mp hlen] at heq
            exact hyseq.mp (by simpa using heq)
          · intro hno
            obtain ⟨hzero, hdeep⟩ := hno page hdr hpage hparse htype
            rw [hzero, List.length_eq_zero_iff] at hnum
            subst hnum
            rw [List.forall₂_nil_right_iff.mp hlen, hyseq.mpr (hdeep right hright)]
      · simp at h

end Scan

/-! ## Through a pager -/

def scanIndex (asI64 : Value → Int64) (depth : Nat) (root : UInt32) :
    PagerM (List (Bytes × Int64)) := do
  let s ← FileM.getState
  (visitIndex s.geometry.usableSize s.header.textEncoding asI64 depth root).run

/-- `rewind`, and `next` until the cursor is not on an entry. -/
def walkIndex (asI64 : Value → Int64) (fuel : Nat) (root : UInt32) (keyInfo : List KeyField) :
    PagerM (List (Bytes × Int64)) := do
  let s ← FileM.getState
  (IndexCursor.walk s.geometry.usableSize s.header.textEncoding asI64 fuel root keyInfo).run

theorem run_eq_ok_iff {α : Type} (m : Reading α) {p : PagerState × World DbFile}
    (hp : p.2.failAt = none) (a : α) :
    (∃ q, m.run p = .ok a q) ↔ m.eval (pageSeen p.1 p.2.disk) = .ok a := by
  obtain ⟨q, -, hrun⟩ := run_eq_eval m hp
  rw [hrun]
  cases m.eval (pageSeen p.1 p.2.disk) with
  | ok b => simp
  | error e => simp

/--
A cursor over an index that can be scanned visits the entries of the scan
exactly when no interior page of the index has an entry.
-/
theorem walkIndex_eq_scanIndex_iff {asI64 : Value → Int64} {depth : Nat} {root : UInt32}
    (keyInfo : List KeyField) {p q : PagerState × World DbFile} {es : List (Bytes × Int64)}
    (hp : p.2.failAt = none) (hscan : scanIndex asI64 depth root p = .ok es q) :
    (∃ N, ∀ fuel ≥ N, ∃ q, walkIndex asI64 fuel root keyInfo p = .ok es q) ↔
      NoDividers (pageSeen p.1 p.2.disk) depth root := by
  have heval := (run_eq_ok_iff _ hp es).mp ⟨q, hscan⟩
  obtain ⟨xs, hleaves, -, hiff⟩ := leaves_of_visitIndex heval
  obtain ⟨N, hN⟩ := walk_of_leaves keyInfo hleaves
  rw [← hiff]
  constructor
  · rintro ⟨N', hN'⟩
    have hwalk := (run_eq_ok_iff _ hp es).mp (hN' (max N N') (by omega))
    rw [hN (max N N') (by omega)] at hwalk
    exact Except.ok.inj hwalk
  · rintro rfl
    exact ⟨N, fun fuel hfuel => (run_eq_ok_iff _ hp xs).mpr (hN fuel hfuel)⟩

def intValue : Value → Int64
  | .int i => i
  | _ => 0

def smallKey (k : Int64) : Bytes := encodeRecord [.int k, .int k]

def indexCell (k : Int64) : Bytes :=
  writeVarint (UInt64.ofNat (smallKey k).length) ++ smallKey k

def layOut (pageType : PageType) (rightMost : Option UInt32) (cells : List Bytes) : Bytes :=
  (writePageCells (List.replicate 512 0) 0 pageType rightMost cells).toOption.getD []

def databaseWith (pages : List Bytes) : PagerState × World DbFile :=
  let header := freshHeader ⟨512, isValidPageSize_512⟩
  (⟨DbHeader.geometry header, header, UInt32.ofNat (pages.length + 1), fun _ => none, ∅, none, [],
      none⟩,
    ⟨Function.update (fun _ => none) .db (some (buildFreshPage1 header 512 ++ pages.flatten)), [],
      none⟩)

set_option maxRecDepth 10000 in
/-- An index of one leaf. -/
theorem walkIndex_eq_scanIndex_leaf :
    let p := databaseWith [layOut .leafIndex none [indexCell 1, indexCell 2]]
    ∃ N, ∀ fuel ≥ N, ∃ q, walkIndex intValue fuel 2 [] p =
      .ok [(smallKey 1, 1), (smallKey 2, 2)] q := by
  intro p
  obtain ⟨es, q, hscan, htest⟩ := FileM.exists_of_endsWith (scanIndex intValue 1 2) p
    (fun es _ => es == [(smallKey 1, 1), (smallKey 2, 2)]) (by decide)
  obtain rfl := beq_iff_eq.mp htest
  refine (walkIndex_eq_scanIndex_iff [] rfl hscan).mpr ?_
  intro page hdr hpage hparse hint
  have htype : (pageSeen p.1 p.2.disk 2).toOption.bind (fun page =>
      (PageHeader.parse page 0).toOption.map PageHeader.pageType) = some .leafIndex := by
    decide
  rw [hpage] at htype
  change (PageHeader.parse page (btreeHeaderOffset 2)).toOption.map _ = _ at htype
  rw [hparse] at htype
  cases hint.symm.trans (Option.some.inj htype)

set_option maxRecDepth 10000 in
/-- The entry between two leaves is not visited. -/
theorem walkIndex_skips_divider :
    let p := databaseWith [
      layOut .interiorIndex (some 4) [be32 3 ++ indexCell 2],
      layOut .leafIndex none [indexCell 1], layOut .leafIndex none [indexCell 3]]
    ∃ q q', scanIndex intValue 2 2 p = .ok [(smallKey 1, 1), (smallKey 2, 2), (smallKey 3, 3)] q ∧
      walkIndex intValue 4 2 [] p = .ok [(smallKey 1, 1), (smallKey 3, 3)] q' := by
  intro p
  obtain ⟨es, q, hscan, hes⟩ := FileM.exists_of_endsWith (scanIndex intValue 2 2) p
    (fun es _ => es == [(smallKey 1, 1), (smallKey 2, 2), (smallKey 3, 3)]) (by decide)
  obtain ⟨ws, q', hwalk, hws⟩ := FileM.exists_of_endsWith (walkIndex intValue 4 2 []) p
    (fun ws _ => ws == [(smallKey 1, 1), (smallKey 3, 3)]) (by decide)
  obtain rfl := beq_iff_eq.mp hes
  obtain rfl := beq_iff_eq.mp hws
  exact ⟨q, q', hscan, hwalk⟩

end Rustqlite.Btree
