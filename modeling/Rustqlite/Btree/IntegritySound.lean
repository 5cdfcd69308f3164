import Rustqlite.Btree.IntegrityCheck

/-!
# What a passed check says

Every bit that the check sets belongs to a page that a tree of the catalog, the
chain of a leaf cell or the freelist leads to.  A page may be led to twice, and
nothing compares the keys of two cells.
-/

namespace Rustqlite.Btree

open Foundation Format Pager Schema Reading

/-! ## How pages are used -/

section Graph

variable (usable : Nat) (view : UInt32 → Result Bytes)

def IsChild (a b : UInt32) : Prop :=
  ∃ page hdr children, view a = .ok page ∧
    PageHeader.parse page (btreeHeaderOffset a) = .ok hdr ∧ hdr.pageType.isLeaf = false ∧
    childPointers usable page hdr = .ok children ∧ b ∈ children

abbrev InTree (root pgno : UInt32) : Prop := Relation.ReflTransGen (IsChild usable view) root pgno

/-- The link in the first four bytes of `a` leads to `b`. -/
def IsNext (a b : UInt32) : Prop := b ≠ 0 ∧ ∃ page, view a = .ok page ∧ readBe32 page = b

abbrev InChain (first pgno : UInt32) : Prop := Relation.ReflTransGen (IsNext view) first pgno

def IsFirst (leaf first : UInt32) : Prop :=
  first ≠ 0 ∧ ∃ page hdr i off, view leaf = .ok page ∧
    PageHeader.parse page (btreeHeaderOffset leaf) = .ok hdr ∧ hdr.pageType.isLeaf = true ∧
    i < hdr.numCells ∧ hdr.cellPointer page i = .ok off ∧
    cellOverflow usable hdr.pageType page off = .ok (some first)

def NamesLeaf (trunk pgno : UInt32) : Prop :=
  ∃ page i, view trunk = .ok page ∧ i < (readBe32 (page.drop 4)).toNat ∧
    readBe32 (page.drop (8 + i * 4)) = pgno

inductive TreeUses (root pgno : UInt32) : Prop
  | page (h : InTree usable view root pgno)
  | overflow {leaf first : UInt32} (hleaf : InTree usable view root leaf)
      (hfirst : IsFirst usable view leaf first) (h : InChain view first pgno)

inductive ListUses (first pgno : UInt32) : Prop
  | trunk (h0 : first ≠ 0) (h : InChain view first pgno)
  | leaf {trunk : UInt32} (h0 : first ≠ 0) (htrunk : InChain view first trunk)
      (h : NamesLeaf view trunk pgno)

end Graph

inductive Used (s : PagerState) (view : UInt32 → Result Bytes) (catalog : Catalog)
    (pgno : UInt32) : Prop
  | tree {o : SchemaObject} (ho : o ∈ catalog.tables ++ catalog.indexes)
      (h : TreeUses s.geometry.usableSize view o.root pgno)
  | free (h : ListUses view s.header.firstFreelistTrunk pgno)

/-! ## One page of a tree -/

variable {page : Bytes} {hdr : PageHeader} {fuel depth : Nat} {pgno : UInt32} {found : List Finding}
  {kindName : String} {o : SchemaObject}

section Step

variable {s : PagerState} {view : UInt32 → Result Bytes} {isTable : Bool} {name : String}

def pageChildren (usable : Nat) (page : Bytes) (hdr : PageHeader) : Result (List UInt32) :=
  if hdr.pageType.isLeaf then .ok [] else childPointers usable page hdr

theorem rightMostPointer_of_leaf {base : Nat} (h : PageHeader.parse page base = .ok hdr)
    (hleaf : hdr.pageType.isLeaf = true) : hdr.rightMostPointer = none := by
  rw [PageHeader.parse] at h
  split_ifs at h
  split at h
  · cases h
  · split_ifs at h with _ hpage
    · cases h
      rfl
    · cases h
      exact absurd hleaf hpage

theorem checkPage_ok_iff (hrange : ¬ s.effectiveCount < pgno) (hpage : view pgno = .ok page)
    (hparse : PageHeader.parse page (btreeHeaderOffset pgno) = .ok hdr)
    (htype : expectedType isTable hdr.pageType = true) :
    (checkPage s isTable name (fuel + 1) depth pgno).eval view = .ok found ↔
      ∃ cells children subs entry,
        List.Forall₂ (fun i c => (checkCell s pgno page hdr i).eval view = .ok c)
          (List.range hdr.numCells) cells ∧
        pageChildren s.geometry.usableSize page hdr = .ok children ∧
        List.Forall₂
          (fun c sub => (checkPage s isTable name fuel (depth + 1) c).eval view = .ok sub)
          children subs ∧
        (checkEntry s depth pgno).eval view = .ok entry ∧
        found = .used pgno :: (cells.flatten ++ subs.flatten ++ entry) := by
  rw [checkPage, if_neg hrange]
  simp only [eval_bind, eval_getPage, hpage, Result.ok_bind, hparse, htype, Bool.true_eq_false,
    if_false, eval_mapM, Result.bind_eq_ok, eval_lift]
  have hchild : ∀ i, (do
      let off ← hdr.cellPointer page i
      let child ← leftChildAt s.geometry.usableSize hdr.pageType page off
      (checkPage s isTable name fuel (depth + 1) child).eval view) =
      (hdr.cellPointer page i >>= leftChildAt s.geometry.usableSize hdr.pageType page) >>=
        fun child => (checkPage s isTable name fuel (depth + 1) child).eval view := by
    intro i
    cases hdr.cellPointer page i <;> rfl
  simp only [hchild]
  cases hleaf : hdr.pageType.isLeaf with
  | true =>
      rw [rightMostPointer_of_leaf hparse hleaf, pageChildren, if_pos hleaf]
      constructor
      · rintro ⟨cells, hcells, lefts, hlefts, h⟩
        cases hlefts
        simp only [eval_bind, eval_pure, Result.ok_bind, Result.bind_eq_ok] at h
        obtain ⟨entry, hentry, hfound⟩ := h
        exact ⟨cells, [], [], entry, Result.mapM_eq_ok.mp hcells, rfl, .nil, hentry,
          by simpa using (Except.ok.inj hfound).symm⟩
      · rintro ⟨cells, children, subs, entry, hcells, hchildren, hsubs, hentry, rfl⟩
        cases hchildren
        cases hsubs
        exact ⟨cells, Result.mapM_eq_ok.mpr hcells, [], rfl, by simp [hentry]⟩
  | false =>
      obtain ⟨right, hright⟩ := rightMostPointer_of_interior hparse hleaf
      simp only [hright, pageChildren, hleaf, Bool.false_eq_true, if_false, childPointers]
      constructor
      · rintro ⟨cells, hcells, lefts, hlefts, h⟩
        obtain ⟨cs, hcs, hsubs⟩ := Result.mapM_bind_eq_ok.mp hlefts
        simp only [eval_bind, eval_pure, Result.bind_eq_ok] at h
        obtain ⟨last, hlast, entry, hentry, hfound⟩ := h
        refine ⟨cells, cs ++ [right], lefts ++ [last], entry, Result.mapM_eq_ok.mp hcells, ?_, ?_,
          hentry, by simpa using (Except.ok.inj hfound).symm⟩
        · exact Result.bind_eq_ok.mpr ⟨cs, hcs, rfl⟩
        · exact List.rel_append (Result.mapM_eq_ok.mp hsubs) (.cons hlast .nil)
      · rintro ⟨cells, children, subs, entry, hcells, hchildren, hsubs, hentry, rfl⟩
        obtain ⟨cs, hcs, hpure⟩ := Result.bind_eq_ok.mp hchildren
        cases hpure
        obtain ⟨lefts, last, rfl, hlefts, hlast⟩ := forall₂_concat hsubs
        refine ⟨cells, Result.mapM_eq_ok.mpr hcells, lefts,
          Result.mapM_bind_eq_ok.mpr ⟨cs, hcs, Result.mapM_eq_ok.mpr hlefts⟩, ?_⟩
        simp [hlast, hentry]

inductive CheckedPage (s : PagerState) (view : UInt32 → Result Bytes) (isTable : Bool)
    (name : String) (fuel depth : Nat) (pgno : UInt32) (found : List Finding) : Prop
  | outOfRange (msg : String) (hfound : found = [.error msg])
  | refused (msg : String) (hfound : found = [.used pgno, .error msg])
  | walked {page : Bytes} {hdr : PageHeader} {cells subs : List (List Finding)}
      {children : List UInt32} {entry : List Finding} (hrange : pgno ≤ s.effectiveCount)
      (hpage : view pgno = .ok page)
      (hparse : PageHeader.parse page (btreeHeaderOffset pgno) = .ok hdr)
      (htype : expectedType isTable hdr.pageType = true)
      (hcells : List.Forall₂ (fun i c => (checkCell s pgno page hdr i).eval view = .ok c)
        (List.range hdr.numCells) cells)
      (hchildren : pageChildren s.geometry.usableSize page hdr = .ok children)
      (hsubs : List.Forall₂
        (fun c sub => (checkPage s isTable name fuel (depth + 1) c).eval view = .ok sub)
        children subs)
      (hentry : (checkEntry s depth pgno).eval view = .ok entry)
      (hfound : found = .used pgno :: (cells.flatten ++ subs.flatten ++ entry))

theorem checkedPage_of_ok
    (h : (checkPage s isTable name (fuel + 1) depth pgno).eval view = .ok found) :
    CheckedPage s view isTable name fuel depth pgno found := by
  by_cases hout : s.effectiveCount < pgno
  · rw [checkPage, if_pos hout] at h
    cases h
    exact .outOfRange _ rfl
  · have hrange := UInt32.not_lt.mp hout
    cases hpage : view pgno with
    | error e => simp [checkPage, if_neg hout, hpage] at h
    | ok page =>
        cases hparse : PageHeader.parse page (btreeHeaderOffset pgno) with
        | error e =>
            simp [checkPage, if_neg hout, hpage, hparse] at h
            exact .refused _ h.symm
        | ok hdr =>
            cases htype : expectedType isTable hdr.pageType with
            | false =>
                simp [checkPage, if_neg hout, hpage, hparse, htype] at h
                exact .refused _ h.symm
            | true =>
                obtain ⟨cells, children, subs, entry, hcells, hchildren, hsubs, hentry, hfound⟩ :=
                  (checkPage_ok_iff hout hpage hparse htype).mp h
                exact .walked hrange hpage hparse htype hcells hchildren hsubs hentry hfound

end Step

/-! ## What is marked is used -/

section Marks

variable {s : PagerState} {view : UInt32 → Result Bytes} {found : List Finding} {q : UInt32}

variable {left i : Nat} {prev host : UInt32} {isTable : Bool}

theorem mem_checkLeaves (h : .used q ∈ checkLeaves s page left i) :
    ∃ j, j < i + left ∧ readBe32 (page.drop (8 + j * 4)) = q := by
  induction left generalizing i with
  | zero => cases h
  | succ left ih =>
      rw [checkLeaves] at h
      split_ifs at h
      · cases h
      · rcases List.mem_cons.mp h with h | h
        · refine ⟨i, by omega, ?_⟩
          rw [checkLeaf] at h
          split_ifs at h
          cases h
          rfl
        · obtain ⟨j, hj, hq⟩ := ih h
          exact ⟨j, by omega, hq⟩

theorem listUses_of_marked {trunk count : UInt32}
    (h : (checkFreelistLoop s fuel trunk count).eval view = .ok found) (hq : .used q ∈ found) :
    ListUses view trunk q := by
  induction fuel generalizing trunk count found with
  | zero =>
      rw [checkFreelistLoop] at h
      split_ifs at h <;> cases h <;> simp at hq
  | succ fuel ih =>
      rw [checkFreelistLoop] at h
      by_cases h0 : trunk = 0
      · rw [if_pos h0] at h
        split_ifs at h <;> cases h <;> simp at hq
      · rw [if_neg h0] at h
        by_cases hout : s.effectiveCount < trunk
        · rw [if_pos hout] at h
          cases h
          simp at hq
        · rw [if_neg hout] at h
          simp only [eval_bind, eval_getPage, eval_pure, Result.bind_eq_ok] at h
          obtain ⟨page, hpage, rest, hrest, h⟩ := h
          cases h
          simp only [List.cons_append, List.append_assoc, List.mem_cons, List.mem_append,
            Finding.used.injEq] at hq
          rcases hq with rfl | hq | hq | hq
          · exact .trunk h0 .refl
          · split_ifs at hq <;> simp at hq
          · obtain ⟨j, hj, hleaf⟩ := mem_checkLeaves hq
            exact .leaf h0 .refl ⟨page, j, hpage, by omega, hleaf⟩
          · have hnext : ∀ {t}, readBe32 page ≠ 0 → InChain view (readBe32 page) t →
                InChain view trunk t := fun hne ht => .head ⟨hne, page, hpage, rfl⟩ ht
            cases ih hrest hq with
            | trunk hne hchain => exact .trunk h0 (hnext hne hchain)
            | leaf hne hchain hname => exact .leaf h0 (hnext hne hchain) hname

theorem not_mem_checkOverflowEntry
    (h : (checkOverflowEntry s pgno prev host).eval view = .ok found) :
    .used q ∉ found := by
  rw [checkOverflowEntry] at h
  split at h
  · simp only [eval_bind, Result.bind_eq_ok] at h
    obtain ⟨r, -, h⟩ := h
    cases r with
    | error e =>
        cases h
        simp
    | ok r =>
        simp only [eval_pure, Except.ok.injEq] at h
        subst h
        split_ifs <;> simp
  · cases h
    simp

theorem inChain_of_marked (h : (checkChain s host left pgno prev).eval view = .ok found)
    (hq : .used q ∈ found) : pgno ≠ 0 ∧ InChain view pgno q := by
  induction left generalizing pgno prev found with
  | zero =>
      rw [checkChain] at h
      split_ifs at h <;> cases h <;> simp at hq
  | succ left ih =>
      rw [checkChain] at h
      by_cases h0 : pgno = 0
      · rw [if_pos h0] at h
        cases h
        simp at hq
      · rw [if_neg h0] at h
        split_ifs at h with hout
        · cases h
          simp at hq
        · simp only [eval_bind, eval_getPage, eval_pure, Result.bind_eq_ok] at h
          obtain ⟨page, hpage, entry, hentry, rest, hrest, h⟩ := h
          cases h
          simp only [List.cons_append, List.mem_cons, List.mem_append, Finding.used.injEq] at hq
          refine ⟨h0, ?_⟩
          rcases hq with rfl | hq | hq
          · exact .refl
          · exact absurd hq (not_mem_checkOverflowEntry hentry)
          · obtain ⟨hne, hchain⟩ := ih hrest hq
            exact .head ⟨hne, page, hpage, rfl⟩ hchain

theorem isFirst_of_marked (hpage : view pgno = .ok page)
    (hparse : PageHeader.parse page (btreeHeaderOffset pgno) = .ok hdr) (hi : i < hdr.numCells)
    (h : (checkCell s pgno page hdr i).eval view = .ok found) (hq : .used q ∈ found) :
    ∃ first, IsFirst s.geometry.usableSize view pgno first ∧ InChain view first q := by
  rw [checkCell] at h
  cases hoff : hdr.cellPointer page i with
  | error e =>
      rw [hoff] at h
      cases h
      simp at hq
  | ok off =>
      rw [hoff] at h
      dsimp only at h
      split_ifs at h with hbeyond hleaf
      · cases h
        simp at hq
      · cases hfirst : (cellOverflow s.geometry.usableSize hdr.pageType page off).toOption.join with
        | none =>
            rw [hfirst] at h
            cases h
            simp at hq
        | some first =>
            rw [hfirst] at h
            obtain ⟨hne, hchain⟩ := inChain_of_marked h hq
            have hcell := toOption_eq_some (Option.join_eq_some_iff.mp hfirst)
            exact ⟨first, ⟨hne, page, hdr, i, off, hpage, hparse, hleaf, hi, hoff, hcell⟩, hchain⟩
      · cases h
        simp at hq

theorem not_mem_checkEntry (h : (checkEntry s depth pgno).eval view = .ok found) :
    .used q ∉ found := by
  rw [checkEntry] at h
  split at h
  · simp only [eval_bind, Result.bind_eq_ok] at h
    obtain ⟨r, -, h⟩ := h
    cases r with
    | error e =>
        cases h
        simp
    | ok r =>
        simp only [eval_pure, Except.ok.injEq] at h
        subst h
        split_ifs <;> simp
  · cases h
    simp

theorem exists_of_mem_flatten {α : Type} {R : α → List Finding → Prop} {l : List α}
    {parts : List (List Finding)} {f : Finding} (h : List.Forall₂ R l parts)
    (hf : f ∈ parts.flatten) : ∃ a ∈ l, ∃ part, R a part ∧ f ∈ part := by
  induction h with
  | nil => cases hf
  | cons hab hrest ih =>
      rw [List.flatten_cons, List.mem_append] at hf
      rcases hf with hf | hf
      · exact ⟨_, List.mem_cons_self, _, hab, hf⟩
      · obtain ⟨a, ha, part, hpart, hf⟩ := ih hf
        exact ⟨a, List.mem_cons_of_mem _ ha, part, hpart, hf⟩

theorem exists_part_of_mem {α β : Type} {R : α → β → Prop} {l : List α} {parts : List β} {a : α}
    (h : List.Forall₂ R l parts) (ha : a ∈ l) : ∃ part ∈ parts, R a part := by
  induction h with
  | nil => cases ha
  | cons hab hrest ih =>
      rcases List.mem_cons.mp ha with rfl | ha
      · exact ⟨_, List.mem_cons_self, hab⟩
      · obtain ⟨part, hpart, hr⟩ := ih ha
        exact ⟨part, List.mem_cons_of_mem _ hpart, hr⟩

theorem isChild_of_pageChildren {child : UInt32} {children : List UInt32}
    (hpage : view pgno = .ok page)
    (hparse : PageHeader.parse page (btreeHeaderOffset pgno) = .ok hdr)
    (h : pageChildren s.geometry.usableSize page hdr = .ok children) (hmem : child ∈ children) :
    IsChild s.geometry.usableSize view pgno child := by
  rw [pageChildren] at h
  split_ifs at h with hleaf
  · cases h
    cases hmem
  · exact ⟨page, hdr, children, hpage, hparse, by simpa using hleaf, h, hmem⟩

theorem treeUses_of_marked {name : String}
    (h : (checkPage s isTable name fuel depth pgno).eval view = .ok found) (hq : .used q ∈ found) :
    TreeUses s.geometry.usableSize view pgno q := by
  induction fuel generalizing depth pgno found with
  | zero => cases h
  | succ fuel ih =>
      cases checkedPage_of_ok h with
      | outOfRange msg hfound => simp [hfound] at hq
      | refused msg hfound =>
          obtain rfl : q = pgno := by simpa [hfound] using hq
          exact .page .refl
      | walked hrange hpage hparse htype hcells hchildren hsubs hentry hfound =>
          rw [hfound] at hq
          simp only [List.mem_cons, List.mem_append, Finding.used.injEq] at hq
          rcases hq with rfl | (hq | hq) | hq
          · exact .page .refl
          · obtain ⟨i, hi, part, hpart, hq⟩ := exists_of_mem_flatten hcells hq
            obtain ⟨first, hfirst, hchain⟩ :=
              isFirst_of_marked hpage hparse (List.mem_range.mp hi) hpart hq
            exact .overflow .refl hfirst hchain
          · obtain ⟨child, hmem, part, hpart, hq⟩ := exists_of_mem_flatten hsubs hq
            have hchild := isChild_of_pageChildren hpage hparse hchildren hmem
            cases ih hpart hq with
            | page hin => exact .page (.head hchild hin)
            | overflow hleaf hfirst hchain => exact .overflow (.head hchild hleaf) hfirst hchain
          · exact absurd hq (not_mem_checkEntry hentry)

theorem treeUses_of_checkObject (h : (checkObject s isTable kindName fuel o).eval view = .ok found)
    (hq : .used q ∈ found) : TreeUses s.geometry.usableSize view o.root q := by
  rw [checkObject] at h
  split_ifs at h
  · cases h
    simp at hq
  · exact treeUses_of_marked h hq

theorem used_of_marked {catalog : Catalog} (h : (checkCatalog s fuel catalog).eval view = .ok found)
    (hq : .used q ∈ found) : Used s view catalog q := by
  simp only [checkCatalog, eval_bind, eval_mapM, Result.bind_eq_ok, eval_pure] at h
  obtain ⟨freelist, hfreelist, tables, htables, indexes, hindexes, hfound⟩ := h
  cases hfound
  simp only [List.mem_append] at hq
  rcases hq with (hq | hq) | hq
  · exact .free (listUses_of_marked hfreelist hq)
  · obtain ⟨o, ho, part, hpart, hq⟩ := exists_of_mem_flatten (Result.mapM_eq_ok.mp htables) hq
    exact .tree (List.mem_append_left _ ho) (treeUses_of_checkObject hpart hq)
  · obtain ⟨o, ho, part, hpart, hq⟩ := exists_of_mem_flatten (Result.mapM_eq_ok.mp hindexes) hq
    exact .tree (List.mem_append_right _ ho) (treeUses_of_checkObject hpart hq)

end Marks

/-! ## What a tree without errors is -/

section Typed

variable {s : PagerState} {view : UInt32 → Result Bytes} {isTable : Bool} {name : String}

structure Typed (s : PagerState) (view : UInt32 → Result Bytes) (isTable : Bool) (pgno : UInt32) :
    Prop where
  inFile : pgno ≤ s.effectiveCount
  header : ∃ page hdr, view pgno = .ok page ∧
    PageHeader.parse page (btreeHeaderOffset pgno) = .ok hdr ∧
    expectedType isTable hdr.pageType = true

variable {q : UInt32}

theorem typed_of_passed (h : (checkPage s isTable name fuel depth pgno).eval view = .ok found)
    (hall : ∀ f ∈ found, f.isUsed = true) (hq : InTree s.geometry.usableSize view pgno q) :
    Typed s view isTable q := by
  induction fuel generalizing depth pgno found with
  | zero => cases h
  | succ fuel ih =>
      cases checkedPage_of_ok h with
      | outOfRange msg hfound => simp [hfound, Finding.isUsed] at hall
      | refused msg hfound => simp [hfound, Finding.isUsed] at hall
      | @walked page hdr cells subs children entry hrange hpage hparse htype hcells hchildren hsubs
          hentry hfound =>
          rcases hq.cases_head with rfl | ⟨child, hchild, hq⟩
          · exact ⟨hrange, page, hdr, hpage, hparse, htype⟩
          · obtain ⟨page', hdr', children', hpage', hparse', hleaf, hchildren', hmem⟩ := hchild
            cases hpage.symm.trans hpage'
            cases hparse.symm.trans hparse'
            rw [pageChildren, if_neg (by simp [hleaf])] at hchildren
            cases hchildren.symm.trans hchildren'
            obtain ⟨sub, hsub, hrun⟩ := exists_part_of_mem hsubs hmem
            refine ih hrun (fun f hf => hall f ?_) hq
            simp only [hfound, List.mem_cons, List.mem_append, List.mem_flatten]
            exact .inr (.inl (.inr ⟨sub, hsub, hf⟩))

theorem typed_of_checkObject (h : (checkObject s isTable kindName fuel o).eval view = .ok found)
    (hall : ∀ f ∈ found, f.isUsed = true) (hq : InTree s.geometry.usableSize view o.root q) :
    Typed s view isTable q := by
  rw [checkObject] at h
  split_ifs at h
  · cases h
    simp [Finding.isUsed] at hall
  · exact typed_of_passed h hall hq

end Typed

/-! ## The whole check -/

/--
What `ok` says about the file.  Both the places of the pointer map and the page
of the pending byte count as reserved, whether the file has a pointer map or not.
-/
structure Covered (p : PagerState × World DbFile) (catalog : Catalog) : Prop where
  hasCatalog : HasCatalog p catalog
  pages : ∀ pgno : UInt32, 2 ≤ pgno.toNat → pgno.toNat ≤ p.1.effectiveCount.toNat →
    isReservedPage p.1.geometry.usableSize pgno.toNat = true ∨
      Used p.1 (pageSeen p.1 p.2.disk) catalog pgno
  tables : ∀ o ∈ catalog.tables, ∀ pgno,
    InTree p.1.geometry.usableSize (pageSeen p.1 p.2.disk) o.root pgno →
      Typed p.1 (pageSeen p.1 p.2.disk) true pgno
  indexes : ∀ o ∈ catalog.indexes, ∀ pgno,
    InTree p.1.geometry.usableSize (pageSeen p.1 p.2.disk) o.root pgno →
      Typed p.1 (pageSeen p.1 p.2.disk) false pgno

theorem covered_of_ok {p q : PagerState × World DbFile} {fuel : Nat} (hp : p.2.failAt = none)
    (h : integrityCheck fuel false p = .ok [[.text "ok"]] q) : ∃ catalog, Covered p catalog := by
  have hrun : (readIntegrity p.1 fuel false).run p = .ok [[.text "ok"]] q := by
    rw [← h, integrityCheck, FileM.getState_bind]
  have heval := (run_eq_ok_iff _ hp _).mp ⟨q, hrun⟩
  obtain ⟨catalog, found, hcatalog, hfound, hpassed, hused⟩ := readIntegrity_ok_iff.mp heval
  have hmarked := hfound
  simp only [checkCatalog, eval_bind, eval_mapM, Result.bind_eq_ok, eval_pure] at hfound
  obtain ⟨freelist, -, tables, htables, indexes, hindexes, hparts⟩ := hfound
  cases hparts
  refine ⟨catalog, ⟨fuel, hcatalog⟩, fun pgno h2 hle => ?_, fun o ho pgno hin => ?_,
    fun o ho pgno hin => ?_⟩
  · exact (hused pgno h2 hle).imp_right fun hmem => used_of_marked hmarked hmem
  · obtain ⟨part, hpart, hcheck⟩ := exists_part_of_mem (Result.mapM_eq_ok.mp htables) ho
    refine typed_of_checkObject hcheck (fun f hf => hpassed f ?_) hin
    exact List.mem_append_left _ (List.mem_append_right _ (List.mem_flatten_of_mem hpart hf))
  · obtain ⟨part, hpart, hcheck⟩ := exists_part_of_mem (Result.mapM_eq_ok.mp hindexes) ho
    refine typed_of_checkObject hcheck (fun f hf => hpassed f ?_) hin
    exact List.mem_append_right _ (List.mem_flatten_of_mem hpart hf)

/-! ## A page with two parents -/

/-- A database file with the given rows in its schema; further pages follow. -/
def catalogWith (rows : List (List Value)) (pages : List Bytes) : PagerState × World DbFile :=
  let header := freshHeader ⟨512, isValidPageSize_512⟩
  let cells := rows.mapIdx fun i row =>
    let payload := encodeRecord row
    writeVarint (UInt64.ofNat payload.length) ++ writeVarint (UInt64.ofNat (i + 1)) ++ payload
  let page1 := (writePageCells (buildFreshPage1 header 512) 100 .leafTable none
    cells).toOption.getD []
  (⟨DbHeader.geometry header, header, UInt32.ofNat (pages.length + 1), fun _ => none, ∅, none, [],
      none⟩,
    ⟨Function.update (fun _ => none) .db (some (page1 ++ pages.flatten)), [], none⟩)

def tableRow (name : String) (root : Int64) : List Value :=
  [.text "table", .text name, .text name, .int root, .null]

/-- A table whose root has the same leaf to the left and to the right. -/
def sharedLeaf : PagerState × World DbFile := catalogWith [tableRow "t" 2] [
  layOut .interiorTable (some 3) [buildTableInteriorCell 3 1],
  layOut .leafTable none [[1, 1, 7]]]

set_option maxRecDepth 10000 in
/-- The check passes all the same, and a scan shows the row twice. -/
theorem sharedLeaf_ok :
    (∃ q, integrityCheck 8 false sharedLeaf = .ok [[.text "ok"]] q) ∧
      ∃ q, scanTable 8 2 sharedLeaf = .ok [(1, [7]), (1, [7])] q := by
  constructor
  · obtain ⟨rows, q, hrun, htest⟩ := FileM.exists_of_endsWith (integrityCheck 8 false) sharedLeaf
      (fun rows _ => rows == [[.text "ok"]]) (by decide)
    exact ⟨q, beq_iff_eq.mp htest ▸ hrun⟩
  · obtain ⟨rows, q, hrun, htest⟩ := FileM.exists_of_endsWith (scanTable 8 2) sharedLeaf
      (fun rows _ => rows == [(1, [7]), (1, [7])]) (by decide)
    exact ⟨q, beq_iff_eq.mp htest ▸ hrun⟩

/-- A table of two leaves, one of whose rows spills to page 5, and an index of one leaf. -/
def tableWithIndex : PagerState × World DbFile :=
  catalogWith [tableRow "t" 2, [.text "index", .text "i", .text "t", .int 6, .null]] [
    layOut .interiorTable (some 4) [buildTableInteriorCell 3 1],
    layOut .leafTable none [[1, 1, 7]],
    layOut .leafTable none [writeVarint 600 ++ [2] ++ List.replicate 92 7 ++ be32 5],
    List.replicate 512 0,
    layOut .leafIndex none [indexCell 1, indexCell 2]]

theorem covered_tableWithIndex : ∃ catalog, Covered tableWithIndex catalog := by
  obtain ⟨rows, q, hrun, htest⟩ := FileM.exists_of_endsWith (integrityCheck 8 false) tableWithIndex
    (fun rows _ => rows == [[.text "ok"]]) (by decide +kernel)
  exact covered_of_ok rfl (beq_iff_eq.mp htest ▸ hrun)

end Rustqlite.Btree
