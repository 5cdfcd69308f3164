import Rustqlite.Btree.IndexCursor
import Rustqlite.Btree.TableTree
import Rustqlite.Pager.Freeing

/-!
# Dropping and clearing a tree

The pages of a tree are visited with the help of a stack and handed to the
freelist.  Clearing a table keeps its root as an empty leaf.
-/

namespace Rustqlite.Btree

open Foundation Format Pager FileM

/-! ## The walk -/

def cellOverflow (usable : Nat) : PageType → Bytes → Nat → Result (Option UInt32)
  | .leafTable, page, off => return (← parseTableLeafCell page off usable).overflowPage
  | .leafIndex, page, off => return (← parseIndexLeafCell page off usable).overflowPage
  | .interiorTable, page, off => do
      let _ ← parseTableInteriorCell page off
      return none
  | .interiorIndex, page, off => return (← parseIndexInteriorCell page off usable).overflowPage

def freeLeafChains (fuel usable : Nat) (page : Bytes) (hdr : PageHeader) : List Nat → PagerM Unit
  | [] => pure ()
  | i :: is => do
      let off ← liftResult (hdr.cellPointer page i)
      match (cellOverflow usable hdr.pageType page off).toOption.join with
      | some first => freeOverflowChain fuel first
      | none => pure ()
      freeLeafChains fuel usable page hdr is

def leftChildAt (usable : Nat) : PageType → Bytes → Nat → Result UInt32
  | .interiorTable, page, off => return (← parseTableInteriorCell page off).leftChild
  | .interiorIndex, page, off => return (← parseIndexInteriorCell page off usable).leftChild
  | _, _, _ => .error (.panic "internal error: entered unreachable code")

/-- The children of an interior page in the order in which they are pushed. -/
def childPointers (usable : Nat) (page : Bytes) (hdr : PageHeader) : Result (List UInt32) := do
  let lefts ← (List.range hdr.numCells).mapM fun i => do
    let off ← hdr.cellPointer page i
    leftChildAt usable hdr.pageType page off
  return lefts ++ hdr.rightMostPointer.toList

/--
Pop a page, free it and push its children until the stack is empty.  A page of
a type that is not in `types` stops the walk.
-/
def freeTreeLoop (types : List PageType) (wrongPage : UInt32 → Error) :
    Nat → List UInt32 → UInt32 → PagerM UInt32
  | _, [], freed => pure freed
  | 0, _ :: _, _ => throw endless
  | fuel + 1, pgno :: stack, freed => do
      let page ← getPage pgno
      let hdr ← liftResult (PageHeader.parse page (btreeHeaderOffset pgno))
      let usable := (← getState).geometry.usableSize
      if hdr.pageType ∉ types then throw (wrongPage pgno)
      if hdr.pageType.isLeaf then
        freeLeafChains fuel usable page hdr (List.range hdr.numCells)
        freePage pgno
        freeTreeLoop types wrongPage fuel stack (freed + 1)
      else
        let children ← liftResult (childPointers usable page hdr)
        freePage pgno
        freeTreeLoop types wrongPage fuel (children.reverse ++ stack) (freed + 1)

def allPageTypes : List PageType := [.leafTable, .leafIndex, .interiorTable, .interiorIndex]

def destroy (fuel : Nat) (root : UInt32) : PagerM UInt32 :=
  if root = 0 then pure 0
  else
    freeTreeLoop allPageTypes (fun _ => .panic "internal error: entered unreachable code")
      fuel [root] 0

def clearWrongPage (pgno : UInt32) : Error :=
  .corrupt s!"clear: unexpected page type on page {pgno}"

def clear (fuel : Nat) (root : UInt32) : PagerM UInt32 :=
  if root = 0 then pure 0
  else do
    let page ← getPage root
    let hdr ← liftResult (PageHeader.parse page (btreeHeaderOffset root))
    let usable := (← getState).geometry.usableSize
    -- the cells of a root that is a leaf go without their chains
    let children ← liftResult (match hdr.pageType with
      | .leafTable => .ok []
      | .interiorTable => childPointers usable page hdr
      | _ => .error (.corrupt s!"clear: unexpected page type on root page {root}"))
    let freed ←
      freeTreeLoop [.leafTable, .interiorTable] clearWrongPage fuel children.reverse 0
    let rootBuf ← readPageForWrite root
    writePage root (initEmptyLeaf rootBuf (btreeHeaderOffset root))
    return freed

/-! ## The pages of a tree -/

def CellChains (usable : Nat) (view : UInt32 → Result Bytes) (page : Bytes) (hdr : PageHeader)
    (chains : List (List UInt32)) : Prop :=
  chains.length = hdr.numCells ∧ ∀ i (h : i < chains.length), ∃ off overflow,
    hdr.cellPointer page i = .ok off ∧
      cellOverflow usable hdr.pageType page off = .ok overflow ∧
      Linked view (overflow.getD 0) chains[i]

/--
The tree at a page: its own pages with the overflow pages of its leaves, and
the overflow pages of its interior cells.
-/
def TreePages (kind : TreeKind) (usable : Nat) (view : UInt32 → Result Bytes) :
    Nat → UInt32 → List UInt32 × List UInt32 → Prop
  | 0, _, _ => False
  | depth + 1, pgno, t => ∃ page hdr, view pgno = .ok page ∧
      PageHeader.parse page (btreeHeaderOffset pgno) = .ok hdr ∧
      (hdr.pageType = kind.leaf ∧
          (∃ chains, CellChains usable view page hdr chains ∧ t = (pgno :: chains.flatten, [])) ∨
        hdr.pageType = kind.interior ∧ ∃ cs ts chains, NodeHolds kind page hdr cs ∧
          List.Forall₂ (TreePages kind usable view depth) cs ts ∧
          CellChains usable view page hdr chains ∧
          t = (pgno :: ts.flatMap Prod.fst, chains.flatten ++ ts.flatMap Prod.snd))

variable {chain : List UInt32} {page : Bytes} {hdr : PageHeader} {chains : List (List UInt32)}
  {kind : TreeKind} {depth fuel : Nat} {pgno first : UInt32} {t : List UInt32 × List UInt32}

section Congr

variable {usable : Nat} {view view' : UInt32 → Result Bytes}

theorem Linked.eq_nil (h : Linked view 0 chain) : chain = [] := by
  cases chain with
  | nil => rfl
  | cons pgno chain => exact absurd h.1.symm h.2.1

theorem CellChains.congr (h : CellChains usable view page hdr chains)
    (hsame : ∀ x ∈ chains.flatten, view' x = view x) : CellChains usable view' page hdr chains := by
  refine ⟨h.1, fun i hi => ?_⟩
  obtain ⟨off, overflow, hoff, hoverflow, hlinked⟩ := h.2 i hi
  refine ⟨off, overflow, hoff, hoverflow, hlinked.congr fun x hx => hsame x ?_⟩
  exact List.mem_flatten.mpr ⟨chains[i], List.getElem_mem hi, hx⟩

theorem TreePages.congr (h : TreePages kind usable view depth pgno t)
    (hsame : ∀ x ∈ t.1 ++ t.2, view' x = view x) : TreePages kind usable view' depth pgno t := by
  induction depth generalizing pgno t with
  | zero => exact h.elim
  | succ depth ih =>
      obtain ⟨page, hdr, hpage, hparse, hcases⟩ := h
      rcases hcases with ⟨htype, chains, hchains, rfl⟩ | ⟨htype, cs, ts, chains, hcs, hts,
          hchains, rfl⟩
      · refine ⟨page, hdr, (hsame pgno (by simp)).trans hpage, hparse,
            .inl ⟨htype, chains, ?_, rfl⟩⟩
        exact hchains.congr fun x hx => hsame x (by
          simp only [List.cons_append, List.mem_cons]
          simp [hx])
      · refine ⟨page, hdr, (hsame pgno (by simp)).trans hpage, hparse,
          .inr ⟨htype, cs, ts, chains, hcs, ?_, ?_, rfl⟩⟩
        · refine (List.forall₂_iff_zip.mpr ⟨hts.length_eq, fun {c t} hct => ?_⟩)
          refine ih ((List.forall₂_iff_zip.mp hts).2 hct) fun x hx => hsame x ?_
          have ht : t ∈ ts := (List.of_mem_zip hct).2
          rcases List.mem_append.mp hx with hx | hx
          · have := List.mem_flatMap.mpr ⟨t, ht, hx⟩
            simp [this]
          · have := List.mem_flatMap.mpr ⟨t, ht, hx⟩
            simp [this]
        · exact hchains.congr fun x hx => hsame x (by simp [List.mem_flatten.mp hx])

theorem TreePages.root_mem (h : TreePages kind usable view depth pgno t) : pgno ∈ t.1 := by
  cases depth with
  | zero => exact h.elim
  | succ depth =>
      obtain ⟨_, _, _, _, ⟨_, _, _, rfl⟩ | ⟨_, _, _, _, _, _, _, rfl⟩⟩ := h <;>
        exact List.mem_cons_self

end Congr

/-! ## Finding the pages of a tree -/

section Find

variable (kind : TreeKind) (usable : Nat) (view : UInt32 → Result Bytes)

def findChain : Nat → UInt32 → Option (List UInt32)
  | 0, _ => none
  | fuel + 1, first =>
      if first = 0 then some []
      else do
        let page ← (view first).toOption
        return first :: (← findChain fuel (readBe32 page))

def findCellChain (fuel : Nat) (page : Bytes) (hdr : PageHeader) (i : Nat) :
    Option (List UInt32) := do
  let off ← (hdr.cellPointer page i).toOption
  let overflow ← (cellOverflow usable hdr.pageType page off).toOption
  findChain view fuel (overflow.getD 0)

def findChild (page : Bytes) (hdr : PageHeader) (i : Nat) : Option UInt32 :=
  (TreePosition.interiorChild kind hdr page i).toOption.join

def findTree (fuel : Nat) : Nat → UInt32 → Option (List UInt32 × List UInt32)
  | 0, _ => none
  | depth + 1, pgno => do
      let page ← (view pgno).toOption
      let hdr ← (PageHeader.parse page (btreeHeaderOffset pgno)).toOption
      let chains ← (List.range hdr.numCells).mapM (findCellChain usable view fuel page hdr)
      if hdr.pageType = kind.leaf then some (pgno :: chains.flatten, [])
      else if hdr.pageType = kind.interior then do
        let cs ← (List.range (hdr.numCells + 1)).mapM (findChild kind page hdr)
        let ts ← cs.mapM (findTree fuel depth)
        some (pgno :: ts.flatMap Prod.fst, chains.flatten ++ ts.flatMap Prod.snd)
      else none

end Find

section Find

variable {kind : TreeKind} {usable : Nat} {view : UInt32 → Result Bytes}

theorem toOption_eq_some {α : Type} {r : Result α} {a : α} (h : r.toOption = some a) :
    r = .ok a := by
  cases r with
  | ok b => exact congrArg Except.ok (Option.some.inj h)
  | error e => cases h

theorem forall₂_of_mapM {α β : Type} {f : α → Option β} {l : List α} {bs : List β}
    (h : l.mapM f = some bs) : List.Forall₂ (fun a b => f a = some b) l bs := by
  induction l generalizing bs with
  | nil =>
      cases h
      exact .nil
  | cons a l ih =>
      rw [List.mapM_cons] at h
      obtain ⟨b, hb, h⟩ := Option.bind_eq_some_iff.mp h
      obtain ⟨bs', hbs, h⟩ := Option.bind_eq_some_iff.mp h
      cases h
      exact .cons hb (ih hbs)

theorem linked_of_findChain (h : findChain view fuel first = some chain) :
    Linked view first chain := by
  induction fuel generalizing first chain with
  | zero => cases h
  | succ fuel ih =>
      rw [findChain] at h
      split_ifs at h with h0
      · cases h
        exact h0
      · obtain ⟨page, hpage, h⟩ := Option.bind_eq_some_iff.mp h
        obtain ⟨rest, hrest, h⟩ := Option.bind_eq_some_iff.mp h
        cases h
        exact ⟨rfl, h0, page, toOption_eq_some hpage, ih hrest⟩

theorem cellChains_of_mapM
    (h : (List.range hdr.numCells).mapM (findCellChain usable view fuel page hdr) = some chains) :
    CellChains usable view page hdr chains := by
  have hall := forall₂_of_mapM h
  have hlen := hall.length_eq
  rw [List.length_range] at hlen
  refine ⟨hlen.symm, fun i hi => ?_⟩
  have hcell := hall.get (i := i) (by rw [List.length_range]; omega) hi
  simp only [List.get_eq_getElem, List.getElem_range] at hcell
  obtain ⟨off, hoff, hcell⟩ := Option.bind_eq_some_iff.mp hcell
  obtain ⟨overflow, hoverflow, hcell⟩ := Option.bind_eq_some_iff.mp hcell
  exact ⟨off, overflow, toOption_eq_some hoff, toOption_eq_some hoverflow,
    linked_of_findChain hcell⟩

theorem treePages_of_findTree (h : findTree kind usable view fuel depth pgno = some t) :
    TreePages kind usable view depth pgno t := by
  induction depth generalizing pgno t with
  | zero => cases h
  | succ depth ih =>
      rw [findTree] at h
      obtain ⟨page, hpage, h⟩ := Option.bind_eq_some_iff.mp h
      obtain ⟨hdr, hparse, h⟩ := Option.bind_eq_some_iff.mp h
      obtain ⟨chains, hchains, h⟩ := Option.bind_eq_some_iff.mp h
      refine ⟨page, hdr, toOption_eq_some hpage, toOption_eq_some hparse, ?_⟩
      split_ifs at h with hleaf hinterior
      · cases h
        exact .inl ⟨hleaf, chains, cellChains_of_mapM hchains, rfl⟩
      · obtain ⟨cs, hcs, h⟩ := Option.bind_eq_some_iff.mp h
        obtain ⟨ts, hts, h⟩ := Option.bind_eq_some_iff.mp h
        cases h
        have hall := forall₂_of_mapM hcs
        have hlen := hall.length_eq
        rw [List.length_range] at hlen
        refine .inr ⟨hinterior, cs, ts, chains, ⟨hlen.symm, fun i hi => ?_⟩, ?_,
          cellChains_of_mapM hchains, rfl⟩
        · have hchild := hall.get (i := i) (by rw [List.length_range]; omega) hi
          simp only [List.get_eq_getElem, List.getElem_range, findChild] at hchild
          exact toOption_eq_some (Option.join_eq_some_iff.mp hchild)
        · exact (forall₂_of_mapM hts).imp fun _ _ => ih

end Find

/-! ## Freeing a tree -/

section Frees

variable {p : PagerState × World DbFile} {trunks : List (UInt32 × List UInt32)}
  {rest : List UInt32}

theorem freeOverflowChain_freed (h : Freeable p trunks (chain ++ rest))
    (hlinked : Linked (pageSeen p.1 p.2.disk) first chain) (hfuel : chain.length < fuel) :
    ∃ q, freeOverflowChain fuel first p = .ok () q ∧ Freed p q trunks chain := by
  induction chain generalizing p trunks first fuel with
  | nil =>
      obtain ⟨fuel, rfl⟩ : ∃ n, fuel = n + 1 := ⟨fuel - 1, by omega⟩
      obtain rfl : first = 0 := hlinked
      exact ⟨p, rfl, Freed.refl h⟩
  | cons pgno chain ih =>
      obtain ⟨fuel, rfl⟩ : ∃ n, fuel = n + 1 := ⟨fuel - 1, by omega⟩
      obtain ⟨rfl, h0, page, hpage, hnext⟩ := hlinked
      obtain ⟨-, hle⟩ := h.inRange first (by simp)
      obtain ⟨page', hpage', hlen⟩ := h.complete first h0 hle
      cases hpage.symm.trans hpage'
      have hbig : 512 ≤ p.1.pageSize := p.1.geometry.pageSize.le_size
      obtain ⟨q₁, hget, hq₁⟩ := getPage_ok h.failAt hpage
      obtain ⟨q₂, hfree, hq₂⟩ := freePage_freed (h.quiet hq₁)
      have hfirst := hq₂.of_quiet hq₁
      have h' : Freeable p trunks ([first] ++ (chain ++ rest)) := h
      have hnext' : Linked (pageSeen q₂.1 q₂.2.disk) (readBe32 page) chain :=
        hnext.congr fun x hx => h'.view hfirst x (by simp [hx])
      obtain ⟨q, hrun, hq⟩ := ih (h'.rest hfirst) hnext' (by simpa using hfuel)
      refine ⟨q, ?_, hfirst.trans hq⟩
      rw [freeOverflowChain, if_neg h0, bind_ok hget, pointerAt_zero (by omega)]
      change (freePage first >>= fun _ => freeOverflowChain fuel (readBe32 page)) q₁ = _
      rw [bind_ok hfree, hrun]

def ChainsOf (usable : Nat) (view : UInt32 → Result Bytes) (page : Bytes) (hdr : PageHeader)
    (is : List Nat) (chains : List (List UInt32)) : Prop :=
  List.Forall₂ (fun i chain => ∃ off overflow, hdr.cellPointer page i = .ok off ∧
    cellOverflow usable hdr.pageType page off = .ok overflow ∧
    Linked view (overflow.getD 0) chain) is chains

variable {usable : Nat} {view view' : UInt32 → Result Bytes} {is : List Nat} {stack : List UInt32}
  {ts : List (List UInt32 × List UInt32)}

theorem CellChains.chainsOf (h : CellChains usable view page hdr chains) :
    ChainsOf usable view page hdr (List.range hdr.numCells) chains := by
  refine List.forall₂_iff_get.mpr ⟨by simp [h.1], fun i hi hi' => ?_⟩
  obtain ⟨off, overflow, hoff, hoverflow, hlinked⟩ := h.2 i hi'
  exact ⟨off, overflow, by simpa using hoff, hoverflow, hlinked⟩

theorem ChainsOf.congr (h : ChainsOf usable view page hdr is chains)
    (hsame : ∀ x ∈ chains.flatten, view' x = view x) :
    ChainsOf usable view' page hdr is chains := by
  induction h with
  | nil => exact .nil
  | cons hcell _ ih =>
      obtain ⟨off, overflow, hoff, hoverflow, hlinked⟩ := hcell
      simp only [List.flatten_cons, List.mem_append] at hsame
      exact .cons ⟨off, overflow, hoff, hoverflow, hlinked.congr fun x hx => hsame x (.inl hx)⟩
        (ih fun x hx => hsame x (.inr hx))

theorem freeLeafChains_freed (h : Freeable p trunks (chains.flatten ++ rest))
    (hchains : ChainsOf p.1.geometry.usableSize (pageSeen p.1 p.2.disk) page hdr is chains)
    (hfuel : chains.flatten.length < fuel) :
    ∃ q, freeLeafChains fuel p.1.geometry.usableSize page hdr is p = .ok () q ∧
      Freed p q trunks chains.flatten := by
  induction is generalizing p trunks chains with
  | nil =>
      obtain rfl : chains = [] := List.forall₂_nil_left_iff.mp hchains
      exact ⟨p, rfl, Freed.refl h⟩
  | cons i is ih =>
      obtain ⟨chain, chains', ⟨off, overflow, hoff, hoverflow, hlinked⟩, hrest, rfl⟩ :=
        List.forall₂_cons_left_iff.mp hchains
      simp only [List.flatten_cons, List.append_assoc, List.length_append] at h hfuel ⊢
      obtain ⟨q₁, hrun₁, hq₁⟩ : ∃ q, (match overflow with
          | some first => freeOverflowChain fuel first
          | none => pure () : PagerM Unit) p = .ok () q ∧ Freed p q trunks chain := by
        cases overflow with
        | some first => exact freeOverflowChain_freed h hlinked (by omega)
        | none =>
            obtain rfl : chain = [] := hlinked.eq_nil
            exact ⟨p, rfl, Freed.refl h⟩
      have hrest' : ChainsOf q₁.1.geometry.usableSize (pageSeen q₁.1 q₁.2.disk) page hdr is
          chains' := by
        rw [hq₁.changes.geometry]
        exact ChainsOf.congr hrest fun x hx => h.view hq₁ x (List.mem_append_left rest hx)
      obtain ⟨q, hrun, hq⟩ := ih (h.rest hq₁) hrest' (by omega)
      rw [hq₁.changes.geometry] at hrun
      refine ⟨q, ?_, hq₁.trans hq⟩
      rw [freeLeafChains, hoff, liftResult_ok_bind, hoverflow]
      cases overflow with
      | some first => exact (bind_ok hrun₁).trans hrun
      | none =>
          cases hrun₁
          exact hrun

/-- The two kinds of trees of a database with the given usable size. -/
inductive Kind (usable : Nat) : TreeKind → Prop where
  | table : Kind usable tableKind
  | index : Kind usable (indexKind usable)

theorem Kind.leaf_isLeaf (h : Kind usable kind) :
    kind.leaf.isLeaf = true ∧ kind.interior.isLeaf = false := by
  cases h <;> exact ⟨rfl, rfl⟩

theorem Kind.leftChildAt {usable : Nat} {kind : TreeKind} (h : Kind usable kind) (page : Bytes)
    (off : Nat) : leftChildAt usable kind.interior page off = kind.leftChild page off := by
  cases h <;> rfl

theorem childPointers_of_nodeHolds (hkind : Kind usable kind) {cs : List UInt32}
    (htype : hdr.pageType = kind.interior) (h : NodeHolds kind page hdr cs) :
    childPointers usable page hdr = .ok cs := by
  obtain ⟨hlen, hchild⟩ := h
  have hne : cs ≠ [] := by
    rintro rfl
    simp at hlen
  have hlefts : ((List.range hdr.numCells).mapM fun i => do
      let off ← hdr.cellPointer page i
      Btree.leftChildAt usable hdr.pageType page off) = Except.ok cs.dropLast := by
    refine Result.mapM_eq_ok.mpr (List.forall₂_iff_get.mpr ⟨by simp [hlen], fun i hi hi' => ?_⟩)
    have hi : i < hdr.numCells := by simpa using hi
    have hc := hchild i (by omega)
    rw [TreePosition.interiorChild, if_pos hi] at hc
    simp only [List.get_eq_getElem, List.getElem_range, List.getElem_dropLast]
    cases hoff : hdr.cellPointer page i with
    | error e =>
        rw [hoff] at hc
        cases hc
    | ok off =>
        rw [hoff] at hc
        change (do return some (← kind.leftChild page off) : Result (Option UInt32)) = _ at hc
        change Btree.leftChildAt usable hdr.pageType page off = _
        rw [htype, hkind.leftChildAt]
        cases hleft : kind.leftChild page off with
        | error e =>
            rw [hleft] at hc
            cases hc
        | ok c =>
            rw [hleft] at hc
            cases hc
            rfl
  have hright : hdr.rightMostPointer = some (cs.getLast hne) := by
    have hc := hchild hdr.numCells (by omega)
    rw [TreePosition.interiorChild, if_neg (by omega), if_pos rfl] at hc
    have hlast : cs.getLast hne = cs[hdr.numCells] := by
      rw [List.getLast_eq_getElem]
      congr 1
      omega
    rw [hlast]
    exact Except.ok.inj hc
  rw [childPointers, hlefts, hright]
  change Except.ok (cs.dropLast ++ [cs.getLast hne]) = _
  rw [List.dropLast_append_getLast]

def Trees (kind : TreeKind) (usable : Nat) (view : UInt32 → Result Bytes) (stack : List UInt32)
    (ts : List (List UInt32 × List UInt32)) : Prop :=
  List.Forall₂ (fun pgno t => ∃ depth, TreePages kind usable view depth pgno t) stack ts

theorem Trees.congr (h : Trees kind usable view stack ts)
    (hsame : ∀ t ∈ ts, ∀ x ∈ t.1 ++ t.2, view' x = view x) : Trees kind usable view' stack ts := by
  induction h with
  | nil => exact .nil
  | cons htree _ ih =>
      obtain ⟨depth, htree⟩ := htree
      rw [List.forall_mem_cons] at hsame
      exact .cons ⟨depth, htree.congr hsame.1⟩ (ih hsame.2)

section Loop

variable {usable : Nat} {kind : TreeKind} {types : List PageType} {wrongPage : UInt32 → Error}

theorem freeTreeLoop_step (hkind : Kind usable kind) (hleaf : kind.leaf ∈ types)
    (hinterior : kind.interior ∈ types) (husable : p.1.geometry.usableSize = usable)
    (h : Freeable p trunks (t.1 ++ rest))
    (htree : TreePages kind usable (pageSeen p.1 p.2.disk) (depth + 1) pgno t)
    (hfuel : t.1.length ≤ fuel) :
    ∃ children ts own q,
      (∀ stack freed, freeTreeLoop types wrongPage (fuel + 1) (pgno :: stack) freed p =
        freeTreeLoop types wrongPage fuel (children.reverse ++ stack) (freed + 1) q) ∧
      Freed p q trunks own ∧ pgno ∈ own ∧ t.1.Perm (own ++ ts.flatMap Prod.fst) ∧
      (∀ x ∈ ts.flatMap Prod.snd, x ∈ t.2) ∧
      List.Forall₂ (TreePages kind usable (pageSeen p.1 p.2.disk) depth) children ts := by
  obtain ⟨page, hdr, hpage, hparse, hcases⟩ := htree
  obtain ⟨q₁, hget, hq₁⟩ := getPage_ok h.failAt hpage
  have husable₁ : q₁.1.geometry.usableSize = usable := by rw [hq₁.geometry, husable]
  have hstart : ∀ stack freed, freeTreeLoop types wrongPage (fuel + 1) (pgno :: stack) freed p =
      (if hdr.pageType ∉ types then throw (wrongPage pgno)
        else if hdr.pageType.isLeaf then do
          freeLeafChains fuel usable page hdr (List.range hdr.numCells)
          freePage pgno
          freeTreeLoop types wrongPage fuel stack (freed + 1)
        else do
          let children ← liftResult (childPointers usable page hdr)
          freePage pgno
          freeTreeLoop types wrongPage fuel (children.reverse ++ stack) (freed + 1) :
        PagerM UInt32) q₁ := by
    intro stack freed
    rw [freeTreeLoop, bind_ok hget, hparse, liftResult_ok_bind]
    simp only [getState_bind, husable₁]
    split_ifs <;> rfl
  rcases hcases with ⟨htype, chains, hchains, rfl⟩ | ⟨htype, cs, ts, chains, hcs, hts, -, rfl⟩
  · have hperm : (pgno :: chains.flatten ++ rest).Perm (chains.flatten ++ (pgno :: rest)) :=
      List.perm_middle.symm
    have hfree := (h.perm hperm).quiet hq₁
    have hchains₁ : ChainsOf q₁.1.geometry.usableSize (pageSeen q₁.1 q₁.2.disk) page hdr
        (List.range hdr.numCells) chains := by
      rw [husable₁]
      exact hchains.chainsOf.congr fun x _ => hq₁.view x
    obtain ⟨q₂, hrun₂, hq₂⟩ := freeLeafChains_freed hfree hchains₁ (by
      simpa using hfuel)
    obtain ⟨q₃, hrun₃, hq₃⟩ := freePage_freed (hfree.rest hq₂)
    refine ⟨[], [], chains.flatten ++ [pgno], q₃, fun stack freed => ?_,
      (hq₂.trans hq₃).of_quiet hq₁, by simp, ?_, by simp, .nil⟩
    · rw [husable₁] at hrun₂
      rw [hstart, htype, if_neg (by simpa using hleaf), if_pos hkind.leaf_isLeaf.1,
        bind_ok hrun₂, bind_ok hrun₃]
      rfl
    · simpa using (List.perm_append_singleton pgno chains.flatten).symm
  · obtain ⟨q₂, hrun₂, hq₂⟩ := freePage_freed (h.quiet hq₁)
    refine ⟨cs, ts, [pgno], q₂, fun stack freed => ?_, hq₂.of_quiet hq₁, by simp, .refl _,
      fun x hx => List.mem_append_right _ hx, hts⟩
    rw [hstart, htype, if_neg (by simpa using hinterior), if_neg (by simp [hkind.leaf_isLeaf.2]),
      childPointers_of_nodeHolds hkind htype hcs, liftResult_ok_bind, bind_ok hrun₂]

theorem freeTreeLoop_freed (hkind : Kind usable kind) (hleaf : kind.leaf ∈ types)
    (hinterior : kind.interior ∈ types) {keep : List UInt32}
    (husable : p.1.geometry.usableSize = usable)
    (h : Freeable p trunks (ts.flatMap Prod.fst ++ keep))
    (hkeep : ∀ x ∈ ts.flatMap Prod.snd, x ∈ keep)
    (hstack : Trees kind usable (pageSeen p.1 p.2.disk) stack ts)
    (hfuel : (ts.flatMap Prod.fst).length < fuel) (freed : UInt32) :
    ∃ n q pages, freeTreeLoop types wrongPage fuel stack freed p = .ok n q ∧
      pages.Perm (ts.flatMap Prod.fst) ∧ Freed p q trunks pages := by
  induction fuel generalizing p trunks stack ts freed with
  | zero => exact absurd hfuel (Nat.not_lt_zero _)
  | succ fuel ih =>
      cases hstack with
      | nil => exact ⟨freed, p, [], rfl, .refl _, Freed.refl h⟩
      | @cons pgno t stack ts htree hrest =>
          obtain ⟨depth, htree⟩ := htree
          obtain ⟨depth, rfl⟩ : ∃ n, depth = n + 1 := by
            cases depth with
            | zero => exact htree.elim
            | succ depth => exact ⟨depth, rfl⟩
          simp only [List.flatMap_cons, List.append_assoc, List.length_append, List.mem_append]
            at h hkeep hfuel ⊢
          have hfuel' : t.1.length ≤ fuel := by omega
          obtain ⟨children, ts', own, q₁, hrun₁, hq₁, hmem, hperm, hsub, hchildren⟩ :=
            freeTreeLoop_step hkind hleaf hinterior husable h htree
              hfuel'
          have hown := List.length_pos_of_mem hmem
          have hlen := hperm.length_eq
          rw [List.length_append] at hlen
          -- what is left: the subtrees of the children in front of the rest of the stack
          have hrev : (ts'.reverse.flatMap Prod.fst).Perm (ts'.flatMap Prod.fst) :=
            (List.reverse_perm ts').flatMap_right _
          have hleft : (t.1 ++ (ts.flatMap Prod.fst ++ keep)).Perm
              (own ++ ((ts'.reverse ++ ts).flatMap Prod.fst ++ keep)) := by
            have hsplit := hperm.append_right (ts.flatMap Prod.fst ++ keep)
            have hback := (hrev.symm.append_right (ts.flatMap Prod.fst ++ keep)).append_left own
            rw [List.append_assoc] at hsplit
            rw [List.flatMap_append, List.append_assoc]
            exact hsplit.trans hback
          have hfree := h.perm hleft
          have hkeep' : ∀ x ∈ (ts'.reverse ++ ts).flatMap Prod.snd, x ∈ keep := by
            intro x hx
            rw [List.flatMap_append, List.mem_append] at hx
            rcases hx with hx | hx
            · exact hkeep x (.inl (hsub x (by simpa using hx)))
            · exact hkeep x (.inr hx)
          have htrees : Trees kind usable (pageSeen q₁.1 q₁.2.disk) (children.reverse ++ stack)
              (ts'.reverse ++ ts) := by
            have hbefore : Trees kind usable (pageSeen p.1 p.2.disk) (children.reverse ++ stack)
                (ts'.reverse ++ ts) :=
              List.rel_append (List.rel_reverse (hchildren.imp fun _ _ h => ⟨depth, h⟩)) hrest
            refine hbefore.congr fun u hu x hx => hfree.view hq₁ x ?_
            rcases List.mem_append.mp hx with hx | hx
            · exact List.mem_append_left _ (List.mem_flatMap.mpr ⟨u, hu, hx⟩)
            · exact List.mem_append_right _ (hkeep' x (List.mem_flatMap.mpr ⟨u, hu, hx⟩))
          obtain ⟨n, q, pages, hrun, hpages, hq⟩ := ih (by rw [hq₁.changes.geometry, husable])
            (hfree.rest hq₁) hkeep' htrees (by
              simp only [List.flatMap_append, List.length_append, hrev.length_eq]
              omega) (freed + 1)
          refine ⟨n, q, own ++ pages, (hrun₁ stack freed).trans hrun, ?_, hq₁.trans hq⟩
          rw [List.flatMap_append] at hpages
          have hall := (hpages.trans (hrev.append_right _)).append_left own
          rw [← List.append_assoc] at hall
          exact hall.trans (hperm.symm.append_right _)

end Loop

end Frees

/-! ## What dropping and clearing a tree leave -/

/--
A tree that may be dropped: `tree` are its pages with the overflow pages of its
leaves, `dividers` the overflow pages of its interior cells.  No page has two
uses, and none is on the freelist.
-/
structure WellFormedTree (p : PagerState × World DbFile) (kind : TreeKind) (root : UInt32)
    (tree dividers : List UInt32) (trunks : List (UInt32 × List UInt32)) : Prop where
  isKind : Kind p.1.geometry.usableSize kind
  pages : ∃ depth, TreePages kind p.1.geometry.usableSize (pageSeen p.1 p.2.disk) depth root
    (tree, dividers)
  freeable : Freeable p trunks (tree ++ dividers)

def FreesExactly (q : PagerState × World DbFile) (trunks : List (UInt32 × List UInt32))
    (pages : List UInt32) : Prop :=
  ∃ trunks', SoundFreelist q trunks' ∧ (freePages trunks').Perm (pages ++ freePages trunks)

def IsEmptyLeaf (q : PagerState × World DbFile) (root : UInt32) : Prop :=
  ∃ page hdr, pageSeen q.1 q.2.disk root = .ok page ∧
    PageHeader.parse page (btreeHeaderOffset root) = .ok hdr ∧ hdr.pageType = .leafTable ∧
      hdr.numCells = 0

def Destroys (p : PagerState × World DbFile) (root : UInt32)
    (trunks : List (UInt32 × List UInt32)) (pages : List UInt32) : Prop :=
  ∃ N, ∀ fuel ≥ N, ∃ n q, destroy fuel root p = .ok n q ∧ FreesExactly q trunks pages

def Clears (p : PagerState × World DbFile) (root : UInt32)
    (trunks : List (UInt32 × List UInt32)) (pages : List UInt32) : Prop :=
  ∃ N, ∀ fuel ≥ N, ∃ n q, clear fuel root p = .ok n q ∧ FreesExactly q trunks pages ∧
    IsEmptyLeaf q root

def LeafRoot (p : PagerState × World DbFile) (root : UInt32) : Prop :=
  ∃ page hdr, pageSeen p.1 p.2.disk root = .ok page ∧
    PageHeader.parse page (btreeHeaderOffset root) = .ok hdr ∧ hdr.pageType.isLeaf = true

section Drop

variable {p q : PagerState × World DbFile} {kind : TreeKind} {root : UInt32}
  {tree dividers pages : List UInt32} {trunks : List (UInt32 × List UInt32)}

theorem FreesExactly.length_eq (h : FreesExactly q trunks pages)
    {trunks' : List (UInt32 × List UInt32)}
    (h' : SoundFreelist q trunks') :
    (freePages trunks').length = pages.length + (freePages trunks).length := by
  obtain ⟨trunks₁, h₁, hperm⟩ := h
  rw [← h'.count, h₁.count, hperm.length_eq, List.length_append]

theorem freesExactly_of_freed (h : Freed p q trunks pages) : FreesExactly q trunks pages := by
  refine ⟨_, h.freelist, ?_⟩
  rw [freePages_append, freePages_asTrunks]
  exact (List.reverse_perm pages).append_right _

theorem FreesExactly.perm (h : FreesExactly q trunks pages) {pages' : List UInt32}
    (hperm : pages.Perm pages') : FreesExactly q trunks pages' := by
  obtain ⟨trunks', h, hfree⟩ := h
  exact ⟨trunks', h, hfree.trans (hperm.append_right _)⟩

theorem WellFormedTree.root_ne_zero (h : WellFormedTree p kind root tree dividers trunks) :
    root ≠ 0 := by
  obtain ⟨depth, hpages⟩ := h.pages
  exact (h.freeable.inRange root (List.mem_append_left _ hpages.root_mem)).1

theorem destroy_run (h : WellFormedTree p kind root tree dividers trunks)
    (hfuel : tree.length < fuel) :
    ∃ n q, destroy fuel root p = .ok n q ∧ FreesExactly q trunks tree := by
  obtain ⟨depth, hpages⟩ := h.pages
  have htypes : ∀ t : PageType, t ∈ allPageTypes := by
    intro t
    cases t <;> decide
  have hstack : Trees kind p.1.geometry.usableSize (pageSeen p.1 p.2.disk) [root]
      [(tree, dividers)] := .cons ⟨depth, hpages⟩ .nil
  obtain ⟨n, q, pages, hrun, hperm, hq⟩ := freeTreeLoop_freed h.isKind (htypes _) (htypes _)
    rfl (by simpa using h.freeable) (by simp) hstack (by simpa using hfuel) 0
  refine ⟨n, q, ?_, (freesExactly_of_freed hq).perm (by simpa using hperm)⟩
  rw [destroy, if_neg h.root_ne_zero, hrun]

variable {base : Nat}

theorem length_initEmptyLeaf (h : base + 8 ≤ page.length) :
    (initEmptyLeaf page base).length = page.length := by
  simp only [initEmptyLeaf, List.length_append, List.length_take, List.length_cons,
    List.length_nil, length_be16, List.length_replicate]
  omega

theorem parse_initEmptyLeaf (h : base + 8 ≤ page.length) :
    ∃ hdr, PageHeader.parse (initEmptyLeaf page base) base = .ok hdr ∧
      hdr.pageType = .leafTable ∧ hdr.numCells = 0 := by
  have hbase : (page.take base).length = base := by
    rw [List.length_take]
    omega
  have hdrop : (initEmptyLeaf page base).drop base =
      [PageType.leafTable.code] ++ be16 0 ++ be16 0 ++ be16 (storedContentStart page.length) ++
        [0] ++ [] ++ List.replicate (page.length - base - 8) 0 := by
    simp only [initEmptyLeaf, List.append_assoc, List.nil_append]
    exact List.drop_left' hbase
  exact ⟨_, parse_header (by simp [PageType.isLeaf]) hdrop, rfl, rfl⟩

theorem resetRoot_ok (hp : p.2.failAt = none) (hcomp : Complete p)
    (hfree : SoundFreelist p trunks) (h0 : root ≠ 0) (hle : root ≤ p.1.effectiveCount)
    (hnew : root ∉ freePages trunks) :
    ∃ q, (do
      let rootBuf ← readPageForWrite root
      writePage root (initEmptyLeaf rootBuf (btreeHeaderOffset root)) : PagerM Unit) p =
        .ok () q ∧ SoundFreelist q trunks ∧ IsEmptyLeaf q root := by
  obtain ⟨page, hpage, hlen⟩ := hcomp root h0 hle
  obtain ⟨q₁, hread, hq₁⟩ := readPageForWrite_ok hp hpage
  have hbig : 512 ≤ p.1.pageSize := p.1.geometry.pageSize.le_size
  have hbase : btreeHeaderOffset root + 8 ≤ page.length := by
    rw [btreeHeaderOffset]
    split_ifs <;> omega
  have hsize : (initEmptyLeaf page (btreeHeaderOffset root)).length = q₁.1.pageSize := by
    rw [length_initEmptyLeaf hbase, hlen, PagerState.pageSize, PagerState.pageSize, hq₁.geometry]
  have hwrite := writePage_ok (p := q₁) root hsize
  have hch := (hq₁.changes {root}).trans (changes_written hq₁.failAt _ hsize)
  obtain ⟨hdr, hparse, htype, hcells⟩ := parse_initEmptyLeaf hbase
  refine ⟨_, by rw [bind_ok hread]; exact hwrite, hfree.changes hch hq₁.header ?_,
    _, hdr, ?_, hparse, htype, hcells⟩
  · rintro x hx rfl
    exact hnew hx
  · exact pageSeen_written _ _ _ h0 (by rwa [hq₁.effectiveCount])

theorem clear_run (h : WellFormedTree p tableKind root tree dividers trunks)
    (hfuel : tree.length < fuel) :
    ∃ n q pages, clear fuel root p = .ok n q ∧ FreesExactly q trunks pages ∧ IsEmptyLeaf q root ∧
      (LeafRoot p root → pages = []) ∧ (¬ LeafRoot p root → (root :: pages).Perm tree) := by
  have hroot := h.root_ne_zero
  obtain ⟨depth, hpages⟩ := h.pages
  obtain ⟨depth, rfl⟩ : ∃ n, depth = n + 1 := by
    cases depth with
    | zero => exact hpages.elim
    | succ depth => exact ⟨depth, rfl⟩
  have hmem := hpages.root_mem
  obtain ⟨page, hdr, hpage, hparse, hcases⟩ := hpages
  obtain ⟨q₁, hget, hq₁⟩ := getPage_ok h.freeable.failAt hpage
  have hfree := h.freeable.quiet hq₁
  have hrange := hfree.inRange root (List.mem_append_left _ hmem)
  have hnotFree : root ∉ freePages trunks := fun hin =>
    (List.nodup_append.mp hfree.nodup).2.2 root (List.mem_append_left _ hmem) root hin rfl
  have hstart : ∀ cs, (match hdr.pageType with
        | .leafTable => .ok []
        | .interiorTable => childPointers p.1.geometry.usableSize page hdr
        | _ => .error (.corrupt s!"clear: unexpected page type on root page {root}") :
      Result (List UInt32)) = .ok cs →
      clear fuel root p = (do
        let freed ← freeTreeLoop [.leafTable, .interiorTable] clearWrongPage fuel cs.reverse 0
        let _ ← (do
          let rootBuf ← readPageForWrite root
          writePage root (initEmptyLeaf rootBuf (btreeHeaderOffset root)))
        return freed : PagerM UInt32) q₁ := by
    intro cs hcs
    rw [clear, if_neg hroot, bind_ok hget, hparse, liftResult_ok_bind]
    simp only [getState_bind, hq₁.geometry, bind_assoc]
    rw [hcs, liftResult_ok_bind]
  rcases hcases with ⟨htype, chains, -, htree⟩ | ⟨htype, cs, ts, chains, hcs, hts, -, htree⟩
  · have hleaf : LeafRoot p root := ⟨page, hdr, hpage, hparse, by rw [htype]; rfl⟩
    obtain ⟨q, hreset, hsound, hempty⟩ := resetRoot_ok hfree.failAt hfree.complete hfree.freelist
      hroot hrange.2 hnotFree
    have hloop : freeTreeLoop [.leafTable, .interiorTable] clearWrongPage fuel [] 0 q₁ =
        .ok 0 q₁ := by
      rw [freeTreeLoop]
      rfl
    refine ⟨0, q, [], ?_, ⟨trunks, hsound, .refl _⟩, hempty, fun _ => rfl, fun hnot =>
      absurd hleaf hnot⟩
    rw [hstart [] (by rw [htype]; rfl), List.reverse_nil, bind_ok hloop, bind_ok hreset]
    rfl
  · obtain ⟨rfl, rfl⟩ : tree = root :: ts.flatMap Prod.fst ∧
        dividers = chains.flatten ++ ts.flatMap Prod.snd := Prod.mk.inj htree
    have hrev : (ts.reverse.flatMap Prod.fst).Perm (ts.flatMap Prod.fst) :=
      (List.reverse_perm ts).flatMap_right _
    set keep := root :: (chains.flatten ++ ts.flatMap Prod.snd) with hkeep
    have hsplit : Freeable q₁ trunks (ts.reverse.flatMap Prod.fst ++ keep) := by
      refine hfree.perm ?_
      rw [hkeep]
      exact List.perm_middle.symm.trans (hrev.symm.append_right _)
    have hsub : ∀ x ∈ ts.reverse.flatMap Prod.snd, x ∈ keep := by
      intro x hx
      have hx : x ∈ ts.flatMap Prod.snd := by simpa using hx
      rw [hkeep]
      exact List.mem_cons_of_mem _ (List.mem_append_right _ hx)
    have hstack : Trees tableKind q₁.1.geometry.usableSize (pageSeen q₁.1 q₁.2.disk) cs.reverse
        ts.reverse := by
      rw [hq₁.geometry]
      have hbefore : Trees tableKind p.1.geometry.usableSize (pageSeen p.1 p.2.disk) cs.reverse
          ts.reverse := List.rel_reverse (hts.imp fun _ _ h => ⟨depth, h⟩)
      exact hbefore.congr fun _ _ x _ => hq₁.view x
    have hleafType : tableKind.leaf ∈ [PageType.leafTable, .interiorTable] := by decide
    have hinteriorType : tableKind.interior ∈ [PageType.leafTable, .interiorTable] := by decide
    obtain ⟨n, q₂, pages, hrun, hperm, hq₂⟩ := freeTreeLoop_freed
      .table hleafType hinteriorType rfl hsplit hsub hstack
      (by simpa [hrev.length_eq] using Nat.lt_of_succ_lt hfuel) 0
    have hrest := (hsplit.perm (hperm.symm.append_right keep)).rest hq₂
    have hnew : root ∉ freePages (asTrunks pages ++ trunks) := fun hin =>
      (List.nodup_append.mp hrest.nodup).2.2 root (by simp [hkeep]) root hin rfl
    have hrange₂ := hrest.inRange root (by simp [hkeep])
    obtain ⟨q, hreset, hsound, hempty⟩ := resetRoot_ok hrest.failAt hrest.complete hrest.freelist
      hroot hrange₂.2 hnew
    refine ⟨n, q, pages, ?_, ⟨_, hsound, ?_⟩, hempty, ?_, fun _ => (hperm.trans hrev).cons root⟩
    · have hcs' : childPointers p.1.geometry.usableSize page hdr = .ok cs :=
        childPointers_of_nodeHolds h.isKind htype hcs
      rw [hstart cs (by rw [htype]; exact hcs'), bind_ok hrun, bind_ok hreset]
      rfl
    · rw [freePages_append, freePages_asTrunks]
      exact (List.reverse_perm pages).append_right _
    · rintro ⟨page', hdr', hpage', hparse', hleaf⟩
      cases hpage.symm.trans hpage'
      cases hparse.symm.trans hparse'
      rw [htype] at hleaf
      cases hleaf

theorem destroys_iff (h : WellFormedTree p kind root tree dividers trunks) :
    Destroys p root trunks (tree ++ dividers) ↔ dividers = [] := by
  constructor
  · rintro ⟨N, hdestroys⟩
    obtain ⟨n, q, hrun, htrunks⟩ := hdestroys (N + tree.length + 1) (by omega)
    have hfuel : tree.length < N + tree.length + 1 := by omega
    obtain ⟨n', q', hrun', trunks', hsound, hperm⟩ := destroy_run h hfuel
    cases hrun.symm.trans hrun'
    have hlen := htrunks.length_eq hsound
    rw [hperm.length_eq] at hlen
    simp only [List.length_append] at hlen
    exact List.length_eq_zero_iff.mp (by omega)
  · rintro rfl
    refine ⟨tree.length + 1, fun fuel hfuel => ?_⟩
    simpa using destroy_run h hfuel

theorem WellFormedTree.erase_root (h : WellFormedTree p kind root tree dividers trunks) :
    (root :: tree.erase root).Perm tree := by
  obtain ⟨depth, hpages⟩ := h.pages
  exact (List.perm_cons_erase hpages.root_mem).symm

theorem clears_iff (h : WellFormedTree p tableKind root tree dividers trunks)
    (hdividers : dividers = []) :
    Clears p root trunks (tree.erase root ++ dividers) ↔ (LeafRoot p root → tree = [root]) := by
  obtain rfl := hdividers
  have herase := h.erase_root
  rw [List.append_nil]
  constructor
  · rintro ⟨N, hclears⟩ hleaf
    obtain ⟨n, q, hrun, htrunks, -⟩ := hclears (N + tree.length + 1) (by omega)
    have hfuel : tree.length < N + tree.length + 1 := by omega
    obtain ⟨n', q', pages, hrun', ⟨trunks', hsound, hperm⟩, -, hpages, -⟩ := clear_run h hfuel
    cases hrun.symm.trans hrun'
    obtain rfl := hpages hleaf
    have hlen := htrunks.length_eq hsound
    rw [hperm.length_eq] at hlen
    simp only [List.length_append, List.length_nil] at hlen
    have hnil : tree.erase root = [] := List.length_eq_zero_iff.mp (by omega)
    rw [hnil] at herase
    exact List.perm_singleton.mp herase.symm
  · intro hroot
    refine ⟨tree.length + 1, fun fuel hfuel => ?_⟩
    obtain ⟨n, q, pages, hrun, hfrees, hempty, hleaf, hinner⟩ := clear_run h hfuel
    refine ⟨n, q, hrun, hfrees.perm ?_, hempty⟩
    by_cases hroot' : LeafRoot p root
    · rw [hleaf hroot', hroot hroot', List.erase_cons_head]
    · exact (List.perm_cons root).mp ((hinner hroot').trans herase.symm)

/--
Dropping a tree, and clearing a table, frees the pages of the tree, each of them
once and no other, exactly when no interior cell has overflow pages and the
root of the table is not a leaf with overflow pages.
-/
theorem destroy_clear_iff (h : WellFormedTree p kind root tree dividers trunks) :
    (Destroys p root trunks (tree ++ dividers) ∧
        (kind = tableKind → Clears p root trunks (tree.erase root ++ dividers))) ↔
      dividers = [] ∧ (kind = tableKind → LeafRoot p root → tree = [root]) := by
  rw [destroys_iff h]
  constructor
  · rintro ⟨hdividers, hclears⟩
    constructor
    · exact hdividers
    · rintro rfl
      exact (clears_iff h hdividers).mp (hclears rfl)
  · rintro ⟨hdividers, hroot⟩
    constructor
    · exact hdividers
    · rintro rfl
      exact (clears_iff h hdividers).mpr (hroot rfl)

end Drop

/-! ## Two trees -/

theorem wellFormed_of_findTree {pages : List Bytes} {root : UInt32} {tree dividers : List UInt32}
    (hkind : Kind 512 kind)
    (hfind : findTree kind 512 (pageSeen (databaseWith pages).1 (databaseWith pages).2.disk) 10 10
      root = some (tree, dividers)) (hcomplete : Complete (databaseWith pages))
    (hnodup : (tree ++ dividers).Nodup) (hrange : (tree ++ dividers).all (fun x =>
      x != 0 && decide (x ≤ (databaseWith pages).1.effectiveCount)) = true) :
    WellFormedTree (databaseWith pages) kind root tree dividers [] where
  isKind := hkind
  pages := ⟨10, treePages_of_findTree hfind⟩
  freeable := {
    failAt := rfl
    complete := hcomplete
    freelist := ⟨rfl, rfl, List.nodup_nil, by simp⟩
    nodup := by simpa using hnodup
    inRange := fun x hx => by simpa using List.all_eq_true.mp hrange x hx
    mapped := fun hvac => by cases hvac }

/-- An index whose root has a key that spills to page 5. -/
def longDivider : PagerState × World DbFile := databaseWith [
  layOut .interiorIndex (some 4)
    [be32 3 ++ writeVarint 200 ++ List.replicate 39 7 ++ be32 5],
  layOut .leafIndex none [], layOut .leafIndex none [], List.replicate 512 0]

set_option maxRecDepth 10000 in
theorem wellFormed_longDivider :
    WellFormedTree longDivider (indexKind 512) 2 [2, 3, 4] [5] [] :=
  wellFormed_of_findTree .index (by decide) (complete_of_readable (by decide))
    (by decide) (by decide)

/-- The overflow page of the key is not freed. -/
theorem destroy_leaves_divider :
    WellFormedTree longDivider (indexKind 512) 2 [2, 3, 4] [5] [] ∧
      ¬ Destroys longDivider 2 [] ([2, 3, 4] ++ [5]) := by
  constructor
  · exact wellFormed_longDivider
  · rw [destroys_iff wellFormed_longDivider]
    exact List.cons_ne_nil _ _

/-- A table of two leaves, and a row of the second spills to page 5. -/
def smallTable : PagerState × World DbFile := databaseWith [
  layOut .interiorTable (some 4) [buildTableInteriorCell 3 1],
  layOut .leafTable none [[1, 1, 7]],
  layOut .leafTable none [writeVarint 600 ++ [2] ++ List.replicate 92 7 ++ be32 5],
  List.replicate 512 0]

set_option maxRecDepth 10000 in
theorem destroy_clear_smallTable :
    Destroys smallTable 2 [] ([2, 3, 4, 5] ++ []) ∧
      (tableKind = tableKind → Clears smallTable 2 [] ([2, 3, 4, 5].erase 2 ++ [])) := by
  have h : WellFormedTree smallTable tableKind 2 [2, 3, 4, 5] [] [] :=
    wellFormed_of_findTree .table (by decide) (complete_of_readable (by decide))
      (by decide) (by decide)
  refine (destroy_clear_iff h).mpr ⟨rfl, fun _ hleaf => ?_⟩
  obtain ⟨page, hdr, hpage, hparse, hleaf⟩ := hleaf
  obtain ⟨hdr', hparse', htype⟩ : ∃ hdr',
      (pageSeen smallTable.1 smallTable.2.disk 2).bind (PageHeader.parse · 0) = .ok hdr' ∧
        hdr'.pageType = .interiorTable :=
    ⟨_, rfl, rfl⟩
  rw [hpage] at hparse'
  cases hparse.symm.trans hparse'
  rw [htype] at hleaf
  cases hleaf

end Rustqlite.Btree
