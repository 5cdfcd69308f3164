import Rustqlite.Btree.Traversal

/-!
# Dropping a damaged tree

A page that is freed is overwritten, and so is its entry in the pointer map.  As
long as the pages that a drop comes to are distinct, it reads what the tree held
when it began.  It ends where it comes to a page that cannot be freed.
-/

namespace Rustqlite.Btree

open Foundation Foundation.DepthFirst Format Pager FileM

/-! ## Programs that free pages -/

variable {pgno : UInt32} {pm usable : Nat}

section Safe

variable {α β : Type} {s₀ : PagerState} {S : Set UInt32}

def Safe (s₀ : PagerState) (S : Set UInt32) (m : PagerM α) : Prop :=
  ∀ q, q.1.geometry = s₀.geometry → q.1.autoVacuum = s₀.autoVacuum → q.2.failAt = none →
    match m q with
    | .ok _ r => Changes q r S
    | .error e _ => ¬ OutOfFuel e

theorem Safe.pure (a : α) : Safe s₀ S (pure a : PagerM α) := fun _ _ _ hq => Changes.refl hq

theorem Safe.throw {e : Error} (he : ¬ OutOfFuel e) : Safe s₀ S (throw e : PagerM α) :=
  fun _ _ _ _ => he

theorem Safe.bind {m : PagerM α} {f : α → PagerM β} (hm : Safe s₀ S m)
    (hf : ∀ a, Safe s₀ S (f a)) : Safe s₀ S (m >>= f) := by
  intro q hg hvac hq
  have h := hm q hg hvac hq
  cases hmq : m q with
  | error e r =>
      rw [hmq] at h
      rw [bind_error hmq]
      exact h
  | ok a r =>
      rw [hmq] at h
      rw [bind_ok hmq]
      have h' := hf a r (h.geometry.trans hg) (h.autoVacuum.trans hvac) h.failAt
      cases hfr : f a r with
      | error e t => rwa [hfr] at h'
      | ok b t =>
          rw [hfr] at h'
          exact h.trans h'

theorem Safe.getState_bind {f : PagerState → PagerM β}
    (hf : ∀ s : PagerState, s.geometry = s₀.geometry → s.autoVacuum = s₀.autoVacuum →
      Safe s₀ S (f s)) :
    Safe s₀ S (getState >>= f) := fun q hg hvac => hf q.1 hg hvac q hg hvac

theorem Safe.ite {c : Prop} [Decidable c] {a b : PagerM α} (ha : c → Safe s₀ S a)
    (hb : ¬ c → Safe s₀ S b) : Safe s₀ S (if c then a else b) := by
  split
  · exact ha ‹_›
  · exact hb ‹_›

theorem safe_getPage (pgno : UInt32) : Safe s₀ S (getPage pgno) := by
  intro q _ _ hq
  obtain ⟨r, hr, hrun⟩ := sameView_getPage hq pgno
  rw [hrun]
  cases hseen : pageSeen q.1 q.2.disk pgno with
  | ok page => exact hr.quiet.changes S
  | error e => exact regular_pageSeen _ _ _ e hseen

theorem safe_tryGetPage (pgno : UInt32) : Safe s₀ S (tryResult (getPage pgno)) := by
  intro q _ _ hq
  obtain ⟨r, hr, hrun⟩ := sameView_getPage hq pgno
  rw [tryResult, hrun]
  cases hseen : pageSeen q.1 q.2.disk pgno with
  | ok page => exact hr.quiet.changes S
  | error e =>
      dsimp only
      split
      · rename_i hresult
        split at hresult
        · cases hresult
        · cases hresult
          exact hr.quiet.changes S
      · rename_i hresult
        split at hresult
        · cases hresult
          exact regular_pageSeen _ _ _ _ hseen
        · cases hresult

theorem safe_journalPage (pgno : UInt32) (preimage : Bytes) :
    Safe s₀ S (journalPage pgno preimage) := by
  intro q _ _ hq
  obtain ⟨r, hrun, hr⟩ := journalPage_ok hq pgno preimage
  rw [hrun]
  exact hr.changes S

theorem safe_writePage (hS : pgno ∈ S) (data : Bytes) : Safe s₀ S (writePage pgno data) := by
  intro q _ _ hq
  by_cases hlen : data.length = q.1.pageSize
  · rw [writePage_ok _ hlen]
    exact (changes_written hq _ hlen).mono (Set.singleton_subset_iff.mpr hS)
  · have hrun : writePage pgno data q = .error (.corrupt
        s!"write_page: page {pgno} is {data.length} bytes, expected {q.1.pageSize}") q := by
      simp only [writePage, getState_bind, ne_eq, hlen, not_false_eq_true, if_true]
      rfl
    rw [hrun]
    exact not_outOfFuel_of_code (by simp [Error.corrupt])

theorem safe_withHeaderMut {f : DbHeader → DbHeader}
    (hf : ∀ h, (f h).largestRootPage = h.largestRootPage) :
    Safe s₀ S (withHeaderMut f) := by
  intro q _ _ hq
  exact { Changes.refl hq with
    autoVacuum := by simp only [PagerState.autoVacuum, hf] }

theorem safe_ptrmapOffset (pm pgno : Nat) : Safe s₀ S (ptrmapOffset pm pgno) :=
  Safe.ite (fun _ => .throw (by simp [OutOfFuel, endless, Error.panic])) fun _ => .pure _

theorem safe_readPageForWrite (pgno : UInt32) : Safe s₀ S (readPageForWrite pgno) :=
  (safe_getPage pgno).bind fun page => (safe_journalPage pgno page).bind fun _ => .pure page

theorem safe_ptrmapWrite (hS : UInt32.ofNat pm ∈ S) (pgno : UInt32) (ty : PtrMapType)
    (parent : UInt32) : Safe s₀ S (ptrmapWrite pm pgno ty parent) :=
  (safe_readPageForWrite _).bind fun _ => (safe_ptrmapOffset _ _).bind fun _ =>
    safe_writePage hS _

theorem safe_ptrmapPut (hS : mapPage s₀.geometry.usableSize pgno ∈ S) (ty : PtrMapType)
    (parent : UInt32) : Safe s₀ S (ptrmapPut pgno ty parent) := by
  refine Safe.getState_bind fun s hs _ => ?_
  rw [hs]
  have hcorrupt : ∀ msg, ¬ OutOfFuel (.corrupt msg) := fun _ =>
    not_outOfFuel_of_code (by simp [Error.corrupt])
  refine Safe.ite (fun _ => .throw (hcorrupt _)) fun _ => ?_
  refine (safe_tryGetPage _).bind fun r => ?_
  cases r with
  | error e => exact safe_ptrmapWrite hS _ _ _
  | ok page =>
      refine Safe.bind ?_ fun differs => ?_
      · exact (safe_ptrmapOffset _ _).bind fun _ => .ite (fun _ => .throw (hcorrupt _)) fun _ =>
          .pure _
      · exact .ite (fun _ => safe_ptrmapWrite hS _ _ _) fun _ => .pure _

theorem safe_freePage (pgno : UInt32) : Safe s₀ (freeTouches s₀ pgno) (freePage pgno) := by
  refine (safe_getPage pgno).bind fun preimage => (safe_journalPage pgno preimage).bind fun _ => ?_
  refine Safe.getState_bind fun s _ _ => (safe_writePage (.inl rfl) _).bind fun _ => ?_
  refine (safe_withHeaderMut fun _ => by rfl).bind fun _ => Safe.getState_bind fun s _ hvac => ?_
  rw [hvac]
  exact .ite (fun h => safe_ptrmapPut (.inr ⟨h, rfl⟩) _ _) fun _ => .pure _

end Safe

/-! ## Pages that cannot be freed -/

/--
`free_page` fails on a page without an entry in a pointer map: on the first page,
on a pointer-map page, and where the pointer-map page cannot be read.
-/
def freeRefused (p : PagerState × World DbFile) (pgno : UInt32) : Bool :=
  p.1.autoVacuum && (pgno.toNat < 2 ||
    pgno.toNat ≤ ptrmapPageno p.1.geometry.usableSize pgno.toNat ||
    (pageSeen p.1 p.2.disk (mapPage p.1.geometry.usableSize pgno)).toOption.isNone)

structure HasEntry (q r : PagerState × World DbFile) (pgno : UInt32) : Prop where
  two_le : 2 ≤ pgno.toNat
  behind : ptrmapPageno q.1.geometry.usableSize pgno.toNat < pgno.toNat
  rewritten : ∃ old new, pageSeen q.1 q.2.disk (mapPage q.1.geometry.usableSize pgno) = .ok old ∧
    pageSeen r.1 r.2.disk (mapPage q.1.geometry.usableSize pgno) = .ok new ∧
    (new.getD 0 0 = old.getD 0 0 ∨ new.getD 0 0 = 2)

section Freed

variable {q r : PagerState × World DbFile} {pgno : UInt32}

theorem getPage_of_ok (hq : q.2.failAt = none) {page : Bytes} (h : getPage pgno q = .ok page r) :
    pageSeen q.1 q.2.disk pgno = .ok page ∧ SameView q r := by
  obtain ⟨q', hq', hrun⟩ := sameView_getPage hq pgno
  rw [hrun] at h
  cases hseen : pageSeen q.1 q.2.disk pgno with
  | error e =>
      rw [hseen] at h
      cases h
  | ok page' =>
      rw [hseen] at h
      cases h
      exact ⟨rfl, hq'⟩

theorem writePage_of_ok (hq : q.2.failAt = none) {data : Bytes}
    (h : writePage pgno data q = .ok () r) :
    Changes q r {pgno} ∧ (∀ page, pageSeen q.1 q.2.disk pgno = .ok page →
      pageSeen r.1 r.2.disk pgno = .ok data) := by
  by_cases hlen : data.length = q.1.pageSize
  · rw [writePage_ok _ hlen] at h
    cases h
    refine ⟨changes_written hq _ hlen, fun page hpage => ?_⟩
    unfold pageSeen at hpage
    split at hpage
    · cases hpage
    · rename_i hrange
      rw [not_or, UInt32.not_lt] at hrange
      exact pageSeen_written _ _ _ hrange.1 hrange.2
  · simp only [writePage, getState_bind, ne_eq, hlen, not_false_eq_true, if_true] at h
    cases h

theorem getD_splice_zero (page : Bytes) (off : Nat) (c : UInt8) (rest : Bytes) :
    (splice page off (c :: rest)).getD 0 0 = page.getD 0 0 ∨
      (splice page off (c :: rest)).getD 0 0 = c := by
  unfold splice
  cases off with
  | zero => exact .inr rfl
  | succ off =>
      cases page with
      | nil => exact .inr rfl
      | cons x page => exact .inl rfl

theorem ptrmapOffset_of_ok {n off : Nat} (h : ptrmapOffset pm n q = .ok off r) :
    pm < n ∧ q = r := by
  unfold ptrmapOffset at h
  split at h
  · cases h
  · cases h
    exact ⟨by omega, rfl⟩

variable {ty : PtrMapType} {parent : UInt32}

theorem ptrmapDiffers_of_ok {page : Bytes} {b : Bool}
    (h : ptrmapDiffers usable pm pgno ty parent page q = .ok b r) : pm < pgno.toNat ∧ q = r := by
  unfold ptrmapDiffers at h
  cases hoff : ptrmapOffset pm pgno.toNat q with
  | error e q' =>
      rw [bind_error hoff] at h
      cases h
  | ok off q' =>
      obtain ⟨hlt, rfl⟩ := ptrmapOffset_of_ok hoff
      rw [bind_ok hoff] at h
      split at h
      · cases h
      · cases h
        exact ⟨hlt, rfl⟩

theorem ptrmapWrite_of_ok (hq : q.2.failAt = none)
    (h : ptrmapWrite pm pgno ty parent q = .ok () r) :
    pm < pgno.toNat ∧ ∃ old new, pageSeen q.1 q.2.disk (UInt32.ofNat pm) = .ok old ∧
      pageSeen r.1 r.2.disk (UInt32.ofNat pm) = .ok new ∧
      (new.getD 0 0 = old.getD 0 0 ∨ new.getD 0 0 = ty.code) := by
  unfold ptrmapWrite at h
  cases hseen : pageSeen q.1 q.2.disk (UInt32.ofNat pm) with
  | error e =>
      obtain ⟨q₁, -, hget⟩ := sameView_getPage hq (UInt32.ofNat pm)
      rw [hseen] at hget
      have hread : readPageForWrite (UInt32.ofNat pm) q = .error e q₁ := bind_error hget
      rw [bind_error hread] at h
      cases h
  | ok page =>
      obtain ⟨q₁, hread, h₁⟩ := readPageForWrite_ok hq hseen
      rw [bind_ok hread] at h
      cases hoff : ptrmapOffset pm pgno.toNat q₁ with
      | error e q₂ =>
          rw [bind_error hoff] at h
          cases h
      | ok off q₂ =>
          obtain ⟨hlt, rfl⟩ := ptrmapOffset_of_ok hoff
          rw [bind_ok hoff] at h
          exact ⟨hlt, page, _, rfl, (writePage_of_ok h₁.failAt h).2 page ((h₁.view _).trans hseen),
            getD_splice_zero page off ty.code (be32 parent)⟩

theorem ptrmapPut_of_ok (hq : q.2.failAt = none) (h : ptrmapPut pgno .freePage 0 q = .ok () r) :
    HasEntry q r pgno := by
  unfold ptrmapPut at h
  simp only [getState_bind] at h
  split at h
  · cases h
  · rename_i hpm
    have htwo : 2 ≤ pgno.toNat := by
      by_contra hlt
      exact hpm (if_pos (by omega))
    cases htry : tryResult (getPage (mapPage q.1.geometry.usableSize pgno)) q with
    | error e q₁ =>
        have hfail := h
        rw [mapPage] at htry
        rw [bind_error htry] at hfail
        cases hfail
    | ok found q₁ =>
        rw [mapPage] at htry
        rw [bind_ok htry] at h
        have hview : SameView q q₁ := by
          obtain ⟨q', hq', hget⟩ := sameView_getPage hq
            (UInt32.ofNat (ptrmapPageno q.1.geometry.usableSize pgno.toNat))
          rw [tryResult, hget] at htry
          split at htry
          · rename_i hrun
            split at hrun <;> cases hrun
            cases htry
            exact hq'
          · rename_i hrun
            split at hrun <;> cases hrun
            split at htry <;> cases htry
            exact hq'
        have hwrite {r' : PagerState × World DbFile}
            (h' : ptrmapWrite (ptrmapPageno q.1.geometry.usableSize pgno.toNat) pgno .freePage 0
              q₁ = .ok () r') : HasEntry q r' pgno := by
          obtain ⟨hlt, old, new, hold, hnew, hbyte⟩ := ptrmapWrite_of_ok hview.failAt h'
          exact ⟨htwo, hlt, old, new, (hview.view _).symm.trans hold, hnew, hbyte⟩
        cases found with
        | error e => exact hwrite h
        | ok page =>
            dsimp only at h
            cases hdiffers : ptrmapDiffers q.1.geometry.usableSize
                (ptrmapPageno q.1.geometry.usableSize pgno.toNat) pgno .freePage 0 page q₁ with
            | error e q₂ =>
                rw [bind_error hdiffers] at h
                cases h
            | ok differs q₂ =>
                obtain ⟨hlt, rfl⟩ := ptrmapDiffers_of_ok hdiffers
                rw [bind_ok hdiffers] at h
                split at h
                · exact hwrite h
                · cases h
                  have hpage : pageSeen q.1 q.2.disk
                      (mapPage q.1.geometry.usableSize pgno) = .ok page := by
                    rw [tryResult] at htry
                    split at htry
                    · rename_i hget
                      cases htry
                      exact (getPage_of_ok hq hget).1
                    · split at htry <;> cases htry
                  exact ⟨htwo, hlt, page, page, hpage, (hview.view _).trans hpage, .inl rfl⟩

theorem freePage_of_ok (hq : q.2.failAt = none) (h : freePage pgno q = .ok () r) :
    (∃ page, pageSeen q.1 q.2.disk pgno = .ok page) ∧
      (q.1.autoVacuum = true → HasEntry q r pgno) := by
  unfold freePage at h
  cases hget : getPage pgno q with
  | error e q₁ =>
      rw [bind_error hget] at h
      cases h
  | ok preimage q₁ =>
      obtain ⟨hpage, h₁⟩ := getPage_of_ok hq hget
      obtain ⟨q₂, hjournal, h₂⟩ := journalPage_ok h₁.failAt pgno preimage
      rw [bind_ok hget, bind_ok hjournal] at h
      simp only [getState_bind] at h
      refine ⟨⟨preimage, hpage⟩, fun hvac => ?_⟩
      have hquiet := h₁.quiet.trans h₂
      cases hwrite : writePage pgno (be32 q₂.1.header.firstFreelistTrunk ++
          List.replicate (preimage.length - 4) 0) q₂ with
      | error e q₃ =>
          rw [bind_error hwrite] at h
          cases h
      | ok u q₃ =>
          have hch := (hquiet.changes {pgno}).trans (writePage_of_ok h₂.failAt hwrite).1
          rw [bind_ok hwrite] at h
          set s₄ : PagerState := { q₃.1 with header := freedHeader q₃.1.header pgno } with hs₄
          have hrest : (if s₄.autoVacuum then ptrmapPut pgno .freePage 0 else pure () : PagerM Unit)
              (s₄, q₃.2) = .ok () r := h
          rw [if_pos (show s₄.autoVacuum = true from hch.autoVacuum.trans hvac)] at hrest
          obtain ⟨htwo, hlt, old, new, hold, hnew, hbyte⟩ := ptrmapPut_of_ok
            (q := (s₄, q₃.2)) hch.failAt hrest
          rw [show s₄.geometry = q.1.geometry from hch.geometry] at hlt hold hnew
          have hne : mapPage q.1.geometry.usableSize pgno ∉ ({pgno} : Set UInt32) := by
            intro heq
            have hnat := congrArg UInt32.toNat (Set.mem_singleton_iff.mp heq)
            rw [mapPage, UInt32.toNat_ofNat', Nat.mod_eq_of_lt (by
              have := pgno.toNat_lt
              omega)] at hnat
            omega
          exact ⟨htwo, hlt, old, new, (hch.view _ hne).symm.trans hold, hnew, hbyte⟩

end Freed

/-! ## What a drop comes to -/

inductive DestroyNode where
  | tree (pgno : UInt32)
  | chain (pgno : UInt32)

def DestroyNode.page : DestroyNode → UInt32
  | tree pgno => pgno
  | chain pgno => pgno

section Below

variable (p : PagerState × World DbFile)

def holdsLeaf (pgno : UInt32) : Bool :=
  match pageSeen p.1 p.2.disk pgno with
  | .error _ => false
  | .ok page => page.getD (btreeHeaderOffset pgno) 0 = 0x0a ||
      page.getD (btreeHeaderOffset pgno) 0 = 0x0d

/-- The drop ends at the page, which it cannot free; of a leaf the chains are freed first. -/
def stopsDrop : DestroyNode → Bool
  | .tree pgno => freeRefused p pgno && !holdsLeaf p pgno
  | .chain pgno => freeRefused p pgno

def dropNode (a : DestroyNode) : Option DestroyNode := if stopsDrop p a then none else some a

def chainNodes (first : Option UInt32) : List (Option DestroyNode) :=
  match first with
  | some pgno => if pgno = 0 then [] else [dropNode p (.chain pgno)]
  | none => []

def cellNodes (page : Bytes) (hdr : PageHeader) (i : Nat) : List (Option DestroyNode) :=
  match hdr.cellPointer page i with
  | .error _ => [none]
  | .ok off =>
      chainNodes p (cellOverflow p.1.geometry.usableSize hdr.pageType page off).toOption.join

def treeNodes (stack : List UInt32) : List (Option DestroyNode) :=
  stack.map fun pgno => dropNode p (.tree pgno)

def leafNodes (page : Bytes) (hdr : PageHeader) (is : List Nat) (pgno : UInt32) :
    List (Option DestroyNode) :=
  is.flatMap (cellNodes p page hdr) ++ if freeRefused p pgno then [none] else []

end Below

/-! ## A drop ends -/

section Ends

variable {α β : Type} {p : PagerState × World DbFile} {V : List UInt32}

/--
The pages of `V` are shown as in `p`.  What could not be read still cannot, and
a page that cannot be freed has not become a leaf.
-/
structure Shows (p q : PagerState × World DbFile) (V : List UInt32) : Prop where
  geometry : q.1.geometry = p.1.geometry
  autoVacuum : q.1.autoVacuum = p.1.autoVacuum
  failAt : q.2.failAt = none
  view : ∀ x ∈ V, pageSeen q.1 q.2.disk x = pageSeen p.1 p.2.disk x
  refused : ∀ x new, pageSeen q.1 q.2.disk x = .ok new → ∃ old, pageSeen p.1 p.2.disk x = .ok old ∧
    (freeRefused p x = true → new.getD (btreeHeaderOffset x) 0 = old.getD (btreeHeaderOffset x) 0 ∨
      new.getD (btreeHeaderOffset x) 0 = 2)

theorem Shows.refl (hp : p.2.failAt = none) : Shows p p V :=
  ⟨rfl, rfl, hp, fun _ _ => rfl, fun _ page hpage => ⟨page, hpage, fun _ => .inl rfl⟩⟩

variable {q r : PagerState × World DbFile} {V' stack : List UInt32} {hdr : PageHeader}
  {l : List (Option DestroyNode)} {first : UInt32} {fuel : Nat} {a : DestroyNode}
  {visited : List DestroyNode}

theorem Shows.congr (h : Shows p q V) (hr : SameView q r) : Shows p r V := by
  have hch := hr.quiet.changes ∅
  exact {
    geometry := hch.geometry.trans h.geometry
    autoVacuum := hch.autoVacuum.trans h.autoVacuum
    failAt := hch.failAt
    view := fun x hx => (hr.view x).trans (h.view x hx)
    refused := fun x new hnew => h.refused x new ((hr.view x).symm.trans hnew) }

theorem Shows.not_refused (h : Shows p q V) (hrun : freePage pgno q = .ok () r) :
    freeRefused p pgno = false := by
  obtain ⟨-, hentry⟩ := freePage_of_ok h.failAt hrun
  cases hvac : p.1.autoVacuum with
  | false => rw [freeRefused, hvac, Bool.false_and]
  | true =>
      obtain ⟨htwo, hlt, old, -, hold, -, -⟩ := hentry (h.autoVacuum.trans hvac)
      rw [h.geometry] at hlt hold
      obtain ⟨old', hold', -⟩ := h.refused _ old hold
      rw [freeRefused, hold']
      simp only [Except.toOption, Option.isNone_some, Bool.or_false, Bool.and_eq_false_iff,
        Bool.or_eq_false_iff, decide_eq_false_iff_not]
      exact .inr ⟨by omega, by omega⟩

theorem Shows.freed (h : Shows p q V) (hrun : freePage pgno q = .ok () r) (hsub : ∀ x ∈ V', x ∈ V)
    (hV' : ∀ x ∈ V', x ∉ freeTouches p.1 pgno) : Shows p r V' := by
  obtain ⟨⟨page, hpage⟩, hentry⟩ := freePage_of_ok h.failAt hrun
  have hch := safe_freePage pgno q h.geometry h.autoVacuum h.failAt
  rw [hrun] at hch
  refine {
    geometry := hch.geometry.trans h.geometry
    autoVacuum := hch.autoVacuum.trans h.autoVacuum
    failAt := hch.failAt
    view := fun x hx => (hch.view x (hV' x hx)).trans (h.view x (hsub x hx))
    refused := fun x new hnew => ?_ }
  by_cases hx : x ∈ freeTouches p.1 pgno
  · rcases hx with rfl | ⟨hvac, rfl⟩
    · obtain ⟨old, hold, -⟩ := h.refused x page hpage
      refine ⟨old, hold, fun hrefused => ?_⟩
      rw [h.not_refused hrun] at hrefused
      cases hrefused
    · obtain ⟨htwo, hlt, old, new', hold, hnew', hbyte⟩ := hentry (h.autoVacuum.trans hvac)
      rw [h.geometry] at hlt hold hnew'
      cases hnew'.symm.trans hnew
      obtain ⟨old', hold', hkind⟩ := h.refused _ old hold
      refine ⟨old', hold', fun hrefused => ?_⟩
      have hbase : btreeHeaderOffset (mapPage p.1.geometry.usableSize pgno) = 0 := by
        refine if_neg fun hone => ?_
        have hnat := congrArg UInt32.toNat hone
        rw [mapPage, UInt32.toNat_ofNat', Nat.mod_eq_of_lt (by
          have := pgno.toNat_lt
          omega)] at hnat
        change _ = 1 at hnat
        simp only [ptrmapPageno, if_neg (show ¬ pgno.toNat < 2 by omega)] at hnat
        split_ifs at hnat <;> omega
      rw [hbase] at hkind ⊢
      rcases hbyte with hsame | htwo'
      · rw [hsame]
        exact hkind hrefused
      · exact .inr htwo'
  · exact h.refused x new ((hch.view x hx).symm.trans hnew)

def EndsFrom (p : PagerState × World DbFile) (V : List UInt32) (m : PagerM α) : Prop :=
  ∀ q, Shows p q V → ∀ e r, m q = .error e r → ¬ OutOfFuel e

theorem EndsFrom.pure (a : α) : EndsFrom p V (pure a : PagerM α) := by
  rintro q - e r ⟨⟩

theorem EndsFrom.mono {m : PagerM α} {W : List UInt32} (h : EndsFrom p V m)
    (hsub : ∀ x ∈ V, x ∈ W) : EndsFrom p W m := fun q hq =>
  h q { hq with view := fun x hx => hq.view x (hsub x hx) }

theorem EndsFrom.freePage_bind {f : Unit → PagerM β} (hsub : ∀ x ∈ V', x ∈ V)
    (hpgno : ∀ x ∈ V', x ∉ freeTouches p.1 pgno)
    (hf : freeRefused p pgno = false → EndsFrom p V' (f ())) :
    EndsFrom p V (freePage pgno >>= f) := by
  intro q hq e r hrun
  have h := safe_freePage pgno q hq.geometry hq.autoVacuum hq.failAt
  cases hfree : freePage pgno q with
  | error e' r' =>
      rw [hfree] at h
      rw [bind_error hfree] at hrun
      cases hrun
      exact h
  | ok u q' =>
      rw [bind_ok hfree] at hrun
      exact hf (hq.not_refused hfree) q' (hq.freed hfree hsub hpgno) e r hrun

theorem EndsFrom.refused_bind (h : freeRefused p pgno = true) (f : Unit → PagerM β) :
    EndsFrom p V (freePage pgno >>= f) := by
  have hnone : ∀ x ∈ ([] : List UInt32), x ∈ V := fun _ hx => absurd hx List.not_mem_nil
  refine EndsFrom.freePage_bind hnone (fun _ hx => absurd hx List.not_mem_nil) fun hnot => ?_
  rw [h] at hnot
  cases hnot

theorem EndsFrom.getState_bind {f : PagerState → PagerM β}
    (hf : ∀ s : PagerState, s.geometry = p.1.geometry → EndsFrom p V (f s)) :
    EndsFrom p V (getState >>= f) := fun q hq => hf q.1 hq.geometry q hq

def dropStack (fuel : Nat) (stack : List UInt32) (freed : UInt32) : PagerM UInt32 :=
  freeTreeLoop allPageTypes (fun _ => .panic "internal error: entered unreachable code") fuel stack
    freed

def dropCells (usable fuel : Nat) (page : Bytes) (hdr : PageHeader) (is : List Nat) (pgno : UInt32)
    (stack : List UInt32) (freed : UInt32) : PagerM UInt32 := do
  freeLeafChains fuel usable page hdr is
  freePage pgno
  dropStack fuel stack (freed + 1)

structure DropEnds (p : PagerState × World DbFile) (l : List (Option DestroyNode))
    (V : List UInt32) : Prop where
  stack : ∀ stack, l = treeNodes p stack →
    ∃ N, ∀ fuel ≥ N, ∀ freed, EndsFrom p V (dropStack fuel stack freed)
  chain : ∀ first page hdr is pgno stack, first ≠ 0 →
    l = dropNode p (.chain first) :: (leafNodes p page hdr is pgno ++ treeNodes p stack) →
    (∀ x ∈ V, x ∉ freeTouches p.1 pgno) →
    ∃ N, ∀ fuel' ≥ N, ∀ fuel ≥ N, ∀ freed, EndsFrom p V (freeOverflowChain fuel' first >>= fun _ =>
      dropCells p.1.geometry.usableSize fuel page hdr is pgno stack freed)

theorem freeOverflowChain_zero (fuel : Nat) : freeOverflowChain (fuel + 1) 0 = pure () := rfl

theorem DropEnds.cells (h : DropEnds p l V) {page : Bytes} {is : List Nat}
    (hl : l = leafNodes p page hdr is pgno ++ treeNodes p stack)
    (hpgno : ∀ x ∈ V, x ∉ freeTouches p.1 pgno) :
    ∃ N, ∀ fuel ≥ N, ∀ freed,
      EndsFrom p V (dropCells p.1.geometry.usableSize fuel page hdr is pgno stack freed) := by
  induction is with
  | nil =>
      cases hrefused : freeRefused p pgno with
      | true => exact ⟨0, fun fuel _ freed => EndsFrom.refused_bind hrefused fun _ =>
          dropStack fuel stack (freed + 1)⟩
      | false =>
          rw [leafNodes, hrefused] at hl
          obtain ⟨N, hN⟩ := h.stack stack hl
          refine ⟨N, fun fuel hfuel freed => ?_⟩
          change EndsFrom p V (freePage pgno >>= fun _ => dropStack fuel stack (freed + 1))
          exact EndsFrom.freePage_bind (fun _ hx => hx) hpgno fun _ => hN fuel hfuel _
  | cons i is ih =>
      rw [leafNodes, List.flatMap_cons, List.append_assoc, List.append_assoc,
        ← List.append_assoc _ _ (treeNodes p stack), ← leafNodes, cellNodes] at hl
      cases hoff : hdr.cellPointer page i with
      | error e =>
          refine ⟨0, fun fuel _ freed => ?_⟩
          rw [dropCells, freeLeafChains, hoff]
          rintro q - e' r ⟨⟩
          exact regular_cellPointer _ _ _ e hoff
      | ok off =>
          rw [hoff] at hl
          dsimp only at hl
          cases hfirst : (cellOverflow p.1.geometry.usableSize hdr.pageType page
              off).toOption.join with
          | none =>
              rw [hfirst] at hl
              obtain ⟨N, hN⟩ := ih hl
              refine ⟨N, fun fuel hfuel freed => ?_⟩
              rw [dropCells, freeLeafChains, hoff, liftResult_ok_bind, hfirst]
              exact hN fuel hfuel freed
          | some first =>
              rw [hfirst] at hl
              have hstep : ∀ fuel freed,
                  dropCells p.1.geometry.usableSize fuel page hdr (i :: is) pgno stack freed =
                    (freeOverflowChain fuel first >>= fun _ =>
                      dropCells p.1.geometry.usableSize fuel page hdr is pgno stack freed) := by
                intro fuel freed
                rw [dropCells, freeLeafChains, hoff, liftResult_ok_bind, hfirst]
                simp only [dropCells, bind_assoc]
              by_cases h0 : first = 0
              · subst h0
                obtain ⟨N, hN⟩ := ih hl
                refine ⟨N + 1, fun fuel hfuel freed => ?_⟩
                obtain ⟨fuel, rfl⟩ : ∃ n, fuel = n + 1 := ⟨fuel - 1, by omega⟩
                rw [hstep, freeOverflowChain_zero]
                exact hN (fuel + 1) (by omega) freed
              · rw [chainNodes, if_neg h0] at hl
                obtain ⟨N, hN⟩ := h.chain first page hdr is pgno stack h0 hl hpgno
                refine ⟨N, fun fuel hfuel freed => ?_⟩
                rw [hstep]
                exact hN fuel hfuel fuel hfuel freed

end Ends

end Rustqlite.Btree
