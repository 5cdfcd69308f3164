import Rustqlite.Btree.DestroyEnds

/-!
# Termination

A walk ends when no page that it follows leads back to itself.  No walk of the
engine checks this: the fuel of every walk can run out.
-/

namespace Rustqlite.Btree

open Foundation Foundation.DepthFirst Format Pager Schema Reading

instance finiteUInt32 : Finite UInt32 :=
  Finite.of_injective (fun a => (⟨a.toNat, a.toNat_lt⟩ : Fin (2 ^ 32))) fun _ _ h =>
    UInt32.toNat_inj.mp (Fin.mk.inj h)

instance finiteCheckNode : Finite CheckNode := by
  let place : CheckNode → Option (UInt32 ⊕ Bool × UInt32)
    | .start => none
    | .trunk pgno => some (.inl pgno)
    | .tree isTable pgno => some (.inr (isTable, pgno))
  refine Finite.of_injective place fun a b h => ?_
  cases a <;> cases b <;> simp_all [place]

section Ending

variable {α β : Type}

end Ending

/-! ## Cursors -/

variable {pgno : UInt32} {fuel : Nat}

section Cursor

open TreePosition

def Framed (stack : List Frame) : Prop := ∀ f ∈ stack, f.hdr.rightMostPointer.isSome = true

variable {view : UInt32 → Result Bytes}

variable {f : Frame} {stack : List Frame} {hdr : PageHeader} {page : Bytes} {i : Nat}
  {l : List (Option UInt32)} {c : TreePosition}

theorem Framed.cons {f : Frame} {stack : List Frame} (hf : f.hdr.rightMostPointer.isSome = true)
    (h : Framed stack) : Framed (f :: stack) := List.forall_mem_cons.mpr ⟨hf, h⟩

theorem Framed.of_cons (h : Framed (f :: stack)) :
    f.hdr.rightMostPointer.isSome = true ∧ Framed stack := List.forall_mem_cons.mp h

end Cursor

/-! ## When a walk ends -/

section Finishing

variable {α : Type} {p : PagerState × World DbFile}

variable (hp : p.2.failAt = none) (root : UInt32)

include hp

variable {usable : Nat} {view : UInt32 → Result Bytes} {catalog : Catalog}

omit hp in
theorem visitTable_succ {rows : List (Int64 × Bytes)}
    (h : (visitTable usable fuel pgno).eval view = .ok rows) :
    (visitTable usable (fuel + 1) pgno).eval view = .ok rows := by
  induction fuel generalizing pgno rows with
  | zero => cases h
  | succ fuel ih =>
      rw [visitTable] at h ⊢
      simp only [eval_bind, eval_getPage, eval_lift, Result.bind_eq_ok] at h ⊢
      obtain ⟨page, hpage, hdr, hparse, h⟩ := h
      refine ⟨page, hpage, hdr, hparse, ?_⟩
      cases htype : hdr.pageType with
      | leafTable => rwa [htype] at h
      | interiorTable =>
          rw [htype] at h
          simp only [eval_bind, eval_mapM, eval_lift, Result.bind_eq_ok] at h ⊢
          obtain ⟨parts, hparts, h⟩ := h
          refine ⟨parts, ?_, ?_⟩
          · rw [Result.mapM_eq_ok] at hparts ⊢
            refine hparts.imp fun i part hpart => ?_
            simp only [Result.bind_eq_ok] at hpart ⊢
            obtain ⟨off, hoff, cell, hcell, hvisit⟩ := hpart
            exact ⟨off, hoff, cell, hcell, ih hvisit⟩
          · cases hright : hdr.rightMostPointer with
            | none => rwa [hright] at h
            | some right =>
                rw [hright] at h
                simp only [eval_bind, Result.bind_eq_ok] at h ⊢
                obtain ⟨last, hlast, h⟩ := h
                exact ⟨last, ih hlast, h⟩
      | leafIndex =>
          rw [htype] at h
          cases h
      | interiorIndex =>
          rw [htype] at h
          cases h

omit hp in
theorem readCatalog_mono {encoding : TextEncoding} {depth : Nat} (hle : depth ≤ fuel)
    (h : (readCatalog usable encoding depth).eval view = .ok catalog) :
    (readCatalog usable encoding fuel).eval view = .ok catalog := by
  induction hle with
  | refl => exact h
  | step _ ih =>
      simp only [readCatalog, eval_bind, Result.bind_eq_ok] at ih ⊢
      obtain ⟨rows, hrows, hrest⟩ := ih
      exact ⟨rows, visitTable_succ hrows, hrest⟩

omit hp root in
theorem HasCatalog.unique {catalog' : Catalog} (h : HasCatalog p catalog)
    (h' : HasCatalog p catalog') : catalog = catalog' := by
  obtain ⟨n, h⟩ := h
  obtain ⟨n', h'⟩ := h'
  have heq := (readCatalog_mono (le_max_left n n') h).symm.trans
    (readCatalog_mono (le_max_right n n') h')
  exact Except.ok.inj heq

end Finishing

/-! ## A page that is its own child -/

end Rustqlite.Btree
