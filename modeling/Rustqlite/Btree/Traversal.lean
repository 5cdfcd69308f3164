import Rustqlite.Btree.IntegrityCheck
import Rustqlite.Foundation.DepthFirst

/-!
# Walks over damaged trees

The page numbers in a database file are data.  No walk keeps a list of the pages
it has visited, so a walk ends exactly when the pages it follows have no cycle.
-/

namespace Rustqlite.Btree

open Foundation Foundation.DepthFirst Format Pager Schema Reading

/-! ## How a program ends -/

/-- The result of a program whose fuel is used up; no other error is one of these. -/
def OutOfFuel (e : Error) : Prop := e = endless ∨ e = .panic "stack overflow"

instance (e : Error) : Decidable (OutOfFuel e) := inferInstanceAs (Decidable (_ ∨ _))

def ending {α : Type} : Result α → Option Bool
  | .ok _ => some false
  | .error e => if OutOfFuel e then none else some true

def Regular {α : Type} (r : Result α) : Prop := ∀ e, r = .error e → ¬ OutOfFuel e

section Ending

variable {α β ι N : Type} {w : N → Option Bool}

theorem not_outOfFuel_of_code {e : Error} (h : e.code ≠ .panic) : ¬ OutOfFuel e := by
  rintro (rfl | rfl) <;> exact h rfl

theorem Regular.ok (a : α) : Regular (.ok a : Result α) := fun _ h => by cases h

theorem Regular.corrupt (msg : String) : Regular (.error (.corrupt msg) : Result α) := by
  rintro e ⟨⟩
  exact not_outOfFuel_of_code (by simp [Error.corrupt])

variable {m r : Result α} {f : ι → Result β} {l : List ι} {a : List (Option N)}

theorem Regular.bind {f : α → Result β} (hm : Regular m) (hf : ∀ a, m = .ok a → Regular (f a)) :
    Regular (m >>= f) := by
  cases m with
  | error e =>
      rintro e ⟨⟩
      exact hm e rfl
  | ok a => exact hf a rfl

theorem Regular.ite {c : Prop} [Decidable c] {a b : Result α} (ha : Regular a) (hb : Regular b) :
    Regular (if c then a else b) := by
  split
  · exact ha
  · exact hb

theorem Regular.mapM (h : ∀ i, Regular (f i)) : Regular (l.mapM f) := by
  induction l with
  | nil => exact Regular.ok _
  | cons i l ih =>
      rw [List.mapM_cons]
      exact (h i).bind fun _ _ => ih.bind fun _ _ => Regular.ok _

end Ending

/-! ## The programs that need no fuel -/

section Parsers

theorem regular_cellPointer (hdr : PageHeader) (page : Bytes) (i : Nat) :
    Regular (hdr.cellPointer page i) := Regular.ite (.corrupt _) (.ok _)

theorem regular_pageSeen (s : PagerState) (disk : Disk DbFile) (pgno : UInt32) :
    Regular (pageSeen s disk pgno) := by
  rw [pageSeen]
  refine Regular.ite (.corrupt _) ?_
  split
  · exact Regular.ok _
  · rw [storedPage]
    split
    · refine Regular.ite ?_ (.ok _)
      rintro e ⟨⟩
      simp [OutOfFuel, endless, Error.panic]
    · exact Regular.ite (.corrupt _) (.ok _)

variable {view : UInt32 → Result Bytes} (hview : ∀ pgno, Regular (view pgno))

include hview

end Parsers

/-! ## Pages -/

section Pages

variable {N : Type} (view : UInt32 → Result Bytes)

variable {view} {α β : Type} {w : N → Option Bool}

end Pages

/-! ## Scans -/

section Scans

variable (usable : Nat) (view : UInt32 → Result Bytes)

variable (encoding : TextEncoding) (asI64 : Value → Int64)

variable {usable view encoding asI64} (hview : ∀ pgno, Regular (view pgno))

include hview

variable {page : Bytes} {hdr : PageHeader}

end Scans

/-! ## The integrity check -/

/-- The places that the integrity check comes to after it has read the catalog. -/
inductive CheckNode where
  | start
  | trunk (pgno : UInt32)
  | tree (isTable : Bool) (pgno : UInt32)

section Check

variable (s : PagerState) (view : UInt32 → Result Bytes)

variable {s view} (hview : ∀ pgno, Regular (view pgno))

include hview

variable (catalog : Catalog)

end Check

end Rustqlite.Btree
