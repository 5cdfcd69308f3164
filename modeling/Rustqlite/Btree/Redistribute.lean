import Rustqlite.Btree.Delete

/-!
# Filling two leaves anew

When a leaf has lost cells, those of its neighbour are shared between the two.
The left one is filled first, with as many cells as have room.
-/

namespace Rustqlite.Btree

open Foundation

def FitsLeaf (usable : Nat) (cells : List Bytes) : Prop := tableCellsLayoutSize cells ≤ usable

instance decidableFitsLeaf (usable : Nat) (cells : List Bytes) :
    Decidable (FitsLeaf usable cells) :=
  inferInstanceAs (Decidable (_ ≤ _))

@[simp] theorem tableCellsLayoutSize_nil : tableCellsLayoutSize [] = 8 := rfl

@[simp] theorem tableCellsLayoutSize_cons (cell : Bytes) (cells : List Bytes) :
    tableCellsLayoutSize (cell :: cells) = tableCellsLayoutSize cells + cell.length + 2 := by
  simp only [tableCellsLayoutSize, List.length_cons, List.flatten_cons, List.length_append]
  omega

theorem tableCellsLayoutSize_le_of_sublist {cells more : List Bytes} (h : cells.Sublist more) :
    tableCellsLayoutSize cells ≤ tableCellsLayoutSize more := by
  have hlen := h.length_le
  have hflat := h.flatten.length_le
  simp only [tableCellsLayoutSize]
  omega

/-- The last of the cells is never taken. -/
theorem fillLeft_lt (usable layout : Nat) {cells : List Bytes} (h : cells ≠ []) :
    fillLeft usable layout cells < cells.length := by
  induction cells generalizing layout with
  | nil => exact absurd rfl h
  | cons cell rest ih =>
      cases rest with
      | nil => simp [fillLeft]
      | cons next rest =>
          rw [fillLeft]
          split_ifs
          · simp
          · have := ih (layout + cell.length + 2) (by simp)
            simpa using this

theorem layout_fillLeft_le (usable layout : Nat) (cells : List Bytes) (h : layout ≤ usable) :
    layout + tableCellsLayoutSize (cells.take (fillLeft usable layout cells)) ≤ usable + 8 := by
  induction cells generalizing layout with
  | nil => simpa [fillLeft] using h
  | cons cell rest ih =>
      cases rest with
      | nil => simpa [fillLeft] using h
      | cons next rest =>
          rw [fillLeft]
          split_ifs with hfull
          · simpa using h
          · have := ih (layout + cell.length + 2) (by omega)
            rw [List.take_succ_cons, tableCellsLayoutSize_cons]
            omega

theorem length_le_fillLeft (usable layout : Nat) (cells : List Bytes) {more : List Bytes}
    (hmore : more ≠ []) (h : layout + tableCellsLayoutSize cells ≤ usable + 8) :
    cells.length ≤ fillLeft usable layout (cells ++ more) := by
  induction cells generalizing layout with
  | nil => simp
  | cons cell rest ih =>
      rw [tableCellsLayoutSize_cons] at h
      obtain ⟨next, after, hnext⟩ := List.exists_cons_of_ne_nil
        (List.append_ne_nil_of_right_ne_nil rest hmore)
      have hrest : 8 ≤ tableCellsLayoutSize rest := by
        simp only [tableCellsLayoutSize]
        omega
      have hstep := ih (layout + cell.length + 2) (by omega)
      rw [List.cons_append, hnext, fillLeft, if_neg (by omega), ← hnext, List.length_cons]
      omega

/--
Two leaves that are filled anew hold the same cells in the same order.  The left
one is filled first, with at least what it had before, so what remains was on
the right leaf, or is the last cell of the left one.
-/
theorem redistributeTableCells_fits {usable : Nat} {leftCells rightCells : List Bytes}
    (hleft : FitsLeaf usable leftCells) (hright : FitsLeaf usable rightCells)
    (htwo : 2 ≤ leftCells.length + rightCells.length) :
    ∃ left right, redistributeTableCells usable leftCells rightCells = .ok (left, right) ∧
      left ≠ [] ∧ right ≠ [] ∧ left ++ right = leftCells ++ rightCells ∧
      FitsLeaf usable left ∧ FitsLeaf usable right := by
  set combined := leftCells ++ rightCells with hcombined
  set k := fillLeft usable 8 combined with hk
  have hlen : combined.length = leftCells.length + rightCells.length := List.length_append
  have hne : combined ≠ [] := List.ne_nil_of_length_pos (by omega)
  have hlast : k < combined.length := fillLeft_lt usable 8 hne
  have hroom : 8 ≤ usable := le_trans (by simp only [tableCellsLayoutSize]; omega) hleft
  have htaken : tableCellsLayoutSize (combined.take k) ≤ usable := by
    have := layout_fillLeft_le usable 8 combined hroom
    rw [← hk] at this
    omega
  -- a front part that has room is taken as a whole
  have hfront : ∀ m < combined.length, FitsLeaf usable (combined.take m) → m ≤ k := by
    intro m hm hfits
    have hdrop : combined.drop m ≠ [] := by
      rw [ne_eq, List.drop_eq_nil_iff]
      omega
    have := length_le_fillLeft usable 8 (combined.take m) hdrop
      (by rw [FitsLeaf] at hfits; omega)
    rwa [List.take_append_drop, List.length_take, ← hk, Nat.min_eq_left hm.le] at this
  have hpos : 1 ≤ k := by
    refine hfront 1 (by omega) ?_
    cases hcase : leftCells with
    | nil =>
        rw [hcombined, hcase, List.nil_append]
        exact (tableCellsLayoutSize_le_of_sublist (List.take_sublist _ _)).trans hright
    | cons cell rest =>
        refine (tableCellsLayoutSize_le_of_sublist ?_).trans hleft
        rw [hcombined, hcase]
        simp
  refine ⟨combined.take k, combined.drop k, ?_, ?_, ?_, List.take_append_drop _ _, htaken, ?_⟩
  · rw [redistributeTableCells, if_neg (by rw [← hcombined]; omega), ← hcombined, ← hk,
      max_eq_right hpos, List.splitAt_eq]
  · rw [ne_eq, List.take_eq_nil_iff, not_or]
    exact ⟨by omega, hne⟩
  · rw [ne_eq, List.drop_eq_nil_iff]
    omega
  · rcases eq_or_ne rightCells [] with hnil | hcells
    · refine (tableCellsLayoutSize_le_of_sublist ?_).trans hleft
      rw [hcombined, hnil, List.append_nil]
      exact List.drop_sublist _ _
    · have hall : leftCells.length ≤ k := by
        refine hfront _ ?_ ?_
        · have := List.length_pos_of_ne_nil hcells
          omega
        · rwa [hcombined, List.take_left']
          rfl
      refine (tableCellsLayoutSize_le_of_sublist ?_).trans hright
      rw [hcombined, List.drop_append, List.drop_of_length_le hall, List.nil_append]
      exact List.drop_sublist _ _

theorem redistributeTableCells_fits_three :
    ∃ left right, redistributeTableCells 20 [[1, 2, 3], [4]] [[5, 6, 7, 8]] = .ok (left, right) ∧
      left ≠ [] ∧ right ≠ [] ∧ left ++ right = [[1, 2, 3], [4]] ++ [[5, 6, 7, 8]] ∧
      FitsLeaf 20 left ∧ FitsLeaf 20 right :=
  redistributeTableCells_fits (by decide) (by decide) (by decide)

end Rustqlite.Btree
