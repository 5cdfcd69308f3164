import Rustqlite.Codegen.WindowFrames

/-!
# Frames of rows

A `ROWS` frame is cut off at both edges of the partition.  The row walk steps
over the rows up to the current one, and the sliding walk begins anew for each
row and steps over the frame alone.
-/

namespace Rustqlite.Codegen.Window

open Foundation Rustqlite.Parser Func Vdbe.Sorter

/-! ## What a frame holds -/

/-- How many rows a frame reaches back from its row and ahead of it; a bound that is
`UNBOUNDED` has no number. -/
structure RowsFrame where
  preceding : Option Int
  following : Option Int

section

variable (bound : Expr Select Window → Int)

def startReach? : FrameBound → Option (Option Int)
  | .unboundedPreceding => some none
  | .currentRow => some (some 0)
  | .preceding e => some (some (bound e))
  | _ => none

def endReach? : FrameBound → Option (Option Int)
  | .unboundedFollowing => some none
  | .currentRow => some (some 0)
  | .following e => some (some (bound e))
  | _ => none

/-- A `ROWS` frame that begins no later than its row and ends no earlier, as the grammar has
them: without a second bound it ends with the row. -/
def rowsFrame? (frame : Frame) : Option RowsFrame :=
  match frame.mode, startReach? bound frame.start,
    endReach? bound (frame.end.getD .currentRow) with
  | .rows, some preceding, some following => some ⟨preceding, following⟩
  | _, _, _ => none

end

namespace RowsFrame

variable (reach : RowsFrame)

/-- The number of the first row, where the rows of the partition are numbered from 1. -/
def first (i : Int) : Int := reach.preceding.elim 1 fun n => max 1 (i - n)

/-- The number of the last row of `n`. -/
def last (i n : Int) : Int := reach.following.elim n fun m => min n (i + m)

def rows {τ : Type} (partition : List τ) (i : Nat) : List τ :=
  (partition.take (reach.last i partition.length).toNat).drop (reach.first i - 1).toNat

theorem one_le_first (i : Int) : 1 ≤ reach.first i := by
  unfold first
  cases reach.preceding with
  | none => exact le_refl 1
  | some n => exact le_max_left 1 _

theorem rows_upTo {τ : Type} (h : reach.preceding = none) (h' : reach.following = some 0)
    (before : List τ) (row : τ) (after : List τ) :
    reach.rows (before ++ row :: after) (before.length + 1) = before ++ [row] := by
  have hlast : reach.last (before.length + 1 : Nat) (before ++ row :: after).length =
      (before.length + 1 : Nat) := by
    rw [last, h', Option.elim_some, List.length_append, List.length_cons]
    omega
  rw [rows, hlast, first, h, Int.toNat_natCast, List.take_append, List.take_of_length_le (by omega)]
  simp

end RowsFrame

/-! ## The row walk -/

section

variable {τ σ v : Type} {s : WindowSelect τ σ v}

def RowWalk.next (s : WindowSelect τ σ v) (w : RowWalk σ v) (row : τ) : RowWalk σ v :=
  { w.step s row with accums := afterValue s (w.step s row).accums }

theorem rowEmissions_getElem? (w : RowWalk σ v) (before : List τ) (row : τ) (after : List τ) :
    (rowEmissions s w (before ++ row :: after))[before.length]? =
      some (emission s (aggValues s ((before.foldl (RowWalk.next s) w).step s row).accums)
          row) := by
  induction before generalizing w with
  | nil => rfl
  | cons first before ih => exact ih (w.next s first)

variable (s) in
structure RowsRead (read : List τ) (last : τ) (w : RowWalk σ v) : Prop where
  order : ∀ row ∈ read, (partitionOrder s.toWindowKeys row last).isLE
  partition : samePartition s.toWindowKeys w.partPrev last = true
  accums : Accumulated s (read.filter (inPartition s.toWindowKeys last)) w.accums

theorem RowsRead.afterValue {read : List τ} {last : τ} {w : RowWalk σ v}
    (h : RowsRead s read last w) :
    RowsRead s read last { w with accums := afterValue s w.accums } where
  order := h.order
  partition := h.partition
  accums := h.accums.afterValue

theorem inPartition_self (w : WindowKeys τ) (row : τ) : inPartition w row row = true := by
  rw [inPartition, beq_iff_eq]
  exact Std.ReflCmp.compare_self

theorem rowsRead_start (row : τ) : RowsRead s [row] row ((RowWalk.start s).step s row) := by
  have hfirst := (accumulated_nil s).aggStep row
  constructor
  · intro other hother
    rw [List.mem_singleton.mp hother]
    exact isLE_of_eq Std.ReflCmp.compare_self
  · unfold RowWalk.step
    split_ifs with hpart
    · exact hpart
    · exact samePartition_self row
  · unfold RowWalk.step
    rw [List.filter_singleton, inPartition_self]
    split_ifs with hpart
    · exact hfirst
    · exact hfirst

theorem RowsRead.step {read : List τ} {last next : τ} {w : RowWalk σ v}
    (h : RowsRead s read last w) (hle : (partitionOrder s.toWindowKeys last next).isLE) :
    RowsRead s (read ++ [next]) next (w.step s next) := by
  have horder : ∀ row ∈ read ++ [next], (partitionOrder s.toWindowKeys row next).isLE := by
    intro row hrow
    rcases List.mem_append.mp hrow with hread | hnext
    · exact Std.TransCmp.isLE_trans (h.order row hread) hle
    · rw [List.mem_singleton.mp hnext]
      exact isLE_of_eq Std.ReflCmp.compare_self
  unfold RowWalk.step
  rw [samePartition_eq h.partition]
  rcases lt_or_eq_of_isLE hle with hpart | hpart
  · have hnew : read.filter (inPartition s.toWindowKeys next) = [] :=
      filter_inPartition_new fun row hrow => Std.TransCmp.lt_of_isLE_of_lt (h.order row hrow) hpart
    rw [hpart]
    constructor
    · exact horder
    · exact samePartition_self next
    · rw [List.filter_append, hnew, List.filter_singleton, inPartition_self]
      exact (accumulated_nil s).aggStep next
  · have hsame : inPartition s.toWindowKeys next = inPartition s.toWindowKeys last := by
      funext row
      rw [inPartition, inPartition, Std.TransCmp.congr_right hpart]
    rw [hpart]
    constructor
    · exact horder
    · change samePartition s.toWindowKeys w.partPrev next = true
      rw [samePartition_eq h.partition, hpart]
      rfl
    · rw [List.filter_append, List.filter_singleton, inPartition_self, hsame]
      exact h.accums.aggStep next

variable {before : List τ} {row : τ} {frame : Frame} {reach : RowsFrame}

theorem rowsRead_foldl (h : InOrder (partitionOrder s.toWindowKeys) (before ++ [row])) :
    RowsRead s (before ++ [row]) row
      ((before.foldl (RowWalk.next s) (RowWalk.start s)).step s row) := by
  induction before using List.reverseRecOn generalizing row with
  | nil => exact rowsRead_start row
  | append_singleton before last ih =>
      rw [List.foldl_append]
      exact (ih (inOrder_left h)).afterValue.step (last_isLE h (by simp))

theorem shows_rowEmissions {after : List τ}
    (h : InOrder (partitionOrder s.toWindowKeys) (before ++ row :: after)) :
    ∃ e, (rowEmissions s (RowWalk.start s) (before ++ row :: after))[before.length]? = some e ∧
      Shows s (before.filter (inPartition s.toWindowKeys row) ++ [row]) e := by
  rw [rowEmissions_getElem?]
  refine ⟨_, rfl, ?_⟩
  have hsplit : before ++ row :: after = before ++ [row] ++ after := by simp
  rw [hsplit] at h
  have hread := (rowsRead_foldl (inOrder_left h)).accums
  rw [List.filter_append, List.filter_singleton, inPartition_self] at hread
  exact hread.shows_emission row

/-! ## The sliding walk -/

theorem computeFrameBounds_rows (h : rowsFrame? s.bound frame = some reach) {i n : Int} (hi : 1 ≤ i)
    (hn : i ≤ n) : computeFrameBounds s frame i n = (reach.first i, reach.last i n) := by
  obtain ⟨mode, start, stop, exclude⟩ := frame
  unfold rowsFrame? at h
  split at h
  · rename_i preceding following _ hstart hend
    cases h
    unfold computeFrameBounds RowsFrame.first RowsFrame.last
    rw [Prod.mk.injEq]
    constructor
    · cases start with
      | unboundedPreceding | preceding e =>
          cases hstart
          rfl
      | currentRow =>
          cases hstart
          simp [hi]
      | unboundedFollowing | following e => cases hstart
    · cases stop with
      | none =>
          cases hend
          simp [hn]
      | some stop =>
          cases stop with
          | unboundedFollowing | following e =>
              cases hend
              rfl
          | currentRow =>
              cases hend
              simp [hn]
          | unboundedPreceding | preceding e => cases hend
  · cases h

theorem frameRows_of_one_le (cache : List τ) {start : Int} (hstart : 1 ≤ start) (stop : Int) :
    frameRows cache start stop = (cache.take stop.toNat).drop (start - 1).toNat := by
  rcases lt_or_ge stop 0 with hneg | hpos
  · have hcount : (stop + 1 - start).toNat = 0 := by omega
    rw [frameRows, hcount, Int.toNat_of_nonpos (Int.le_of_lt hneg)]
    simp
  · have h := frameRows_eq cache (start - 1).toNat stop.toNat
    rwa [Int.toNat_of_nonneg hpos, show (((start - 1).toNat + 1 : Nat) : Int) = start by omega] at h

theorem slidingRows_eq (h : rowsFrame? s.bound frame = some reach) (before : List τ) (row : τ)
    (after : List τ) :
    slidingRows s frame before row after =
      reach.rows (before ++ row :: after) (before.length + 1) := by
  have hbounds := computeFrameBounds_rows h (i := (before.length + 1 : Nat))
    (n := (before ++ row :: after).length) (by omega) (by simp)
  rw [slidingRows, hbounds, frameRows_of_one_le _ (reach.one_le_first _), RowsFrame.rows]

/-! ## The frames of rows that compile -/

theorem classifyFrame_rows {window : Window} {kinds : List AggregateKind} {kind : FrameKind}
    (hframe : window.frame = some frame) (h : rowsFrame? s.bound frame = some reach)
    (hkind : classifyFrame kinds window = .ok kind) :
    kind = .sliding ∨ kind = .perRow ∧ reach = ⟨none, some 0⟩ := by
  obtain ⟨mode, start, stop, exclude⟩ := frame
  rw [classifyFrame, hframe] at hkind
  unfold rowsFrame? at h
  split at h
  · rename_i preceding following hmode hstart hend
    dsimp only at hmode hstart hend
    cases h
    subst hmode
    dsimp only at hkind
    split_ifs at hkind with hcurrent hwhole hexclude
    · right
      cases hkind
      rw [Bool.and_eq_true] at hcurrent
      obtain ⟨hunbounded, hcurrent⟩ := hcurrent
      cases start with
      | unboundedPreceding =>
          cases hstart
          cases stop with
          | none => cases hcurrent
          | some stop =>
              cases stop with
              | currentRow =>
                  cases hend
                  exact ⟨rfl, rfl⟩
              | _ => cases hcurrent
      | _ => cases hunbounded
    · cases hkind
      exact .inl rfl
    · exact .inl (checkSliding_ok hkind)
  · cases h

/-- Each row is sent with its aggregates computed over the frame of rows in its partition. -/
theorem shows_rowsFrame (s : WindowSelect τ σ v) {frame : Frame} {reach : RowsFrame}
    {kind : FrameKind} (hframe : s.window.frame = some frame)
    (hrows : rowsFrame? s.bound frame = some reach)
    (hkind : classifyFrame (s.calls.map (·.kind)) s.window = .ok kind) {input before : List τ}
    {row : τ} {after : List τ} (hsorted : sortedRows s input = before ++ row :: after) :
    ∃ e, (emissions s kind (sortedRows s input))[before.length]? = some e ∧
      Shows s (reach.rows ((before ++ row :: after).filter (inPartition s.toWindowKeys row))
        ((before.filter (inPartition s.toWindowKeys row)).length + 1)) e := by
  have horder : InOrder (partitionOrder s.toWindowKeys) (before ++ row :: after) := by
    rw [← hsorted]
    exact (pairwise_sort _).imp partitionOrder_isLE
  rw [hsorted, List.filter_append, List.filter_cons_of_pos (inPartition_self _ row)]
  rcases classifyFrame_rows hframe hrows hkind with rfl | ⟨rfl, rfl⟩
  · obtain ⟨e, hget, hshows⟩ := (shownSliding_walkPartitions horder).shows before row after rfl
    rw [slidingRows_eq hrows] at hshows
    refine ⟨e, ?_, hshows⟩
    simp only [emissions, hframe]
    exact hget
  · rw [RowsFrame.rows_upTo _ rfl rfl]
    exact shows_rowEmissions horder

end

/-! ## A frame of two rows -/

def pairFrame : Frame := ⟨.rows, .preceding (.literal (.integer 1)), some .currentRow, none⟩

def pairs : WindowSelect Int64 (List Int64) (List Int64) :=
  { collecting (numberKeys pairFrame) [.sum] 0 with bound := fun _ => 1 }

theorem sortedRows_pairs : sortedRows pairs [1, 2, 3] = [1, 2, 3] := by
  apply List.mergeSort_of_pairwise
  decide

theorem shows_rowsFrame_pairs :
    ∃ e, (emissions pairs .sliding (sortedRows pairs [1, 2, 3]))[2]? = some e ∧
      Shows pairs (RowsFrame.rows ⟨some 1, some 0⟩
        (([1, 2] ++ 3 :: [] : List Int64).filter (inPartition pairs.toWindowKeys 3))
        ((([1, 2] : List Int64).filter (inPartition pairs.toWindowKeys 3)).length + 1)) e :=
  @shows_rowsFrame _ _ _ pairs pairFrame ⟨some 1, some 0⟩ .sliding rfl rfl rfl _ [1, 2] 3 []
    sortedRows_pairs

end Rustqlite.Codegen.Window
