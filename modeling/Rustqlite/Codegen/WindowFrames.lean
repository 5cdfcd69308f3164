import Rustqlite.Codegen.WindowWalks

/-!
# Frames without offsets

The rows that a `RANGE` or `GROUPS` frame holds, and when they are the rows the
program computes an aggregate over.
-/

namespace Rustqlite.Codegen.Window

open Foundation Rustqlite.Parser Func Vdbe.Sorter

/-! ## What a frame holds -/

/-- A frame whose bounds are `UNBOUNDED` or `CURRENT ROW`, the latter meaning the peers. -/
structure PeerFrame where
  fromStart : Bool
  toEnd : Bool
  exclude : FrameExclude

/-- The frame written in an `OVER` clause in `RANGE` or `GROUPS` mode, as the grammar has them;
a window that gives no frame has the default one. -/
def peerFrame? (window : Window) : Option PeerFrame :=
  if window.name.isSome then none
  else
    match window.frame with
    | none => some ⟨true, false, .noOthers⟩
    | some ⟨.rows, _, _, _⟩ => none
    | some ⟨_, .unboundedPreceding, none, exclude⟩ =>
        some ⟨true, false, exclude.getD .noOthers⟩
    | some ⟨_, .unboundedPreceding, some .currentRow, exclude⟩ =>
        some ⟨true, false, exclude.getD .noOthers⟩
    | some ⟨_, .unboundedPreceding, some .unboundedFollowing, exclude⟩ =>
        some ⟨true, true, exclude.getD .noOthers⟩
    | some ⟨_, .currentRow, none, exclude⟩ => some ⟨false, false, exclude.getD .noOthers⟩
    | some ⟨_, .currentRow, some .currentRow, exclude⟩ =>
        some ⟨false, false, exclude.getD .noOthers⟩
    | some ⟨_, .currentRow, some .unboundedFollowing, exclude⟩ =>
        some ⟨false, true, exclude.getD .noOthers⟩
    | _ => none

section

variable {τ : Type} (w : WindowKeys τ) (frame : PeerFrame)

def PeerFrame.excludesPeers : Bool := frame.exclude == .group || frame.exclude == .ties

def PeerFrame.holds (row other : τ) : Bool :=
  inPartition w row other &&
    (frame.fromStart || (peerOrder w row other).isLE) &&
    (frame.toEnd || (peerOrder w other row).isLE) &&
    !(frame.excludesPeers && arePeers w row other)

def PeerFrame.holdsRow : Bool := frame.exclude == .noOthers || frame.exclude == .ties

def PeerFrame.rows (before : List τ) (row : τ) (after : List τ) : List τ :=
  before.filter (frame.holds w row) ++ (if frame.holdsRow then [row] else []) ++
    after.filter (frame.holds w row)

/-- When the program computes an aggregate over the frame of the row.  A frame from the start
ends with the peers of the row, so a frame to the end needs them to be the last of the
partition; any other frame begins with the row itself.  What is excluded is kept. -/
structure PeerFrame.Met (before : List τ) (row : τ) (after : List τ) : Prop where
  starts : frame.fromStart = false → ∀ other ∈ before, arePeers w row other = false
  endsPeers : frame.fromStart = false → frame.toEnd = false →
    ∀ other ∈ after, arePeers w row other = false
  endsPartition : frame.fromStart = true → frame.toEnd = true →
    ∀ other ∈ after, inPartition w row other = true → arePeers w row other = true
  excludes : frame.exclude = .noOthers ∨
    frame.exclude = .ties ∧ ∀ other ∈ before ++ after, arePeers w row other = false

end

/-! ## What the program computes -/

section

variable {τ σ v : Type} (s : WindowSelect τ σ v)

def rowEmissions (w : RowWalk σ v) : List τ → List (Emission v)
  | [] => []
  | row :: rows =>
      let w := w.step s row
      emission s (aggValues s w.accums) row ::
        rowEmissions { w with accums := afterValue s w.accums } rows

def emissions (kind : FrameKind) (rows : List τ) : List (Emission v) :=
  match kind, s.window.frame with
  | .perRow, _ => rowEmissions s (RowWalk.start s) rows
  | .perPeerGroup, _ => walkPeers s (· ++ ·) [] rows
  | .sliding, some frame => walkPartitions s (· ++ ·) frame [] rows
  | .sliding, none => []

end

/-- Every query with these keys and kinds of calls sends the row with its aggregates computed
over the given rows. -/
def ComputedOver {τ : Type} (w : WindowKeys τ) (kinds : List AggregateKind) (kind : FrameKind)
    (before : List τ) (row : τ) (after rows : List τ) : Prop :=
  ∀ (σ v : Type) (s : WindowSelect τ σ v), s.toWindowKeys = w →
    s.calls.map (·.kind) = kinds →
      ∃ e, (emissions s kind (before ++ row :: after))[before.length]? = some e ∧ Shows s rows e

/-! ## The frames of the three walks -/

variable {kinds : List AggregateKind} {kind : FrameKind} {window : Window} {frame : PeerFrame}

theorem classifyDefault_aggregate {anyRange : Bool}
    (hany : anyRange = true ∨ ∃ k ∈ kinds, k.windowOnly = false)
    (h : classifyDefault anyRange kinds = .ok kind) : kind = .perPeerGroup := by
  fun_induction classifyDefault anyRange kinds with
  | case1 anyRange =>
      have htrue : anyRange = true := by simpa using hany
      rw [htrue] at h
      exact (Except.ok.inj h).symm
  | case2 anyRange kinds ih =>
      apply ih _ h
      simpa [AggregateKind.windowOnly] using hany
  | case9 => 
      rename_i ih
      exact ih (.inl rfl) h
  | _ => contradiction

theorem checkSliding_ok (h : checkSliding kinds = .ok kind) : kind = .sliding := by
  fun_induction checkSliding kinds with
  | case1 => exact (Except.ok.inj h).symm
  | case2 | case3 => contradiction
  | case4 _ _ _ _ ih => exact ih h

theorem classifyFrame_fromStart (hframe : peerFrame? window = some frame)
    (hkinds : ∃ k ∈ kinds, k.windowOnly = false) (h : classifyFrame kinds window = .ok kind)
    (hstart : frame.fromStart = true) : kind = .perPeerGroup := by
  rw [peerFrame?] at hframe
  split_ifs at hframe with hname
  rw [classifyFrame] at h
  split at hframe
  case h_1 hnone =>
    rw [hnone] at h
    exact classifyDefault_aggregate (.inr hkinds) h
  case h_3 mode exclude hrows hsome | h_4 mode exclude hrows hsome | h_5 mode exclude hrows hsome =>
    rw [hsome] at h
    cases mode with
    | rows => exact absurd rfl hrows
    | range | groups =>
        simp [FrameBound.isUnboundedPreceding, FrameBound.isUnboundedFollowing,
          FrameBound.isCurrentRow, peersUnlessRows] at h
        exact h.symm
  all_goals
    cases hframe <;> contradiction

theorem classifyFrame_fromRow (hframe : peerFrame? window = some frame)
    (h : classifyFrame kinds window = .ok kind) (hstart : frame.fromStart = false) :
    kind = .sliding ∧ frame.exclude = .noOthers ∧ ∃ f, window.frame = some f ∧
      f.start = .currentRow ∧
      (if frame.toEnd then f.end = some .unboundedFollowing
        else f.end = none ∨ f.end = some .currentRow) := by
  rw [peerFrame?] at hframe
  split_ifs at hframe with hname
  rw [classifyFrame] at h
  split at hframe
  case h_6 mode exclude hrows hsome | h_7 mode exclude hrows hsome | h_8 mode exclude hrows hsome =>
    cases hframe
    rw [hsome] at h
    simp only [FrameBound.isUnboundedPreceding, Bool.false_and, Bool.false_eq_true, if_false] at h
    split_ifs at h with hexclude
    refine ⟨checkSliding_ok h, ?_, _, hsome, rfl, by simp⟩
    cases exclude with
    | none => rfl
    | some exclude => simpa using hexclude
  all_goals
    cases hframe <;> contradiction

/-! ## What the walks step over -/

section

variable {τ : Type} {w : WindowKeys τ}

variable {before after l : List τ} {row other : τ}

theorem filter_upTo_before (h : InOrder (compareRows w) (before ++ row :: after)) :
    before.filter (upTo w row) = before.filter (inPartition w row) := by
  apply List.filter_congr
  intro other hother
  have hle := (List.pairwise_append.mp h).2.2 other hother row List.mem_cons_self
  rw [upTo, Bool.and_eq_left_iff_imp, inPartition, beq_iff_eq]
  exact peerOrder_isLE hle

theorem filter_upTo_after (h : InOrder (compareRows w) (before ++ row :: after)) :
    after.filter (upTo w row) = after.filter (arePeers w row) := by
  apply List.filter_congr
  intro other hother
  have hle := (List.pairwise_cons.mp (List.pairwise_append.mp h).2.1).1 other hother
  rw [Bool.eq_iff_iff, upTo, arePeers, inPartition, Bool.and_eq_true, beq_iff_eq, beq_iff_eq,
    compareRows_eq_eq]
  constructor
  · rintro ⟨hpart, hpeer⟩
    have hge := peerOrder_isLE hle (Std.OrientedCmp.eq_symm hpart)
    exact ⟨hpart, Std.OrientedCmp.isLE_antisymm hpeer hge⟩
  · rintro ⟨hpart, hpeer⟩
    exact ⟨hpart, isLE_of_eq hpeer⟩

theorem upTo_self (row : τ) : upTo w row row = true := by
  have hpart : partitionOrder w row row = .eq := Std.ReflCmp.compare_self
  have hpeer : peerOrder w row row = .eq := Std.ReflCmp.compare_self
  rw [upTo, inPartition, hpart, hpeer]
  rfl

def PeerFrame.stepped (frame : PeerFrame) (w : WindowKeys τ) (before : List τ) (row : τ)
    (after : List τ) : List τ :=
  if frame.fromStart then
    before.filter (inPartition w row) ++ row :: after.filter (arePeers w row)
  else row :: if frame.toEnd then after.filter (inPartition w row) else []

theorem computedOver_peers (h : InOrder (compareRows w) (before ++ row :: after)) :
    ComputedOver w kinds .perPeerGroup before row after
      (before.filter (inPartition w row) ++ row :: after.filter (arePeers w row)) := by
  rintro σ v s rfl -
  have hshown := shown_walkPeers h
  have hlen := hshown.length_eq
  have hi : before.length < (walkPeers s (· ++ ·) [] (before ++ row :: after)).length := by
    rw [← hlen]
    simp
  have hrow := (List.forall₂_iff_get.mp hshown).2 before.length (by simp) hi
  refine ⟨_, List.getElem?_eq_getElem hi, ?_⟩
  rw [← filter_upTo_before h, ← filter_upTo_after h]
  simpa [List.filter_append, List.filter_cons, upTo_self] using hrow

theorem computedOver_sliding {f : Frame} {toEnd : Bool}
    (h : InOrder (compareRows w) (before ++ row :: after)) (hf : w.window.frame = some f)
    (hstart : f.start = .currentRow) (hend : if toEnd then f.end = some .unboundedFollowing
      else f.end = none ∨ f.end = some .currentRow) :
    ComputedOver w kinds .sliding before row after
      (row :: if toEnd then after.filter (inPartition w row) else []) := by
  rintro σ v s rfl -
  have hsorted : InOrder (partitionOrder s.toWindowKeys) (before ++ row :: after) :=
    h.imp partitionOrder_isLE
  have hshown : ShownSliding s f _ (walkPartitions s (· ++ ·) f [] (before ++ row :: after)) :=
    shownSliding_walkPartitions hsorted
  obtain ⟨e, hget, hshows⟩ := hshown.shows before row after rfl
  refine ⟨e, ?_, ?_⟩
  · simp only [emissions, hf]
    exact hget
  · cases toEnd with
    | true =>
        rw [if_pos rfl] at hend ⊢
        rwa [slidingRows, computeFrameBounds, hstart, hend, frameRows_eq, List.take_length,
          List.drop_left] at hshows
    | false =>
        have hbounds (i n : Int) : computeFrameBounds s f i n = (i, i) := by
          rcases hend with hend | hend <;> rw [computeFrameBounds, hstart, hend]
        rwa [slidingRows, hbounds, frameRows_eq, List.drop_take, List.drop_left,
          Nat.add_sub_cancel_left] at hshows

theorem computedOver_stepped (hframe : peerFrame? w.window = some frame)
    (hkinds : ∃ k ∈ kinds, k.windowOnly = false) (hkind : classifyFrame kinds w.window = .ok kind)
    (h : InOrder (compareRows w) (before ++ row :: after)) :
    ComputedOver w kinds kind before row after (frame.stepped w before row after) := by
  cases hstart : frame.fromStart with
  | true =>
      have hpeers := classifyFrame_fromStart hframe hkinds hkind hstart
      subst hpeers
      rw [PeerFrame.stepped, hstart]
      exact computedOver_peers h
  | false =>
      obtain ⟨rfl, -, f, hf, hfstart, hfend⟩ := classifyFrame_fromRow hframe hkind hstart
      rw [PeerFrame.stepped, hstart]
      exact computedOver_sliding h hf hfstart hfend

/-! ## When they are the rows of the frame -/

variable {frame : PeerFrame} {before after : List τ} {row : τ}

theorem arePeers_self (row : τ) : arePeers w row row = true := by
  rw [arePeers, beq_iff_eq]
  exact Std.ReflCmp.compare_self

theorem inPartition_of_arePeers (h : arePeers w row other = true) :
    inPartition w row other = true := by
  rw [arePeers, beq_iff_eq, compareRows_eq_eq] at h
  rw [inPartition, beq_iff_eq]
  exact h.1

section

variable (h : InOrder (compareRows w) (before ++ row :: after))

include h

/-- A row that stands before another is in its frame unless it is cut off or excluded. -/
theorem holds_before (hother : other ∈ before) :
    frame.holds w row other =
      (inPartition w row other && (frame.fromStart || arePeers w row other) &&
        !(frame.excludesPeers && arePeers w row other)) := by
  have hle := (List.pairwise_append.mp h).2.2 other hother row List.mem_cons_self
  rw [PeerFrame.holds]
  cases hpart : inPartition w row other with
  | false => rfl
  | true =>
      rw [inPartition, beq_iff_eq] at hpart
      have hpeer := peerOrder_isLE hle hpart
      have hpeers : (peerOrder w row other).isLE = arePeers w row other := by
        rw [Bool.eq_iff_iff, arePeers, beq_iff_eq, compareRows_eq_eq]
        exact ⟨fun hge => ⟨hpart, Std.OrientedCmp.isLE_antisymm hpeer hge⟩,
          fun htie => isLE_of_eq (Std.OrientedCmp.eq_symm htie.2)⟩
      rw [hpeer, hpeers, Bool.or_true, Bool.and_true]

/-- A row that stands after another is in its frame unless it is cut off or excluded. -/
theorem holds_after (hother : other ∈ after) :
    frame.holds w row other =
      (inPartition w row other && (frame.toEnd || arePeers w row other) &&
        !(frame.excludesPeers && arePeers w row other)) := by
  have hle := (List.pairwise_cons.mp (List.pairwise_append.mp h).2.1).1 other hother
  rw [PeerFrame.holds]
  cases hpart : inPartition w row other with
  | false => rfl
  | true =>
      rw [inPartition, beq_iff_eq] at hpart
      have hpeer := peerOrder_isLE hle (Std.OrientedCmp.eq_symm hpart)
      have hpeers : (peerOrder w other row).isLE = arePeers w row other := by
        rw [Bool.eq_iff_iff, arePeers, beq_iff_eq, compareRows_eq_eq]
        exact ⟨fun hge => ⟨hpart, Std.OrientedCmp.isLE_antisymm hge hpeer⟩,
          fun htie => isLE_of_eq htie.2⟩
      rw [hpeer, hpeers, Bool.or_true, Bool.and_true]

theorem filter_holds_before (hstart : frame.fromStart = true)
    (hkept : ∀ other ∈ before ++ after, (frame.excludesPeers && arePeers w row other) = false) :
    before.filter (frame.holds w row) = before.filter (inPartition w row) := by
  apply List.filter_congr
  intro other hother
  rw [holds_before h hother, hstart, hkept other (List.mem_append_left _ hother)]
  simp

end

theorem kept_of_excludes
    (h : frame.exclude = .noOthers ∨
      frame.exclude = .ties ∧ ∀ other ∈ before ++ after, arePeers w row other = false) :
    frame.holdsRow = true ∧
      ∀ other ∈ before ++ after, (frame.excludesPeers && arePeers w row other) = false := by
  rcases h with hnone | ⟨hties, hpeers⟩
  · simp [PeerFrame.holdsRow, PeerFrame.excludesPeers, hnone]
  · rw [PeerFrame.holdsRow, hties]
    exact ⟨rfl, fun other hother => by rw [hpeers other hother, Bool.and_false]⟩

theorem stepped_fromStart (h : InOrder (compareRows w) (before ++ row :: after))
    (hstart : frame.fromStart = true) (hmet : frame.Met w before row after) :
    frame.stepped w before row after = frame.rows w before row after := by
  have hkept := kept_of_excludes hmet.excludes
  have hafter : after.filter (frame.holds w row) = after.filter (arePeers w row) := by
    apply List.filter_congr
    intro other hother
    rw [holds_after h hother, hkept.2 other (List.mem_append_right _ hother), Bool.not_false,
      Bool.and_true]
    cases hend : frame.toEnd with
    | false =>
        rw [Bool.false_or, Bool.and_eq_right_iff_imp]
        exact inPartition_of_arePeers
    | true =>
        rw [Bool.true_or, Bool.and_true, Bool.eq_iff_iff]
        exact ⟨hmet.endsPartition hstart hend other hother, inPartition_of_arePeers⟩
  rw [PeerFrame.stepped, if_pos hstart, PeerFrame.rows, filter_holds_before h hstart hkept.2,
    hafter, if_pos hkept.1, List.append_assoc, List.singleton_append]

theorem countP_arePeers_filter {p : τ → Bool}
    (h : ∀ other ∈ l, arePeers w row other = true → p other = true) :
    (l.filter p).countP (arePeers w row) = l.countP (arePeers w row) := by
  rw [List.countP_filter]
  apply List.countP_congr
  intro other hother
  rw [Bool.and_eq_true, and_iff_left_iff_imp]
  exact h other hother

theorem countP_stepped (hstart : frame.fromStart = true) :
    (frame.stepped w before row after).countP (arePeers w row) =
      before.countP (arePeers w row) + (after.countP (arePeers w row) + 1) := by
  rw [PeerFrame.stepped, if_pos hstart, List.countP_append, List.countP_cons, arePeers_self,
    countP_arePeers_filter fun _ _ => inPartition_of_arePeers,
    countP_arePeers_filter fun _ _ => id]
  simp

theorem excludes_of_stepped (hstart : frame.fromStart = true)
    (heq : frame.stepped w before row after = frame.rows w before row after) :
    frame.exclude = .noOthers ∨
      frame.exclude = .ties ∧ ∀ other ∈ before ++ after, arePeers w row other = false := by
  have hcount : (frame.stepped w before row after).countP (arePeers w row) = _ :=
    countP_stepped hstart
  rw [heq, PeerFrame.rows, List.countP_append, List.countP_append] at hcount
  have hbefore := (List.filter_sublist (p := frame.holds w row) (l := before)).countP_le
    (p := arePeers w row)
  have hafter := (List.filter_sublist (p := frame.holds w row) (l := after)).countP_le
    (p := arePeers w row)
  cases hexclude : frame.exclude with
  | noOthers => exact .inl rfl
  | currentRow | group =>
      have hrow : frame.holdsRow = false := by
        rw [PeerFrame.holdsRow, hexclude]
        rfl
      rw [hrow] at hcount
      simp at hcount
      omega
  | ties =>
      have hnone (l : List τ) : (l.filter (frame.holds w row)).countP (arePeers w row) = 0 := by
        rw [List.countP_eq_zero]
        intro other hother hpeers
        have hholds := (List.mem_filter.mp hother).2
        rw [PeerFrame.holds, PeerFrame.excludesPeers, hexclude, hpeers] at hholds
        simp at hholds
      have hrow : frame.holdsRow = true := by
        rw [PeerFrame.holdsRow, hexclude]
        rfl
      rw [hnone, hnone, hrow, if_pos rfl, List.countP_singleton, arePeers_self] at hcount
      have hothers : (before ++ after).countP (arePeers w row) = 0 := by
        rw [List.countP_append]
        simp at hcount
        omega
      rw [List.countP_eq_zero] at hothers
      exact .inr ⟨rfl, fun other hother => Bool.not_eq_true _ ▸ hothers other hother⟩

theorem endsPartition_of_stepped (h : InOrder (compareRows w) (before ++ row :: after))
    (hstart : frame.fromStart = true)
    (heq : frame.stepped w before row after = frame.rows w before row after)
    (hend : frame.toEnd = true) (hother : other ∈ after) (hpart : inPartition w row other = true) :
    arePeers w row other = true := by
  have hkept := kept_of_excludes (excludes_of_stepped hstart heq)
  rw [PeerFrame.stepped, if_pos hstart, PeerFrame.rows, filter_holds_before h hstart hkept.2,
    if_pos hkept.1, List.append_assoc, List.singleton_append] at heq
  have hafter := List.cons.inj (List.append_cancel_left heq)
  have hmem : other ∈ after.filter (frame.holds w row) := by
    rw [List.mem_filter, holds_after h hother, hpart, hend,
      hkept.2 other (List.mem_append_right _ hother)]
    exact ⟨hother, rfl⟩
  rw [← hafter.2] at hmem
  exact (List.mem_filter.mp hmem).2

theorem filter_arePeers_eq_nil :
    l.filter (arePeers w row) = [] ↔ ∀ other ∈ l, arePeers w row other = false := by
  rw [List.filter_eq_nil_iff]
  exact forall₂_congr fun _ _ => Iff.of_eq (Bool.not_eq_true _)

theorem stepped_fromRow_iff (h : InOrder (compareRows w) (before ++ row :: after))
    (hstart : frame.fromStart = false) (hexclude : frame.exclude = .noOthers) :
    frame.stepped w before row after = frame.rows w before row after ↔
      frame.Met w before row after := by
  have hbefore : before.filter (frame.holds w row) = before.filter (arePeers w row) := by
    apply List.filter_congr
    intro other hother
    rw [holds_before h hother, hstart, PeerFrame.excludesPeers, hexclude, Bool.false_or,
      Bool.eq_iff_iff]
    simpa using inPartition_of_arePeers
  have hrow : frame.holdsRow = true := by
    rw [PeerFrame.holdsRow, hexclude]
    rfl
  have hmet : frame.Met w before row after ↔ before.filter (arePeers w row) = [] ∧
      (frame.toEnd = false → after.filter (arePeers w row) = []) := by
    rw [filter_arePeers_eq_nil, filter_arePeers_eq_nil]
    constructor
    · exact fun hmet => ⟨hmet.starts hstart, hmet.endsPeers hstart⟩
    · rintro ⟨hfirst, hlast⟩
      exact ⟨fun _ => hfirst, fun _ => hlast,
        fun htrue => absurd (hstart.symm.trans htrue) (by decide), .inl hexclude⟩
  rw [hmet, PeerFrame.stepped, hstart, PeerFrame.rows, hbefore, hrow]
  cases hend : frame.toEnd with
  | true =>
      have hafter : after.filter (frame.holds w row) = after.filter (inPartition w row) := by
        apply List.filter_congr
        intro other hother
        rw [holds_after h hother, hend, PeerFrame.excludesPeers, hexclude]
        simp
      rw [hafter]
      constructor
      · intro heq
        have hlen := congrArg List.length heq
        simp only [Bool.false_eq_true, if_false, if_true, List.length_cons, List.length_append,
          List.length_nil] at hlen
        exact ⟨List.length_eq_zero_iff.mp (by omega), by simp⟩
      · rintro ⟨hfirst, -⟩
        rw [hfirst]
        rfl
  | false =>
      have hafter : after.filter (frame.holds w row) = after.filter (arePeers w row) := by
        apply List.filter_congr
        intro other hother
        rw [holds_after h hother, hend, PeerFrame.excludesPeers, hexclude, Bool.false_or,
          Bool.eq_iff_iff]
        simpa using inPartition_of_arePeers
      rw [hafter]
      constructor
      · intro heq
        have hlen := congrArg List.length heq
        simp only [Bool.false_eq_true, if_false, if_true, List.length_cons, List.length_append,
          List.length_nil] at hlen
        exact ⟨List.length_eq_zero_iff.mp (by omega),
          fun _ => List.length_eq_zero_iff.mp (by omega)⟩
      · rintro ⟨hfirst, hlast⟩
        rw [hfirst, hlast rfl]
        rfl

theorem stepped_eq_rows_iff (h : InOrder (compareRows w) (before ++ row :: after))
    (hexclude : frame.fromStart = false → frame.exclude = .noOthers) :
    frame.stepped w before row after = frame.rows w before row after ↔
      frame.Met w before row after := by
  cases hstart : frame.fromStart with
  | false => exact stepped_fromRow_iff h hstart (hexclude hstart)
  | true =>
      constructor
      · intro heq
        constructor
        · exact fun hfalse => absurd (hstart.symm.trans hfalse) (by decide)
        · exact fun hfalse => absurd (hstart.symm.trans hfalse) (by decide)
        · intro _ hend other hother
          exact endsPartition_of_stepped h hstart heq hend hother
        · exact excludes_of_stepped hstart heq
      · exact stepped_fromStart h hstart

/-! ## The rows read off the result -/

def collectingCall (kind : AggregateKind) : WindowCall τ (List τ) (List τ) where
  kind := kind
  filter := fun _ => true
  new := []
  step := fun rows row => rows ++ [row]
  value := id
  valueMut := fun rows => (rows, rows)
  emptyResult := []

def collecting (w : WindowKeys τ) (kinds : List AggregateKind) (call : Nat) :
    WindowSelect τ (List τ) (List τ) where
  toWindowKeys := w
  whereClause := fun _ => true
  bound := fun _ => 0
  calls := kinds.map collectingCall
  outputs := [.aggRef call]
  distinct := false
  encode := fun _ => []
  orderBy := []
  compareOuter := fun _ _ => .eq
  offset := 0
  null := []

theorem accumulate_collectingCall (kind : AggregateKind) (row : τ) (rows : List τ) :
    (collectingCall kind).accumulate (row :: rows) = some (row :: rows) := by
  induction rows using List.reverseRecOn with
  | nil => rfl
  | append_singleton rows last ih =>
      rw [WindowCall.accumulate, ← List.cons_append, List.foldl_append,
        ← WindowCall.accumulate, ih]
      rfl

theorem over_collectingCall {kind : AggregateKind} (hkind : kind.windowOnly = false)
    (rows : List τ) : (collectingCall kind).over rows = rows := by
  cases rows with
  | nil => rfl
  | cons row rows =>
      rw [WindowCall.over, accumulate_collectingCall, WindowCall.aggValue]
      simp [collectingCall, hkind]

theorem ComputedOver.unique (hkinds : ∃ k ∈ kinds, k.windowOnly = false) {rows rows' : List τ}
    (h : ComputedOver w kinds kind before row after rows)
    (h' : ComputedOver w kinds kind before row after rows') : rows = rows' := by
  obtain ⟨aggregate, hmem, haggregate⟩ := hkinds
  obtain ⟨call, hcall⟩ := List.mem_iff_getElem?.mp hmem
  have hmap : (collecting w kinds call).calls.map (·.kind) = kinds := by
    rw [collecting, List.map_map]
    exact List.map_id kinds
  obtain ⟨e, he, hshows⟩ := h _ _ (collecting w kinds call) rfl hmap
  obtain ⟨e', he', hshows'⟩ := h' _ _ (collecting w kinds call) rfl hmap
  obtain rfl := Option.some.inj (he.symm.trans he')
  have hget : (collecting w kinds call).calls[call]? = some (collectingCall aggregate) := by
    simp [collecting, hcall]
  have hrows := hshows 0 call _ rfl hget haggregate
  have hrows' := hshows' 0 call _ rfl hget haggregate
  rw [over_collectingCall haggregate] at hrows hrows'
  exact Option.some.inj (hrows.symm.trans hrows')

theorem computedOver_frame_iff {kinds : List AggregateKind} {kind : FrameKind}
    (hframe : peerFrame? w.window = some frame) (hkinds : ∃ k ∈ kinds, k.windowOnly = false)
    (hkind : classifyFrame kinds w.window = .ok kind) {input : List τ}
    (hrows : sort (compareRows w) input = before ++ row :: after) :
    ComputedOver w kinds kind before row after (frame.rows w before row after) ↔
      frame.Met w before row after := by
  have horder : InOrder (compareRows w) (before ++ row :: after) := by
    rw [← hrows]
    exact pairwise_sort input
  have hexclude (hstart : frame.fromStart = false) : frame.exclude = .noOthers :=
    (classifyFrame_fromRow hframe hkind hstart).2.1
  have hstepped := computedOver_stepped hframe hkinds hkind horder
  rw [← stepped_eq_rows_iff horder hexclude]
  constructor
  · exact hstepped.unique hkinds
  · intro heq
    rwa [← heq]

end

/-! ## A frame over the whole partition -/

/-- `ORDER BY x` with a frame, over rows that are the values of `x`. -/
def numberKeys (frame : Frame) : WindowKeys Int64 where
  window := ⟨none, [], [⟨.column none none "x", false, none⟩], some frame⟩
  key := fun _ x => ⟨.int x, rfl⟩

theorem sort_numbers (frame : Frame) : sort (compareRows (numberKeys frame)) [1, 2] = [1, 2] := by
  apply List.mergeSort_of_pairwise
  exact List.pairwise_pair.mpr rfl

def wholeFrame : Frame := ⟨.range, .unboundedPreceding, some .unboundedFollowing, none⟩

/-- Of the rows 1 and 2, the sum for the first is over the first alone. -/
theorem wholeFrame_stops_at_peers :
    peerFrame? (numberKeys wholeFrame).window = some ⟨true, true, .noOthers⟩ ∧
      classifyFrame [.sum] (numberKeys wholeFrame).window = .ok .perPeerGroup ∧
      sort (compareRows (numberKeys wholeFrame)) [1, 2] = [] ++ 1 :: [2] ∧
      ¬ ComputedOver (numberKeys wholeFrame) [.sum] .perPeerGroup [] 1 [2]
        (PeerFrame.rows (numberKeys wholeFrame) ⟨true, true, .noOthers⟩ [] 1 [2]) := by
  refine ⟨rfl, rfl, sort_numbers wholeFrame, ?_⟩
  intro h
  obtain ⟨e, hget, hshows⟩ := h _ _ (collecting (numberKeys wholeFrame) [.sum] 0) rfl rfl
  have hsent : (emissions (collecting (numberKeys wholeFrame) [.sum] 0) .perPeerGroup [1, 2])[0]? =
      some ([], [[1]]) := by decide
  obtain rfl := Option.some.inj (hget.symm.trans hsent)
  have hsum := hshows 0 0 (collectingCall .sum) rfl rfl rfl
  revert hsum
  decide

def runningFrame : Frame := ⟨.range, .unboundedPreceding, some .currentRow, none⟩

theorem computedOver_runningFrame :
    ComputedOver (numberKeys runningFrame) [.sum] .perPeerGroup [] 1 [2]
        (PeerFrame.rows (numberKeys runningFrame) ⟨true, false, .noOthers⟩ [] 1 [2]) ↔
      PeerFrame.Met (numberKeys runningFrame) ⟨true, false, .noOthers⟩ [] 1 [2] :=
  computedOver_frame_iff rfl ⟨.sum, by simp, rfl⟩ rfl (sort_numbers runningFrame)

end Rustqlite.Codegen.Window
