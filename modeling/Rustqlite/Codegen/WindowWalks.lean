import Rustqlite.Codegen.Window
import Rustqlite.Foundation.Groups

/-!
# What the walks step over

The sorter brings the rows of a partition together, and the peers within it.
Each walk hands a row on with the accumulators stepped over certain rows of its
partition; here it is said which.
-/

namespace Rustqlite.Codegen.Window

open Foundation Rustqlite.Parser Func Vdbe.Sorter

/-! ## Partitions and peers -/

section

variable {τ : Type} (w : WindowKeys τ)

def partitionOrder (a b : τ) : Ordering :=
  compareOrdered (partitionInfo w) (partitionKeys w a) (partitionKeys w b)

def peerOrder (a b : τ) : Ordering := compareOrdered (orderInfo w) (orderKeys w a) (orderKeys w b)

instance : Std.TransCmp (partitionOrder w) := transCmp_comap _ (partitionKeys w)

instance : Std.TransCmp (peerOrder w) := transCmp_comap _ (orderKeys w)

theorem compareRows_eq (a b : τ) :
    compareRows w a b = (partitionOrder w a b).then (peerOrder w a b) := by
  have hlen (r : τ) : (partitionKeys w r).length = (partitionInfo w).length := by
    simp [partitionKeys, partitionInfo]
  rw [compareRows, compareRegisters, compareKeys_ordered, compareOrdered_append (hlen a) (hlen b)]
  rfl

instance : Std.TransCmp (compareRows w) := by
  have h : compareRows w = compareLex (partitionOrder w) (peerOrder w) := by
    funext a b
    exact compareRows_eq w a b
  rw [h]
  infer_instance

variable {w}

variable {a b last next : τ}

theorem compareRows_eq_eq :
    compareRows w a b = .eq ↔ partitionOrder w a b = .eq ∧ peerOrder w a b = .eq := by
  rw [compareRows_eq, Ordering.then_eq_eq]

theorem partitionOrder_isLE (h : (compareRows w a b).isLE) : (partitionOrder w a b).isLE := by
  rw [compareRows_eq, Ordering.isLE_then_iff_and] at h
  exact h.1

theorem peerOrder_isLE (h : (compareRows w a b).isLE) (hpart : partitionOrder w a b = .eq) :
    (peerOrder w a b).isLE := by
  rwa [compareRows_eq, hpart, Ordering.eq_then] at h

theorem peerOrder_lt (h : compareRows w a b = .lt) (hpart : partitionOrder w a b = .eq) :
    peerOrder w a b = .lt := by
  rwa [compareRows_eq, hpart, Ordering.eq_then] at h

theorem samePartition_eq {partPrev : List OrderedValue} (h : samePartition w partPrev last = true) :
    samePartition w partPrev next = (partitionOrder w last next == .eq) := by
  rw [samePartition, beq_iff_eq, compareRegisters, compareKeys_ordered] at h
  rw [samePartition, compareRegisters, compareKeys_ordered, partitionOrder,
    Std.TransCmp.congr_left h]

theorem samePeers_eq {peerPrev : List OrderedValue} (h : samePeers w peerPrev last = true) :
    samePeers w peerPrev next = (peerOrder w last next == .eq) := by
  rw [samePeers, beq_iff_eq, compareRegisters, compareKeys_ordered] at h
  rw [samePeers, compareRegisters, compareKeys_ordered, peerOrder, Std.TransCmp.congr_left h]

theorem samePartition_self (row : τ) : samePartition w (partitionKeys w row) row = true := by
  rw [samePartition, beq_iff_eq, compareRegisters, compareKeys_ordered]
  exact Std.ReflCmp.compare_self

theorem samePeers_self (row : τ) : samePeers w (orderKeys w row) row = true := by
  rw [samePeers, beq_iff_eq, compareRegisters, compareKeys_ordered]
  exact Std.ReflCmp.compare_self

variable (w)

def inPartition (row other : τ) : Bool := partitionOrder w other row == .eq

def arePeers (row other : τ) : Bool := compareRows w other row == .eq

end

/-! ## Accumulators and what they hold -/

section

variable {τ σ v : Type}

def WindowCall.accumulate (call : WindowCall τ σ v) (rows : List τ) : Option σ :=
  rows.foldl (fun accum row =>
    if call.filter row then some (call.step (accum.getD call.new) row) else accum) none

def WindowCall.over (call : WindowCall τ σ v) (rows : List τ) : v :=
  (call.aggValue (call.accumulate rows)).1

variable (s : WindowSelect τ σ v)

def Accumulated (rows : List τ) (accums : List (Option σ)) : Prop :=
  ∀ (k : Nat) (call : WindowCall τ σ v), s.calls[k]? = some call →
    call.kind.windowOnly = false → accums[k]? = some (call.accumulate rows)

/-- The columns of the result row that are aggregates are computed over the rows. -/
def Shows (rows : List τ) (e : Emission v) : Prop :=
  ∀ (j k : Nat) (call : WindowCall τ σ v), s.outputs[j]? = some (.aggRef k) →
    s.calls[k]? = some call → call.kind.windowOnly = false → e.2[j]? = some (call.over rows)

theorem accumulated_nil : Accumulated s [] (noAccums s) := by
  intro k call hcall _
  rw [noAccums, List.getElem?_map, hcall]
  rfl

variable {s}

theorem Accumulated.aggStep {rows : List τ} {accums : List (Option σ)}
    (h : Accumulated s rows accums) (row : τ) :
    Accumulated s (rows ++ [row]) (aggStep s accums row) := by
  intro k call hcall hkind
  rw [Window.aggStep, List.getElem?_zipWith, hcall, h k call hcall hkind, WindowCall.accumulate,
    WindowCall.accumulate, List.foldl_append]
  rfl

theorem Accumulated.afterValue {rows : List τ} {accums : List (Option σ)}
    (h : Accumulated s rows accums) : Accumulated s rows (afterValue s accums) := by
  intro k call hcall hkind
  rw [Window.afterValue, List.getElem?_zipWith, hcall, h k call hcall hkind]
  cases haccum : call.accumulate rows with
  | none => rfl
  | some accum => simp [WindowCall.aggValue, hkind]

theorem Accumulated.aggValues {rows : List τ} {accums : List (Option σ)}
    (h : Accumulated s rows accums) {k : Nat} {call : WindowCall τ σ v}
    (hcall : s.calls[k]? = some call) (hkind : call.kind.windowOnly = false) :
    (aggValues s accums)[k]? = some (call.over rows) := by
  rw [Window.aggValues, List.getElem?_zipWith, hcall, h k call hcall hkind]
  rfl

variable {rows : List τ} {accums : List (Option σ)}

theorem Accumulated.foldl (h : Accumulated s rows accums) (more : List τ) :
    Accumulated s (rows ++ more) (more.foldl (Window.aggStep s) accums) := by
  induction more generalizing rows accums with
  | nil => rwa [List.append_nil]
  | cons row more ih =>
      have hmore := ih (h.aggStep row)
      rwa [List.append_assoc] at hmore

theorem Accumulated.shows_emission (h : Accumulated s rows accums) (row : τ) :
    Shows s rows (emission s (Window.aggValues s accums) row) := by
  intro j k call hout hcall hkind
  simp only [emission, List.getElem?_map, hout, Option.map_some, Rewritten.eval,
    h.aggValues hcall hkind, Option.getD_some]

theorem Accumulated.shows_flushed (h : Accumulated s rows accums) {cells : List v}
    (hcells : cells.length = s.outputs.length) :
    Shows s rows (flushed s (Window.aggValues s accums) cells) := by
  intro j k call hout hcall hkind
  have hj : j < cells.length := by
    rw [hcells]
    exact (List.getElem?_eq_some_iff.mp hout).1
  simp only [flushed, List.getElem?_zipWith, hout, List.getElem?_eq_getElem hj,
    h.aggValues hcall hkind, Option.getD_some]

end

/-! ## Peer group by peer group -/

section

variable {τ σ v : Type} {s : WindowSelect τ σ v}

def upTo (w : WindowKeys τ) (row other : τ) : Bool :=
  inPartition w row other && (peerOrder w other row).isLE

variable {row last next : τ} {read done group rows : List τ} {cmp : τ → τ → Ordering}

theorem upTo_of_lt {w : WindowKeys τ} {other : τ} (h : compareRows w row other = .lt) :
    upTo w row other = false := by
  rw [upTo, Bool.and_eq_false_iff]
  by_cases hpart : partitionOrder w row other = .eq
  · right
    have hswap : peerOrder w other row = (peerOrder w row other).swap := Std.OrientedCmp.eq_swap
    rw [hswap, peerOrder_lt h hpart]
    rfl
  · left
    rw [inPartition, beq_eq_false_iff_ne]
    exact fun heq => hpart (Std.OrientedCmp.eq_symm heq)

theorem filter_upTo {w : WindowKeys τ} (h : Split (compareRows w) read done group last)
    (hrow : row ∈ group) : read.filter (upTo w row) = read.filter (inPartition w last) := by
  have htie := (compareRows_eq_eq).mp (h.together row hrow)
  apply List.filter_congr
  intro other hother
  have hcongr : partitionOrder w other row = partitionOrder w other last :=
    Std.TransCmp.congr_right htie.1
  have hpeer : peerOrder w other row = peerOrder w other last := Std.TransCmp.congr_right htie.2
  rw [upTo, inPartition, inPartition, hcongr, hpeer, Bool.and_eq_left_iff_imp, beq_iff_eq]
  intro hpart
  exact peerOrder_isLE (h.isLE hother) hpart

variable {β : Type} {sink : β → List (Emission v) → β}
  {P : List τ → List τ → β → Prop}

variable (s sink P) in
structure PeerSink : Prop where
  more : ∀ {read done : List τ} {out : β} {next : τ}, P read done out →
    (∀ row ∈ done, compareRows s.toWindowKeys row next = .lt) → P (read ++ [next]) done out
  flush : ∀ {read done group : List τ} {last : τ} {accums : List (Option σ)}
    {buffer : List (List v)} {out : β}, P read done out →
    Cut (compareRows s.toWindowKeys) read done group last →
    Accumulated s (read.filter (inPartition s.toWindowKeys last)) accums →
    List.Forall₂ (fun _ cells => cells.length = s.outputs.length) group buffer →
    P read read (sink out (buffer.map (flushed s (aggValues s accums))))

variable (s P) in
/-- The peer walk when `next` is about to be stepped over: the rows of its group that have been
read wait in the buffer, and the rows before them have been handed on. -/
structure PeersReady (read done group : List τ) (next : τ)
    (w : PeerWalk σ v β) : Prop where
  split : Split (compareRows s.toWindowKeys) read done group next
  partition : samePartition s.toWindowKeys w.partPrev next = true
  peers : samePeers s.toWindowKeys w.peerPrev next = true
  accums : Accumulated s (read.filter (inPartition s.toWindowKeys next)) w.accums
  buffer : List.Forall₂ (fun _ cells => cells.length = s.outputs.length) group w.buffer
  handedOn : P read done w.out

variable (s P) in
structure PeersRead (read done group : List τ) (last : τ)
    (w : PeerWalk σ v β) : Prop extends PeersReady s P read done group last w where
  ends : last ∈ group
  pending : w.pending = true

variable {w : PeerWalk σ v β} {out : β}

theorem PeersReady.bufferRow (hsink : PeerSink s sink P)
    (h : PeersReady s P read done group next w) :
    PeersRead s P (read ++ [next]) done (group ++ [next]) next (w.bufferRow s next) where
  split := h.split.cut.toSplit
  partition := h.partition
  peers := h.peers
  accums := by
    have hself : inPartition s.toWindowKeys next next = true := by
      rw [inPartition, beq_iff_eq]
      exact Std.ReflCmp.compare_self
    rw [List.filter_append, List.filter_singleton, hself]
    exact h.accums.aggStep next
  buffer := List.rel_append h.buffer (List.Forall₂.cons (by simp) .nil)
  handedOn := hsink.more h.handedOn h.split.apart
  ends := by simp
  pending := rfl

theorem PeersRead.handedOn_flush (hsink : PeerSink s sink P)
    (h : PeersRead s P read done group last w) : P read read (w.flush s sink).out :=
  hsink.flush h.handedOn ⟨h.split, h.ends⟩ h.accums h.buffer

theorem PeersRead.ready_flush (h : PeersRead s P read done group last w)
    (hlt : compareRows s.toWindowKeys last next = .lt) :
    Split (compareRows s.toWindowKeys) read read [] next :=
  Cut.new ⟨h.split, h.ends⟩ hlt

theorem PeersRead.changePeers (hsink : PeerSink s sink P) (h : PeersRead s P read done group last w)
    (hpart : partitionOrder s.toWindowKeys last next = .eq)
    (hlt : compareRows s.toWindowKeys last next = .lt) :
    PeersReady s P read read [] next (w.changePeers s sink next) := by
  have hflush : w.flushPending s sink = w.flush s sink := if_pos h.pending
  have hsame : inPartition s.toWindowKeys next = inPartition s.toWindowKeys last := by
    funext row
    rw [inPartition, inPartition, Std.TransCmp.congr_right hpart]
  constructor
  · exact h.ready_flush hlt
  · rw [PeerWalk.changePeers, hflush]
    change samePartition s.toWindowKeys w.partPrev next = true
    rw [samePartition_eq h.partition, hpart]
    rfl
  · exact samePeers_self next
  · rw [PeerWalk.changePeers, hflush, hsame]
    exact h.accums.afterValue
  · rw [PeerWalk.changePeers, hflush]
    exact .nil
  · rw [PeerWalk.changePeers, hflush]
    exact h.handedOn_flush hsink

variable (s P) in
structure PeersBegin (read : List τ) (next : τ) (w : PeerWalk σ v β) :
    Prop where
  split : Split (compareRows s.toWindowKeys) read read [] next
  partition : samePartition s.toWindowKeys w.partPrev next = true
  accums : Accumulated s (read.filter (inPartition s.toWindowKeys next)) w.accums
  pending : w.pending = false
  buffer : w.buffer = []
  handedOn : P read read w.out

theorem PeersBegin.ready (sink : β → List (Emission v) → β) (h : PeersBegin s P read next w) :
    PeersReady s P read read [] next
      (if samePeers s.toWindowKeys w.peerPrev next then w
        else w.changePeers s sink next) := by
  have hbuffer :
      List.Forall₂ (fun (_ : τ) cells => cells.length = s.outputs.length) [] w.buffer := by
    rw [h.buffer]
    exact .nil
  split_ifs with hpeers
  · exact ⟨h.split, h.partition, hpeers, h.accums, hbuffer, h.handedOn⟩
  · have hflush : w.flushPending s sink = w := by simp [PeerWalk.flushPending, h.pending]
    rw [PeerWalk.changePeers, hflush]
    exact ⟨h.split, h.partition, samePeers_self next, h.accums, hbuffer, h.handedOn⟩

theorem filter_inPartition_new {w : WindowKeys τ}
    (h : ∀ row ∈ read, partitionOrder w row next = .lt) :
    read.filter (inPartition w next) = [] := by
  rw [List.filter_eq_nil_iff]
  intro row hrow
  rw [inPartition, h row hrow]
  decide

theorem PeersRead.changePartition (hsink : PeerSink s sink P)
    (h : PeersRead s P read done group last w)
    (hlt : partitionOrder s.toWindowKeys last next = .lt) :
    PeersBegin s P read next (w.changePartition s sink next) := by
  have hflush : w.flushPending s sink = w.flush s sink := if_pos h.pending
  have hnew (row : τ) (hrow : row ∈ read) : partitionOrder s.toWindowKeys row next = .lt :=
    Std.TransCmp.lt_of_isLE_of_lt (partitionOrder_isLE (h.split.isLE hrow)) hlt
  rw [PeerWalk.changePartition, hflush]
  constructor
  · apply h.ready_flush
    rw [compareRows_eq, hlt]
    rfl
  · exact samePartition_self next
  · rw [filter_inPartition_new hnew]
    exact accumulated_nil s
  · rfl
  · rfl
  · exact h.handedOn_flush hsink

theorem peersBegin_start (hout : P [] [] out) (next : τ) :
    PeersBegin s P [] next
      (if samePartition s.toWindowKeys (PeerWalk.start s out).partPrev next
        then PeerWalk.start s out else (PeerWalk.start s out).changePartition s sink next) := by
  split_ifs with hpart
  · exact ⟨Split.nil next, hpart, accumulated_nil s, rfl, rfl, hout⟩
  · exact ⟨Split.nil next, samePartition_self next, accumulated_nil s, rfl, rfl, hout⟩

theorem PeersRead.step (hsink : PeerSink s sink P) {read done group : List τ} {last next : τ}
    {w : PeerWalk σ v β} (h : PeersRead s P read done group last w)
    (hle : (compareRows s.toWindowKeys last next).isLE) :
    ∃ done' group', PeersRead s P (read ++ [next]) done' group' next
      (w.step s sink next) := by
  rw [PeerWalk.step, samePartition_eq h.partition]
  rcases lt_or_eq_of_isLE (partitionOrder_isLE hle) with hpart | hpart
  · have hbegin := (h.changePartition hsink hpart).ready sink
    rw [hpart]
    exact ⟨read, [next], hbegin.bufferRow hsink⟩
  · rw [hpart]
    simp only [beq_self_eq_true, if_true]
    rw [samePeers_eq h.peers]
    rcases lt_or_eq_of_isLE (peerOrder_isLE hle hpart) with hpeer | hpeer
    · have hlt : compareRows s.toWindowKeys last next = .lt := by
        rw [compareRows_eq, hpart, hpeer]
        rfl
      rw [hpeer]
      exact ⟨read, [next], (h.changePeers hsink hpart hlt).bufferRow hsink⟩
    · have heq : compareRows s.toWindowKeys last next = .eq :=
        (compareRows_eq_eq).mpr ⟨hpart, hpeer⟩
      have hsame : inPartition s.toWindowKeys next = inPartition s.toWindowKeys last := by
        funext row
        rw [inPartition, inPartition, Std.TransCmp.congr_right hpart]
      have hready : PeersReady s P read done group next w := by
        constructor
        · exact Cut.same ⟨h.split, h.ends⟩ heq
        · rw [samePartition_eq h.partition, hpart]
          rfl
        · rw [samePeers_eq h.peers, hpeer]
          rfl
        · rw [hsame]
          exact h.accums
        · exact h.buffer
        · exact h.handedOn
      rw [hpeer]
      exact ⟨done, group ++ [next], hready.bufferRow hsink⟩

theorem last_isLE (h : InOrder cmp (read ++ [next])) (hlast : last ∈ read) : (cmp last next).isLE :=
  (List.pairwise_append.mp h).2.2 last hlast next (List.mem_singleton_self next)

theorem inOrder_left {more : List τ} (h : InOrder cmp (read ++ more)) : InOrder cmp read :=
  (List.pairwise_append.mp h).1

theorem peersRead_foldl (hsink : PeerSink s sink P) (hout : P [] [] out) (hrows : rows ≠ [])
    (h : InOrder (compareRows s.toWindowKeys) rows) :
    ∃ done group last, PeersRead s P rows done group last
      (rows.foldl (PeerWalk.step s sink) (PeerWalk.start s out)) := by
  induction rows using List.reverseRecOn with
  | nil => exact absurd rfl hrows
  | append_singleton read next ih =>
      rw [List.foldl_append, List.foldl_cons, List.foldl_nil]
      rcases List.eq_nil_or_concat read with rfl | ⟨init, last, hread⟩
      · exact ⟨[], [next], next, ((peersBegin_start hout next).ready sink).bufferRow hsink⟩
      · have hne : read ≠ [] := by simp [hread]
        obtain ⟨done, group, last, hwalk⟩ := ih hne (inOrder_left h)
        have hlast : last ∈ read := Cut.mem_read ⟨hwalk.split, hwalk.ends⟩
        obtain ⟨done', group', hstep⟩ := hwalk.step hsink (last_isLE h hlast)
        exact ⟨done', group', next, hstep⟩

theorem handedOn_walkPeers (hsink : PeerSink s sink P) (hout : P [] [] out)
    (h : InOrder (compareRows s.toWindowKeys) rows) : P rows rows (walkPeers s sink out rows) := by
  rcases eq_or_ne rows [] with rfl | hne
  · exact hout
  · obtain ⟨done, group, last, hwalk⟩ := peersRead_foldl hsink hout hne h
    rw [walkPeers, PeerWalk.flushPending, if_pos hwalk.pending]
    exact hwalk.handedOn_flush hsink

variable (s) in
abbrev Shown (read done : List τ) (out : List (Emission v)) : Prop :=
  List.Forall₂ (fun row e => Shows s (read.filter (upTo s.toWindowKeys row)) e) done out

theorem peerSink_shown : PeerSink s (· ++ ·) (Shown s) where
  more := by
    intro read done out next hshown hapart
    refine ((List.forall₂_and_left _ _).mpr ⟨hapart, hshown⟩).imp ?_
    intro row e hrow
    rw [List.filter_append, List.filter_singleton, upTo_of_lt hrow.1]
    simpa using hrow.2
  flush := by
    intro read done group last accums buffer out hshown hcut haccums hbuffer
    have hgroup : Shown s read group (buffer.map (flushed s (aggValues s accums))) := by
      apply List.forall₂_map_right_iff.mpr
      refine ((List.forall₂_and_left _ _).mpr ⟨fun row hrow => hrow, hbuffer⟩).imp ?_
      intro row cells hrow
      rw [filter_upTo hcut.toSplit hrow.1]
      exact haccums.shows_flushed hrow.2
    have hread : Shown s read (done ++ group) (out ++ _) := List.rel_append hshown hgroup
    rwa [← hcut.split] at hread

theorem shown_walkPeers (h : InOrder (compareRows s.toWindowKeys) rows) :
    Shown s rows rows (walkPeers s (· ++ ·) [] rows) :=
  handedOn_walkPeers peerSink_shown .nil h

end

/-! ## Partition by partition -/

section

variable {τ σ v : Type} {s : WindowSelect τ σ v} {frame : Frame}

/-- The rows a sliding frame takes for the row that stands between two stretches of its
partition. -/
def slidingRows (s : WindowSelect τ σ v) (frame : Frame) (before : List τ) (row : τ)
    (after : List τ) : List τ :=
  let cache := before ++ row :: after
  let bounds := computeFrameBounds s frame (before.length + 1 : Nat) cache.length
  frameRows cache bounds.1 bounds.2

theorem frameRows_eq (cache : List τ) (start stop : Nat) :
    frameRows cache (start + 1 : Nat) stop = (cache.take stop).drop start := by
  have hcount : ((stop : Int) + 1 - (start + 1 : Nat)).toNat = stop - start := by omega
  have hindex (d : Nat) : (((start + 1 : Nat) : Int) + d - 1).toNat = start + d := by omega
  simp only [frameRows, hcount, hindex]
  rw [List.drop_take]
  induction stop - start with
  | zero => rfl
  | succ n ih =>
      rw [List.range_succ, List.filterMap_append, ih, List.take_add_one, List.getElem?_drop,
        List.filterMap_cons]
      cases cache[start + n]? <;> rfl

variable (s frame) in
structure ShownSliding (read : List τ) (out : List (Emission v)) : Prop where
  length : out.length = read.length
  shows : ∀ before row after, read = before ++ row :: after →
    ∃ e, out[before.length]? = some e ∧
      Shows s (slidingRows s frame (before.filter (inPartition s.toWindowKeys row)) row
        (after.filter (inPartition s.toWindowKeys row))) e

variable {β : Type} {sink : β → List (Emission v) → β} {P : List τ → β → Prop}

variable (s frame sink P) in
def PartitionSink : Prop :=
  ∀ {read done group : List τ} {last : τ} {out : β}, P done out →
    Cut (partitionOrder s.toWindowKeys) read done group last →
    P read (sink out (partitionEmissions s frame group))

variable (s P) in
structure PartitionRead (read done group : List τ) (last : τ) (w : SlidingWalk τ β) : Prop where
  split : Split (partitionOrder s.toWindowKeys) read done group last
  ends : last ∈ group
  partition : samePartition s.toWindowKeys w.partPrev last = true
  pending : w.pending = true
  cache : w.cache = group
  handedOn : P done w.out

variable {last : τ} {done group rows : List τ} {out : β}

theorem PartitionRead.handedOn_flush (hsink : PartitionSink s frame sink P) {read : List τ}
    {w : SlidingWalk τ β} (h : PartitionRead s P read done group last w) :
    P read (w.flushPending s sink frame).out := by
  rw [SlidingWalk.flushPending, if_pos h.pending, h.cache]
  exact hsink h.handedOn ⟨h.split, h.ends⟩

theorem PartitionRead.step (hsink : PartitionSink s frame sink P) {read done group : List τ}
    {last next : τ} {w : SlidingWalk τ β} (h : PartitionRead s P read done group last w)
    (hle : (partitionOrder s.toWindowKeys last next).isLE) :
    ∃ done' group', PartitionRead s P (read ++ [next]) done' group' next
      (w.step s sink frame next) := by
  have hcut : Cut (partitionOrder s.toWindowKeys) read done group last := ⟨h.split, h.ends⟩
  rw [SlidingWalk.step, samePartition_eq h.partition]
  rcases lt_or_eq_of_isLE hle with hpart | hpart
  · have hnew := (hcut.new hpart).cut
    rw [hpart]
    refine ⟨read, [next], hnew.toSplit, hnew.ends, samePartition_self next, rfl, rfl, ?_⟩
    exact h.handedOn_flush hsink
  · have hmore := (hcut.same hpart).cut
    have hregs : samePartition s.toWindowKeys w.partPrev next = true := by
      rw [samePartition_eq h.partition, hpart]
      rfl
    rw [hpart]
    exact ⟨done, group ++ [next], hmore.toSplit, hmore.ends, hregs, rfl, by rw [← h.cache]; rfl,
      h.handedOn⟩

theorem partitionRead_foldl (hsink : PartitionSink s frame sink P) (hout : P [] out)
    (hrows : rows ≠ []) (h : InOrder (partitionOrder s.toWindowKeys) rows) :
    ∃ done group last, PartitionRead s P rows done group last
      (rows.foldl (SlidingWalk.step s sink frame) (SlidingWalk.start s out)) := by
  induction rows using List.reverseRecOn with
  | nil => exact absurd rfl hrows
  | append_singleton read next ih =>
      rw [List.foldl_append, List.foldl_cons, List.foldl_nil]
      rcases List.eq_nil_or_concat read with rfl | ⟨init, last, hread⟩
      · have hfirst : Cut (partitionOrder s.toWindowKeys) [next] [] [next] next :=
          (Split.nil next).cut
        refine ⟨[], [next], next, ?_⟩
        rw [List.foldl_nil, SlidingWalk.step]
        split_ifs with hpart
        · exact ⟨hfirst.toSplit, hfirst.ends, hpart, rfl, rfl, hout⟩
        · exact ⟨hfirst.toSplit, hfirst.ends, samePartition_self next, rfl, rfl, hout⟩
      · have hne : read ≠ [] := by simp [hread]
        obtain ⟨done, group, last, hwalk⟩ := ih hne (inOrder_left h)
        have hlast : last ∈ read := Cut.mem_read ⟨hwalk.split, hwalk.ends⟩
        obtain ⟨done', group', hstep⟩ := hwalk.step hsink (last_isLE h hlast)
        exact ⟨done', group', next, hstep⟩

theorem handedOn_walkPartitions (hsink : PartitionSink s frame sink P) (hout : P [] out)
    (h : InOrder (partitionOrder s.toWindowKeys) rows) :
    P rows (walkPartitions s sink frame out rows) := by
  rcases eq_or_ne rows [] with rfl | hne
  · exact hout
  · obtain ⟨done, group, last, hwalk⟩ := partitionRead_foldl hsink hout hne h
    exact hwalk.handedOn_flush hsink

theorem shows_slidingResults (before : List τ) (row : τ) (after : List τ) :
    Shows s (slidingRows s frame before row after)
      (emission s (slidingResults s frame (before ++ row :: after) (before.length + 1)) row) := by
  have h := (accumulated_nil s).foldl (slidingRows s frame before row after)
  rw [List.nil_append] at h
  exact h.shows_emission row

theorem ShownSliding.shows_flushed {after : List τ} {row : τ} {out : List (Emission v)}
    (h : ShownSliding s frame done out) (front : List τ)
    (hgroup : ∀ other ∈ front ++ row :: after, partitionOrder s.toWindowKeys other last = .eq)
    (hdone : ∀ other ∈ done, partitionOrder s.toWindowKeys other last = .lt) :
    ∃ e, (out ++ partitionEmissions s frame (front ++ row :: after))[(done ++ front).length]? =
        some e ∧
      Shows s (slidingRows s frame ((done ++ front).filter (inPartition s.toWindowKeys row)) row
        (after.filter (inPartition s.toWindowKeys row))) e := by
  have hrow := Std.OrientedCmp.eq_symm (hgroup row (by simp))
  have hin (other : τ) (hother : other ∈ front ++ row :: after) :
      inPartition s.toWindowKeys row other = true := by
    rw [inPartition, beq_iff_eq]
    exact Std.TransCmp.eq_trans (hgroup other hother) hrow
  have hout : done.filter (inPartition s.toWindowKeys row) = [] :=
    filter_inPartition_new fun other hother => Std.TransCmp.lt_of_lt_of_eq (hdone other hother) hrow
  have hfront : front.filter (inPartition s.toWindowKeys row) = front :=
    List.filter_eq_self.mpr fun other hother => hin other (by simp [hother])
  have hback : after.filter (inPartition s.toWindowKeys row) = after :=
    List.filter_eq_self.mpr fun other hother => hin other (by simp [hother])
  refine ⟨emission s (slidingResults s frame (front ++ row :: after) (front.length + 1)) row,
    ?_, ?_⟩
  · rw [List.length_append, ← h.length, List.getElem?_append_right (by omega),
      Nat.add_sub_cancel_left, partitionEmissions, List.getElem?_mapIdx]
    simp
  · rw [List.filter_append, hout, hfront, hback, List.nil_append]
    exact shows_slidingResults front row after

theorem ShownSliding.append {out : List (Emission v)} (h : ShownSliding s frame done out)
    (hgroup : ∀ row ∈ group, partitionOrder s.toWindowKeys row last = .eq)
    (hdone : ∀ row ∈ done, partitionOrder s.toWindowKeys row last = .lt) :
    ShownSliding s frame (done ++ group) (out ++ partitionEmissions s frame group) where
  length := by simp [partitionEmissions, h.length]
  shows := by
    intro before row after heq
    rcases List.append_eq_append_iff.mp heq with ⟨front, rfl, rfl⟩ | ⟨back, rfl, hback⟩
    · exact h.shows_flushed front hgroup hdone
    · cases back with
      | nil =>
          rw [List.nil_append] at hback
          subst hback
          rw [List.append_nil] at h hdone
          have hshows := h.shows_flushed [] hgroup hdone
          rwa [List.append_nil] at hshows
      | cons first back =>
          -- the row has been handed on before, and the new partition is not its own
          rw [List.cons_append] at hback
          obtain ⟨rfl, rfl⟩ := List.cons.inj hback
          obtain ⟨e, hget, hshows⟩ := h.shows before row back rfl
          have hnew : group.filter (inPartition s.toWindowKeys row) = [] := by
            rw [List.filter_eq_nil_iff]
            intro other hother heq
            rw [inPartition, beq_iff_eq] at heq
            have hlt := Std.TransCmp.lt_of_eq_of_lt heq (hdone row (by simp))
            rw [hgroup other hother] at hlt
            contradiction
          refine ⟨e, ?_, ?_⟩
          · rw [List.getElem?_append_left (by simp [h.length]), hget]
          · rw [List.filter_append, hnew, List.append_nil]
            exact hshows

theorem shownSliding_nil : ShownSliding s frame [] [] where
  length := rfl
  shows := by
    intro before row after heq
    simp at heq

theorem partitionSink_shown : PartitionSink s frame (· ++ ·) (ShownSliding s frame) := by
  intro read done group last out hshown hcut
  rw [hcut.split]
  exact hshown.append hcut.together hcut.apart

theorem shownSliding_walkPartitions (h : InOrder (partitionOrder s.toWindowKeys) rows) :
    ShownSliding s frame rows (walkPartitions s (· ++ ·) frame [] rows) :=
  handedOn_walkPartitions partitionSink_shown shownSliding_nil h

end

end Rustqlite.Codegen.Window
