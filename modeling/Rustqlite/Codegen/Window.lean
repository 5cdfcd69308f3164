import Rustqlite.Func.Accumulator
import Rustqlite.Parser.Select
import Rustqlite.Vdbe.Sorter

/-!
# Window functions

The programs for a `SELECT` with `OVER` calls.  The rows that pass the WHERE
clause are sorted by PARTITION BY and ORDER BY.  A walk over the sorted rows
steps the accumulators, reads them and hands the result rows on.  What the
compiled expressions leave in their registers is a parameter.
-/

namespace Rustqlite.Codegen.Window

open Foundation Rustqlite.Parser Func Vdbe.Sorter

/-! ## The shape of a frame -/

inductive FrameKind where
  | perRow
  | perPeerGroup
  | sliding
  deriving DecidableEq

def FrameBound.isUnboundedPreceding : FrameBound → Bool
  | .unboundedPreceding => true
  | _ => false

def FrameBound.isUnboundedFollowing : FrameBound → Bool
  | .unboundedFollowing => true
  | _ => false

def FrameBound.isCurrentRow : FrameBound → Bool
  | .currentRow => true
  | _ => false

def peersUnlessRows (onRows : FrameKind) : FrameMode → FrameKind
  | .rows => onRows
  | .range | .groups => .perPeerGroup

def checkSliding : List AggregateKind → Except String FrameKind
  | [] => .ok .sliding
  | kind :: kinds =>
      if kind = .min ∨ kind = .max then
        .error "min()/max() with non-default window frames are not yet supported (M11.8 follow-up)"
      else if kind = .lead ∨ kind = .lag then
        .error "lead()/lag() with non-default window frames are not yet supported (M11.8 follow-up)"
      else checkSliding kinds

def classifyDefault : Bool → List AggregateKind → Except String FrameKind
  | anyRange, [] => .ok (if anyRange then .perPeerGroup else .perRow)
  | anyRange, .rowNumber :: kinds => classifyDefault anyRange kinds
  | _, .percentRank :: _ | _, .cumeDist :: _ =>
      .error ("percent_rank() / cume_dist() are not yet supported " ++
        "(need AggInverse; M11.7 follow-up)")
  | _, .ntile :: _ =>
      .error ("ntile() with its default frame is not yet supported " ++
        "(needs AggInverse; M11.7 follow-up)")
  | _, .lead :: _ | _, .lag :: _ =>
      .error "lead() / lag() window functions are not yet supported (M11.7 follow-up)"
  | _, .lastValue :: _ =>
      .error ("last_value() with its default frame is not yet supported " ++
        "(needs AggInverse; M11.7 follow-up)")
  | _, _ :: kinds => classifyDefault true kinds

def classifyFrame (kinds : List AggregateKind) (window : Window) : Except String FrameKind :=
  match window.frame with
  | some frame =>
      let startUnbounded := FrameBound.isUnboundedPreceding frame.start
      let endUnbounded := frame.end.all FrameBound.isUnboundedFollowing
      let endCurrent := frame.end.any FrameBound.isCurrentRow
      if startUnbounded && endCurrent then .ok (peersUnlessRows .perRow frame.mode)
      else if startUnbounded && endUnbounded then .ok (peersUnlessRows .sliding frame.mode)
      else if frame.exclude.any (· ≠ .noOthers) then
        .error "EXCLUDE clause other than NO OTHERS is not yet supported (M11.10)"
      else checkSliding kinds
  | none => classifyDefault false kinds

/-! ## What is compiled -/

/-- A call of a window function: what the code for its arguments and its `FILTER` does on a
sorted row, and the accumulator behind it. -/
structure WindowCall (τ σ v : Type) where
  kind : AggregateKind
  filter : τ → Bool
  new : σ
  step : σ → τ → σ
  value : σ → v
  /-- A window-only function may change its state when it is read. -/
  valueMut : σ → v × σ
  emptyResult : v

/-- A result column or an ORDER BY term, with the calls in it rewritten to registers. -/
inductive Rewritten (τ v : Type) where
  | aggRef (call : Nat)
  | expr (eval : τ → List v → v)

structure OrderTerm (τ v : Type) where
  term : Rewritten τ v
  column : Option Nat

structure WindowKeys (τ : Type) where
  window : Window
  key : Expr Select Window → τ → OrderedValue

/--
A window query over sorter rows `τ`, accumulators `σ` and values `v`.  Keys are
no NaN, and the bounds of a frame are integers: one that is NULL, a real or a
text is not modelled.
-/
structure WindowSelect (τ σ v : Type) extends WindowKeys τ where
  whereClause : τ → Bool
  bound : Expr Select Window → Int
  calls : List (WindowCall τ σ v)
  outputs : List (Rewritten τ v)
  distinct : Bool
  encode : List v → Bytes
  orderBy : List (OrderTerm τ v)
  compareOuter : List v → List v → Ordering
  offset : Nat
  null : v

/-! ## The sorter -/

section

variable {τ : Type} (w : WindowKeys τ)

def partitionInfo : List KeyField := w.window.partitionBy.map fun _ => ⟨false, .binary⟩

def orderInfo : List KeyField := w.window.orderBy.map fun term => ⟨term.desc, .binary⟩

def partitionKeys (row : τ) : List OrderedValue := w.window.partitionBy.map fun e => w.key e row

def orderKeys (row : τ) : List OrderedValue := w.window.orderBy.map fun t => w.key t.expr row

def compareRegisters (info : List KeyField) (a b : List OrderedValue) : Ordering :=
  Vdbe.Sorter.compareKeys info (a.map (·.val)) (b.map (·.val))

def compareRows (a b : τ) : Ordering :=
  compareRegisters (partitionInfo w ++ orderInfo w) (partitionKeys w a ++ orderKeys w a)
    (partitionKeys w b ++ orderKeys w b)

def samePartition (partPrev : List OrderedValue) (row : τ) : Bool :=
  compareRegisters (partitionInfo w) partPrev (partitionKeys w row) == .eq

def samePeers (peerPrev : List OrderedValue) (row : τ) : Bool :=
  compareRegisters (orderInfo w) peerPrev (orderKeys w row) == .eq

end

section

variable {τ σ v β : Type} (s : WindowSelect τ σ v)

def sortedRows (rows : List τ) : List τ :=
  sort (compareRows s.toWindowKeys) (rows.filter s.whereClause)

/-! ## The accumulators -/

def aggStep (accums : List (Option σ)) (row : τ) : List (Option σ) :=
  s.calls.zipWith (fun call accum =>
    if call.filter row then some (call.step (accum.getD call.new) row) else accum) accums

def WindowCall.aggValue (call : WindowCall τ σ v) : Option σ → v × Option σ
  | none => (call.emptyResult, none)
  | some accum =>
      if call.kind.windowOnly then ((call.valueMut accum).1, some (call.valueMut accum).2)
      else (call.value accum, some accum)

def aggValues (accums : List (Option σ)) : List v :=
  s.calls.zipWith (fun call accum => (call.aggValue accum).1) accums

def afterValue (accums : List (Option σ)) : List (Option σ) :=
  s.calls.zipWith (fun call accum => (call.aggValue accum).2) accums

/-- `Null` on every accumulator register. -/
def noAccums : List (Option σ) := s.calls.map fun _ => none

def Rewritten.eval (null : v) (row : τ) (results : List v) : Rewritten τ v → v
  | .aggRef call => (results[call]?).getD null
  | .expr eval => eval row results

/-! ## Handing rows on -/

/-- Where result rows go: the DISTINCT index, the counters, the output sorter and the caller. -/
structure Delivery (v : Type) where
  seen : List Bytes
  offset : Nat
  limit : Option Int
  sorter : List (List v × List v)
  rows : List (List v)

abbrev Emission (v : Type) := List v × List v

/-- The row is passed on; says whether the LIMIT counter has come to zero. -/
def emitRow (d : Delivery v) (e : Emission v) : Delivery v × Bool :=
  if s.distinct && d.seen.contains (s.encode e.2) then (d, false)
  else
    let d := if s.distinct then { d with seen := s.encode e.2 :: d.seen } else d
    if !s.orderBy.isEmpty then ({ d with sorter := d.sorter ++ [e] }, false)
    else if 0 < d.offset then ({ d with offset := d.offset - 1 }, false)
    else
      let d := { d with rows := d.rows ++ [e.2] }
      match d.limit with
      | none => (d, false)
      | some n => ({ d with limit := some (n - 1) }, n - 1 == 0)

/-- The loop over the rows of one flush; `DecrJumpZero` leaves this loop and no other. -/
def emitAll (d : Delivery v) : List (Emission v) → Delivery v
  | [] => d
  | e :: es =>
      match emitRow s d e with
      | (d, true) => d
      | (d, false) => emitAll d es

/-- The output sorter is read from its start, past the OFFSET and up to the LIMIT. -/
def emitSortTail : Nat → Option Int → List (Emission v) → List (List v)
  | _, _, [] => []
  | offset + 1, limit, _ :: es => emitSortTail offset limit es
  | 0, none, e :: es => e.2 :: emitSortTail 0 none es
  | 0, some n, e :: es => e.2 :: if n - 1 == 0 then [] else emitSortTail 0 (some (n - 1)) es

/-! ## Row by row -/

structure RowWalk (σ v : Type) where
  partPrev : List OrderedValue
  accums : List (Option σ)

def RowWalk.start : RowWalk σ v := ⟨s.window.partitionBy.map fun _ => .null, noAccums s⟩

def RowWalk.step (w : RowWalk σ v) (row : τ) : RowWalk σ v :=
  if samePartition s.toWindowKeys w.partPrev row then { w with accums := aggStep s w.accums row }
  else ⟨partitionKeys s.toWindowKeys row, aggStep s (noAccums s) row⟩

/-- The row as it is sent, with the registers of the calls as they stand. -/
def emission (results : List v) (row : τ) : Emission v :=
  (s.orderBy.map fun t => t.term.eval s.null row results,
    s.outputs.map fun o => o.eval s.null row results)

def walkRows (d : Delivery v) (w : RowWalk σ v) : List τ → Delivery v
  | [] => d
  | row :: rows =>
      let w := w.step s row
      match emitRow s d (emission s (aggValues s w.accums) row) with
      | (d, true) => d
      | (d, false) => walkRows d { w with accums := afterValue s w.accums } rows

/-! ## Peer group by peer group -/

/-- The registers of the walk.  `out` is what the flushed groups have become. -/
structure PeerWalk (σ v β : Type) where
  partPrev : List OrderedValue
  peerPrev : List OrderedValue
  accums : List (Option σ)
  results : List v
  pending : Bool
  buffer : List (List v)
  out : β

def PeerWalk.start (out : β) : PeerWalk σ v β where
  partPrev := s.window.partitionBy.map fun _ => .null
  peerPrev := s.window.orderBy.map fun _ => .null
  accums := noAccums s
  results := s.calls.map fun _ => s.null
  pending := false
  buffer := []
  out := out

/-- A buffered row with the columns that are calls overwritten.  The ORDER BY terms that are
not calls are looked up among the buffered columns. -/
def flushed (results : List v) (cells : List v) : Emission v :=
  (s.orderBy.map fun t =>
    match t.term with
    | .aggRef call => (results[call]?).getD s.null
    | .expr _ => (t.column.bind fun c => cells[c]?).getD s.null,
    s.outputs.zipWith (fun o cell =>
      match o with
      | .aggRef call => (results[call]?).getD s.null
      | .expr _ => cell) cells)

variable (sink : β → List (Emission v) → β)

def PeerWalk.flush (w : PeerWalk σ v β) : PeerWalk σ v β :=
  { w with
    results := aggValues s w.accums
    accums := afterValue s w.accums
    out := sink w.out (w.buffer.map (flushed s (aggValues s w.accums)))
    buffer := [] }

def PeerWalk.flushPending (w : PeerWalk σ v β) : PeerWalk σ v β :=
  if w.pending then w.flush s sink else w

def nullLast (registers : List OrderedValue) : List OrderedValue :=
  registers.set (registers.length - 1) .null

def PeerWalk.changePartition (w : PeerWalk σ v β) (row : τ) : PeerWalk σ v β :=
  { w.flushPending s sink with
    accums := noAccums s
    partPrev := partitionKeys s.toWindowKeys row
    peerPrev := nullLast w.peerPrev
    pending := false }

def PeerWalk.changePeers (w : PeerWalk σ v β) (row : τ) : PeerWalk σ v β :=
  { w.flushPending s sink with
    pending := false
    peerPrev := orderKeys s.toWindowKeys row }

def PeerWalk.bufferRow (w : PeerWalk σ v β) (row : τ) : PeerWalk σ v β :=
  { w with
    accums := aggStep s w.accums row
    buffer := w.buffer ++ [s.outputs.map fun o => o.eval s.null row w.results]
    pending := true }

/-- One round of the walk.  Without PARTITION BY or ORDER BY there are no registers to compare,
and no registers compare equal. -/
def PeerWalk.step (w : PeerWalk σ v β) (row : τ) : PeerWalk σ v β :=
  let w :=
    if samePartition s.toWindowKeys w.partPrev row then w else w.changePartition s sink row
  let w := if samePeers s.toWindowKeys w.peerPrev row then w else w.changePeers s sink row
  w.bufferRow s row

def walkPeers (out : β) (rows : List τ) : β :=
  ((rows.foldl (PeerWalk.step s sink) (PeerWalk.start s out)).flushPending s sink).out

/-! ## Partition by partition -/

def computeFrameBounds (frame : Frame) (i n : Int) : Int × Int :=
  (match frame.start with
    | .unboundedPreceding => 1
    | .currentRow => i
    | .preceding e => max 1 (i - s.bound e)
    | .following e => max 1 (i + s.bound e)
    | .unboundedFollowing => 1,
    match frame.end with
    | none | some .currentRow => i
    | some .unboundedFollowing => n
    | some (.preceding e) => min n (i - s.bound e)
    | some (.following e) => min n (i + s.bound e)
    | some .unboundedPreceding => 1)

def frameRows (cache : List τ) (start stop : Int) : List τ :=
  (List.range (stop + 1 - start).toNat).filterMap fun d : Nat => cache[(start + d - 1).toNat]?

def slidingResults (frame : Frame) (cache : List τ) (i : Nat) : List v :=
  let bounds := computeFrameBounds s frame i cache.length
  aggValues s ((frameRows cache bounds.1 bounds.2).foldl (aggStep s) (noAccums s))

def partitionEmissions (frame : Frame) (cache : List τ) : List (Emission v) :=
  cache.mapIdx fun i row => emission s (slidingResults s frame cache (i + 1)) row

structure SlidingWalk (τ β : Type) where
  partPrev : List OrderedValue
  pending : Bool
  cache : List τ
  out : β

def SlidingWalk.start (out : β) : SlidingWalk τ β :=
  ⟨s.window.partitionBy.map fun _ => .null, false, [], out⟩

def SlidingWalk.flushPending (frame : Frame) (w : SlidingWalk τ β) : SlidingWalk τ β :=
  if w.pending then { w with out := sink w.out (partitionEmissions s frame w.cache) } else w

def SlidingWalk.changePartition (frame : Frame) (w : SlidingWalk τ β) (row : τ) :
    SlidingWalk τ β :=
  { w.flushPending s sink frame with cache := [], partPrev := partitionKeys s.toWindowKeys row }

def SlidingWalk.step (frame : Frame) (w : SlidingWalk τ β) (row : τ) : SlidingWalk τ β :=
  let w :=
    if samePartition s.toWindowKeys w.partPrev row then w
    else w.changePartition s sink frame row
  { w with cache := w.cache ++ [row], pending := true }

def walkPartitions (frame : Frame) (out : β) (rows : List τ) : β :=
  ((rows.foldl (SlidingWalk.step s sink frame) (SlidingWalk.start s out)).flushPending
    s sink frame).out

end

/-! ## The query -/

section

variable {τ σ v : Type} (s : WindowSelect τ σ v)

/-- The walk of the given shape over the sorted rows; a sliding frame is always an explicit one. -/
def walk (kind : FrameKind) (d : Delivery v) (rows : List τ) : Delivery v :=
  match kind, s.window.frame with
  | .perRow, _ => walkRows s d (RowWalk.start s) rows
  | .perPeerGroup, _ => walkPeers s (emitAll s) d rows
  | .sliding, some frame => walkPartitions s (emitAll s) frame d rows
  | .sliding, none => d

def Delivery.start (offset : Nat) (limit : Option Nat) : Delivery v :=
  ⟨[], offset, limit.map Int.ofNat, [], []⟩

def windowScan (kind : FrameKind) (limit : Option Nat) (rows : List τ) : List (List v) :=
  if limit = some 0 then []
  else
    let d := walk s kind (Delivery.start s.offset limit) (sortedRows s rows)
    if s.orderBy.isEmpty then d.rows
    else emitSortTail d.offset d.limit (sort (fun a b => s.compareOuter a.1 b.1) d.sorter)

def runWindowSelect (limit : Option Nat) (rows : List τ) : Except String (List (List v)) := do
  let kind ← classifyFrame (s.calls.map (·.kind)) s.window
  return windowScan s kind limit rows

end

end Rustqlite.Codegen.Window
