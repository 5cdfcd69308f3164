import Rustqlite.Codegen.WindowFrames

/-!
# LIMIT in a window query

The counter of the LIMIT leaves the loop over one peer group or one partition,
and the walk goes on with the next.  The rows of a query with a LIMIT are
compared with those of the same query without it.
-/

namespace Rustqlite.Codegen.Window

open Foundation Rustqlite.Parser Func Vdbe.Sorter

/-! ## Flush by flush -/

section

variable {τ σ v β γ : Type} (s : WindowSelect τ σ v)

def batches (kind : FrameKind) (rows : List τ) : List (List (Emission v)) :=
  match kind, s.window.frame with
  | .perRow, _ => [rowEmissions s (RowWalk.start s) rows]
  | .perPeerGroup, _ => walkPeers s (fun bs es => bs ++ [es]) [] rows
  | .sliding, some frame => walkPartitions s (fun bs es => bs ++ [es]) frame [] rows
  | .sliding, none => []

def PeerWalk.mapOut (g : β → γ) (w : PeerWalk σ v β) : PeerWalk σ v γ :=
  ⟨w.partPrev, w.peerPrev, w.accums, w.results, w.pending, w.buffer, g w.out⟩

def SlidingWalk.mapOut (g : β → γ) (w : SlidingWalk τ β) : SlidingWalk τ γ :=
  ⟨w.partPrev, w.pending, w.cache, g w.out⟩

variable {s} {sink : β → List (Emission v) → β} {sink' : γ → List (Emission v) → γ}
  {g : β → γ}

section

variable (hg : ∀ b es, g (sink b es) = sink' (g b) es)

include hg

theorem PeerWalk.mapOut_flushPending (w : PeerWalk σ v β) :
    (w.flushPending s sink).mapOut g = (w.mapOut g).flushPending s sink' := by
  cases hpending : w.pending with
  | false => simp [flushPending, mapOut, hpending]
  | true => simp [flushPending, flush, mapOut, hpending, hg]

theorem PeerWalk.mapOut_step (w : PeerWalk σ v β) (row : τ) :
    (w.step s sink row).mapOut g = (w.mapOut g).step s sink' row := by
  have hpartition (w : PeerWalk σ v β) :
      (w.changePartition s sink row).mapOut g = (w.mapOut g).changePartition s sink' row := by
    rw [changePartition, changePartition, ← mapOut_flushPending hg]
    rfl
  have hpeers (w : PeerWalk σ v β) :
      (w.changePeers s sink row).mapOut g = (w.mapOut g).changePeers s sink' row := by
    rw [changePeers, changePeers, ← mapOut_flushPending hg]
    rfl
  have hfirst :
      (if samePartition s.toWindowKeys w.partPrev row then w
        else w.changePartition s sink row).mapOut g =
      if samePartition s.toWindowKeys (w.mapOut g).partPrev row then w.mapOut g
        else (w.mapOut g).changePartition s sink' row := by
    rw [apply_ite (mapOut g), hpartition]
    rfl
  rw [step, step, ← hfirst]
  generalize (if samePartition s.toWindowKeys w.partPrev row then w
    else w.changePartition s sink row) = w'
  have hsecond :
      (if samePeers s.toWindowKeys w'.peerPrev row then w'
        else w'.changePeers s sink row).mapOut g =
      if samePeers s.toWindowKeys (w'.mapOut g).peerPrev row then w'.mapOut g
        else (w'.mapOut g).changePeers s sink' row := by
    rw [apply_ite (mapOut g), hpeers]
    rfl
  exact congrArg (fun w => bufferRow s w row) hsecond

theorem walkPeers_mapOut (out : β) (rows : List τ) :
    g (walkPeers s sink out rows) = walkPeers s sink' (g out) rows := by
  have hrun : (rows.foldl (PeerWalk.step s sink) (PeerWalk.start s out)).mapOut g =
      rows.foldl (PeerWalk.step s sink') (PeerWalk.start s (g out)) :=
    (List.foldl_hom (PeerWalk.mapOut g) fun w row => (PeerWalk.mapOut_step hg w row).symm).symm
  have hend := PeerWalk.mapOut_flushPending (s := s) hg
    (rows.foldl (PeerWalk.step s sink) (PeerWalk.start s out))
  rw [hrun] at hend
  exact congrArg PeerWalk.out hend

theorem SlidingWalk.mapOut_flushPending (frame : Frame) (w : SlidingWalk τ β) :
    (w.flushPending s sink frame).mapOut g = (w.mapOut g).flushPending s sink' frame := by
  cases hpending : w.pending with
  | false => simp [flushPending, mapOut, hpending]
  | true => simp [flushPending, mapOut, hpending, hg]

theorem SlidingWalk.mapOut_step (frame : Frame) (w : SlidingWalk τ β) (row : τ) :
    (w.step s sink frame row).mapOut g = (w.mapOut g).step s sink' frame row := by
  have hpartition : (w.changePartition s sink frame row).mapOut g =
      (w.mapOut g).changePartition s sink' frame row := by
    rw [changePartition, changePartition, ← mapOut_flushPending hg]
    rfl
  have hfirst :
      (if samePartition s.toWindowKeys w.partPrev row then w
        else w.changePartition s sink frame row).mapOut g =
      if samePartition s.toWindowKeys (w.mapOut g).partPrev row then w.mapOut g
        else (w.mapOut g).changePartition s sink' frame row := by
    rw [apply_ite (mapOut g), hpartition]
    rfl
  rw [step, step, ← hfirst]
  rfl

theorem walkPartitions_mapOut (frame : Frame) (out : β) (rows : List τ) :
    g (walkPartitions s sink frame out rows) = walkPartitions s sink' frame (g out) rows := by
  have hrun : (rows.foldl (SlidingWalk.step s sink frame) (SlidingWalk.start s out)).mapOut g =
      rows.foldl (SlidingWalk.step s sink' frame) (SlidingWalk.start s (g out)) :=
    (List.foldl_hom (SlidingWalk.mapOut g) fun w row =>
      (SlidingWalk.mapOut_step hg frame w row).symm).symm
  have hend := SlidingWalk.mapOut_flushPending (s := s) hg frame
    (rows.foldl (SlidingWalk.step s sink frame) (SlidingWalk.start s out))
  rw [hrun] at hend
  exact congrArg SlidingWalk.out hend

end

theorem walkRows_eq (d : Delivery v) (w : RowWalk σ v) (rows : List τ) :
    walkRows s d w rows = emitAll s d (rowEmissions s w rows) := by
  induction rows generalizing d w with
  | nil => rfl
  | cons row rows ih =>
      rw [walkRows, rowEmissions, emitAll]
      cases emitRow s d (emission s (aggValues s (w.step s row).accums) row) with
      | mk d stop =>
          cases stop with
          | true => rfl
          | false => exact ih d _

theorem walk_eq (kind : FrameKind) (d : Delivery v) (rows : List τ) :
    walk s kind d rows = (batches s kind rows).foldl (emitAll s) d := by
  have hg (bs : List (List (Emission v))) (es : List (Emission v)) :
      (bs ++ [es]).foldl (emitAll s) d = emitAll s (bs.foldl (emitAll s) d) es := by
    rw [List.foldl_append]
    rfl
  cases kind with
  | perRow => exact walkRows_eq d _ rows
  | perPeerGroup =>
      exact (walkPeers_mapOut (g := fun bs => bs.foldl (emitAll s) d) hg [] rows).symm
  | sliding =>
      cases hframe : s.window.frame with
      | none => simp [walk, batches, hframe]
      | some frame =>
          simp only [walk, batches, hframe]
          exact (walkPartitions_mapOut (g := fun bs => bs.foldl (emitAll s) d) hg frame []
            rows).symm

theorem emissions_eq (kind : FrameKind) (rows : List τ) :
    emissions s kind rows = (batches s kind rows).flatten := by
  have hg (bs : List (List (Emission v))) (es : List (Emission v)) :
      (bs ++ [es]).flatten = bs.flatten ++ es := by
    simp
  cases kind with
  | perRow => simp [emissions, batches]
  | perPeerGroup => exact (walkPeers_mapOut (g := List.flatten) hg [] rows).symm
  | sliding =>
      cases hframe : s.window.frame with
      | none => simp [emissions, batches, hframe]
      | some frame =>
          simp only [emissions, batches, hframe]
          exact (walkPartitions_mapOut (g := List.flatten) hg frame [] rows).symm

end

/-! ## The groups behind the flushes -/

variable {p k : Nat} {kind : FrameKind}

section

variable {τ σ v : Type} {cmp : τ → τ → Ordering}

def Batched (cmp : τ → τ → Ordering) (rows : List τ) (bs : List (List (Emission v))) :
    Prop :=
  ∃ groups : List (List τ), groups.flatten = rows ∧
    groups.map List.length = bs.map List.length ∧
    (∀ group ∈ groups, ∀ a ∈ group, ∀ b ∈ group, cmp a b = .eq) ∧
    groups.Pairwise fun group later => ∀ a ∈ group, ∀ b ∈ later, cmp a b = .lt

theorem batched_nil : Batched cmp [] ([] : List (List (Emission v))) :=
  ⟨[], rfl, rfl, by simp, .nil⟩

variable {bs front back : List (List (Emission v))} {rows : List τ} {batch : List (Emission v)}

theorem Batched.flush [Std.TransCmp cmp] {read done group : List τ} {last : τ}
    {es : List (Emission v)} (h : Batched cmp done bs) (hcut : Cut cmp read done group last)
    (hlen : group.length = es.length) : Batched cmp read (bs ++ [es]) := by
  obtain ⟨groups, hflat, hlens, htogether, hapart⟩ := h
  refine ⟨groups ++ [group], ?_, ?_, ?_, ?_⟩
  · rw [List.flatten_append, hflat, hcut.split]
    simp
  · rw [List.map_append, List.map_append, hlens, List.map_singleton, List.map_singleton, hlen]
  · intro other hother a ha b hb
    rw [List.mem_append, List.mem_singleton] at hother
    rcases hother with hother | rfl
    · exact htogether other hother a ha b hb
    · exact Std.TransCmp.eq_trans (hcut.together a ha)
        (Std.OrientedCmp.eq_symm (hcut.together b hb))
  · rw [List.pairwise_append]
    refine ⟨hapart, List.pairwise_singleton _ _, ?_⟩
    intro earlier hearlier later hlater a ha b hb
    rw [List.mem_singleton] at hlater
    subst hlater
    have hmem : a ∈ done := by
      rw [← hflat]
      exact List.mem_flatten.mpr ⟨earlier, hearlier, ha⟩
    exact Std.TransCmp.lt_of_lt_of_eq (hcut.apart a hmem)
      (Std.OrientedCmp.eq_symm (hcut.together b hb))

theorem Batched.split (h : Batched cmp rows (front ++ batch :: back)) :
    ∃ before group after, rows = before ++ (group ++ after) ∧
      before.length = front.flatten.length ∧ group.length = batch.length ∧
      (∀ a ∈ group, ∀ b ∈ group, cmp a b = .eq) ∧
      ∀ a ∈ group, ∀ b ∈ after, cmp a b = .lt := by
  obtain ⟨groups, rfl, hlens, htogether, hapart⟩ := h
  rw [List.map_append, List.map_eq_append_iff] at hlens
  obtain ⟨before, rest, rfl, hfront, hrest⟩ := hlens
  rw [List.map_cons, List.map_eq_cons_iff] at hrest
  obtain ⟨group, after, rfl, hgroup, hback⟩ := hrest
  refine ⟨before.flatten, group, after.flatten, by simp, ?_, hgroup, ?_, ?_⟩
  · rw [List.length_flatten, List.length_flatten, hfront]
  · exact htogether group (by simp)
  · intro a ha b hb
    obtain ⟨later, hlater, hmem⟩ := List.mem_flatten.mp hb
    have htail := (List.pairwise_append.mp hapart).2.1
    exact (List.pairwise_cons.mp htail).1 later hlater a ha b hmem

theorem Batched.length (h : Batched cmp rows bs) : rows.length = bs.flatten.length := by
  obtain ⟨groups, rfl, hlens, -, -⟩ := h
  rw [List.length_flatten, List.length_flatten, hlens]

theorem Batched.ne_eq_iff (h : Batched cmp rows (front ++ batch :: back)) {q : Nat} {a b : τ}
    (ha : rows[p]? = some a) (hb : rows[q]? = some b) (hpq : p < q)
    (hfirst : front.flatten.length ≤ p) (hlast : p < front.flatten.length + batch.length) :
    cmp a b ≠ .eq ↔ front.flatten.length + batch.length ≤ q := by
  obtain ⟨before, group, after, rfl, hbefore, hgroup, htogether, hapart⟩ := h.split
  rw [List.getElem?_append_right (by omega)] at ha hb
  rw [List.getElem?_append_left (by omega)] at ha
  have hamem := List.mem_of_getElem? ha
  constructor
  · intro hne
    by_contra hq
    rw [List.getElem?_append_left (by omega)] at hb
    exact hne (htogether a hamem b (List.mem_of_getElem? hb))
  · intro hq
    rw [List.getElem?_append_right (by omega)] at hb
    rw [hapart a hamem b (List.mem_of_getElem? hb)]
    decide

def groupOrder (kind : FrameKind) (w : WindowKeys τ) : τ → τ → Ordering :=
  match kind with
  | .perRow => fun _ _ => .eq
  | .perPeerGroup => compareRows w
  | .sliding => partitionOrder w

theorem length_rowEmissions (s : WindowSelect τ σ v) (w : RowWalk σ v) (rows : List τ) :
    (rowEmissions s w rows).length = rows.length := by
  induction rows generalizing w with
  | nil => rfl
  | cons row rows ih => rw [rowEmissions, List.length_cons, ih, List.length_cons]

theorem batched_batches (s : WindowSelect τ σ v) (hframe : kind = .sliding → s.window.frame.isSome)
    (h : InOrder (compareRows s.toWindowKeys) rows) :
    Batched (groupOrder kind s.toWindowKeys) rows (batches s kind rows) := by
  cases kind with
  | perRow =>
      refine ⟨[rows], by simp, ?_, fun _ _ _ _ _ _ => rfl, List.pairwise_singleton _ _⟩
      rw [batches, List.map_singleton, List.map_singleton, length_rowEmissions]
  | perPeerGroup =>
      have hsink : PeerSink s (fun bs es => bs ++ [es])
          fun _ done (bs : List (List (Emission v))) =>
            Batched (compareRows s.toWindowKeys) done bs := by
        constructor
        · exact fun h _ => h
        · intro read done group last accums buffer out hbatched hcut _ hbuffer
          exact hbatched.flush hcut (by rw [List.length_map, hbuffer.length_eq])
      exact handedOn_walkPeers hsink batched_nil h
  | sliding =>
      obtain ⟨frame, hsome⟩ := Option.isSome_iff_exists.mp (hframe rfl)
      have hsink : PartitionSink s frame (fun bs es => bs ++ [es])
          fun done (bs : List (List (Emission v))) =>
            Batched (partitionOrder s.toWindowKeys) done bs := by
        intro read done group last out hbatched hcut
        exact hbatched.flush hcut (by simp [partitionEmissions])
      simp only [batches, hsome]
      exact handedOn_walkPartitions hsink batched_nil (h.imp partitionOrder_isLE)

end

/-! ## One row on its way out -/

section

variable {τ σ v : Type} (s : WindowSelect τ σ v)

def isRepeat (seen : List Bytes) (e : Emission v) : Bool :=
  s.distinct && seen.contains (s.encode e.2)

def noteSeen (seen : List Bytes) (e : Emission v) : List Bytes :=
  if s.distinct then s.encode e.2 :: seen else seen

variable {s} {d : Delivery v} {e : Emission v}

theorem emitRow_repeat (h : isRepeat s d.seen e = true) : emitRow s d e = (d, false) :=
  if_pos h

theorem emitRow_sorter (h : isRepeat s d.seen e = false) (horder : s.orderBy.isEmpty = false) :
    emitRow s d e =
      ({ d with seen := noteSeen s d.seen e, sorter := d.sorter ++ [e] }, false) := by
  rw [isRepeat] at h
  rw [emitRow, h, horder, noteSeen]
  cases s.distinct <;> rfl

theorem emitRow_skip (h : isRepeat s d.seen e = false) (horder : s.orderBy.isEmpty = true)
    (hoffset : 0 < d.offset) :
    emitRow s d e = ({ d with seen := noteSeen s d.seen e, offset := d.offset - 1 }, false) := by
  rw [isRepeat] at h
  rw [emitRow, h, horder, noteSeen]
  cases s.distinct <;> simp [hoffset]

theorem emitRow_send (h : isRepeat s d.seen e = false) (horder : s.orderBy.isEmpty = true)
    (hoffset : d.offset = 0) :
    emitRow s d e =
      ({ d with
          seen := noteSeen s d.seen e
          limit := d.limit.map (· - 1)
          rows := d.rows ++ [e.2] }, d.limit == some 1) := by
  rw [isRepeat] at h
  rw [emitRow, h, horder, noteSeen]
  cases hlimit : d.limit with
  | none => cases s.distinct <;> simp [hoffset, hlimit]
  | some n =>
      have hzero : (n - 1 == 0) = (n == 1) := by
        rw [Bool.eq_iff_iff, beq_iff_eq, beq_iff_eq]
        omega
      cases s.distinct <;> simp [hoffset, hlimit, hzero]

theorem emitRow_cases (horder : s.orderBy.isEmpty = true) (d : Delivery v) (e : Emission v) :
    isRepeat s d.seen e = true ∧ emitRow s d e = (d, false) ∨
      isRepeat s d.seen e = false ∧ 0 < d.offset ∧
        emitRow s d e = ({ d with seen := noteSeen s d.seen e, offset := d.offset - 1 }, false) ∨
      isRepeat s d.seen e = false ∧ d.offset = 0 ∧
        emitRow s d e =
          ({ d with
              seen := noteSeen s d.seen e
              limit := d.limit.map (· - 1)
              rows := d.rows ++ [e.2] }, d.limit == some 1) := by
  cases h : isRepeat s d.seen e with
  | true => exact .inl ⟨rfl, emitRow_repeat h⟩
  | false =>
      rcases Nat.eq_zero_or_pos d.offset with hoffset | hoffset
      · exact .inr (.inr ⟨rfl, hoffset, emitRow_send h horder hoffset⟩)
      · exact .inr (.inl ⟨rfl, hoffset, emitRow_skip h horder hoffset⟩)

end

/-! ## The counter -/

section

variable {τ σ v : Type} (s : WindowSelect τ σ v)

def emitEach (d : Delivery v) (es : List (Emission v)) : Delivery v :=
  es.foldl (fun d e => (emitRow s d e).1) d

def Delivery.withLimit (d : Delivery v) (limit : Option Int) : Delivery v := { d with limit }

def returned (es : List (Emission v)) : List (List v) :=
  (emitEach s (Delivery.start s.offset none) es).rows

variable {s}

theorem emitEach_append (d : Delivery v) (es es' : List (Emission v)) :
    emitEach s d (es ++ es') = emitEach s (emitEach s d es) es' :=
  List.foldl_append

variable (horder : s.orderBy.isEmpty = true)

include horder

/-- One row adds one row to the result, or none; the counter counts it and nothing else looks at
the counter. -/
theorem emitRow_withLimit (d : Delivery v) (e : Emission v) :
    ∃ more, more.length ≤ 1 ∧ (emitRow s d e).1.rows = d.rows ++ more ∧
      ∀ n, emitRow s (d.withLimit (some n)) e =
        ((emitRow s d e).1.withLimit (some (n - more.length)),
          !more.isEmpty && n == 1) := by
  rcases emitRow_cases horder d e with ⟨h, heq⟩ | ⟨h, hoffset, heq⟩ | ⟨h, hoffset, heq⟩
  · refine ⟨[], by simp, by simp [heq], ?_⟩
    intro n
    rw [heq, emitRow_repeat (d := d.withLimit (some n)) h]
    simp
  · refine ⟨[], by simp, by simp [heq], ?_⟩
    intro n
    rw [heq, emitRow_skip (d := d.withLimit (some n)) h horder hoffset]
    simp [Delivery.withLimit]
  · refine ⟨[e.2], by simp, by simp [heq], ?_⟩
    intro n
    rw [heq, emitRow_send (d := d.withLimit (some n)) h horder hoffset]
    rfl

theorem emitEach_withLimit (d : Delivery v) (es : List (Emission v)) :
    ∃ more, (emitEach s d es).rows = d.rows ++ more ∧
      ∀ n, emitEach s (d.withLimit (some n)) es =
        (emitEach s d es).withLimit (some (n - more.length)) := by
  induction es generalizing d with
  | nil => exact ⟨[], (List.append_nil _).symm, fun n => by simp [emitEach]⟩
  | cons e es ih =>
      obtain ⟨one, hone, hrow, hlimit⟩ := emitRow_withLimit horder d e
      obtain ⟨more, hrows, hlimits⟩ := ih (emitRow s d e).1
      refine ⟨one ++ more, ?_, ?_⟩
      · rw [emitEach, List.foldl_cons, ← emitEach, hrows, hrow, List.append_assoc]
      · intro n
        rw [emitEach, List.foldl_cons, ← emitEach, hlimit, hlimits, List.length_append,
          Nat.cast_add, sub_sub]
        rfl

theorem emitAll_of_le (d : Delivery v) (es : List (Emission v))
    (hlimit : ∀ n, d.limit = some n → n ≤ 0) : emitAll s d es = emitEach s d es := by
  induction es generalizing d with
  | nil => rfl
  | cons e es ih =>
      rw [emitAll, emitEach, List.foldl_cons, ← emitEach]
      rcases emitRow_cases horder d e with ⟨-, heq⟩ | ⟨-, -, heq⟩ | ⟨-, -, heq⟩
      · rw [heq]
        exact ih d hlimit
      · rw [heq]
        exact ih _ hlimit
      · have hflag : (d.limit == some 1) = false := by
          rw [beq_eq_false_iff_ne]
          intro hone
          exact absurd (hlimit 1 hone) (by decide)
        rw [heq, hflag]
        apply ih
        intro n hn
        rw [Option.map_eq_some_iff] at hn
        obtain ⟨m, hm, rfl⟩ := hn
        have := hlimit m hm
        omega

/-- A counter that the rows do not bring to zero stops nothing; one that they do stops at the
row that does. -/
theorem emitAll_withLimit (d : Delivery v) (es : List (Emission v)) (hk : d.rows.length < k) :
    (emitEach s d es).rows.length < k ∧
        emitAll s (d.withLimit (some (k - d.rows.length))) es =
          (emitEach s d es).withLimit (some (k - (emitEach s d es).rows.length)) ∨
      ∃ front e back, es = front ++ e :: back ∧ (emitEach s d front).rows.length < k ∧
        (emitEach s d (front ++ [e])).rows.length = k ∧
        emitAll s (d.withLimit (some (k - d.rows.length))) es =
          (emitEach s d (front ++ [e])).withLimit (some 0) := by
  induction es generalizing d with
  | nil => exact .inl ⟨hk, rfl⟩
  | cons e es ih =>
      obtain ⟨more, hone, hrow, hlimit⟩ := emitRow_withLimit horder d e
      have hlen : (emitRow s d e).1.rows.length = d.rows.length + more.length := by
        rw [hrow, List.length_append]
      have hcount : (k : Int) - d.rows.length - more.length =
          k - (emitRow s d e).1.rows.length := by
        rw [hlen]
        omega
      rw [emitAll, hlimit, hcount]
      cases hstop : (!more.isEmpty && (k : Int) - d.rows.length == 1) with
      | true =>
          rw [Bool.and_eq_true, beq_iff_eq] at hstop
          have hlast : more.length ≠ 0 := by simpa using hstop.1
          refine .inr ⟨[], e, es, rfl, hk, ?_, ?_⟩
          · change (emitRow s d e).1.rows.length = k
            omega
          · change (emitRow s d e).1.withLimit _ = (emitRow s d e).1.withLimit (some 0)
            congr 2
            omega
      | false =>
          have hk' : (emitRow s d e).1.rows.length < k := by
            rw [Bool.and_eq_false_iff] at hstop
            rcases hstop with hstop | hstop
            · have hnone : more = [] := by simpa using hstop
              rw [hlen, hnone]
              exact hk
            · rw [beq_eq_false_iff_ne] at hstop
              omega
          rcases ih (emitRow s d e).1 hk' with ⟨hrest, heq⟩ | ⟨front, e', back, rfl, hrest⟩
          · exact .inl ⟨hrest, heq⟩
          · exact .inr ⟨e :: front, e', back, rfl, hrest⟩

/-- The same for flush after flush: the one in which the counter comes to zero stops, and those
after it do not. -/
theorem foldl_emitAll (bs : List (List (Emission v))) (d : Delivery v) (hk : d.rows.length < k) :
    (emitEach s d bs.flatten).rows.length < k ∧
        bs.foldl (emitAll s) (d.withLimit (some (k - d.rows.length))) =
          (emitEach s d bs.flatten).withLimit
            (some (k - (emitEach s d bs.flatten).rows.length)) ∨
      ∃ front first e last back, bs = front ++ (first ++ e :: last) :: back ∧
        (emitEach s d (front.flatten ++ first)).rows.length < k ∧
        (emitEach s d (front.flatten ++ first ++ [e])).rows.length = k ∧
        bs.foldl (emitAll s) (d.withLimit (some (k - d.rows.length))) =
          back.foldl (emitAll s)
            ((emitEach s d (front.flatten ++ first ++ [e])).withLimit (some 0)) := by
  induction bs generalizing d with
  | nil => exact .inl ⟨hk, rfl⟩
  | cons es bs ih =>
      rw [List.foldl_cons]
      rcases emitAll_withLimit horder d es hk with
        ⟨hk', heq⟩ | ⟨first, e, last, rfl, hfirst, hlast, heq⟩
      · rw [heq, List.flatten_cons, emitEach_append]
        rcases ih (emitEach s d es) hk' with
          ⟨hrest, heq'⟩ | ⟨front, first, e, last, back, rfl, hfirst, hlast, heq'⟩
        · exact .inl ⟨hrest, heq'⟩
        · refine .inr ⟨es :: front, first, e, last, back, rfl, ?_, ?_, ?_⟩
          · rwa [List.flatten_cons, List.append_assoc, emitEach_append]
          · rwa [List.flatten_cons, List.append_assoc, List.append_assoc, emitEach_append,
              ← List.append_assoc]
          · have hassoc : es ++ front.flatten ++ first ++ [e] =
                es ++ (front.flatten ++ first ++ [e]) := by
              simp only [List.append_assoc]
            rw [heq', List.flatten_cons, hassoc, emitEach_append d es]
      · exact .inr ⟨[], first, e, last, bs, rfl, hfirst, hlast, by rw [heq]; rfl⟩

theorem limit_emitEach (d : Delivery v) (es : List (Emission v)) {n : Int}
    (h : (emitEach s d es).limit = some n) : ∃ m, d.limit = some m ∧ n ≤ m := by
  induction es generalizing d with
  | nil => exact ⟨n, h, le_refl n⟩
  | cons e es ih =>
      obtain ⟨m, hm, hle⟩ := ih (emitRow s d e).1 h
      rcases emitRow_cases horder d e with ⟨-, heq⟩ | ⟨-, -, heq⟩ | ⟨-, -, heq⟩
      · rw [heq] at hm
        exact ⟨m, hm, hle⟩
      · rw [heq] at hm
        exact ⟨m, hm, hle⟩
      · rw [heq, Option.map_eq_some_iff] at hm
        obtain ⟨m', hm', rfl⟩ := hm
        exact ⟨m', hm', by omega⟩

theorem foldl_emitAll_of_le (bs : List (List (Emission v))) (d : Delivery v)
    (hlimit : ∀ n, d.limit = some n → n ≤ 0) :
    bs.foldl (emitAll s) d = emitEach s d bs.flatten := by
  induction bs generalizing d with
  | nil => rfl
  | cons es bs ih =>
      rw [List.foldl_cons, emitAll_of_le horder d es hlimit, List.flatten_cons, emitEach_append]
      apply ih
      intro n hn
      obtain ⟨m, hm, hle⟩ := limit_emitEach horder d es hn
      exact hle.trans (hlimit m hm)

theorem offset_emitEach_le (d : Delivery v) (es : List (Emission v)) :
    (emitEach s d es).offset ≤ d.offset := by
  induction es generalizing d with
  | nil => exact le_refl _
  | cons e es ih =>
      rw [emitEach, List.foldl_cons, ← emitEach]
      apply (ih _).trans
      rcases emitRow_cases horder d e with ⟨-, heq⟩ | ⟨-, -, heq⟩ | ⟨-, -, heq⟩
      · rw [heq]
      · rw [heq]
        exact Nat.sub_le _ _
      · rw [heq]

theorem offset_emitEach (d : Delivery v) (es : List (Emission v)) :
    (emitEach s d es).rows = d.rows ∨ (emitEach s d es).offset = 0 := by
  induction es generalizing d with
  | nil => exact .inl rfl
  | cons e es ih =>
      rw [emitEach, List.foldl_cons, ← emitEach]
      rcases emitRow_cases horder d e with ⟨-, heq⟩ | ⟨-, -, heq⟩ | ⟨-, hoffset, heq⟩
      · rw [heq]
        exact ih d
      · rw [heq]
        exact ih _
      · right
        have hzero : (emitRow s d e).1.offset = 0 := by
          rw [heq]
          exact hoffset
        have hle := offset_emitEach_le horder (emitRow s d e).1 es
        omega

theorem rows_emitEach_iff (d : Delivery v) (es : List (Emission v)) (hoffset : d.offset = 0) :
    (emitEach s d es).rows = d.rows ↔ ∀ e ∈ es, isRepeat s d.seen e = true := by
  induction es with
  | nil => simp [emitEach]
  | cons e es ih =>
      rw [emitEach, List.foldl_cons, ← emitEach, List.forall_mem_cons]
      rcases emitRow_cases horder d e with ⟨h, heq⟩ | ⟨-, hpos, -⟩ | ⟨h, -, heq⟩
      · rw [heq, ih]
        simp [h]
      · omega
      · obtain ⟨more, hmore, -⟩ := emitEach_withLimit horder (emitRow s d e).1 es
        rw [hmore, heq, h]
        simp

theorem mem_seen_emitEach (hdistinct : s.distinct = true) (d : Delivery v)
    (es : List (Emission v)) (b : Bytes) :
    b ∈ (emitEach s d es).seen ↔ b ∈ d.seen ∨ ∃ e ∈ es, s.encode e.2 = b := by
  induction es generalizing d with
  | nil => simp [emitEach]
  | cons e es ih =>
      have hnote : b ∈ (emitRow s d e).1.seen ↔ b ∈ d.seen ∨ s.encode e.2 = b := by
        rcases emitRow_cases horder d e with ⟨h, heq⟩ | ⟨-, -, heq⟩ | ⟨-, -, heq⟩
        · rw [heq]
          rw [isRepeat, hdistinct, Bool.true_and, List.contains_iff_mem] at h
          constructor
          · exact .inl
          · rintro (hmem | rfl)
            · exact hmem
            · exact h
        · rw [heq, noteSeen, if_pos hdistinct, List.mem_cons, or_comm, eq_comm]
        · rw [heq, noteSeen, if_pos hdistinct, List.mem_cons, or_comm, eq_comm]
      rw [emitEach, List.foldl_cons, ← emitEach, ih, hnote]
      simp [or_assoc]

end

/-! ## LIMIT -/

section

variable {τ σ v : Type} (s : WindowSelect τ σ v)

def encoded (es : List (Emission v)) : List Bytes := es.map fun e => s.encode e.2

/-- When a LIMIT of `k` returns the first `k` rows: with an outer ORDER BY; and without one if
no row past the `k`-th after the OFFSET is of another peer group or partition than it.  Under
DISTINCT only different rows count, and one of another group may come if it is a repeat. -/
def LimitMet (kind : FrameKind) (k : Nat) (rows : List τ) : Prop :=
  s.orderBy ≠ [] ∨
    ∀ p q a b, rows[p]? = some a → rows[q]? = some b → p < q →
      if s.distinct then
        ((encoded s (emissions s kind rows)).take p).toFinset.card < s.offset + k →
        ((encoded s (emissions s kind rows)).take (p + 1)).toFinset.card = s.offset + k →
        groupOrder kind s.toWindowKeys a b = .eq ∨
          ∀ e, (encoded s (emissions s kind rows))[q]? = some e →
            e ∈ (encoded s (emissions s kind rows)).take (p + 1)
      else p + 1 = s.offset + k → groupOrder kind s.toWindowKeys a b = .eq

variable {s}

theorem windowScan_none (horder : s.orderBy.isEmpty = true) (kind : FrameKind) (rows : List τ) :
    windowScan s kind none rows = returned s (emissions s kind (sortedRows s rows)) := by
  rw [windowScan, if_neg (by simp), if_pos horder, walk_eq, emissions_eq, returned,
    foldl_emitAll_of_le horder _ _ (by simp [Delivery.start])]

theorem windowScan_some (horder : s.orderBy.isEmpty = true) (kind : FrameKind) (hk : 0 < k)
    (rows : List τ) :
    (returned s (emissions s kind (sortedRows s rows))).length < k ∧
        windowScan s kind (some k) rows = returned s (emissions s kind (sortedRows s rows)) ∨
      ∃ front first e last back,
        batches s kind (sortedRows s rows) = front ++ (first ++ e :: last) :: back ∧
          (returned s (front.flatten ++ first)).length < k ∧
          (returned s (front.flatten ++ first ++ [e])).length = k ∧
          windowScan s kind (some k) rows =
            (emitEach s (emitEach s (Delivery.start s.offset none)
              (front.flatten ++ first ++ [e])) back.flatten).rows := by
  have hstart : (Delivery.start s.offset (some k) : Delivery v) =
      (Delivery.start s.offset none).withLimit
        (some (k - ((Delivery.start s.offset none : Delivery v)).rows.length)) := by
    simp [Delivery.start, Delivery.withLimit]
  rw [windowScan, if_neg (by simpa using hk.ne'), if_pos horder, walk_eq, emissions_eq, hstart]
  rcases foldl_emitAll horder (batches s kind (sortedRows s rows)) (Delivery.start s.offset none)
      hk with ⟨hlt, heq⟩ | ⟨front, first, e, last, back, hbs, hfirst, hlast, heq⟩
  · exact .inl ⟨hlt, by rw [heq]; rfl⟩
  · refine .inr ⟨front, first, e, last, back, hbs, hfirst, hlast, ?_⟩
    have hspent (n : Int) (hn : (Delivery.withLimit (emitEach s (Delivery.start s.offset none)
        (front.flatten ++ first ++ [e])) (some 0)).limit = some n) : n ≤ 0 :=
      (Option.some.inj hn).symm.le
    obtain ⟨more, -, hlimit⟩ := emitEach_withLimit horder
      (emitEach s (Delivery.start s.offset none) (front.flatten ++ first ++ [e])) back.flatten
    rw [heq, foldl_emitAll_of_le horder back _ hspent, hlimit]
    rfl

theorem isRepeat_emitEach (horder : s.orderBy.isEmpty = true) (es : List (Emission v))
    (e : Emission v) :
    isRepeat s (emitEach s (Delivery.start s.offset none) es).seen e = true ↔
      s.distinct = true ∧ ∃ e' ∈ es, s.encode e'.2 = s.encode e.2 := by
  rw [isRepeat, Bool.and_eq_true, List.contains_iff_mem]
  apply and_congr_right
  intro hdistinct
  rw [mem_seen_emitEach horder hdistinct]
  simp [Delivery.start]

def counted (s : WindowSelect τ σ v) (es : List (Emission v)) : Nat :=
  if s.distinct then (encoded s es).toFinset.card else es.length

theorem counted_append_singleton (horder : s.orderBy.isEmpty = true) (es : List (Emission v))
    (e : Emission v) :
    counted s (es ++ [e]) = counted s es +
      if isRepeat s (emitEach s (Delivery.start s.offset none) es).seen e then 0 else 1 := by
  cases hdistinct : s.distinct with
  | false => simp [counted, isRepeat, hdistinct]
  | true =>
      have hrepeat := isRepeat_emitEach horder es e
      have hmem : s.encode e.2 ∈ encoded s es ↔ ∃ e' ∈ es, s.encode e'.2 = s.encode e.2 :=
        List.mem_map
      rw [hdistinct, ← hmem] at hrepeat
      have happend : (encoded s (es ++ [e])).toFinset =
          insert (s.encode e.2) (encoded s es).toFinset := by
        rw [encoded, List.map_append, List.toFinset_append]
        simp [encoded, Finset.union_comm]
      rw [counted, counted, if_pos hdistinct, if_pos hdistinct, happend]
      by_cases hin : s.encode e.2 ∈ encoded s es
      · rw [Finset.card_insert_of_mem (List.mem_toFinset.mpr hin)]
        simp [hrepeat, hin]
      · rw [Finset.card_insert_of_notMem (by simpa using hin)]
        simp [hrepeat, hin]

theorem counted_emitEach (horder : s.orderBy.isEmpty = true) (es : List (Emission v)) :
    (returned s es).length = counted s es - s.offset ∧
      (emitEach s (Delivery.start s.offset none) es).offset = s.offset - counted s es := by
  induction es using List.reverseRecOn with
  | nil => simp [returned, counted, encoded, emitEach, Delivery.start]
  | append_singleton es e ih =>
      rw [returned, counted_append_singleton horder, emitEach_append]
      rw [returned] at ih
      change (emitRow s (emitEach s (Delivery.start s.offset none) es) e).1.rows.length = _ ∧
        (emitRow s (emitEach s (Delivery.start s.offset none) es) e).1.offset = _
      rcases emitRow_cases horder (emitEach s (Delivery.start s.offset none) es) e with
        ⟨h, heq⟩ | ⟨h, hoffset, heq⟩ | ⟨h, hoffset, heq⟩
      · rw [heq, h]
        exact ih
      · simp only [heq, h, Bool.false_eq_true, if_false]
        omega
      · simp only [heq, h, Bool.false_eq_true, if_false, List.length_append, List.length_singleton]
        omega

theorem length_returned_take_le (es : List (Emission v)) (horder : s.orderBy.isEmpty = true)
    {m n : Nat} (h : m ≤ n) :
    (returned s (es.take m)).length ≤ (returned s (es.take n)).length := by
  have hsplit : es.take n = es.take m ++ (es.take n).drop m := by
    conv_lhs => rw [← List.take_append_drop m (es.take n)]
    rw [List.take_take, min_eq_left h]
  obtain ⟨more, hmore, -⟩ := emitEach_withLimit horder
    (emitEach s (Delivery.start s.offset none) (es.take m)) ((es.take n).drop m)
  rw [returned, returned, hsplit, emitEach_append, hmore, List.length_append]
  omega

theorem length_take_of_limit (horder : s.orderBy.isEmpty = true) {es : List (Emission v)} {p' : Nat}
    (h : (returned s (es.take p)).length < k) (hlast : (returned s (es.take (p + 1))).length = k)
    (h' : (returned s (es.take p')).length < k)
    (hlast' : (returned s (es.take (p' + 1))).length = k) : p = p' := by
  rcases Nat.lt_trichotomy p p' with hlt | heq | hlt
  · have := length_returned_take_le es horder (show _ + 1 ≤ _ from hlt)
    omega
  · exact heq
  · have := length_returned_take_le es horder (show _ + 1 ≤ _ from hlt)
    omega

/-- Without an outer ORDER BY: the rows past the group of the row with which the limit is reached
would not be returned anyway. -/
def RepeatsAfter (s : WindowSelect τ σ v) (kind : FrameKind) (k : Nat) (rows : List τ) : Prop :=
  ∀ p q a b e, rows[p]? = some a → rows[q]? = some b →
    (emissions s kind rows)[q]? = some e →
    (returned s ((emissions s kind rows).take p)).length < k →
    (returned s ((emissions s kind rows).take (p + 1))).length = k →
    p < q → groupOrder kind s.toWindowKeys a b ≠ .eq →
    s.distinct = true ∧
      ∃ e' ∈ (emissions s kind rows).take (p + 1), s.encode e'.2 = s.encode e.2

variable {rows : List τ}

theorem limitMet_iff_repeatsAfter (hk : 0 < k) (horder : s.orderBy.isEmpty = true)
    (hlen : rows.length = (emissions s kind rows).length) :
    LimitMet s kind k rows ↔ RepeatsAfter s kind k rows := by
  have hlt (p : Nat) : (returned s ((emissions s kind rows).take p)).length < k ↔
      counted s ((emissions s kind rows).take p) < s.offset + k := by
    rw [(counted_emitEach horder _).1]
    omega
  have heq (p : Nat) : (returned s ((emissions s kind rows).take p)).length = k ↔
      counted s ((emissions s kind rows).take p) = s.offset + k := by
    rw [(counted_emitEach horder _).1]
    omega
  have hbound {p : Nat} {a : τ} (ha : rows[p]? = some a) : p < (emissions s kind rows).length := by
    rw [← hlen]
    exact (List.getElem?_eq_some_iff.mp ha).1
  have hnone : ¬ s.orderBy ≠ [] := by simpa using horder
  simp only [LimitMet, RepeatsAfter, hnone, false_or, hlt, heq, counted]
  cases hdistinct : s.distinct with
  | false =>
      simp only [Bool.false_eq_true, if_false, false_and, List.length_take]
      constructor
      · intro h p q a b e ha hb _ hk hk' hpq
        have := hbound ha
        exact absurd (h p q a b ha hb hpq (by omega))
      · intro h p q a b ha hb hpq hp
        have := hbound ha
        by_contra hne
        exact h p q a b _ ha hb (List.getElem?_eq_getElem (hbound hb)) (by omega) (by omega) hpq hne
  | true =>
      simp only [if_true, true_and]
      constructor
      · intro h p q a b e ha hb he hk hk' hpq hne
        have := (h p q a b ha hb hpq (by rwa [encoded, List.map_take] at hk)
          (by rwa [encoded, List.map_take] at hk')).resolve_left hne (s.encode e.2)
          (by rw [encoded, List.getElem?_map, he]; rfl)
        rwa [encoded, ← List.map_take, List.mem_map] at this
      · intro h p q a b ha hb hpq hk hk'
        rw [or_iff_not_imp_left]
        intro hne bytes hbytes
        rw [encoded, List.getElem?_map, Option.map_eq_some_iff] at hbytes
        obtain ⟨e, he, rfl⟩ := hbytes
        rw [encoded, ← List.map_take, List.mem_map]
        refine h p q a b e ha hb he ?_ ?_ hpq hne
        · rwa [encoded, List.map_take]
        · rwa [encoded, List.map_take]

theorem repeatsAfter_iff (horder : s.orderBy.isEmpty = true)
    (hbatched : Batched (groupOrder kind s.toWindowKeys) rows (batches s kind rows))
    {front back : List (List (Emission v))} {first last : List (Emission v)} {e : Emission v}
    (hbs : batches s kind rows = front ++ (first ++ e :: last) :: back)
    (hfirst : (returned s (front.flatten ++ first)).length < k)
    (hlast : (returned s (front.flatten ++ first ++ [e])).length = k) :
    RepeatsAfter s kind k rows ↔
      ∀ e' ∈ back.flatten,
        isRepeat s (emitEach s (Delivery.start s.offset none) (front.flatten ++ first ++ [e])).seen
          e' = true := by
  have hes : emissions s kind rows =
      front.flatten ++ first ++ e :: (last ++ back.flatten) := by
    rw [emissions_eq, hbs]
    simp
  have hlen : rows.length = (emissions s kind rows).length := by
    rw [hbatched.length, emissions_eq]
  have htake : (emissions s kind rows).take (front.flatten ++ first).length =
      front.flatten ++ first := by
    rw [hes, List.take_left]
  have htake' : (emissions s kind rows).take ((front.flatten ++ first).length + 1) =
      front.flatten ++ first ++ [e] := by
    rw [hes, List.take_length_add_append]
    rfl
  have hget (q : Nat) (hq : (front.flatten ++ first ++ e :: last).length ≤ q) :
      (emissions s kind rows)[q]? =
        back.flatten[q - (front.flatten ++ first ++ e :: last).length]? := by
    rw [hes, ← List.cons_append, ← List.append_assoc, List.getElem?_append_right hq]
  have hbatch : front.flatten.length + (first ++ e :: last).length =
      (front.flatten ++ first ++ e :: last).length := by
    rw [List.append_assoc]
    exact List.length_append.symm
  have hrow : (front.flatten ++ first).length < rows.length := by
    rw [hlen, hes]
    simp
  rw [hbs] at hbatched
  constructor
  · intro h e' he'
    obtain ⟨j, hj⟩ := List.mem_iff_getElem?.mp he'
    have hq := hget ((front.flatten ++ first ++ e :: last).length + j) (by omega)
    rw [Nat.add_sub_cancel_left, hj] at hq
    have hqlt := (List.getElem?_eq_some_iff.mp hq).1
    rw [← hlen] at hqlt
    rw [isRepeat_emitEach horder]
    have := h _ _ _ _ e' (List.getElem?_eq_getElem hrow)
      (List.getElem?_eq_getElem hqlt) hq (by rwa [htake]) (by rwa [htake'])
    rw [htake'] at this
    apply this
    · simp
      omega
    · rw [hbatched.ne_eq_iff (List.getElem?_eq_getElem hrow) (List.getElem?_eq_getElem hqlt)]
      · omega
      · simp
        omega
      · simp
      · simp
  · intro h p q a b e' ha hb he' hk hk' hpq hne
    have hp : p = (front.flatten ++ first).length :=
      length_take_of_limit horder hk hk' (by rwa [htake]) (by rwa [htake'])
    subst hp
    rw [hbatched.ne_eq_iff ha hb hpq (by simp) (by simp), hbatch] at hne
    rw [hget q hne] at he'
    rw [htake', ← isRepeat_emitEach horder]
    exact h e' (List.mem_of_getElem? he')

theorem windowScan_take_iff (horder : s.orderBy.isEmpty = true)
    (hframe : kind = .sliding → s.window.frame.isSome) (hk : 0 < k) (rows : List τ) :
    windowScan s kind (some k) rows = (windowScan s kind none rows).take k ↔
      LimitMet s kind k (sortedRows s rows) := by
  have hbatched : Batched (groupOrder kind s.toWindowKeys) (sortedRows s rows)
      (batches s kind (sortedRows s rows)) :=
    batched_batches s hframe (pairwise_sort _)
  have hlen : (sortedRows s rows).length = (emissions s kind (sortedRows s rows)).length := by
    rw [hbatched.length, emissions_eq]
  rw [windowScan_none horder, limitMet_iff_repeatsAfter hk horder hlen]
  rcases windowScan_some horder kind hk rows with
    ⟨hlt, heq⟩ | ⟨front, first, e, last, back, hbs, hfirst, hlast, heq⟩
  · rw [heq, List.take_of_length_le hlt.le]
    simp only [true_iff]
    intro p q a b e _ _ _ _ hk' _ _
    have hle := length_returned_take_le (emissions s kind (sortedRows s rows)) horder
      (Nat.le_add_right (p + 1) (emissions s kind (sortedRows s rows)).length)
    rw [List.take_of_length_le (Nat.le_add_left _ _)] at hle
    omega
  · rw [repeatsAfter_iff horder hbatched hbs hfirst hlast, heq]
    have hes : emissions s kind (sortedRows s rows) =
        front.flatten ++ first ++ [e] ++ (last ++ back.flatten) := by
      rw [emissions_eq, hbs]
      simp
    have hzero : (emitEach s (Delivery.start s.offset none)
        (front.flatten ++ first ++ [e])).offset = 0 := by
      refine (offset_emitEach horder _ _).resolve_left fun hnone => ?_
      rw [returned, hnone] at hlast
      exact hk.ne hlast
    obtain ⟨more, hmore, -⟩ := emitEach_withLimit horder
      (emitEach s (Delivery.start s.offset none) (front.flatten ++ first ++ [e]))
      (last ++ back.flatten)
    have htake : (returned s (emissions s kind (sortedRows s rows))).take k =
        (emitEach s (Delivery.start s.offset none) (front.flatten ++ first ++ [e])).rows := by
      rw [returned, hes, emitEach_append, hmore, ← hlast]
      exact List.take_left
    rw [htake]
    exact rows_emitEach_iff horder _ _ hzero

/-! ### With an outer ORDER BY -/

theorem emitAll_sorter (horder : s.orderBy.isEmpty = false) (d : Delivery v)
    (es : List (Emission v)) (limit : Option Int) :
    emitAll s (d.withLimit limit) es = (emitAll s d es).withLimit limit ∧
      (emitAll s d es).limit = d.limit := by
  induction es generalizing d with
  | nil => exact ⟨rfl, rfl⟩
  | cons e es ih =>
      rw [emitAll, emitAll]
      cases h : isRepeat s d.seen e with
      | true =>
          rw [emitRow_repeat h, emitRow_repeat (d := d.withLimit limit) h]
          exact ih d
      | false =>
          rw [emitRow_sorter h horder, emitRow_sorter (d := d.withLimit limit) h horder]
          exact ih { d with seen := noteSeen s d.seen e, sorter := d.sorter ++ [e] }

theorem foldl_emitAll_sorter (horder : s.orderBy.isEmpty = false) (d : Delivery v)
    (bs : List (List (Emission v))) (limit : Option Int) :
    bs.foldl (emitAll s) (d.withLimit limit) = (bs.foldl (emitAll s) d).withLimit limit ∧
      (bs.foldl (emitAll s) d).limit = d.limit := by
  induction bs generalizing d with
  | nil => exact ⟨rfl, rfl⟩
  | cons es bs ih =>
      obtain ⟨hsame, hlimit⟩ := emitAll_sorter horder d es limit
      rw [List.foldl_cons, List.foldl_cons, hsame, (ih _).1, (ih _).2]
      exact ⟨rfl, hlimit⟩

theorem emitSortTail_some (offset : Nat) (es : List (Emission v)) (hk : 0 < k) :
    emitSortTail offset (some k) es = (emitSortTail offset none es).take k := by
  induction es generalizing offset k with
  | nil => cases offset <;> simp [emitSortTail]
  | cons e es ih =>
      cases offset with
      | succ offset => exact ih offset hk
      | zero =>
          obtain ⟨k, rfl⟩ := Nat.exists_eq_add_one.mpr hk
          rw [emitSortTail, emitSortTail, List.take_succ_cons]
          rcases Nat.eq_zero_or_pos k with rfl | hpos
          · rfl
          · have hmore : (((k + 1 : Nat) : Int) - 1 == 0) = false := by
              rw [beq_eq_false_iff_ne]
              omega
            have hless : ((k + 1 : Nat) : Int) - 1 = (k : Nat) := by omega
            rw [hmore, hless, ih 0 hpos]
            rfl

theorem windowScan_sorter_take (horder : s.orderBy.isEmpty = false) (kind : FrameKind) (hk : 0 < k)
    (rows : List τ) : windowScan s kind (some k) rows = (windowScan s kind none rows).take k := by
  have hstart : (Delivery.start s.offset (some k) : Delivery v) =
      (Delivery.start s.offset none).withLimit (some k) := rfl
  obtain ⟨hsame, hlimit⟩ := foldl_emitAll_sorter horder (Delivery.start s.offset none)
    (batches s kind (sortedRows s rows)) (some k)
  have hnone : ((batches s kind (sortedRows s rows)).foldl (emitAll s)
      (Delivery.start s.offset none)).limit = none := hlimit
  rw [windowScan, if_neg (by simpa using hk.ne'), windowScan,
    if_neg (show ¬ (none : Option Nat) = some 0 by simp), walk_eq, walk_eq, hstart, hsame]
  simp only [horder, Bool.false_eq_true, if_false, hnone]
  exact emitSortTail_some _ _ hk

theorem classifyDefault_ne_sliding (anyRange : Bool) (kinds : List AggregateKind) :
    classifyDefault anyRange kinds ≠ .ok .sliding := by
  induction kinds generalizing anyRange with
  | nil => cases anyRange <;> simp [classifyDefault]
  | cons kind kinds ih => cases kind <;> simp [classifyDefault, ih]

theorem isSome_frame_of_sliding {kinds : List AggregateKind} {window : Window}
    (h : classifyFrame kinds window = .ok .sliding) : window.frame.isSome := by
  cases hframe : window.frame with
  | some frame => rfl
  | none =>
      rw [classifyFrame, hframe] at h
      exact absurd h (classifyDefault_ne_sliding false kinds)

/-- A window query with LIMIT `k` returns the first `k` rows of the same query without LIMIT. -/
theorem runWindowSelect_limit_iff {kind : FrameKind} {k : Nat} (hk : 0 < k) (rows : List τ)
    (hkind : classifyFrame (s.calls.map (·.kind)) s.window = .ok kind) :
    runWindowSelect s (some k) rows = (runWindowSelect s none rows).map (·.take k) ↔
      LimitMet s kind k (sortedRows s rows) := by
  have hscan : runWindowSelect s (some k) rows = (runWindowSelect s none rows).map (·.take k) ↔
      windowScan s kind (some k) rows = (windowScan s kind none rows).take k := by
    rw [runWindowSelect, runWindowSelect, hkind]
    exact Except.ok.injEq (windowScan s kind (some k) rows) _ ▸ Iff.rfl
  rw [hscan]
  cases horder : s.orderBy.isEmpty with
  | false =>
      simp only [windowScan_sorter_take horder kind hk, true_iff]
      left
      simpa using horder
  | true =>
      apply windowScan_take_iff horder _ hk
      rintro rfl
      exact isSome_frame_of_sliding hkind

end

/-! ## A running sum -/

def runningSum : WindowSelect Int64 Int64 Int64 where
  toWindowKeys := numberKeys runningFrame
  whereClause := fun _ => true
  bound := fun _ => 0
  calls := [⟨.sum, fun _ => true, 0, (· + ·), id, fun sum => (sum, sum), 0⟩]
  outputs := [.expr fun x _ => x, .aggRef 0]
  distinct := false
  encode := fun _ => []
  orderBy := []
  compareOuter := fun _ _ => .eq
  offset := 0
  null := 0

theorem sortedRows_runningSum : sortedRows runningSum [1, 2] = [1, 2] := sort_numbers runningFrame

/-- With LIMIT 1 both rows come. -/
theorem runningSum_ignores_limit :
    ¬ runWindowSelect runningSum (some 1) [1, 2] =
      (runWindowSelect runningSum none [1, 2]).map (·.take 1) := by
  have hrun (limit : Option Nat) (hlimit : limit ≠ some 0) :
      runWindowSelect runningSum limit [1, 2] =
        .ok (walk runningSum .perPeerGroup (Delivery.start 0 limit) [1, 2]).rows := by
    have hscan : windowScan runningSum .perPeerGroup limit [1, 2] =
        (walk runningSum .perPeerGroup (Delivery.start 0 limit)
          (sortedRows runningSum [1, 2])).rows := if_neg hlimit
    rw [sortedRows_runningSum] at hscan
    exact congrArg Except.ok hscan
  rw [hrun (some 1) (by decide), hrun none (by decide)]
  decide

/-- The row behind the second is a peer of it, so LIMIT 2 returns two of `1, 2, 2, 2`. -/
theorem runWindowSelect_limit_peers :
    runWindowSelect runningSum (some 2) [1, 2, 2, 2] =
      (runWindowSelect runningSum none [1, 2, 2, 2]).map (·.take 2) := by
  have hsorted : sortedRows runningSum [1, 2, 2, 2] = [1, 2, 2, 2] :=
    List.mergeSort_of_pairwise (by decide)
  refine (runWindowSelect_limit_iff (by decide) [1, 2, 2, 2] rfl).mpr (.inr ?_)
  rw [hsorted]
  intro p q a b ha hb hpq hp
  obtain rfl : p = 1 := by simpa [runningSum] using hp
  cases Option.some.inj ha
  have hb : b = 2 := by
    obtain ⟨r, rfl⟩ : ∃ r, q = r + 2 := ⟨q - 2, by omega⟩
    have hmem : b ∈ ([2, 2] : List Int64) := List.mem_of_getElem? hb
    simpa using hmem
  subst hb
  rfl

end Rustqlite.Codegen.Window
