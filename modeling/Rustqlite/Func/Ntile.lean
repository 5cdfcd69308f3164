import Rustqlite.Func.SlidingConcat

/-!
# Buckets

`ntile(N)` over a partition.  Its default frame ends with the partition, so every
row is stepped in before the first is read, and a row that was read is taken out
again.
-/

namespace Rustqlite.Func

open Foundation

namespace Accumulator

/-! ## The mutating read -/

/--
`iRow` rows are gone, `nTotal` were stepped in, and `nParam` is the number of buckets.
No product is over `nTotal`, so 64 bits hold what they hold of the rows.
-/
def ntileValue (acc : Accumulator) : Value :=
  let nParam := acc.nParam.toInt
  if nParam ≤ 0 then .null
  else
    let iRow := acc.nStep
    let nSize := acc.nTotal.tdiv nParam
    if nSize = 0 then .int (Int64.ofInt (iRow + 1))
    else
      let nLarge := acc.nTotal - nParam * nSize
      let iSmall := nLarge * (nSize + 1)
      if iRow < iSmall then .int (Int64.ofInt (1 + iRow.tdiv (nSize + 1)))
      else .int (Int64.ofInt (1 + nLarge + (iRow - iSmall).tdiv nSize))

def denseRankValue (acc : Accumulator) : Value × Accumulator :=
  let acc := if acc.nStep ≠ 0 then { acc with nValue := acc.nValue + 1, nStep := 0 } else acc
  (.int (Int64.ofInt acc.nValue), acc)

def quotient (R : RealArithmetic) (a b : Int) : Value :=
  .real (R.div (Double.ofInt64 (Int64.ofInt a)) (Double.ofInt64 (Int64.ofInt b)))

/-- What the functions that need an `OVER` clause are read with; some of them are changed. -/
def valueMut (R : RealArithmetic) (acc : Accumulator) : Value × Accumulator :=
  match acc.kind with
  | .rowNumber => (.int (Int64.ofInt acc.count), acc)
  | .rank => (.int (Int64.ofInt acc.nValue), { acc with nValue := 0 })
  | .denseRank => acc.denseRankValue
  | .percentRank =>
      (if 1 < acc.nTotal then quotient R acc.nStep (acc.nTotal - 1) else .real 0,
        { acc with nValue := acc.nStep })
  | .cumeDist => (if 0 < acc.nTotal then quotient R acc.nStep acc.nTotal else .real 0, acc)
  | .ntile => (acc.ntileValue, acc)
  | .firstValue | .nthValue | .lastValue => (acc.captured.getD .null, acc)
  | _ => (.null, acc)

def readRows (R : RealArithmetic) : Accumulator → List (List Value) → List Value
  | _, [] => []
  | acc, args :: rows =>
      (acc.valueMut R).1 ::
        match inverse R (acc.valueMut R).2 args false with
        | some acc => readRows R acc rows
        | none => []

/-- The values of a function with the frame from the current row to the end of the partition. -/
def partitionValues (R : RealArithmetic) (kind : AggregateKind) (rows : List (List Value)) :
    List Value :=
  readRows R (rows.foldl (fun acc args => acc.step R args false) (new kind)) rows

end Accumulator

/-! ## Balanced buckets -/

/-- The buckets of `n` rows in turn, as nearly the same size as `count` buckets can be. -/
structure Balanced (n count : Nat) (buckets : List Nat) : Prop where
  rows : buckets.length = n
  nondecreasing : buckets.Pairwise (· ≤ ·)
  mem_iff : ∀ b, b ∈ buckets ↔ 1 ≤ b ∧ b ≤ min count n
  larger_first : ∀ b c, 1 ≤ b → b < c → c ≤ min count n →
    buckets.count c ≤ buckets.count b ∧ buckets.count b ≤ buckets.count c + 1

def bucketStart (size large b : Nat) : Nat := b * size + min b large

theorem bucketStart_succ (size large b : Nat) : bucketStart size large (b + 1) =
    bucketStart size large b + size + if b < large then 1 else 0 := by
  simp only [bucketStart, Nat.succ_mul]
  split_ifs <;> omega

theorem bucketStart_mono (size large : Nat) : Monotone (bucketStart size large) :=
  monotone_nat_of_le_succ fun b => by
    rw [bucketStart_succ]
    omega

theorem countP_range (a b n : Nat) (h : b ≤ n) :
    (List.range n).countP (fun i => decide (a ≤ i ∧ i < b)) = b - a := by
  suffices hall : ∀ n, (List.range n).countP (fun i => decide (a ≤ i ∧ i < b)) =
      min n b - min n a by
    rw [hall]
    omega
  intro n
  induction n with
  | zero => simp
  | succ n ih =>
      rw [List.range_succ, List.countP_append, ih, List.countP_singleton]
      split_ifs with hin
      · rw [decide_eq_true_eq] at hin
        omega
      · rw [decide_eq_true_eq] at hin
        omega

theorem balanced_of_starts {size large count : Nat} (bucket : Nat → Nat) (hlarge : large < count)
    (hbucket : ∀ i < count * size + large, ∃ b, bucket i = b + 1 ∧
      bucketStart size large b ≤ i ∧ i < bucketStart size large (b + 1)) :
    Balanced (count * size + large) count
      ((List.range (count * size + large)).map bucket) := by
  set n := count * size + large with hn
  have hmono := bucketStart_mono size large
  have hend : bucketStart size large count = n := by
    rw [bucketStart, hn]
    omega
  -- what the bucket of a row is
  have hiff : ∀ i < n, ∀ b, bucket i = b + 1 ↔
      bucketStart size large b ≤ i ∧ i < bucketStart size large (b + 1) := by
    intro i hi b
    obtain ⟨c, hc, hlo, hhi⟩ := hbucket i hi
    constructor
    · intro h
      obtain rfl : c = b := by omega
      exact ⟨hlo, hhi⟩
    · rintro ⟨hblo, hbhi⟩
      rw [hc]
      have hle : c < b + 1 := hmono.reflect_lt (hlo.trans_lt hbhi)
      have hge : b < c + 1 := hmono.reflect_lt (hblo.trans_lt hhi)
      omega
  have hcount : ∀ b < count, ((List.range n).map bucket).count (b + 1) =
      size + if b < large then 1 else 0 := by
    intro b hb
    have hle : bucketStart size large (b + 1) ≤ n := hend ▸ hmono hb
    rw [List.count_eq_countP, List.countP_map, List.countP_congr (q := fun i =>
      decide (bucketStart size large b ≤ i ∧ i < bucketStart size large (b + 1))),
      countP_range _ _ _ hle, bucketStart_succ]
    · omega
    · intro i hi
      rw [List.mem_range] at hi
      simpa using hiff i hi b
  refine ⟨by simp, ?_, fun b => ?_, fun b c hb hbc hc => ?_⟩
  · rw [List.pairwise_map]
    refine List.pairwise_lt_range.imp_of_mem fun {i j} hi hj hij => ?_
    rw [List.mem_range] at hi hj
    obtain ⟨c, hc, -, hhi⟩ := hbucket j hj
    obtain ⟨b, hb, hlo, -⟩ := hbucket i hi
    have : b < c + 1 := hmono.reflect_lt (hlo.trans_lt (hij.trans hhi))
    omega
  · rw [List.mem_map]
    constructor
    · rintro ⟨i, hi, rfl⟩
      rw [List.mem_range] at hi
      obtain ⟨c, hc, hlo, hhi⟩ := hbucket i hi
      have hlt : c < count := hmono.reflect_lt (by rw [hend]; omega)
      have hroom : c < n := by
        simp only [bucketStart] at hlo hhi
        rcases Nat.eq_zero_or_pos size with rfl | hpos
        · omega
        · have := Nat.le_mul_of_pos_right c hpos
          omega
      omega
    · rintro ⟨hpos, hle⟩
      obtain ⟨c, rfl⟩ : ∃ c, b = c + 1 := ⟨b - 1, by omega⟩
      have hsucc := bucketStart_succ size large c
      have hnext : bucketStart size large (c + 1) ≤ n := hend ▸ hmono (by omega)
      have hsize : 0 < size ∨ c < large := by
        rcases Nat.eq_zero_or_pos size with rfl | hpos
        · right
          omega
        · exact .inl hpos
      have hlt : bucketStart size large c < bucketStart size large (c + 1) := by
        split_ifs at hsucc <;> omega
      refine ⟨bucketStart size large c, List.mem_range.mpr (by omega), ?_⟩
      exact (hiff _ (by omega) c).mpr ⟨le_rfl, hlt⟩
  · obtain ⟨b, rfl⟩ : ∃ d, b = d + 1 := ⟨b - 1, by omega⟩
    obtain ⟨c, rfl⟩ : ∃ d, c = d + 1 := ⟨c - 1, by omega⟩
    rw [hcount b (by omega), hcount c (by omega)]
    split_ifs <;> omega

/-! ## The formula -/

def ntileBucket (n count i : Nat) : Nat :=
  let size := n / count
  if size = 0 then i + 1
  else
    let large := n % count
    if i < large * (size + 1) then 1 + i / (size + 1)
    else 1 + large + (i - large * (size + 1)) / size

theorem ntileBucket_spec {n count i : Nat} (hi : i < n) :
    ∃ b, ntileBucket n count i = b + 1 ∧ bucketStart (n / count) (n % count) b ≤ i ∧
      i < bucketStart (n / count) (n % count) (b + 1) := by
  set size := n / count with hsize
  set large := n % count with hlarge
  have hn : count * size + large = n := Nat.div_add_mod n count
  rw [ntileBucket]
  simp only [← hsize, ← hlarge, bucketStart]
  split_ifs with hzero hsmall
  · rw [hzero] at hn ⊢
    exact ⟨i, rfl, by omega, by omega⟩
  · set b := i / (size + 1) with hb
    have hlo : b * (size + 1) ≤ i := Nat.div_mul_le_self _ _
    have hhi : i < (b + 1) * (size + 1) :=
      Nat.lt_mul_of_div_lt (Nat.lt_succ_self _) (Nat.succ_pos _)
    have hlt : b < large := Nat.lt_of_mul_lt_mul_right (hlo.trans_lt hsmall)
    refine ⟨b, Nat.add_comm 1 b, ?_, ?_⟩
    · rw [Nat.min_eq_left hlt.le]
      linarith
    · rw [Nat.min_eq_left hlt]
      linarith
  · set b := (i - large * (size + 1)) / size with hb
    have hpos : 0 < size := Nat.pos_of_ne_zero hzero
    have hlo : b * size ≤ i - large * (size + 1) := Nat.div_mul_le_self _ _
    have hhi : i - large * (size + 1) < (b + 1) * size :=
      Nat.lt_mul_of_div_lt (Nat.lt_succ_self _) hpos
    clear_value b
    refine ⟨large + b, by omega, ?_, ?_⟩
    · rw [Nat.min_eq_right (by omega), Nat.add_mul]
      rw [Nat.mul_succ] at hlo hsmall
      omega
    · rw [Nat.min_eq_right (by omega), show large + b + 1 = large + (b + 1) by omega, Nat.add_mul]
      rw [Nat.mul_succ] at hhi hsmall
      omega

namespace Accumulator

/-! ## The run over a partition -/

def ntileState (nParam : Int64) (n i : Nat) : Accumulator :=
  { new .ntile with nTotal := n, nParam := nParam, nStep := i }

theorem ntileValue_state {nParam : Int64} (hpos : 0 < nParam.toInt) (n i : Nat) :
    (ntileState nParam n i).ntileValue =
      .int (Int64.ofInt (ntileBucket n nParam.toInt.toNat i)) := by
  obtain ⟨count, hcount⟩ : ∃ c : Nat, nParam.toInt = c := ⟨_, (Int.toNat_of_nonneg hpos.le).symm⟩
  have hsize : (n : Int).tdiv count = (n / count : Nat) := rfl
  have hlarge : (n : Int) - count * (n / count : Nat) = (n % count : Nat) := by
    have : (count : Int) * (n / count : Nat) + (n % count : Nat) = n := by
      exact_mod_cast Nat.div_add_mod n count
    linarith
  have hcountpos : ¬(count : Int) ≤ 0 := by omega
  simp only [ntileValue, ntileState, ntileBucket, hcount, hcountpos, if_false, hsize, hlarge,
    Int.toNat_natCast]
  set size := n / count
  set large := n % count
  have hsmall : (large : Int) * (size + 1) = (large * (size + 1) : Nat) := by push_cast; rfl
  by_cases hzero : size = 0
  · rw [if_pos (by exact_mod_cast hzero), if_pos hzero]
    rfl
  rw [if_neg (by exact_mod_cast hzero), if_neg hzero, hsmall]
  by_cases hregime : i < large * (size + 1)
  · rw [if_pos (by exact_mod_cast hregime), if_pos hregime]
    rfl
  · rw [if_neg (by exact_mod_cast hregime), if_neg hregime,
      ← Nat.cast_sub (Nat.le_of_not_lt hregime)]
    rfl

theorem foldl_step_ntile (R : RealArithmetic) (nParam : Int64) (n : Nat) (hn : 0 < n)
    (rows : List Value) :
    rows.foldl (fun acc v => acc.step R [v] false) (ntileState nParam n 0) =
      ntileState nParam (n + rows.length) 0 := by
  induction rows generalizing n with
  | nil => rfl
  | cons v rows ih =>
      have hstep : (ntileState nParam n 0).step R [v] false = ntileState nParam (n + 1) 0 := by
        simp [step, ntileState, new, hn.ne']
      rw [List.foldl_cons, hstep, ih (n + 1) (by omega), List.length_cons]
      congr 1
      omega

theorem readRows_ntile (R : RealArithmetic) {nParam : Int64} (hpos : 0 < nParam.toInt)
    (n i : Nat) (rows : List Value) :
    readRows R (ntileState nParam n i) (rows.map ([·])) =
      (List.range' i rows.length).map fun j =>
        .int (Int64.ofInt (ntileBucket n nParam.toInt.toNat j)) := by
  induction rows generalizing i with
  | nil => rfl
  | cons v rows ih =>
      have hinverse : inverse R (ntileState nParam n i) [v] false =
          some (ntileState nParam n (i + 1)) := by
        simp [inverse, ntileState, new]
      have hvalue : (ntileState nParam n i).valueMut R =
          ((ntileState nParam n i).ntileValue, ntileState nParam n i) := rfl
      rw [List.map_cons, readRows, hvalue, hinverse, List.length_cons, List.range'_succ,
        List.map_cons, ntileValue_state hpos]
      dsimp only
      rw [ih]

/--
The argument of the first row is the number of buckets.  The rows of the partition
get the numbers of balanced buckets.
-/
theorem partitionValues_ntile (R : RealArithmetic) (v : Value) (rows : List Value)
    (hpos : 0 < (asI64 R.toNumerals v).toInt) :
    ∃ buckets : List Nat,
      partitionValues R .ntile ((v :: rows).map ([·])) =
        buckets.map (fun b => .int (Int64.ofInt b)) ∧
      Balanced (v :: rows).length (asI64 R.toNumerals v).toInt.toNat buckets := by
  set nParam := asI64 R.toNumerals v with hparam
  set n := (v :: rows).length with hn
  set count := nParam.toInt.toNat with hcount
  have hfirst : (new .ntile).step R [v] false = ntileState nParam 1 0 := by
    simp [step, ntileState, new, hparam]
  refine ⟨(List.range n).map (ntileBucket n count), ?_, ?_⟩
  · rw [partitionValues, List.map_cons, List.foldl_cons, hfirst, List.foldl_map,
      foldl_step_ntile R nParam 1 one_pos, ← List.map_cons (f := ([·])), Nat.add_comm,
      ← List.length_cons (a := v), ← hn, readRows_ntile R hpos, ← List.range_eq_range',
      List.map_map]
    rfl
  · have hlarge : n % count < count := Nat.mod_lt _ (by omega)
    have hstarts : ∀ i < count * (n / count) + n % count, ∃ b, ntileBucket n count i = b + 1 ∧
        bucketStart (n / count) (n % count) b ≤ i ∧
          i < bucketStart (n / count) (n % count) (b + 1) := by
      intro i hi
      rw [Nat.div_add_mod] at hi
      exact ntileBucket_spec hi
    have hbalanced := balanced_of_starts (ntileBucket n count) hlarge hstarts
    rwa [Nat.div_add_mod] at hbalanced

theorem partitionValues_ntile_seven : ∃ buckets : List Nat,
    partitionValues noReals .ntile (([.int 3, .null, .null, .null, .null, .null, .null] :
        List Value).map ([·])) = buckets.map (fun b => .int (Int64.ofInt b)) ∧
      Balanced 7 (asI64 noReals.toNumerals (.int 3)).toInt.toNat buckets :=
  partitionValues_ntile noReals (.int 3) [.null, .null, .null, .null, .null, .null] (by decide)

end Accumulator

end Rustqlite.Func
