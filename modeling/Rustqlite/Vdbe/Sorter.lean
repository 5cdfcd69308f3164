import Rustqlite.Format.Record
import Rustqlite.Types.Compare

/-!
# The sorter

Records are sorted by the fields they begin with.  `Compare` reads two blocks
of registers by the same rule.
-/

namespace Rustqlite.Vdbe.Sorter

def compareKeys : List KeyField → List Value → List Value → Ordering
  | [], _, _ => .eq
  | key :: keys, a, b =>
      let ord := memCompare (a.headD .null) (b.headD .null) key.collation
      if ord = .eq then compareKeys keys a.tail b.tail
      else if key.desc then ord.swap else ord

def sort {α : Type} (cmp : α → α → Ordering) (records : List α) : List α :=
  records.mergeSort fun a b => (cmp a b).isLE

/-! ## A total preorder -/

def OrderedValue : Type := { v : Value // v.isOrdered }

def OrderedValue.null : OrderedValue := ⟨.null, rfl⟩

def compareField (key : KeyField) (a b : OrderedValue) : Ordering :=
  if key.desc then memCompare b.val a.val key.collation else memCompare a.val b.val key.collation

def compareOrdered : List KeyField → List OrderedValue → List OrderedValue → Ordering
  | [], _, _ => .eq
  | key :: keys, a, b =>
      (compareField key (a.headD .null) (b.headD .null)).then (compareOrdered keys a.tail b.tail)

theorem memCompare_ordered (coll : Collation) (a b : OrderedValue) :
    memCompare a.val b.val coll =
      Rustqlite.compareKeys (sortKey coll a.val) (sortKey coll b.val) :=
  memCompare_eq coll a.property b.property

theorem swap_memCompare (coll : Collation) (a b : OrderedValue) :
    (memCompare a.val b.val coll).swap = memCompare b.val a.val coll := by
  rw [memCompare_ordered, memCompare_ordered]
  exact Std.OrientedCmp.eq_swap.symm

theorem compareKeys_ordered (keys : List KeyField) (as bs : List OrderedValue) :
    compareKeys keys (as.map (·.val)) (bs.map (·.val)) = compareOrdered keys as bs := by
  induction keys generalizing as bs with
  | nil => rfl
  | cons key keys ih =>
      have hhead (l : List OrderedValue) :
          (l.map (·.val)).headD .null = (l.headD .null).val := by
        cases l <;> rfl
      rw [compareKeys, compareOrdered, hhead, hhead, ← List.map_tail, ← List.map_tail, ih,
        compareField, ← swap_memCompare _ (as.headD .null)]
      cases memCompare (as.headD .null).val (bs.headD .null).val key.collation <;>
        cases key.desc <;> rfl

theorem transCmp_comap {α β : Type} (cmp : β → β → Ordering) [Std.TransCmp cmp] (f : α → β) :
    Std.TransCmp fun a b => cmp (f a) (f b) :=
  { eq_swap := Std.OrientedCmp.eq_swap, isLE_trans := Std.TransCmp.isLE_trans }

instance (key : KeyField) : Std.TransCmp (compareField key) := by
  have hplain : Std.TransCmp fun a b : OrderedValue => memCompare a.val b.val key.collation := by
    simp only [memCompare_ordered]
    exact transCmp_comap Rustqlite.compareKeys fun a : OrderedValue => sortKey key.collation a.val
  unfold compareField
  cases key.desc with
  | false => exact hplain
  | true => exact @Std.TransCmp.opposite OrderedValue _ hplain

instance (keys : List KeyField) : Std.TransCmp (compareOrdered keys) := by
  induction keys with
  | nil => exact { eq_swap := rfl, isLE_trans := fun _ _ => rfl }
  | cons key keys ih =>
      have hhead := transCmp_comap (compareField key) fun l : List OrderedValue => l.headD .null
      have htail := transCmp_comap (compareOrdered keys) (List.tail (α := OrderedValue))
      exact inferInstanceAs (Std.TransCmp (compareLex
        (fun a b : List OrderedValue => compareField key (a.headD .null) (b.headD .null))
        fun a b => compareOrdered keys a.tail b.tail))

/-! ## Keys in two parts -/

theorem compareOrdered_append {keys keys' : List KeyField} {as bs as' bs' : List OrderedValue}
    (ha : as.length = keys.length) (hb : bs.length = keys.length) :
    compareOrdered (keys ++ keys') (as ++ as') (bs ++ bs') =
      (compareOrdered keys as bs).then (compareOrdered keys' as' bs') := by
  induction keys generalizing as bs with
  | nil =>
      rw [List.length_nil, List.length_eq_zero_iff] at ha hb
      subst ha hb
      rfl
  | cons key keys ih =>
      cases as with
      | nil => contradiction
      | cons a as =>
          cases bs with
          | nil => contradiction
          | cons b bs =>
              have h := ih (Nat.succ.inj ha) (Nat.succ.inj hb)
              simp only [List.cons_append, compareOrdered, List.headD_cons, List.tail_cons, h,
                Ordering.then_assoc]

theorem pairwise_sort {α : Type} {cmp : α → α → Ordering} [Std.TransCmp cmp] (records : List α) :
    (sort cmp records).Pairwise fun a b => (cmp a b).isLE := by
  refine List.pairwise_mergeSort ?_ ?_ records
  · intro a b c
    exact Std.TransCmp.isLE_trans
  · intro a b
    have hswap : cmp b a = (cmp a b).swap := Std.OrientedCmp.eq_swap
    rw [hswap]
    cases cmp a b <;> rfl

end Rustqlite.Vdbe.Sorter

/-!
## Rows through the sorter

The records that a query inserts, the sort, and the loop that reads the rows
back.
-/

namespace Rustqlite.Vdbe

open Foundation Format

structure Sorter where
  keys : List KeyField
  encoding : TextEncoding
  records : List Bytes
  pos : Nat
  current : Option (List Value)

namespace Sorter

def new (keys : List KeyField) (encoding : TextEncoding) : Sorter := ⟨keys, encoding, [], 0, none⟩

def insert (s : Sorter) (record : Bytes) : Sorter := { s with records := s.records ++ [record] }

def decodeSorted (s : Sorter) : Result (List (List Value × Bytes)) := do
  let decoded ← s.records.mapM fun rec => do return (← decodeRecord rec s.encoding, rec)
  return sort (fun a b => compareKeys s.keys a.1 b.1) decoded

def sortRecords (s : Sorter) : Result (Bool × Sorter) := do
  let decoded ← s.decodeSorted
  let records := decoded.map Prod.snd
  return (!records.isEmpty, { s with records := records, pos := 0, current := none })

def isValid (s : Sorter) : Bool := s.pos < s.records.length

def data (s : Sorter) : Result Sorter :=
  match s.records[s.pos]? with
  | none => .error (.panic "index out of bounds")
  | some rec => do return { s with current := some (← decodeRecord rec s.encoding) }

def next (s : Sorter) : Sorter := { s with pos := s.pos + 1 }

def readRows : Nat → Sorter → Result (List (List Value))
  | 0, _ => .error (.panic "out of fuel")
  | fuel + 1, s => do
      let s ← s.data
      let row := s.current.getD []
      let s := s.next
      if s.isValid then return row :: (← readRows fuel s) else return [row]

def sortedRows (fuel : Nat) (s : Sorter) : Result (List (List Value)) := do
  let (nonempty, s) ← s.sortRecords
  if nonempty then readRows fuel s else return []

def filled (keys : List KeyField) (encoding : TextEncoding) (records : List Bytes) : Sorter :=
  records.foldl insert (new keys encoding)

/-! ## The order of the rows -/

def field (row : List Value) (i : Nat) : Value := row[i]?.getD .null

def AgreeBelow (keys : List KeyField) (n : Nat) (a b : List Value) : Prop :=
  ∀ i < n, ∀ key, keys[i]? = some key → memCompare (field a i) (field b i) key.collation = .eq

def SameKey (keys : List KeyField) (a b : List Value) : Prop := AgreeBelow keys keys.length a b

/-- In the first key field that tells the rows apart, `a` comes before `b`. -/
def KeyBefore (keys : List KeyField) (a b : List Value) : Prop :=
  ∃ i key, keys[i]? = some key ∧ AgreeBelow keys i a b ∧
    memCompare (field a i) (field b i) key.collation = if key.desc then .gt else .lt

theorem field_zero (row : List Value) : field row 0 = row.headD .null := by
  cases row <;> rfl

theorem field_succ (row : List Value) (i : Nat) : field row (i + 1) = field row.tail i := by
  cases row <;> rfl

variable {keys : List KeyField} {key : KeyField} {a b : List Value} {rows : List (List Value)}
  {pairs : List (List Value × Bytes)}

theorem agreeBelow_succ {n : Nat} :
    AgreeBelow (key :: keys) (n + 1) a b ↔
      memCompare (a.headD .null) (b.headD .null) key.collation = .eq ∧
        AgreeBelow keys n a.tail b.tail := by
  constructor
  · intro h
    refine ⟨?_, fun i hi key' hkey => ?_⟩
    · rw [← field_zero, ← field_zero]
      exact h 0 (Nat.zero_lt_succ n) key rfl
    · rw [← field_succ, ← field_succ]
      exact h (i + 1) (Nat.succ_lt_succ hi) key' hkey
  · rintro ⟨hhead, htail⟩ i hi key' hkey
    cases i with
    | zero =>
        cases hkey
        rw [field_zero, field_zero]
        exact hhead
    | succ i =>
        rw [field_succ, field_succ]
        exact htail i (Nat.lt_of_succ_lt_succ hi) key' hkey

theorem compareKeys_eq_iff : compareKeys keys a b = .eq ↔ SameKey keys a b := by
  induction keys generalizing a b with
  | nil => exact ⟨fun _ i hi => absurd hi (Nat.not_lt_zero i), fun _ => rfl⟩
  | cons key keys ih =>
      rw [SameKey, List.length_cons, agreeBelow_succ, ← SameKey, ← ih, compareKeys]
      cases memCompare (a.headD .null) (b.headD .null) key.collation <;>
        cases key.desc <;> simp

instance (keys : List KeyField) (a b : List Value) : Decidable (SameKey keys a b) :=
  decidable_of_iff _ compareKeys_eq_iff

theorem keyBefore_cons :
    KeyBefore (key :: keys) a b ↔
      memCompare (a.headD .null) (b.headD .null) key.collation =
          (if key.desc then .gt else .lt) ∨
        memCompare (a.headD .null) (b.headD .null) key.collation = .eq ∧
          KeyBefore keys a.tail b.tail := by
  constructor
  · rintro ⟨i, key', hkey, hbelow, hcmp⟩
    cases i with
    | zero =>
        cases hkey
        rw [field_zero, field_zero] at hcmp
        exact .inl hcmp
    | succ i =>
        rw [field_succ, field_succ] at hcmp
        obtain ⟨hhead, htail⟩ := (agreeBelow_succ).mp hbelow
        exact .inr ⟨hhead, i, key', hkey, htail, hcmp⟩
  · rintro (hcmp | ⟨hhead, i, key', hkey, htail, hcmp⟩)
    · refine ⟨0, key, rfl, fun i hi => absurd hi (Nat.not_lt_zero i), ?_⟩
      rw [field_zero, field_zero]
      exact hcmp
    · refine ⟨i + 1, key', hkey, (agreeBelow_succ).mpr ⟨hhead, htail⟩, ?_⟩
      rw [field_succ, field_succ]
      exact hcmp

theorem compareKeys_lt_iff : compareKeys keys a b = .lt ↔ KeyBefore keys a b := by
  induction keys generalizing a b with
  | nil =>
      constructor
      · intro h
        cases h
      · rintro ⟨i, key, hkey, -⟩
        cases hkey
  | cons key keys ih =>
      rw [keyBefore_cons, ← ih, compareKeys]
      cases memCompare (a.headD .null) (b.headD .null) key.collation <;>
        cases key.desc <;> simp

/-! ## A stable sort -/

theorem filter_sort {α : Type} {cmp : α → α → Ordering} [Std.TransCmp cmp] (records : List α)
    (k : α) : (sort cmp records).filter (fun a => cmp k a = .eq) =
      records.filter fun a => cmp k a = .eq := by
  have hclass : (records.filter fun a => cmp k a = .eq).Pairwise fun a b => (cmp a b).isLE := by
    rw [List.pairwise_filter]
    refine List.pairwise_of_forall fun a b ha hb => ?_
    have ha' : cmp a k = .eq := Std.OrientedCmp.eq_symm (of_decide_eq_true ha)
    rw [Std.TransCmp.eq_trans ha' (of_decide_eq_true hb)]
    rfl
  have hsub : (records.filter fun a => cmp k a = .eq).Sublist (sort cmp records) := by
    refine List.sublist_mergeSort ?_ ?_ hclass List.filter_sublist
    · intro a b c
      exact Std.TransCmp.isLE_trans
    · intro a b
      have hswap : cmp b a = (cmp a b).swap := Std.OrientedCmp.eq_swap
      rw [hswap]
      cases cmp a b <;> rfl
  have hfilter := hsub.filter fun a => cmp k a = .eq
  rw [List.filter_filter] at hfilter
  simp only [Bool.and_self] at hfilter
  refine (hfilter.eq_of_length ?_).symm
  exact ((List.mergeSort_perm records _).filter _).length_eq.symm

/-! ## What is read back -/

theorem records_filled (keys : List KeyField) (encoding : TextEncoding) (records : List Bytes) :
    filled keys encoding records = ⟨keys, encoding, records, 0, none⟩ := by
  have hrun : ∀ done, records.foldl insert ⟨keys, encoding, done, 0, none⟩ =
      ⟨keys, encoding, done ++ records, 0, none⟩ := by
    induction records with
    | nil => simp
    | cons rec records ih =>
        intro done
        rw [List.foldl_cons, insert, ih, List.append_assoc]
        rfl
  exact hrun []

theorem readRows_ok {s : Sorter}
    (hrows : List.Forall₂ (fun rec row => decodeRecord rec s.encoding = .ok row) s.records rows)
    {pos : Nat} (hpos : pos < s.records.length) (current : Option (List Value)) {fuel : Nat}
    (hfuel : s.records.length ≤ pos + fuel) :
    readRows fuel { s with pos := pos, current := current } = .ok (rows.drop pos) := by
  induction fuel generalizing pos current with
  | zero => omega
  | succ fuel ih =>
      have hlen := hrows.length_eq
      have hdecode := hrows.get (i := pos) hpos (by omega)
      simp only [List.get_eq_getElem] at hdecode
      have hdata : data { s with pos := pos, current := current } =
          .ok { s with pos := pos, current := some rows[pos] } := by
        rw [data]
        simp only [List.getElem?_eq_getElem hpos, hdecode]
        rfl
      have hdrop : rows.drop pos = rows[pos] :: rows.drop (pos + 1) :=
        List.drop_eq_getElem_cons (by omega)
      rw [readRows, hdata, Result.ok_bind]
      by_cases hmore : pos + 1 < s.records.length
      · refine (if_pos (decide_eq_true hmore)).trans ?_
        have hrest := ih hmore (some rows[pos]) (by omega)
        simp only [next, hrest, Option.getD_some, hdrop]
        rfl
      · refine (if_neg (fun h => hmore (of_decide_eq_true h))).trans ?_
        rw [hdrop, List.drop_eq_nil_of_le (by omega)]
        rfl

def forget (p : List OrderedValue × Bytes) : List Value × Bytes := (p.1.map (·.val), p.2)

theorem exists_ordered (h : ∀ p ∈ pairs, ∀ v ∈ p.1, v.isOrdered) :
    ∃ ordered : List (List OrderedValue × Bytes),
        ordered.map forget = pairs := by
  have hmem : pairs ∈ Set.range (List.map forget) := by
    rw [Set.range_list_map]
    intro p hp
    have hrow : p.1 ∈ Set.range (List.map fun v : OrderedValue => v.val) := by
      rw [Set.range_list_map]
      exact fun v hv => ⟨⟨v, h p hp v hv⟩, rfl⟩
    obtain ⟨row, hrow⟩ := hrow
    exact ⟨(row, p.2), Prod.ext hrow rfl⟩
  exact hmem

structure StablySorted (keys : List KeyField) (rows sorted : List (List Value)) : Prop where
  perm : sorted.Perm rows
  inOrder : sorted.Pairwise fun a b => KeyBefore keys a b ∨ SameKey keys a b
  stable : ∀ k ∈ rows, sorted.filter (fun row => SameKey keys k row) =
    rows.filter fun row => SameKey keys k row

theorem stablySorted_sort (keys : List KeyField) (h : ∀ p ∈ pairs, ∀ v ∈ p.1, v.isOrdered) :
    StablySorted keys (pairs.map Prod.fst)
      ((sort (fun a b => compareKeys keys a.1 b.1) pairs).map Prod.fst) := by
  obtain ⟨ordered, rfl⟩ := exists_ordered h
  let cmp (a b : List OrderedValue × Bytes) : Ordering := compareOrdered keys a.1 b.1
  have hcmp : ∀ a b : List OrderedValue × Bytes,
      compareKeys keys (forget a).1 (forget b).1 = cmp a b :=
    fun a b => compareKeys_ordered keys a.1 b.1
  have : Std.TransCmp cmp := transCmp_comap (compareOrdered keys) Prod.fst
  have hsort : sort (fun a b => compareKeys keys a.1 b.1) (ordered.map forget) =
      (sort cmp ordered).map forget :=
    (List.map_mergeSort fun a _ b _ => congrArg Ordering.isLE (hcmp a b).symm).symm
  have hfilter : ∀ (k : List OrderedValue × Bytes) (l : List (List OrderedValue × Bytes)),
      ((l.map forget).map Prod.fst).filter (fun row => SameKey keys (forget k).1 row) =
        ((l.filter fun a => cmp k a = .eq).map forget).map Prod.fst := by
    intro k l
    rw [List.filter_map, List.filter_map]
    congr 2
    refine List.filter_congr fun a _ => ?_
    simp only [Function.comp_apply, ← hcmp, compareKeys_eq_iff]
  rw [hsort]
  refine ⟨?_, ?_, ?_⟩
  · exact ((List.mergeSort_perm ordered _).map _).map _
  · rw [List.pairwise_map, List.pairwise_map]
    refine (pairwise_sort ordered).imp fun {a b} hle => ?_
    rw [← hcmp] at hle
    cases hkeys : compareKeys keys (forget a).1 (forget b).1 with
    | lt => exact .inl ((compareKeys_lt_iff).mp hkeys)
    | eq => exact .inr ((compareKeys_eq_iff).mp hkeys)
    | gt =>
        rw [hkeys] at hle
        exact absurd hle (by decide)
  · intro row hrow
    obtain ⟨p, hp, rfl⟩ := List.mem_map.mp hrow
    obtain ⟨k, -, rfl⟩ := List.mem_map.mp hp
    rw [hfilter, hfilter, filter_sort]

theorem decodePairs {encoding : TextEncoding} {records : List Bytes}
    (h : List.Forall₂ (fun rec row => decodeRecord rec encoding = .ok row) records rows) :
    ∃ pairs, (records.mapM fun rec => do return (← decodeRecord rec encoding, rec)) =
        Except.ok pairs ∧
      pairs.map Prod.fst = rows ∧ ∀ p ∈ pairs, decodeRecord p.2 encoding = .ok p.1 := by
  induction h with
  | nil => exact ⟨[], rfl, rfl, by simp⟩
  | cons hrow hrest ih =>
      obtain ⟨pairs, hpairs, hfst, hdecode⟩ := ih
      rename_i rec row records rows
      refine ⟨(row, rec) :: pairs, ?_, by rw [List.map_cons, hfst], ?_⟩
      · rw [List.mapM_cons, hrow, hpairs]
        rfl
      · exact List.forall_mem_cons.mpr ⟨hrow, hdecode⟩

/--
The rows that are read back behind the sort are the inserted ones in the order
of the keys, and rows that agree in the keys stay in the order of their
insertion.
-/
theorem sortedRows_stablySorted (keys : List KeyField) (encoding : TextEncoding)
    (records : List Bytes) (rows : List (List Value))
    (hrows : records.mapM (decodeRecord · encoding) = .ok rows)
    (hnan : ∀ row ∈ rows, ∀ v ∈ row, v.isOrdered) :
    ∃ sorted, StablySorted keys rows sorted ∧ ∀ fuel, records.length ≤ fuel →
      sortedRows fuel (filled keys encoding records) = .ok sorted := by
  have hforall := Result.mapM_eq_ok.mp hrows
  have hlen := hforall.length_eq
  obtain ⟨pairs, hdecoded, hfst, hdecode⟩ := decodePairs hforall
  have hnan' : ∀ p ∈ pairs, ∀ v ∈ p.1, v.isOrdered := by
    intro p hp
    exact hnan p.1 (hfst ▸ List.mem_map_of_mem hp)
  have hsorted := stablySorted_sort keys hnan'
  rw [hfst] at hsorted
  refine ⟨_, hsorted, fun fuel hfuel => ?_⟩
  have hperm := List.mergeSort_perm pairs fun a b => (compareKeys keys a.1 b.1).isLE
  have hlength : pairs.length = rows.length := by rw [← hfst, List.length_map]
  rw [sortedRows, sortRecords, decodeSorted, records_filled, hdecoded]
  simp only [Result.ok_bind]
  cases hcase : sort (fun a b => compareKeys keys a.1 b.1) pairs with
  | nil => rfl
  | cons p rest =>
      rw [sort] at hcase
      rw [hcase] at hperm
      have hread : List.Forall₂ (fun rec row => decodeRecord rec encoding = .ok row)
          ((p :: rest).map Prod.snd) ((p :: rest).map Prod.fst) := by
        rw [List.forall₂_map_left_iff, List.forall₂_map_right_iff, List.forall₂_same]
        exact fun q hq => hdecode q (hperm.mem_iff.mp hq)
      refine readRows_ok (s := ⟨keys, encoding, (p :: rest).map Prod.snd, 0, none⟩) hread (by simp)
        none ?_
      rw [List.length_map, hperm.length_eq]
      omega

/-- Three rows by their first field downwards, two of which agree in it. -/
theorem sortedRows_three : ∃ sorted, StablySorted [⟨true, .binary⟩]
      [[.int 0, .int 1], [.int 1, .int 1], [.int 1, .int 0]] sorted ∧ ∀ fuel, 3 ≤ fuel →
    sortedRows fuel (filled [⟨true, .binary⟩] .utf8 [[3, 8, 9], [3, 9, 9], [3, 9, 8]]) =
      .ok sorted :=
  sortedRows_stablySorted [⟨true, .binary⟩] .utf8 [[3, 8, 9], [3, 9, 9], [3, 9, 8]]
    [[.int 0, .int 1], [.int 1, .int 1], [.int 1, .int 0]] (by decide)
    (by simp [Value.isOrdered])

end Sorter

end Rustqlite.Vdbe
