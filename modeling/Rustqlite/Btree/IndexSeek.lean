import Rustqlite.Btree.IndexCursor
import Rustqlite.Foundation.Separators
import Rustqlite.Types.Compare

/-!
# Seeking in an index

A seek goes down to one leaf, choosing a child in every interior page on its
way, and then searches the leaf.
-/

namespace Rustqlite.Btree

open Foundation Format Pager Reading

inductive SeekOp where
  | ge
  | gt
  | le
  | lt
  deriving DecidableEq

namespace SeekOp

def goesOn : SeekOp → Ordering → Bool
  | .ge, c => c == .lt
  | .gt, c => c == .lt || c == .eq
  | .le, c => c != .gt
  | .lt, c => c == .gt

def goesLeft : SeekOp → Ordering → Bool
  | .ge, c | .gt, c => c != .gt
  | .le, c | .lt, c => c == .lt

/-- The cell for the place where the search of a leaf has ended. -/
def cellAt : SeekOp → Nat → Nat
  | .ge, lo | .gt, lo => lo
  | .le, lo | .lt, lo => lo - 1

end SeekOp

/-- The indexed columns of a key record against a key that may have fewer. -/
def compareWithKey (keyInfo : List KeyField) (values key : List Value) : Ordering :=
  comparePrefix (values.take (min (values.length - 1) key.length)) key keyInfo

section Seek

variable (usable : Nat) (encoding : TextEncoding) (keyInfo : List KeyField) (op : SeekOp)
  (key : List Value)

def pickChildFrom (page : Bytes) (hdr : PageHeader) : Nat → Nat → Result UInt32
  | 0, _ =>
      match hdr.rightMostPointer with
      | some right => .ok right
      | none => .error (.corrupt "interior index page has no right pointer")
  | left + 1, i => do
      let off ← hdr.cellPointer page i
      let cell ← parseIndexInteriorCell page off usable
      let values ← decodeRecord cell.localPayload .utf8
      if op.goesLeft (compareWithKey keyInfo values key) then return cell.leftChild
      else pickChildFrom page hdr left (i + 1)

def pickChildForKey (page : Bytes) (hdr : PageHeader) : Result UInt32 :=
  pickChildFrom usable keyInfo op key page hdr hdr.numCells 0

def compareLeafEntry (page : Bytes) (hdr : PageHeader) (i : Nat) : Reading Ordering := do
  let off ← hdr.cellPointer page i
  let cell ← parseIndexLeafCell page off usable
  let payload ← assembleIndexPayload usable cell
  let values ← decodeRecord payload encoding
  return compareWithKey keyInfo values key

def leafIndexForKey (page : Bytes) (hdr : PageHeader) : Reading Nat := do
  let lo ← bisectM
    (fun mid => op.goesOn <$> compareLeafEntry usable encoding keyInfo key page hdr mid)
    hdr.numCells 0 hdr.numCells
  return op.cellAt lo

def descendToTarget : Nat → TreePosition → UInt32 → Reading TreePosition
  | 0, _, _ => fail endless
  | fuel + 1, c, pgno => do
      let page ← getPage pgno
      let hdr ← PageHeader.parse page (btreeHeaderOffset pgno)
      match hdr.pageType with
      | .leafIndex => do
          let idx ← leafIndexForKey usable encoding keyInfo op key page hdr
          return { c with
            leafPgno := pgno
            leaf := some (page, hdr)
            cellIdx := idx
            pendingAdvance := false }
      | .interiorIndex => do
          let child ← pickChildForKey usable keyInfo op key page hdr
          descendToTarget fuel { c with stack := ⟨page, hdr, 0⟩ :: c.stack } child
      | _ => fail (.corrupt "expected an index b-tree page during seek")

/-- Also tells whether there is an entry in the direction of `op`. -/
def IndexCursor.seek (fuel : Nat) (c : IndexCursor) : Reading (IndexCursor × Bool) := do
  let p ← descendToTarget usable encoding c.keyInfo op key fuel TreePosition.start c.root
  let c ← refreshPayload usable { c with toTreePosition := p, currentPayload := none }
  return (c, c.isValid)

def IndexCursor.seekWalk (asI64 : Value → Int64) (fuel : Nat) (root : UInt32) :
    Reading (Bool × List (Bytes × Int64)) := do
  let (c, found) ← (new root keyInfo).seek usable encoding op key fuel
  let entries ← c.visits usable encoding asI64 fuel fuel
  return (found, entries)

end Seek

/-! ## What a seek is for -/

def keyValues (encoding : TextEncoding) (entry : Bytes × Int64) : List Value :=
  (decodeRecord entry.1 encoding).toOption.getD []

def entryClass (encoding : TextEncoding) (keyInfo : List KeyField) (key : List Value)
    (e : Bytes × Int64) : Ordering :=
  compareWithKey keyInfo (keyValues encoding e) key

def compareRecords (keyInfo : List KeyField) (a b : List Value) : Ordering :=
  compareRecordPrefixes keyInfo a.dropLast (a.getLastD .null) b.dropLast (b.getLastD .null)

structure SortedEntries (encoding : TextEncoding) (keyInfo : List KeyField)
    (es : List (Bytes × Int64)) : Prop where
  ordered : ∀ e ∈ es, ∀ v ∈ keyValues encoding e, v.isOrdered
  ascending : es.Pairwise fun a b =>
    compareRecords keyInfo (keyValues encoding a) (keyValues encoding b) = .lt

def SeekOp.accepts : SeekOp → Ordering → Bool
  | .ge, c => c != .lt
  | .gt, c => c == .gt
  | .le, c => c != .gt
  | .lt, c => c == .lt

/-- What is left of a list from the last element on that passes the test. -/
def fromLast {α : Type} (p : α → Bool) : List α → List α
  | [] => []
  | a :: as => if as.any p then fromLast p as else if p a then a :: as else []

def SeekOp.target {α : Type} (op : SeekOp) (cls : α → Ordering) (es : List α) : List α :=
  match op with
  | .ge | .gt => es.dropWhile fun e => !op.accepts (cls e)
  | .le | .lt => fromLast (fun e => op.accepts (cls e)) es

/-! ## The search of a leaf -/

variable {i fuel : Nat} {root : UInt32} {leaf : Bytes} {leafHdr : PageHeader}

section Leaf

variable {E : Type} {cls : E → Ordering} {es : List E}

def InOrder (cls : E → Ordering) (es : List E) : Prop :=
  es.Pairwise fun a b => (cls b = .lt → cls a = .lt) ∧ (cls a = .gt → cls b = .gt)

def SeekOp.test (op : SeekOp) (cls : E → Ordering) (es : List E) (i : Nat) : Bool :=
  es[i]?.any fun e => op.goesOn (cls e)

def SeekOp.leafIndex (op : SeekOp) (cls : E → Ordering) (es : List E) : Nat :=
  op.cellAt (bisect (op.test cls es) es.length 0 es.length)

def SeekOp.leafCondition (op : SeekOp) (cls : E → Ordering) (es : List E) : Prop :=
  match op with
  | .ge | .gt => True
  | .le => es = [] ∨ ∃ e ∈ es, cls e ≠ .gt
  | .lt => es = [] ∨ (es.countP fun e => cls e == .lt) = 1 ∧
      ∀ e ∈ es[es.length / 2]?, cls e ≠ .gt

variable {q p : E → Bool} {op : SeekOp} {as bs : List E}

theorem exists_split (h : es.Pairwise fun a b => q b → q a) :
    ∃ as bs, es = as ++ bs ∧ (∀ a ∈ as, q a) ∧ ∀ b ∈ bs, q b = false := by
  induction es with
  | nil => exact ⟨[], [], rfl, by simp, by simp⟩
  | cons e es ih =>
      rw [List.pairwise_cons] at h
      by_cases he : q e = true
      · obtain ⟨as, bs, rfl, has, hbs⟩ := ih h.2
        exact ⟨e :: as, bs, rfl, by simpa [he] using has, hbs⟩
      · refine ⟨[], e :: es, rfl, by simp, ?_⟩
        intro b hb
        rcases List.mem_cons.mp hb with rfl | hb
        · simpa using he
        · by_contra hq
          exact he (h.1 b hb (by simpa using hq))

theorem test_left (has : ∀ a ∈ as, op.goesOn (cls a) = true) (hi : i < as.length) :
    op.test cls (as ++ bs) i = true := by
  simp [SeekOp.test, List.getElem?_append_left hi, hi, has]

theorem test_right (hbs : ∀ b ∈ bs, op.goesOn (cls b) = false) (hi : as.length ≤ i) :
    op.test cls (as ++ bs) i = false := by
  rw [SeekOp.test, List.getElem?_append_right hi]
  cases hb : bs[i - as.length]? with
  | none => rfl
  | some b => simpa using hbs b (List.mem_of_getElem? hb)

theorem bisect_split (has : ∀ a ∈ as, op.goesOn (cls a) = true)
    (hbs : ∀ b ∈ bs, op.goesOn (cls b) = false) :
    bisect (op.test cls (as ++ bs)) (as ++ bs).length 0 (as ++ bs).length = as.length := by
  apply bisect_eq (by omega) (by omega) (by simp)
  · intro i _ hi
    exact test_left has hi
  · intro i hi _
    exact test_right hbs hi

theorem dropWhile_split (has : ∀ a ∈ as, q a) (hbs : ∀ b ∈ bs, q b = false) :
    (as ++ bs).dropWhile q = bs := by
  rw [List.dropWhile_append_of_pos has]
  cases bs with
  | nil => rfl
  | cons b bs => exact List.dropWhile_cons_of_neg (by simp [hbs b])

theorem fromLast_eq_nil (h : ∀ e ∈ es, p e = false) : fromLast p es = [] := by
  cases es with
  | nil => rfl
  | cons e es =>
      simp only [List.forall_mem_cons] at h
      have hany : es.any p = false := by simpa using h.2
      simp [fromLast, hany, h.1]

theorem fromLast_split (has : ∀ a ∈ as, p a) (hbs : ∀ b ∈ bs, p b = false) (hne : as ≠ []) :
    fromLast p (as ++ bs) = (as ++ bs).drop (as.length - 1) := by
  induction as with
  | nil => exact absurd rfl hne
  | cons a as ih =>
      simp only [List.forall_mem_cons] at has
      cases as with
      | nil =>
          have hany : bs.any p = false := by simpa using hbs
          simp [fromLast, hany, has]
      | cons a' as =>
          have hany : (a' :: as ++ bs).any p = true := by simp [has.2]
          rw [List.cons_append, fromLast, if_pos hany, ih has.2 (by simp)]
          simp

def SeekOp.leafResult (op : SeekOp) (cls : E → Ordering) (es : List E) : Bool × List E :=
  (decide (op.leafIndex cls es < es.length), es.drop (op.leafIndex cls es))

def SeekOp.expected (op : SeekOp) (cls : E → Ordering) (es : List E) : Bool × List E :=
  (es.any fun e => op.accepts (cls e), op.target cls es)

theorem leafResult_eq_ite (op : SeekOp) (cls : E → Ordering) (es : List E) :
    op.leafResult cls es =
      if op.leafIndex cls es < es.length then (true, es.drop (op.leafIndex cls es))
      else (false, []) := by
  rw [SeekOp.leafResult]
  split_ifs with hlt
  · rw [decide_eq_true hlt]
  · rw [decide_eq_false hlt, List.drop_eq_nil_of_le (Nat.le_of_not_lt hlt)]

theorem forward_of_not (h : ¬(op = .le ∨ op = .lt)) : op = .ge ∨ op = .gt := by
  cases op <;> simp at h ⊢

theorem leafResult_forward (hop : op = .ge ∨ op = .gt) (h : InOrder cls es) :
    op.leafResult cls es = op.expected cls es := by
  have hgoes (c : Ordering) : op.goesOn c = !op.accepts c := by
    rcases hop with rfl | rfl <;> cases c <;> rfl
  have hdown : es.Pairwise fun a b => op.goesOn (cls b) → op.goesOn (cls a) := by
    refine h.imp fun {a b} hab => ?_
    rcases hop with rfl | rfl
    · simpa [SeekOp.goesOn] using hab.1
    · revert hab
      cases cls a <;> cases cls b <;> simp [SeekOp.goesOn]
  obtain ⟨as, bs, rfl, has, hbs⟩ := exists_split hdown
  have hindex : op.leafIndex cls (as ++ bs) = as.length := by
    rw [SeekOp.leafIndex, bisect_split has hbs]
    rcases hop with rfl | rfl <;> rfl
  have htarget : op.target cls (as ++ bs) = bs := by
    have hdrop := dropWhile_split has hbs
    simp only [hgoes] at hdrop
    rcases hop with rfl | rfl <;> exact hdrop
  have hany : ((as ++ bs).any fun e => op.accepts (cls e)) = decide (0 < bs.length) := by
    simp only [hgoes, Bool.not_eq_true', Bool.not_eq_false'] at has hbs
    cases bs with
    | nil => simpa using has
    | cons b bs => simp [hbs b]
  rw [SeekOp.leafResult, SeekOp.expected, hindex, htarget, hany, List.drop_left]
  simp

theorem leafResult_le (h : InOrder cls es) :
    SeekOp.le.leafResult cls es = SeekOp.le.expected cls es ↔
      SeekOp.le.leafCondition cls es := by
  have hdown : es.Pairwise fun a b => SeekOp.le.goesOn (cls b) → SeekOp.le.goesOn (cls a) := by
    refine h.imp fun {a b} hab => ?_
    revert hab
    cases cls a <;> cases cls b <;> simp [SeekOp.goesOn]
  obtain ⟨as, bs, rfl, has, hbs⟩ := exists_split hdown
  have hindex : SeekOp.le.leafIndex cls (as ++ bs) = as.length - 1 := by
    rw [SeekOp.leafIndex, bisect_split has hbs]
    rfl
  rw [SeekOp.leafResult, SeekOp.expected, hindex, Prod.mk.injEq]
  cases as with
  | nil =>
      have hnil : SeekOp.le.target cls bs = [] := fromLast_eq_nil hbs
      have hany : (bs.any fun e => SeekOp.le.accepts (cls e)) = false :=
        List.any_eq_false.mpr fun b hb => Bool.not_eq_true _ ▸ hbs b hb
      simp only [SeekOp.goesOn, bne_eq_false_iff_eq] at hbs
      cases bs with
      | nil => simp [hnil, SeekOp.leafCondition]
      | cons b bs =>
          simp only [List.forall_mem_cons] at hbs
          simpa [hnil, hany, SeekOp.leafCondition, hbs.1] using hbs.2
  | cons a as =>
      have htarget : SeekOp.le.target cls (a :: as ++ bs) = (a :: as ++ bs).drop as.length :=
        fromLast_split has hbs (by simp)
      have hany : ((a :: as ++ bs).any fun e => SeekOp.le.accepts (cls e)) = true := by
        simp only [List.any_append, List.any_cons, Bool.or_eq_true]
        exact .inl (.inl (has a (by simp)))
      have hcond : SeekOp.le.leafCondition cls (a :: as ++ bs) :=
        .inr ⟨a, by simp, by simpa [SeekOp.goesOn] using has a (by simp)⟩
      rw [hany, htarget, iff_true_right hcond]
      simp

theorem cellAt_lt (hop : op = .le ∨ op = .lt) (hne : es ≠ []) :
    op.leafIndex cls es < es.length := by
  have hpos := List.length_pos_of_ne_nil hne
  have hle : bisect (op.test cls es) es.length 0 es.length ≤ es.length :=
    bisect_le (Nat.zero_le es.length)
  rcases hop with rfl | rfl
  all_goals
    simp only [SeekOp.leafIndex, SeekOp.cellAt]
    omega

/-- For `lt` the test is the wrong way round: the search runs to one of the ends. -/
theorem leafIndex_lt (h : InOrder cls es) : SeekOp.lt.leafIndex cls es =
    if SeekOp.lt.test cls es (es.length / 2) then es.length - 1 else 0 := by
  have hdown : es.Pairwise fun a b => (cls b != .gt) = true → (cls a != .gt) = true := by
    refine h.imp fun {a b} hab => ?_
    revert hab
    cases cls a <;> cases cls b <;> simp
  obtain ⟨as, bs, hes, has, hbs⟩ := exists_split hdown
  have hbelow : ∀ i < as.length, SeekOp.lt.test cls es i = false := by
    intro i hi
    have hmem : cls as[i] ≠ .gt := by simpa using has as[i] (List.getElem_mem hi)
    simp [SeekOp.test, hes, List.getElem?_append_left hi, hi, SeekOp.goesOn, hmem]
  have habove : ∀ i, as.length ≤ i → i < es.length → SeekOp.lt.test cls es i = true := by
    intro i hi hlt
    have hlen : i - as.length < bs.length := by
      rw [hes, List.length_append] at hlt
      omega
    have hmem : cls bs[i - as.length] = .gt := by
      simpa using hbs bs[i - as.length] (List.getElem_mem hlen)
    simp [SeekOp.test, hes, List.getElem?_append_right hi, hlen, SeekOp.goesOn, hmem]
  rw [SeekOp.leafIndex, bisect_reversed hbelow habove]
  cases es with
  | nil => rfl
  | cons e es =>
      simp only [List.length_cons, Nat.zero_lt_succ, true_and]
      split_ifs <;> rfl

theorem leafResult_lt (h : InOrder cls es) :
    SeekOp.lt.leafResult cls es = SeekOp.lt.expected cls es ↔
      SeekOp.lt.leafCondition cls es := by
  have hindex := leafIndex_lt h
  have hdown : es.Pairwise fun a b => (cls b == .lt) = true → (cls a == .lt) = true := by
    refine h.imp fun {a b} hab => ?_
    simpa using hab.1
  obtain ⟨as, bs, rfl, has, hbs⟩ := exists_split hdown
  have hcount : (as ++ bs).countP (fun e => cls e == .lt) = as.length := by
    rw [List.countP_append, List.countP_eq_length.mpr has,
      List.countP_eq_zero.mpr (by simpa using hbs), Nat.add_zero]
  have htest : SeekOp.lt.test cls (as ++ bs) ((as ++ bs).length / 2) = false ↔
      ∀ e ∈ (as ++ bs)[(as ++ bs).length / 2]?, cls e ≠ .gt := by
    rw [SeekOp.test]
    cases (as ++ bs)[(as ++ bs).length / 2]? <;> simp [SeekOp.goesOn]
  rw [SeekOp.leafResult, SeekOp.expected, hindex, SeekOp.leafCondition, hcount, ← htest,
    Prod.mk.injEq]
  cases as with
  | nil =>
      have hnil : SeekOp.lt.target cls bs = [] := fromLast_eq_nil hbs
      have hany : (bs.any fun e => SeekOp.lt.accepts (cls e)) = false :=
        List.any_eq_false.mpr fun b hb => Bool.not_eq_true _ ▸ hbs b hb
      cases bs with
      | nil => simp [hnil]
      | cons b bs =>
          have hlt : (if SeekOp.lt.test cls (b :: bs) ((b :: bs).length / 2) = true
              then (b :: bs).length - 1 else 0) < (b :: bs).length := by
            split_ifs <;> simp
          rw [List.nil_append, hany, decide_eq_true hlt]
          simp
  | cons a as =>
      have htarget : SeekOp.lt.target cls (a :: as ++ bs) = (a :: as ++ bs).drop as.length :=
        fromLast_split has hbs (by simp)
      have hany : ((a :: as ++ bs).any fun e => SeekOp.lt.accepts (cls e)) = true := by
        simp only [List.any_append, List.any_cons, Bool.or_eq_true]
        exact .inl (.inl (has a (by simp)))
      have hne : a :: as ++ bs ≠ [] := by simp
      rw [hany, htarget, or_iff_right hne]
      cases hmid : SeekOp.lt.test cls (a :: as ++ bs) ((a :: as ++ bs).length / 2) with
      | false =>
          constructor
          · rintro ⟨-, hdrop⟩
            have hlen := congrArg List.length hdrop
            simp only [List.length_drop, List.length_append, List.length_cons] at hlen ⊢
            exact ⟨by simp at hlen; omega, trivial⟩
          · rintro ⟨hone, -⟩
            have hzero : as.length = 0 := by simpa using hone
            simp [hzero]
      | true =>
          -- The entry in the middle is greater, so the last entry is not the one to find.
          simp only [Bool.true_eq_false, and_false, iff_false, not_and]
          intro _ hdrop
          have hlen := congrArg List.length hdrop
          have hnil : bs = [] := by
            simp only [if_true, List.length_drop, List.length_append, List.length_cons] at hlen
            exact List.length_eq_zero_iff.mp (by omega)
          subst hnil
          have hgoes : ∀ e ∈ a :: as, SeekOp.lt.goesOn (cls e) = false := by
            intro e he
            have hlt : cls e = .lt := by simpa using has e he
            simp [SeekOp.goesOn, hlt]
          have hfalse : SeekOp.lt.test cls (a :: as ++ [])
              ((a :: as ++ []).length / 2) = false := by
            rw [List.append_nil, ← List.nil_append (a :: as)]
            exact test_right hgoes (Nat.zero_le _)
          rw [hfalse] at hmid
          cases hmid

theorem leafResult_eq_iff (op : SeekOp) (h : InOrder cls es) :
    op.leafResult cls es = op.expected cls es ↔ op.leafCondition cls es := by
  cases op with
  | ge => exact iff_of_true (leafResult_forward (.inl rfl) h) trivial
  | gt => exact iff_of_true (leafResult_forward (.inr rfl) h) trivial
  | le => exact leafResult_le h
  | lt => exact leafResult_lt h

theorem fromLast_sublist (p : E → Bool) (es : List E) : (fromLast p es).Sublist es := by
  induction es with
  | nil => exact .refl _
  | cons e es ih =>
      rw [fromLast]
      split_ifs
      · exact ih.cons e
      · exact .refl _
      · exact List.nil_sublist _

theorem target_sublist (op : SeekOp) (cls : E → Ordering) (es : List E) :
    (op.target cls es).Sublist es := by
  cases op with
  | ge | gt => exact List.dropWhile_sublist _
  | le | lt => exact fromLast_sublist _ es

theorem expected_none (h : ∀ e ∈ es, op.accepts (cls e) = false) :
    op.expected cls es = (false, []) := by
  have hany : (es.any fun e => op.accepts (cls e)) = false := by simpa using h
  have hdrop : (es ++ []).dropWhile (fun e => !op.accepts (cls e)) = [] :=
    dropWhile_split (by simpa using h) (by simp)
  rw [SeekOp.expected, hany]
  rw [List.append_nil] at hdrop
  cases op with
  | ge | gt => exact congrArg _ hdrop
  | le | lt => simp only [SeekOp.target, fromLast_eq_nil h]

end Leaf

/-! ## Sorted entries -/

section Sorted

variable {encoding : TextEncoding} {keyInfo : List KeyField} {key : List Value}
  {es : List (Bytes × Int64)}

theorem isOrdered_getLastD {vs : List Value} (h : ∀ v ∈ vs, v.isOrdered) :
    (vs.getLastD .null).isOrdered := by
  cases hlast : vs.getLast? with
  | none => simp [List.getLastD_eq_getLast?, hlast, Value.isOrdered]
  | some v =>
      rw [List.getLastD_eq_getLast?, hlast]
      exact h v (List.mem_of_getLast? hlast)

variable {a : List Value}

theorem compareRecords_eq {b : List Value} (ha : ∀ v ∈ a, v.isOrdered) (hb : ∀ v ∈ b, v.isOrdered) :
    compareRecords keyInfo a b =
      (compareKeyLists (columnKeys keyInfo 0 a.dropLast) (columnKeys keyInfo 0 b.dropLast)).then
        (compareKeys (sortKey .binary (a.getLastD .null)) (sortKey .binary (b.getLastD .null))) :=
  compareRecordPrefixes_eq (fun v hv => ha v (List.mem_of_mem_dropLast hv))
    (fun v hv => hb v (List.mem_of_mem_dropLast hv)) (isOrdered_getLastD ha) (isOrdered_getLastD hb)

theorem compareWithKey_eq (ha : ∀ v ∈ a, v.isOrdered) (hkey : ∀ v ∈ key, v.isOrdered) :
    compareWithKey keyInfo a key =
      compareKeyLists ((columnKeys keyInfo 0 a.dropLast).take key.length)
        (columnKeys keyInfo 0 key) := by
  have htake : a.take (min (a.length - 1) key.length) = a.dropLast.take key.length := by
    rw [List.dropLast_eq_take, List.take_take, min_comm]
  rw [compareWithKey, htake, ← take_columnKeys]
  refine comparePrefix_eq (fun v hv => ?_) hkey
  exact ha v (List.mem_of_mem_dropLast (List.mem_of_mem_take hv))

theorem SortedEntries.inOrder (h : SortedEntries encoding keyInfo es)
    (hkey : ∀ v ∈ key, v.isOrdered) :
    InOrder (entryClass encoding keyInfo key) es := by
  refine h.ascending.imp_of_mem fun {a b} ha hb hab => ?_
  rw [compareRecords_eq (h.ordered a ha) (h.ordered b hb)] at hab
  have hle := Ordering.isLE_left_of_isLE_then (Ordering.isLE_of_eq_lt hab)
  have htake := isLE_compareLex_take hle key.length
  simp only [entryClass, compareWithKey_eq (h.ordered a ha) hkey,
    compareWithKey_eq (h.ordered b hb) hkey]
  constructor
  · exact Std.TransCmp.lt_of_isLE_of_lt htake
  · intro hgt
    exact Std.OrientedCmp.gt_of_lt
      (Std.TransCmp.lt_of_lt_of_isLE (Std.OrientedCmp.lt_of_gt hgt) htake)

theorem SortedEntries.nodup (h : SortedEntries encoding keyInfo es) : es.Nodup := by
  refine h.ascending.imp_of_mem fun {a b} ha _ hab => ?_
  rintro rfl
  rw [compareRecords_eq (h.ordered a ha) (h.ordered a ha), Ordering.then_eq_lt] at hab
  rcases hab with hlt | ⟨-, hlt⟩
  · exact absurd hlt (Std.OrientedCmp.not_lt_of_isLE Std.ReflCmp.isLE_rfl)
  · exact absurd hlt (Std.OrientedCmp.not_lt_of_isLE Std.ReflCmp.isLE_rfl)

end Sorted

/-! ## The descent -/

def dividerValues (usable : Nat) (page : Bytes) (hdr : PageHeader) (i : Nat) :
    Result (List Value) := do
  let off ← hdr.cellPointer page i
  let cell ← parseIndexInteriorCell page off usable
  decodeRecord cell.localPayload .utf8

section Descent

variable (usable : Nat) (keyInfo : List KeyField) (op : SeekOp) (key : List Value)
  (view : UInt32 → Result Bytes)

def DividerSends (page : Bytes) (hdr : PageHeader) (i : Nat) (left : Bool) : Prop :=
  ∃ values, dividerValues usable page hdr i = .ok values ∧
    op.goesLeft (compareWithKey keyInfo values key) = left

def TakesChild (page : Bytes) (hdr : PageHeader) (child : UInt32) : Prop :=
  ∃ i ≤ hdr.numCells,
    TreePosition.interiorChild (indexKind usable) hdr page i = .ok (some child) ∧
    (∀ j < i, DividerSends usable keyInfo op key page hdr j false) ∧
    (i < hdr.numCells → DividerSends usable keyInfo op key page hdr i true)

inductive Descends : UInt32 → Bytes → PageHeader → Prop where
  | leaf {pgno : UInt32} {page : Bytes} {hdr : PageHeader} (hpage : view pgno = .ok page)
      (hparse : PageHeader.parse page (btreeHeaderOffset pgno) = .ok hdr)
      (htype : hdr.pageType = .leafIndex) : Descends pgno page hdr
  | interior {pgno child : UInt32} {page leaf : Bytes} {hdr leafHdr : PageHeader}
      (hpage : view pgno = .ok page)
      (hparse : PageHeader.parse page (btreeHeaderOffset pgno) = .ok hdr)
      (htype : hdr.pageType = .interiorIndex)
      (hchild : TakesChild usable keyInfo op key page hdr child)
      (hrest : Descends child leaf leafHdr) : Descends pgno leaf leafHdr

end Descent

section Spec

variable {usable : Nat} {encoding : TextEncoding} {asI64 : Value → Int64}
  {keyInfo : List KeyField} {op : SeekOp} {key : List Value} {view : UInt32 → Result Bytes}

variable {page : Bytes} {hdr : PageHeader} {child : UInt32} {xs : List (Bytes × Int64)}

theorem pickChildFrom_eq_ok {left : Nat} (hi : i + left = hdr.numCells) :
    pickChildFrom usable keyInfo op key page hdr left i = .ok child ↔
      ∃ k, i ≤ k ∧ k ≤ hdr.numCells ∧
        TreePosition.interiorChild (indexKind usable) hdr page k = .ok (some child) ∧
        (∀ j, i ≤ j → j < k → DividerSends usable keyInfo op key page hdr j false) ∧
        (k < hdr.numCells → DividerSends usable keyInfo op key page hdr k true) := by
  induction left generalizing i with
  | zero =>
      obtain rfl : i = hdr.numCells := by omega
      have hlast : TreePosition.interiorChild (indexKind usable) hdr page hdr.numCells =
          .ok hdr.rightMostPointer := by
        rw [TreePosition.interiorChild, if_neg (by omega), if_pos rfl]
        rfl
      constructor
      · intro h
        rw [pickChildFrom] at h
        split at h
        · rename_i right hright
          cases h
          exact ⟨hdr.numCells, le_rfl, le_rfl, by rw [hlast, hright], fun j _ _ => by omega,
            fun _ => by omega⟩
        · cases h
      · rintro ⟨k, hik, hkn, hchild, -, -⟩
        obtain rfl : k = hdr.numCells := by omega
        rw [hlast] at hchild
        rw [pickChildFrom, Except.ok.inj hchild]
  | succ left ih =>
      have hlt : i < hdr.numCells := by omega
      constructor
      · intro h
        simp only [pickChildFrom, Result.bind_eq_ok] at h
        obtain ⟨off, hoff, cell, hcell, values, hvalues, h⟩ := h
        have hread : dividerValues usable page hdr i = .ok values := by
          simp [dividerValues, hoff, hcell, hvalues]
        split_ifs at h with hleft
        · cases h
          refine ⟨i, le_rfl, hlt.le, ?_, fun j _ _ => by omega, fun _ => ⟨values, hread, hleft⟩⟩
          simp [TreePosition.interiorChild, hlt, hoff, indexKind, hcell]
        · obtain ⟨k, hik, hkn, hchild, hbefore, hat⟩ := (ih (by omega)).mp h
          refine ⟨k, by omega, hkn, hchild, fun j hj hjk => ?_, hat⟩
          rcases hj.eq_or_lt with rfl | hj
          · exact ⟨values, hread, by simpa using hleft⟩
          · exact hbefore j hj hjk
      · rintro ⟨k, hik, hkn, hchild, hbefore, hat⟩
        obtain ⟨values, hread, hleft⟩ :
            DividerSends usable keyInfo op key page hdr i (decide (k = i)) := by
          rcases hik.eq_or_lt with rfl | hik
          · simpa using hat hlt
          · rw [decide_eq_false (by omega)]
            exact hbefore i le_rfl hik
        simp only [dividerValues, Result.bind_eq_ok] at hread
        obtain ⟨off, hoff, cell, hcell, hvalues⟩ := hread
        have hnext : pickChildFrom usable keyInfo op key page hdr (left + 1) i =
            if k = i then pure cell.leftChild
            else pickChildFrom usable keyInfo op key page hdr left (i + 1) := by
          simp [pickChildFrom, hoff, hcell, hvalues, hleft]
        rw [hnext]
        split_ifs with hk
        · subst hk
          have heq : cell.leftChild = child := by
            simpa [TreePosition.interiorChild, hlt, hoff, indexKind, hcell] using hchild
          exact congrArg Except.ok heq
        · exact (ih (by omega)).mpr ⟨k, by omega, hkn, hchild, fun j hj =>
              hbefore j (by omega), hat⟩

theorem pickChildForKey_eq_ok :
    pickChildForKey usable keyInfo op key page hdr = .ok child ↔
      TakesChild usable keyInfo op key page hdr child := by
  rw [pickChildForKey, pickChildFrom_eq_ok (by omega), TakesChild]
  simp

theorem eval_compareLeafEntry {e : Bytes × Int64}
    (h : indexEntryAt usable encoding asI64 view page hdr i = .ok e) :
    (compareLeafEntry usable encoding keyInfo key page hdr i).eval view =
      .ok (entryClass encoding keyInfo key e) := by
  simp only [indexEntryAt, indexLeafEntry, eval_bind, eval_lift, Result.bind_eq_ok] at h
  obtain ⟨off, hoff, cell, hcell, payload, hpayload, rowid, hrowid, he⟩ := h
  cases he
  simp only [keyRecordRowid, Result.bind_eq_ok] at hrowid
  obtain ⟨values, hvalues, -⟩ := hrowid
  have hkey : keyValues encoding (payload, rowid) = values := by
    simp [keyValues, hvalues, Except.toOption]
  simp [compareLeafEntry, hoff, hcell, hpayload, hvalues, entryClass, hkey]

theorem eval_bisectM {test : Nat → Reading Bool} {f : Nat → Bool} {lo hi n : Nat}
    (h : ∀ i < n, (test i).eval view = .ok (f i)) (hhi : hi ≤ n) :
    (bisectM test fuel lo hi).eval view = .ok (bisect f fuel lo hi) := by
  induction fuel generalizing lo hi with
  | zero => rfl
  | succ fuel ih =>
      rw [bisectM, bisect_succ]
      split_ifs with hlt hmid
      · simp [h ((lo + hi) / 2) (by omega), hmid, ih hhi]
      · have hle : (lo + hi) / 2 ≤ n := by omega
        simp [h ((lo + hi) / 2) (by omega), hmid, ih hle]
      · rfl

theorem eval_leafIndexForKey (h : LeafHolds (indexEntryAt usable encoding asI64 view) page hdr xs) :
    (leafIndexForKey usable encoding keyInfo op key page hdr).eval view =
      .ok (op.leafIndex (entryClass encoding keyInfo key) xs) := by
  have htest : ∀ i < hdr.numCells,
      (op.goesOn <$> compareLeafEntry usable encoding keyInfo key page hdr i).eval view =
        .ok (op.test (entryClass encoding keyInfo key) xs i) := by
    intro i hi
    have hlt : i < xs.length := h.1 ▸ hi
    simp [eval_compareLeafEntry (h.2 i hlt), SeekOp.test, hlt]
  simp [leafIndexForKey, eval_bisectM htest le_rfl, SeekOp.leafIndex, h.1]

def IsIndexLeaf (view : UInt32 → Result Bytes) (pgno : UInt32) : Prop :=
  ∃ page hdr, view pgno = .ok page ∧ PageHeader.parse page (btreeHeaderOffset pgno) = .ok hdr ∧
    hdr.pageType = .leafIndex

def landing (c : TreePosition) (pgno : UInt32) (page : Bytes) (hdr : PageHeader)
    (frames : List Frame) (idx : Nat) : TreePosition :=
  { c with
    stack := frames ++ c.stack
    leafPgno := pgno
    leaf := some (page, hdr)
    cellIdx := idx
    pendingAdvance := false }

/--
The descent ends on a leaf of the tree.  Every frame starts over with its first
child, so what is left to visit has the entries of the leaf once more.
-/
theorem descends_lands {pgno : UInt32} {leaf : Bytes} {leafHdr : PageHeader}
    (h : Descends usable keyInfo op key view pgno leaf leafHdr) {depth : Nat}
    {xs zs : List (Bytes × Int64)} {c : TreePosition}
    (hxs : Leaves (indexKind usable) view (indexEntryAt usable encoding asI64 view) depth pgno xs)
    (hzs : Rest (indexKind usable) view (indexEntryAt usable encoding asI64 view) c.stack zs) :
    ∃ leafPgno frames ws es,
      LeafHolds (indexEntryAt usable encoding asI64 view) leaf leafHdr es ∧ es.Sublist xs ∧
      Rest (indexKind usable) view (indexEntryAt usable encoding asI64 view)
        (frames ++ c.stack) (ws ++ zs) ∧
      (IsIndexLeaf view pgno ∧ es = xs ∧ ws = [] ∨ ¬IsIndexLeaf view pgno ∧ es ⊆ ws) ∧
      ∃ N, ∀ fuel ≥ N, (descendToTarget usable encoding keyInfo op key fuel c pgno).eval view =
        .ok (landing c leafPgno leaf leafHdr frames
          (op.leafIndex (entryClass encoding keyInfo key) es)) := by
  induction h generalizing depth xs zs c with
  | @leaf pgno page hdr hpage hparse htype =>
      cases depth with
      | zero => exact hxs.elim
      | succ depth =>
          obtain ⟨page', hdr', hpage', hparse', ⟨-, hholds⟩ | ⟨hint, -⟩⟩ := hxs
          · cases hpage.symm.trans hpage'
            cases hparse.symm.trans hparse'
            refine ⟨pgno, [], [], xs, hholds, .refl _, hzs,
              .inl ⟨⟨page, hdr, hpage, hparse, htype⟩, rfl, rfl⟩, 1, fun fuel hfuel => ?_⟩
            obtain ⟨fuel, rfl⟩ : ∃ n, fuel = n + 1 := ⟨fuel - 1, by omega⟩
            simp [descendToTarget, hpage, hparse, htype, eval_leafIndexForKey hholds, landing]
          · cases hpage.symm.trans hpage'
            cases hparse.symm.trans hparse'
            rw [htype] at hint
            cases hint
  | @interior pgno child page leaf hdr leafHdr hpage hparse htype hchild _ ih =>
      cases depth with
      | zero => exact hxs.elim
      | succ depth =>
          obtain ⟨page', hdr', hpage', hparse', ⟨hleaf, -⟩ | ⟨-, cs, xss, hcs, hxss, rfl⟩⟩ := hxs
          · cases hpage.symm.trans hpage'
            cases hparse.symm.trans hparse'
            rw [htype] at hleaf
            cases hleaf
          · cases hpage.symm.trans hpage'
            cases hparse.symm.trans hparse'
            have hpick := (pickChildForKey_eq_ok).mpr hchild
            obtain ⟨i, hi, hcs', -⟩ := hchild
            have hlt : i < cs.length := by
              rw [hcs.1]
              omega
            have hget : cs[i] = child := by simpa [hcs.2 i hlt] using hcs'
            have hlt' : i < xss.length := hxss.length_eq ▸ hlt
            have hleaves := hxss.get hlt hlt'
            simp only [List.get_eq_getElem, hget] at hleaves
            have hrest := Rest.cons (f := ⟨page, hdr, 0⟩) hcs (by simpa using hxss) hzs
            obtain ⟨leafPgno, frames, ws, es, hholds, hsub, hrest', -, N, hN⟩ :=
              ih (c := { c with stack := ⟨page, hdr, 0⟩ :: c.stack }) hleaves hrest
            have hsub' : es.Sublist xss.flatten :=
              hsub.trans (List.sublist_flatten_of_mem (List.getElem_mem hlt'))
            have hroot : ¬IsIndexLeaf view pgno := by
              rintro ⟨page', hdr', hpage', hparse', htype'⟩
              cases hpage.symm.trans hpage'
              cases hparse.symm.trans hparse'
              rw [htype] at htype'
              cases htype'
            refine ⟨leafPgno, frames ++ [⟨page, hdr, 0⟩], ws ++ xss.flatten, es, hholds, hsub',
              by simpa using hrest',
              .inr ⟨hroot, List.Subset.trans hsub'.subset (List.subset_append_right _ _)⟩, N + 1,
              fun fuel hfuel => ?_⟩
            obtain ⟨fuel, rfl⟩ : ∃ n, fuel = n + 1 := ⟨fuel - 1, by omega⟩
            have hstep := hN fuel (by omega)
            simp [descendToTarget, hpage, hparse, htype, hpick, hstep, landing]

theorem descends_of_eval {pgno : UInt32} {c c' : TreePosition}
    (h : (descendToTarget usable encoding keyInfo op key fuel c pgno).eval view = .ok c') :
    ∃ leaf leafHdr, Descends usable keyInfo op key view pgno leaf leafHdr := by
  induction fuel generalizing c pgno with
  | zero => simp [descendToTarget] at h
  | succ fuel ih =>
      simp only [descendToTarget, eval_bind, eval_getPage, eval_lift, Result.bind_eq_ok] at h
      obtain ⟨page, hpage, hdr, hparse, h⟩ := h
      split at h
      · rename_i htype
        exact ⟨page, hdr, .leaf hpage hparse htype⟩
      · rename_i htype
        simp only [eval_bind, eval_lift, Result.bind_eq_ok] at h
        obtain ⟨child, hpick, h⟩ := h
        obtain ⟨leaf, leafHdr, hrest⟩ := ih h
        exact ⟨leaf, leafHdr, .interior hpage hparse htype ((pickChildForKey_eq_ok).mp hpick) hrest⟩
      · simp at h

theorem seekWalk_lands (h : Descends usable keyInfo op key view root leaf leafHdr) {depth : Nat}
    (hxs : Leaves (indexKind usable) view (indexEntryAt usable encoding asI64 view) depth root xs) :
    ∃ es ws, es.length = leafHdr.numCells ∧ es.Sublist xs ∧
      (IsIndexLeaf view root ∧ es = xs ∧ ws = [] ∨ ¬IsIndexLeaf view root ∧ es ⊆ ws) ∧
      ∃ N, ∀ fuel ≥ N,
        (IndexCursor.seekWalk usable encoding keyInfo op key asI64 fuel root).eval view =
          .ok (if op.leafIndex (entryClass encoding keyInfo key) es < es.length then
            (true, es.drop (op.leafIndex (entryClass encoding keyInfo key) es) ++ ws)
          else (false, [])) := by
  obtain ⟨leafPgno, frames, ws, es, hholds, hsub, hrest, hroot, N, hN⟩ :=
    @descends_lands usable encoding asI64 keyInfo op key view root leaf leafHdr h depth xs []
      TreePosition.start hxs .nil
  rw [List.append_nil] at hrest
  refine ⟨es, ws, hholds.1, hsub, hroot, ?_⟩
  set idx := op.leafIndex (entryClass encoding keyInfo key) es with hidx
  set p := landing TreePosition.start leafPgno leaf leafHdr frames idx with hp
  have hseek (fuel : Nat) (hfuel : fuel ≥ N) :
      ((IndexCursor.new root keyInfo).seek usable encoding op key fuel).eval view =
        ((IndexCursor.refreshPayload usable ⟨p, root, keyInfo, none⟩).eval view >>= fun c =>
          .ok (c, c.isValid)) := by
    have hdesc := hN fuel hfuel
    simp only [IndexCursor.seek, IndexCursor.new, eval_bind, hdesc, Result.ok_bind, eval_pure]
  by_cases hlt : idx < es.length
  · have hat : At (indexKind usable) view (indexEntryAt usable encoding asI64 view) p
        (es.drop idx ++ ws) := At.here rfl rfl hholds hlt rfl hrest
    obtain ⟨c, hrefresh, hc⟩ := refreshPayload_at (c := ⟨p, root, keyInfo, none⟩) hat
    obtain ⟨N', hN'⟩ := visits_at hc
    have hvalid : c.isValid = true := by
      rw [List.drop_eq_getElem_cons hlt] at hc
      exact hc.position.current.1
    refine ⟨max (max N N') ((es.drop idx ++ ws).length + 1), fun fuel hfuel => ?_⟩
    have hfound := hseek fuel (by omega)
    rw [hrefresh, Result.ok_bind, hvalid] at hfound
    have hvisits := hN' fuel (by omega) fuel (by omega)
    simp [IndexCursor.seekWalk, hfound, hvisits, hlt]
  · have hvalid : p.isValid = false := by
      have hcells : p.leafCells = es.length := hholds.1.symm
      have hcell : p.cellIdx = idx := rfl
      simp [TreePosition.isValid, hcells, hcell, hlt]
    refine ⟨N + 1, fun fuel hfuel => ?_⟩
    obtain ⟨fuel, rfl⟩ : ∃ n, fuel = n + 1 := ⟨fuel - 1, by omega⟩
    have hnot := hseek (fuel + 1) (by omega)
    simp only [IndexCursor.refreshPayload, hvalid, eval_pure, Result.ok_bind] at hnot
    simp [IndexCursor.seekWalk, IndexCursor.visits, hnot, hvalid, hlt]

end Spec

/-! ## Through a pager -/

def seekIndex (asI64 : Value → Int64) (fuel : Nat) (op : SeekOp) (key : List Value)
    (root : UInt32) (keyInfo : List KeyField) : PagerM (Bool × List (Bytes × Int64)) := do
  let s ← FileM.getState
  (IndexCursor.seekWalk s.geometry.usableSize s.header.textEncoding keyInfo op key asI64 fuel
    root).run

/--
The index is one leaf, and what the operator asks for is there; or it is larger
and has no such entry, and the descent can read its way to a leaf, which is an
empty one if it is a last entry that is asked for.
-/
def SeeksRight (usable : Nat) (encoding : TextEncoding) (keyInfo : List KeyField) (op : SeekOp)
    (key : List Value) (view : UInt32 → Result Bytes) (root : UInt32)
    (es : List (Bytes × Int64)) : Prop :=
  IsIndexLeaf view root ∧ op.leafCondition (entryClass encoding keyInfo key) es ∨
    ¬IsIndexLeaf view root ∧ (∀ e ∈ es, op.accepts (entryClass encoding keyInfo key e) = false) ∧
      ∃ leaf leafHdr, Descends usable keyInfo op key view root leaf leafHdr ∧
        (op = .le ∨ op = .lt → leafHdr.numCells = 0)

theorem noDividers_of_isIndexLeaf {view : UInt32 → Result Bytes} (h : IsIndexLeaf view root)
    (depth : Nat) : NoDividers view depth root := by
  cases depth with
  | zero => trivial
  | succ depth =>
      obtain ⟨page, hdr, hpage, hparse, htype⟩ := h
      intro page' hdr' hpage' hparse' htype'
      cases hpage.symm.trans hpage'
      cases hparse.symm.trans hparse'
      rw [htype] at htype'
      cases htype'

section Seeks

variable {usable : Nat} {encoding : TextEncoding} {asI64 : Value → Int64}
  {keyInfo : List KeyField} {op : SeekOp} {key : List Value} {view : UInt32 → Result Bytes}
  {root : UInt32} {es : List (Bytes × Int64)} {depth : Nat}

theorem descends_of_seekWalk {r : Bool × List (Bytes × Int64)}
    (h : (IndexCursor.seekWalk usable encoding keyInfo op key asI64 fuel root).eval view = .ok r) :
    ∃ leaf leafHdr, Descends usable keyInfo op key view root leaf leafHdr := by
  simp only [IndexCursor.seekWalk, IndexCursor.seek, eval_bind, Result.bind_eq_ok] at h
  obtain ⟨_, ⟨_, hdesc, _⟩, _⟩ := h
  exact descends_of_eval hdesc

theorem seekWalk_iff (hscan : (visitIndex usable encoding asI64 depth root).eval view = .ok es)
    (hsorted : SortedEntries encoding keyInfo es) (hkey : ∀ v ∈ key, v.isOrdered)
    (hdesc : Descends usable keyInfo op key view root leaf leafHdr) :
    ∃ r N, (∀ fuel ≥ N,
      (IndexCursor.seekWalk usable encoding keyInfo op key asI64 fuel root).eval view = .ok r) ∧
      (r = op.expected (entryClass encoding keyInfo key) es ↔
        IsIndexLeaf view root ∧ op.leafCondition (entryClass encoding keyInfo key) es ∨
        ¬IsIndexLeaf view root ∧ (∀ e ∈ es, op.accepts (entryClass encoding keyInfo key e) =
            false) ∧
          (op = .le ∨ op = .lt → leafHdr.numCells = 0)) := by
  obtain ⟨xs, hleaves, hxs, hiff⟩ := leaves_of_visitIndex hscan
  obtain ⟨ls, ws, hcells, hls, hroot, N, hN⟩ := seekWalk_lands hdesc hleaves
  have hord := hsorted.inOrder hkey
  refine ⟨_, N, hN, ?_⟩
  rcases hroot with ⟨hleaf, rfl, rfl⟩ | ⟨hleaf, hsub⟩
  · obtain rfl := hiff.mpr (noDividers_of_isIndexLeaf hleaf depth)
    rw [or_iff_left (fun h => h.1 hleaf), and_iff_right hleaf, ← leafResult_eq_iff op hord,
      List.append_nil, ← leafResult_eq_ite]
  · rw [or_iff_right (fun h => hleaf h.1), and_iff_right hleaf]
    have hlses : ls.Sublist es := hls.trans hxs
    have hnot : (∀ e ∈ es, op.accepts (entryClass encoding keyInfo key e) = false) →
        (op = .le ∨ op = .lt → leafHdr.numCells = 0) →
        ¬op.leafIndex (entryClass encoding keyInfo key) ls < ls.length := by
      intro hnone hempty
      by_cases hop : op = .le ∨ op = .lt
      · rw [hcells, hempty hop]
        exact Nat.not_lt_zero _
      · have hforward := leafResult_forward (forward_of_not hop) (hord.sublist hlses)
        rw [expected_none fun e he => hnone e (hlses.subset he), SeekOp.leafResult,
          Prod.mk.injEq, decide_eq_false_iff_not] at hforward
        exact hforward.1
    split_ifs with hlt
    · -- The entry on which the cursor stands comes once more, but no entry is there twice.
      refine iff_of_false (fun h => ?_) fun h => hnot h.1 h.2 hlt
      have htarget := target_sublist op (entryClass encoding keyInfo key) es
      rw [SeekOp.expected, Prod.mk.injEq] at h
      rw [← h.2, List.drop_eq_getElem_cons hlt] at htarget
      have hnodup := hsorted.nodup.sublist htarget
      rw [List.cons_append, List.nodup_cons] at hnodup
      exact hnodup.1 (List.mem_append_right _ (hsub (List.getElem_mem hlt)))
    · constructor
      · intro h
        rw [SeekOp.expected, Prod.mk.injEq, eq_comm, List.any_eq_false] at h
        refine ⟨fun e he => by simpa using h.1 e he, fun hop => ?_⟩
        rw [← hcells, List.length_eq_zero_iff]
        by_contra hne
        exact hlt (cellAt_lt hop hne)
      · rintro ⟨hnone, -⟩
        exact (expected_none hnone).symm

end Seeks

/--
A seek finds the right entry and the cursor goes on from there exactly when
`SeeksRight` holds.
-/
theorem seekIndex_eq_expected_iff {asI64 : Value → Int64} {depth : Nat} {root : UInt32}
    {keyInfo : List KeyField} {key : List Value} (op : SeekOp) {p q : PagerState × World DbFile}
    {es : List (Bytes × Int64)} (hp : p.2.failAt = none)
    (hscan : scanIndex asI64 depth root p = .ok es q)
    (hsorted : SortedEntries p.1.header.textEncoding keyInfo es)
    (hkey : ∀ v ∈ key, v.isOrdered) :
    (∃ N, ∀ fuel ≥ N, ∃ q, seekIndex asI64 fuel op key root keyInfo p =
        .ok (op.expected (entryClass p.1.header.textEncoding keyInfo key) es) q) ↔
      SeeksRight p.1.geometry.usableSize p.1.header.textEncoding keyInfo op key
        (pageSeen p.1 p.2.disk) root es := by
  have heval := (run_eq_ok_iff _ hp es).mp ⟨q, hscan⟩
  constructor
  · rintro ⟨N, hN⟩
    have hseek := (run_eq_ok_iff _ hp _).mp (hN N le_rfl)
    obtain ⟨leaf, leafHdr, hdesc⟩ := descends_of_seekWalk hseek
    obtain ⟨r, N', hr, hiff⟩ := seekWalk_iff heval hsorted hkey hdesc
    have hboth := (run_eq_ok_iff _ hp _).mp (hN (max N N') (by omega))
    rw [hr (max N N') (by omega)] at hboth
    rcases hiff.mp (Except.ok.inj hboth) with hleaf | ⟨hleaf, hnone, hempty⟩
    · exact .inl hleaf
    · exact .inr ⟨hleaf, hnone, leaf, leafHdr, hdesc, hempty⟩
  · intro h
    obtain ⟨leaf, leafHdr, hdesc, hcond⟩ : ∃ leaf leafHdr,
        Descends p.1.geometry.usableSize keyInfo op key (pageSeen p.1 p.2.disk) root leaf leafHdr ∧
        (IsIndexLeaf (pageSeen p.1 p.2.disk) root ∧ op.leafCondition (entryClass _ keyInfo key) es ∨
          ¬IsIndexLeaf (pageSeen p.1 p.2.disk) root ∧
            (∀ e ∈ es, op.accepts (entryClass p.1.header.textEncoding keyInfo key e) = false) ∧
            (op = .le ∨ op = .lt → leafHdr.numCells = 0)) := by
      rcases h with ⟨hleaf, hcond⟩ | ⟨hleaf, hnone, leaf, leafHdr, hdesc, hempty⟩
      · obtain ⟨page, hdr, hpage, hparse, htype⟩ := hleaf
        exact ⟨page, hdr, .leaf hpage hparse htype,
          .inl ⟨⟨page, hdr, hpage, hparse, htype⟩, hcond⟩⟩
      · exact ⟨leaf, leafHdr, hdesc, .inr ⟨hleaf, hnone, hempty⟩⟩
    obtain ⟨r, N, hr, hiff⟩ := seekWalk_iff heval hsorted hkey hdesc
    refine ⟨N, fun fuel hfuel => (run_eq_ok_iff _ hp _).mpr ?_⟩
    rw [← hiff.mpr hcond]
    exact hr fuel hfuel

set_option maxRecDepth 10000 in
/-- An index of one leaf. -/
theorem seekIndex_eq_expected_leaf :
    let p := databaseWith [layOut .leafIndex none [indexCell 1, indexCell 2, indexCell 3]]
    ∃ N, ∀ fuel ≥ N, ∃ q, seekIndex intValue fuel .ge [.int 2] 2 [] p =
      .ok (true, [(smallKey 2, 2), (smallKey 3, 3)]) q := by
  intro p
  obtain ⟨es, q, hscan, htest⟩ := FileM.exists_of_endsWith (scanIndex intValue 1 2) p
    (fun es _ => es == [(smallKey 1, 1), (smallKey 2, 2), (smallKey 3, 3)]) (by decide)
  obtain rfl := beq_iff_eq.mp htest
  have hsorted : SortedEntries .utf8 [] [(smallKey 1, 1), (smallKey 2, 2), (smallKey 3, 3)] :=
    ⟨by decide, by decide⟩
  have htype : (pageSeen p.1 p.2.disk 2).toOption.bind (fun page =>
      (PageHeader.parse page 0).toOption.map PageHeader.pageType) = some .leafIndex := by
    decide
  have hleaf : IsIndexLeaf (pageSeen p.1 p.2.disk) 2 := by
    cases hpage : pageSeen p.1 p.2.disk 2 with
    | error e =>
        rw [hpage] at htype
        cases htype
    | ok page =>
        rw [hpage] at htype
        cases hparse : PageHeader.parse page 0 with
        | error e => simp [Except.toOption, hparse] at htype
        | ok hdr => exact ⟨page, hdr, hpage, hparse, by simpa [Except.toOption, hparse] using htype⟩
  exact (seekIndex_eq_expected_iff .ge rfl hscan hsorted (by decide)).mpr (.inl ⟨hleaf, trivial⟩)

set_option maxRecDepth 10000 in
/-- The entry that is asked for stands between two leaves, and is not found. -/
theorem seekIndex_misses_divider :
    let p := databaseWith [
      layOut .interiorIndex (some 4) [be32 3 ++ indexCell 2],
      layOut .leafIndex none [indexCell 1], layOut .leafIndex none [indexCell 3]]
    let es := [(smallKey 1, (1 : Int64)), (smallKey 2, 2), (smallKey 3, 3)]
    SortedEntries .utf8 [] es ∧ (∃ q, scanIndex intValue 2 2 p = .ok es q) ∧
      SeekOp.ge.expected (entryClass .utf8 [] [.int 2]) es =
        (true, [(smallKey 2, 2), (smallKey 3, 3)]) ∧
      ∃ q, seekIndex intValue 4 .ge [.int 2] 2 [] p = .ok (false, []) q := by
  intro p es
  obtain ⟨ws, q, hscan, hws⟩ := FileM.exists_of_endsWith (scanIndex intValue 2 2) p
    (fun ws _ => ws == es) (by decide)
  obtain ⟨r, q', hseek, hr⟩ := FileM.exists_of_endsWith (seekIndex intValue 4 .ge [.int 2] 2 []) p
    (fun r _ => r == (false, [])) (by decide)
  obtain rfl := beq_iff_eq.mp hws
  obtain rfl := beq_iff_eq.mp hr
  exact ⟨⟨by decide, by decide⟩, ⟨q, hscan⟩, by decide, q', hseek⟩

end Rustqlite.Btree
