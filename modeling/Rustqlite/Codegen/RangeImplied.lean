import Rustqlite.Codegen.Where

/-!
# What a range constraint says about a row

A constraint is read off one conjunct of WHERE.  A row that WHERE lets through
passes the comparison of that conjunct, and the constraint says the same about
the column, unless the constant came first.
-/

namespace Rustqlite.Codegen

open Foundation Rustqlite.Parser Schema Vdbe

variable {S W : Type}

/-! ## Constants -/

theorem isOrdered_literalToValue (lit : Literal) : (literalToValue lit).isOrdered := by
  cases lit with
  | real r => simp [literalToValue, Value.isOrdered, r.notNaN]
  | null | integer _ | text _ | blob _ | bool _ => rfl

variable {v v' k : Value} {row : Row} {e w c low high : Expr S W} {op : BinaryOp} {col : String}
  {key : RangeKey} {ks : List RangeKey}

theorem subtractFromZero_sameNumber (n : Numerals) {r : UInt64} (h : v.SameNumber (.real r))
    (hnan : Double.isNaN r = false) :
    (subtractFromZero n v).SameNumber (.real (Double.negate r)) := by
  obtain rfl | ⟨x, y, rfl, hy, hx, hzero⟩ := h.cases
  · exact subtractFromZero_real n hnan
  · cases hy
    have hneg := subtractFromZero_real n (Double.isNaN_of_value hx)
    obtain heq | ⟨a, b, heq, hb, ha, _⟩ := hneg.cases
    · rw [heq]
      exact .inr ⟨by simp [hx], by simp [hzero]⟩
    · rw [heq]
      exact .inr ⟨ha, by simp [hzero]⟩

theorem exprValue_negate (ctx : Ctx S W) (h : ctx.exprValue row (.unary .negate e) = some v') :
    ∃ v, ctx.exprValue row e = some v ∧ v'.SameNumber (subtractFromZero ctx.numerals v) := by
  rw [Ctx.exprValue] at h
  split at h
  next lit hlit =>
    unfold constNegate at hlit
    split at hlit
    next n =>
      split_ifs at hlit with hmin
      cases hlit
      cases h
      exact ⟨.int n, by rw [Ctx.exprValue]; rfl, by
        rw [subtractFromZero_int _ hmin]
        exact .refl _⟩
    next r =>
      cases hlit
      cases h
      exact ⟨.real r.bits, by rw [Ctx.exprValue]; rfl,
        (subtractFromZero_real ctx.numerals r.notNaN).symm⟩
    next => cases hlit
  next =>
    obtain ⟨v, hv, rfl⟩ := Option.map_eq_some_iff.mp h
    exact ⟨v, hv, .refl _⟩

theorem isOrdered_of_constValue (hk : constValue e = .ok (some k)) : k.isOrdered := by
  fun_induction constValue e generalizing k with
  | case1 lit =>
      cases hk
      exact isOrdered_literalToValue lit
  | case2 name =>
      cases hk
      rfl
  | case3 e ih =>
      obtain ⟨inner, hinner, hk⟩ := Result.bind_eq_ok.mp hk
      split at hk
      next i =>
        split_ifs at hk
        cases hk
        rfl
      next r =>
        cases hk
        simpa [Value.isOrdered] using ih hinner
      next => cases hk
  | case4 e => cases hk

theorem exprValue_of_constValue (ctx : Ctx S W) (row : Row) (hk : constValue e = .ok (some k)) :
    ∀ v, ctx.exprValue row e = some v → v.SameNumber k := by
  fun_induction constValue e generalizing k with
  | case1 lit =>
      cases hk
      intro v hv
      rw [Ctx.exprValue] at hv
      cases hv
      exact .refl _
  | case2 name =>
      intro v hv
      simp [Ctx.exprValue] at hv
  | case3 e ih =>
      obtain ⟨inner, hinner, hk⟩ := Result.bind_eq_ok.mp hk
      split at hk
      next i =>
        split_ifs at hk with hmin
        cases hk
        intro v' hv'
        obtain ⟨v, hv, hsame⟩ := exprValue_negate ctx hv'
        have hi : v = .int i := by
          obtain rfl | ⟨_, _, _, h, _⟩ := (ih hinner v hv).cases
          · rfl
          · cases h
        rwa [hi, subtractFromZero_int _ hmin] at hsame
      next r =>
        cases hk
        have hnan : Double.isNaN r = false := by
          simpa [Value.isOrdered] using isOrdered_of_constValue hinner
        intro v' hv'
        obtain ⟨v, hv, hsame⟩ := exprValue_negate ctx hv'
        exact hsame.trans (subtractFromZero_sameNumber _ (ih hinner v hv) hnan)
      next => cases hk
  | case4 e => cases hk

/-! ## Conjuncts -/

theorem passes_of_mem_flattenAnd (ctx : Ctx S W) (h : ctx.Passes row w) (hc : c ∈ flattenAnd w) :
    ctx.Passes row c := by
  fun_induction flattenAnd w with
  | case1 left right ihl ihr =>
      rw [Ctx.Passes, Ctx.jumps] at h
      obtain ⟨jl, hl, hrest⟩ := Option.bind_eq_some_iff.mp h
      cases jl with
      | true => cases hrest
      | false =>
          obtain hc | hc := List.mem_append.mp hc
          · exact ihl hl hc
          · exact ihr hrest hc
  | case2 e hand =>
      rw [List.mem_singleton] at hc
      exact hc ▸ h

theorem mem_flattenAndCollectRange {keys : List RangeKey} (h : flattenAndCollectRange w = .ok keys)
    (key : RangeKey) :
    key ∈ keys ↔ ∃ c ∈ flattenAnd w, ∃ ks, conjunctKeys c = .ok ks ∧ key ∈ ks := by
  fun_induction flattenAndCollectRange w generalizing keys with
  | case1 left right ihl ihr =>
      obtain ⟨kl, hl, h⟩ := Result.bind_eq_ok.mp h
      obtain ⟨kr, hr, h⟩ := Result.bind_eq_ok.mp h
      cases h
      rw [List.mem_append, ihl hl, ihr hr, flattenAnd]
      simp only [List.mem_append, or_and_right, exists_or]
  | case2 e hand =>
      simp only [flattenAnd, List.mem_singleton, exists_eq_left, h, Except.ok.injEq]
      exact ⟨fun hkey => ⟨keys, rfl, hkey⟩, fun ⟨_, heq, hkey⟩ => heq ▸ hkey⟩

theorem compare_of_passes (ctx : Ctx S W) {cmp : CmpOp} {nulleq : Bool} {left right : Expr S W}
    (hop : Ctx.cmpOpcode op = some (cmp, nulleq)) (h : ctx.Passes row (.binary op left right)) :
    ∃ l r, ctx.exprValue row left = some l ∧ ctx.exprValue row right = some r ∧
      compareOperands ctx.numerals (ctx.binaryRules nulleq left right) cmp l r = some true := by
  have hjumps : ctx.jumps row (.binary op left right) false true = (do
      let l ← ctx.exprValue row left
      let r ← ctx.exprValue row right
      return ctx.comparisonJumps cmp (ctx.binaryRules nulleq left right) l r false (!nulleq)) := by
    cases op <;> cases hop <;> rfl
  rw [Ctx.Passes, hjumps] at h
  obtain ⟨l, hl, h⟩ := Option.bind_eq_some_iff.mp h
  obtain ⟨r, hr, h⟩ := Option.bind_eq_some_iff.mp h
  refine ⟨l, r, hl, hr, ?_⟩
  have hnot := Option.some.inj h
  rw [Ctx.comparisonJumps, if_neg (by simp), compareOperands_negateCmp] at hnot
  cases hcmp : compareOperands ctx.numerals (ctx.binaryRules nulleq left right) cmp l r with
  | none =>
      rw [hcmp] at hnot
      cases nulleq with
      | false => cases hnot
      | true => simp [compareOperands, Ctx.binaryRules] at hcmp
  | some b =>
      rw [hcmp] at hnot
      cases b with
      | false => cases hnot
      | true => rfl

theorem between_of_passes (ctx : Ctx S W) (h : ctx.Passes row (.between e low high false)) :
    ∃ v lo hi, ctx.exprValue row e = some v ∧ ctx.exprValue row low = some lo ∧
      ctx.exprValue row high = some hi ∧
      compareOperands ctx.numerals (ctx.betweenRules e low high) .ge v lo = some true ∧
      compareOperands ctx.numerals (ctx.betweenRules e low high) .le v hi = some true := by
  rw [Ctx.Passes, Ctx.jumps] at h
  obtain ⟨v, hv, h⟩ := Option.bind_eq_some_iff.mp h
  obtain ⟨lo, hlo, h⟩ := Option.bind_eq_some_iff.mp h
  obtain ⟨hi, hhi, h⟩ := Option.bind_eq_some_iff.mp h
  have hnot := Option.some.inj h
  simp only [Ctx.betweenJumps, if_true, Bool.or_eq_false_iff] at hnot
  refine ⟨v, lo, hi, hv, hlo, hhi, ?_, ?_⟩
  · exact compareOperands_of_getD hnot.1
  · exact compareOperands_of_getD hnot.2

/-! ## Constraints -/

def Ctx.rulesOf (ctx : Ctx S W) : Expr S W → CompareRules
  | .between e low high _ => ctx.betweenRules e low high
  | .binary op left right => ctx.binaryRules (op = .is ∨ op = .isNot) left right
  | _ => ⟨none, .binary, false⟩

def RangeOp.cmpOp : RangeOp → Option CmpOp
  | .eq => some .eq
  | .gt => some .gt
  | .ge => some .ge
  | .lt => some .lt
  | .le => some .le
  | .isNull => none

def RangeKey.Stands (key : RangeKey) (n : Numerals) (rules : CompareRules) (v : Value) : Prop :=
  match key.op.cmpOp with
  | some op => compareOperands n rules op v key.value = some true
  | none => v = .null

inductive KeySource : Expr S W → RangeKey → Prop
  | isLeft {left right : Expr S W} {col : String} {v : Value} (hcol : columnName left = some col)
      (hval : constValue right = .ok (some v)) :
      KeySource (.binary .is left right) (asRangeKey.isKey col v)
  | isRight {left right : Expr S W} {col : String} {v : Value}
      (hcol : columnName right = some col) (hval : constValue left = .ok (some v)) :
      KeySource (.binary .is left right) (asRangeKey.isKey col v)
  | isNot {left right : Expr S W} {col : String} (hcol : columnName left = some col)
      (hval : constValue right = .ok (some .null)) :
      KeySource (.binary .isNot left right) ⟨col, .gt, .null⟩
  | inOrder {left right : Expr S W} {col : String} {v : Value} {op : BinaryOp} {rop : RangeOp}
      (hop : rangeOp op = some rop) (hcol : columnName left = some col)
      (hval : constValue right = .ok (some v)) : KeySource (.binary op left right) ⟨col, rop, v⟩
  | constFirst {left right : Expr S W} {col : String} {v : Value} {op : BinaryOp} {rop : RangeOp}
      (hop : rangeOp op = some rop) (hnone : columnName left = none)
      (hcol : columnName right = some col) (hval : constValue left = .ok (some v)) :
      KeySource (.binary op left right) ⟨col, rop, v⟩

theorem comparisonKey_eq_some {op : RangeOp} (h : comparisonKey col op e = .ok (some key)) :
    ∃ v, constValue e = .ok (some v) ∧ key = ⟨col, op, v⟩ := by
  obtain ⟨v?, hv, h⟩ := Result.bind_eq_ok.mp h
  cases v? with
  | none => cases h
  | some v =>
      have hkey := Except.ok.inj h
      split_ifs at hkey
      exact ⟨v, hv, (Option.some.inj hkey).symm⟩

theorem keySource_of_asRangeKey (h : asRangeKey c = .ok (some key)) : KeySource c key := by
  unfold asRangeKey at h
  split at h
  next left right =>
    split at h
    next col _ hcol =>
      obtain ⟨v?, hv, h⟩ := Result.bind_eq_ok.mp h
      obtain ⟨v, rfl, rfl⟩ := Option.map_eq_some_iff.mp (Except.ok.inj h)
      exact .isLeft hcol hv
    next col _ hcol =>
      obtain ⟨v?, hv, h⟩ := Result.bind_eq_ok.mp h
      obtain ⟨v, rfl, rfl⟩ := Option.map_eq_some_iff.mp (Except.ok.inj h)
      exact .isRight hcol hv
    next => cases h
  next left right =>
    obtain ⟨v?, hv, h⟩ := Result.bind_eq_ok.mp h
    split at h
    next =>
      obtain ⟨col, hcol, rfl⟩ := Option.map_eq_some_iff.mp (Except.ok.inj h)
      exact .isNot hcol hv
    next => cases h
  next op left right _ _ =>
    split at h
    next => cases h
    next rop hop =>
      split at h
      next col _ hcol =>
        obtain ⟨v, hv, rfl⟩ := comparisonKey_eq_some h
        exact .inOrder hop hcol hv
      next col hnone hcol =>
        obtain ⟨v, hv, rfl⟩ := comparisonKey_eq_some h
        exact .constFirst hop hnone hcol hv
      next => cases h
  next => cases h

theorem exprValue_of_columnName (ctx : Ctx S W) (hcol : columnName e = some col)
    (hread : row.read ctx.table col = some v) (hv : ctx.exprValue row e = some v') : v' = v := by
  unfold columnName at hcol
  split at hcol
  next =>
    cases hcol
    simp only [Ctx.exprValue, Ctx.readColumn, hread, Option.some.injEq] at hv
    exact hv.symm
  next => cases hcol

theorem cmpOpcode_of_rangeOp {rop : RangeOp} (h : rangeOp op = some rop) :
    ∃ cmp, Ctx.cmpOpcode op = some (cmp, false) ∧ rop.cmpOp = some cmp ∧ op ≠ .is ∧
        op ≠ .isNot := by
  cases op <;> cases h
  · exact ⟨.eq, rfl, rfl, by simp, by simp⟩
  · exact ⟨.lt, rfl, rfl, by simp, by simp⟩
  · exact ⟨.le, rfl, rfl, by simp, by simp⟩
  · exact ⟨.gt, rfl, rfl, by simp, by simp⟩
  · exact ⟨.ge, rfl, rfl, by simp, by simp⟩

/-- An inequality with its constant first, and the constraint that is read off it. -/
def ConstFirst (c : Expr S W) (key : RangeKey) : Prop :=
  ∃ op left right, c = .binary op left right ∧ rangeOp op = some key.op ∧ key.op ≠ .eq ∧
    columnName left = none ∧ columnName right = some key.column ∧
    constValue left = .ok (some key.value)

theorem compareOperands_of_constFirst (ctx : Ctx S W) (hturned : ConstFirst c key)
    (hpass : ctx.Passes row c) (hread : row.read ctx.table key.column = some v) :
    ∃ cmp, key.op.cmpOp = some cmp ∧
      compareOperands ctx.numerals (ctx.rulesOf c) cmp.flip v key.value = some true := by
  obtain ⟨op, left, right, rfl, hop, -, -, hcol, hval⟩ := hturned
  obtain ⟨cmp, hcmp, hkey, his, hisNot⟩ := cmpOpcode_of_rangeOp hop
  obtain ⟨l, r, hl, hr, hholds⟩ := compare_of_passes ctx hcmp hpass
  have hrv := exprValue_of_columnName ctx hcol hread hr
  have hlv := exprValue_of_constValue ctx row hval l hl
  refine ⟨cmp, hkey, ?_⟩
  rw [Ctx.rulesOf, ← compareOperands_congr hlv, compareOperands_flip, ← hrv]
  simpa [his, hisNot] using hholds

theorem column_isKey (col : String) (k : Value) : (asRangeKey.isKey col k).column = col := by
  unfold asRangeKey.isKey
  split_ifs <;> rfl

theorem stands_isKey {n : Numerals} {rules : CompareRules} (hnull : rules.nulleq = true)
    (h : compareOperands n rules .eq v k = some true) :
    (asRangeKey.isKey col k).Stands n rules v := by
  unfold asRangeKey.isKey
  split_ifs with hk
  · rw [compareOperands_nulleq hnull, hk] at h
    exact memCompare_null_eq_iff.mp (by simpa [CmpOp.holds] using h)
  · exact h

theorem stands_of_keySource (ctx : Ctx S W) (hsource : KeySource c key)
    (hturned : ¬ConstFirst c key) (hpass : ctx.Passes row c)
    (hread : row.read ctx.table key.column = some v) :
    key.Stands ctx.numerals (ctx.rulesOf c) v := by
  cases hsource with
  | isLeft hcol hval =>
      rw [column_isKey] at hread
      obtain ⟨l, r, hl, hr, hholds⟩ := compare_of_passes ctx rfl hpass
      have hlv := exprValue_of_columnName ctx hcol hread hl
      have hrk := exprValue_of_constValue ctx row hval r hr
      rw [hlv, compareOperands_congr hrk] at hholds
      exact stands_isKey rfl hholds
  | isRight hcol hval =>
      rw [column_isKey] at hread
      obtain ⟨l, r, hl, hr, hholds⟩ := compare_of_passes ctx rfl hpass
      have hrv := exprValue_of_columnName ctx hcol hread hr
      have hlk := exprValue_of_constValue ctx row hval l hl
      rw [hrv, ← compareOperands_flip, compareOperands_congr hlk] at hholds
      exact stands_isKey rfl hholds
  | isNot hcol hval =>
      obtain ⟨l, r, hl, hr, hholds⟩ := compare_of_passes ctx rfl hpass
      have hlv := exprValue_of_columnName ctx hcol hread hl
      have hrk := exprValue_of_constValue ctx row hval r hr
      rw [hlv, compareOperands_congr hrk, compareOperands_nulleq rfl] at hholds
      change compareOperands _ _ .gt v .null = some true
      rw [compareOperands_nulleq rfl]
      cases v <;> simp_all [memCompare, CmpOp.holds]
  | inOrder hop hcol hval =>
      obtain ⟨cmp, hcmp, hkey, his, hisNot⟩ := cmpOpcode_of_rangeOp hop
      obtain ⟨l, r, hl, hr, hholds⟩ := compare_of_passes ctx hcmp hpass
      have hlv := exprValue_of_columnName ctx hcol hread hl
      have hrk := exprValue_of_constValue ctx row hval r hr
      rw [hlv, compareOperands_congr hrk] at hholds
      rw [RangeKey.Stands, hkey]
      simpa [Ctx.rulesOf, his, hisNot] using hholds
  | @constFirst left right col k op rop hop hnone hcol hval =>
      have heq : rop = .eq := by
        by_contra hne
        exact hturned ⟨op, left, right, rfl, hop, hne, hnone, hcol, hval⟩
      obtain ⟨cmp, hcmp, hkey, his, hisNot⟩ := cmpOpcode_of_rangeOp hop
      obtain ⟨l, r, hl, hr, hholds⟩ := compare_of_passes ctx hcmp hpass
      have hrv := exprValue_of_columnName ctx hcol hread hr
      have hlk := exprValue_of_constValue ctx row hval l hl
      subst heq
      cases hkey
      rw [hrv, ← compareOperands_flip, compareOperands_congr hlk] at hholds
      change compareOperands _ _ .eq v k = some true
      simpa [Ctx.rulesOf, his, hisNot, CmpOp.flip] using hholds

theorem stands_of_between (ctx : Ctx S W) (h : betweenKeys e low high = .ok ks) (hkey : key ∈ ks)
    (hpass : ctx.Passes row (.between e low high false))
    (hread : row.read ctx.table key.column = some v) :
    key.Stands ctx.numerals (ctx.betweenRules e low high) v := by
  obtain ⟨v', lo, hi, hv, hlo, hhi, hge, hle⟩ := between_of_passes ctx hpass
  unfold betweenKeys at h
  split at h
  next => cases h; cases hkey
  next col hcol =>
    obtain ⟨lo?, hlow, h⟩ := Result.bind_eq_ok.mp h
    obtain ⟨hi?, hhigh, h⟩ := Result.bind_eq_ok.mp h
    cases h
    obtain hkey | hkey := List.mem_append.mp hkey
    · obtain ⟨k, rfl, rfl⟩ := Option.map_eq_some_iff.mp (Option.mem_toList.mp hkey)
      have hvv := exprValue_of_columnName ctx hcol hread hv
      rwa [hvv, compareOperands_congr (exprValue_of_constValue ctx row hlow lo hlo)] at hge
    · obtain ⟨k, rfl, rfl⟩ := Option.map_eq_some_iff.mp (Option.mem_toList.mp hkey)
      have hvv := exprValue_of_columnName ctx hcol hread hv
      rwa [hvv, compareOperands_congr (exprValue_of_constValue ctx row hhigh hi hhi)] at hle

theorem stands_of_conjunct (ctx : Ctx S W) (h : conjunctKeys c = .ok ks) (hkey : key ∈ ks)
    (hturned : ¬ConstFirst c key) (hpass : ctx.Passes row c)
    (hread : row.read ctx.table key.column = some v) :
    key.Stands ctx.numerals (ctx.rulesOf c) v := by
  unfold conjunctKeys at h
  split at h
  next => exact stands_of_between ctx h hkey hpass hread
  next =>
    obtain ⟨key?, hkey?, h⟩ := Result.bind_eq_ok.mp h
    cases h
    cases Option.mem_toList.mp hkey
    exact stands_of_keySource ctx (keySource_of_asRangeKey hkey?) hturned hpass hread

theorem stands_constFirst_iff (ctx : Ctx S W) (hturned : ConstFirst c key)
    (hpass : ctx.Passes row c) (hread : row.read ctx.table key.column = some v) :
    key.Stands ctx.numerals (ctx.rulesOf c) v ↔ (key.op = .ge ∨ key.op = .le) ∧
      compareOperands ctx.numerals (ctx.rulesOf c) .eq v key.value = some true := by
  obtain ⟨cmp, hcmp, hholds⟩ := compareOperands_of_constFirst ctx hturned hpass hread
  obtain ⟨_, _, _, _, _, hne, _⟩ := hturned
  have hops : cmp ≠ .eq ∧ cmp ≠ .ne ∧
      ((cmp = .ge ∨ cmp = .le) ↔ (key.op = .ge ∨ key.op = .le)) := by
    cases hop : key.op <;> rw [hop] at hcmp hne <;> cases hcmp <;> simp_all
  rw [RangeKey.Stands, hcmp, ← hops.2.2]
  exact compareOperands_both hops.1 hops.2.1 hholds

theorem conjunctKeys_of_constFirst (h : ConstFirst c key) : conjunctKeys c = .ok [key] := by
  obtain ⟨col, rop, k⟩ := key
  obtain ⟨op, left, right, rfl, hop, hne, hnone, hcol, hval⟩ := h
  dsimp only at hop hne hcol hval
  have hcmp : comparisonKey col rop left = .ok (some ⟨col, rop, k⟩) := by
    rw [comparisonKey, hval, Result.ok_bind]
    exact congrArg Except.ok (if_neg fun heq => hne heq.2)
  have hkey : asRangeKey (.binary op left right) = .ok (some ⟨col, rop, k⟩) := by
    cases op <;> cases hop <;> simp only [asRangeKey, rangeOp, hnone, hcol, hcmp]
  rw [conjunctKeys, hkey]
  · rfl
  · simp

/-- What WHERE says about a column, the constraints that are read off it say too. -/
def Implied (ctx : Ctx S W) (w : Expr S W) : Prop :=
  ∀ c ∈ flattenAnd w, ∀ ks, conjunctKeys c = .ok ks → ∀ key ∈ ks, ∀ row v,
    ctx.Passes row w → row.read ctx.table key.column = some v →
      key.Stands ctx.numerals (ctx.rulesOf c) v

/--
WHERE implies the constraints that are collected from it exactly when it lets
no row through an inequality with its constant first, other than one that is
not strict and has equal sides.
-/
theorem implied_iff_constFirst (ctx : Ctx S W) (w : Expr S W) (keys : List RangeKey)
    (h : collectWhereRangeConstraints (some w) = .ok keys) :
    (∀ key, key ∈ keys ↔ ∃ c ∈ flattenAnd w, ∃ ks, conjunctKeys c = .ok ks ∧ key ∈ ks) ∧
    (Implied ctx w ↔ ∀ c ∈ flattenAnd w, ∀ key, ConstFirst c key → ∀ row v,
      ctx.Passes row w → row.read ctx.table key.column = some v →
        (key.op = .ge ∨ key.op = .le) ∧
          compareOperands ctx.numerals (ctx.rulesOf c) .eq v key.value = some true) := by
  refine ⟨mem_flattenAndCollectRange h, ?_⟩
  constructor
  · intro himplied c hc key hturned row v hpass hread
    exact (stands_constFirst_iff ctx hturned (passes_of_mem_flattenAnd ctx hpass hc) hread).mp
      (himplied c hc [key] (conjunctKeys_of_constFirst hturned) key (List.mem_singleton_self key)
        row v hpass hread)
  · intro hends c hc ks hks key hkey row v hpass hread
    have hpassc := passes_of_mem_flattenAnd ctx hpass hc
    by_cases hturned : ConstFirst c key
    · exact (stands_constFirst_iff ctx hturned hpassc hread).mpr
        (hends c hc key hturned row v hpass hread)
    · exact stands_of_conjunct ctx hks hkey hturned hpassc hread

/-! ## A constant that comes first -/

/-- The table `t(a INTEGER)`; nothing but the column is looked up. -/
def intCtx : Ctx Empty Empty where
  table := ⟨"t", [⟨"a", .integer, .binary⟩], none, false⟩
  numerals := ⟨fun _ => "", fun _ => (none, false)⟩
  outer _ _ := none
  otherValue _ _ := none

def fiveFirst (op : BinaryOp) : Expr Empty Empty :=
  .binary op (.literal (.integer 5)) (.column none none "a")

/-- `5 > a` lets 3 through, and is taken for `a > 5`. -/
theorem fiveFirst_not_implied :
    collectWhereRangeConstraints (some (fiveFirst .gt)) = .ok [⟨"a", .gt, .int 5⟩] ∧
      ¬Implied intCtx (fiveFirst .gt) := by
  constructor
  · rfl
  · intro himplied
    have hstands := himplied (fiveFirst .gt) (List.mem_singleton_self _) [⟨"a", .gt, .int 5⟩] rfl
      _ (List.mem_singleton_self _) ⟨1, [.int 3]⟩ (.int 3) rfl rfl
    have hcmp : compareOperands intCtx.numerals (intCtx.rulesOf (fiveFirst .gt)) .gt (.int 3)
        (.int 5) = some true := hstands
    exact absurd hcmp (by decide)

theorem implied_iff_constFirst_le :
    collectWhereRangeConstraints (some (fiveFirst .le)) = .ok [⟨"a", .le, .int 5⟩] ∧
    (Implied intCtx (fiveFirst .le) ↔ ∀ c ∈ flattenAnd (fiveFirst .le), ∀ key, ConstFirst c key →
      ∀ row v, intCtx.Passes row (fiveFirst .le) → row.read intCtx.table key.column = some v →
        (key.op = .ge ∨ key.op = .le) ∧
          compareOperands intCtx.numerals (intCtx.rulesOf c) .eq v key.value = some true) :=
  ⟨rfl, (implied_iff_constFirst intCtx (fiveFirst .le) [⟨"a", .le, .int 5⟩] rfl).2⟩

end Rustqlite.Codegen
