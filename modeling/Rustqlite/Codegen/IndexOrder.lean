import Mathlib.Data.List.TakeWhile
import Rustqlite.Codegen.IndexPlanner
import Rustqlite.Codegen.RangeImplied
import Rustqlite.Foundation.Comparisons

/-!
# The order of an index and the order asked for

A plan that takes the order of an index for the one of ORDER BY leaves out the
sorter.  It looks at the names and the directions of the columns, and not at
what a name stands for, which may be an output of the query.
-/

namespace Rustqlite.Codegen

open Foundation Rustqlite.Parser Schema Vdbe

variable {S W : Type}

/-! ## The two orders -/

def columnCompare (desc : Bool) (coll : Collation) (a b : Value) : Ordering :=
  if desc then (memCompare a b coll).swap else memCompare a b coll

def orderCompare (desc : Bool) (nulls : Option NullsOrder) (coll : Collation) :
    Value → Value → Ordering
  | .null, .null => .eq
  | .null, _ => if nullsFirst then .lt else .gt
  | _, .null => if nullsFirst then .gt else .lt
  | a, b => columnCompare desc coll a b
where
  nullsFirst : Bool := match nulls with
    | some .first => true
    | some .last => false
    | none => !desc

def resolveOrderTerm (term : OrderingTerm S W) (outputs : List (Expr S W × String)) :
    Result (Expr S W) :=
  match term.expr with
  | .literal (.integer n) =>
      match if 1 ≤ n then outputs[(n.toInt - 1).toNat]? else none with
      | some (e, _) => .ok e
      | none => .error (.msg
          s!"ORDER BY term out of range - should be between 1 and {outputs.length}")
  | .column s none name =>
      match outputs.find? fun o => eqIgnoreAsciiCase o.2 name with
      | some (e, _) => .ok e
      | none => .ok (.column s none name)
  | e => .ok e

namespace Ctx

variable (ctx : Ctx S W)

def indexValue (ic : IndexedColumn S W) (row : Row) : Value :=
  if ic.isExpression then (ic.expr.bind (ctx.exprValue row)).getD .null
  else (row.read ctx.table ic.name).getD .null

def keyCompare (ic : IndexedColumn S W) (a b : Row) : Ordering :=
  columnCompare ic.desc ic.collation (ctx.indexValue ic a) (ctx.indexValue ic b)

def indexCompare (index : IndexObject S W) (a b : Row) : Ordering :=
  (lexCompare (index.columns.map ctx.keyCompare) a b).then (compare a.rowid.toInt b.rowid.toInt)

/-- The collation of a term: its COLLATE clause, or what the column under it is declared with. -/
def orderCollation : Expr S W → Collation
  | .collate e name => (collationFromName name).getD (orderCollation e)
  | .column _ qualifier name =>
      match ctx.table.resolveColumn name with
      | some (.index i) => ctx.table.collationAt i
      | some .rowid => .binary
      | none => ((ctx.outer qualifier name).map Prod.snd).getD .binary
  | _ => .binary

def termCompare (outputs : List (Expr S W × String)) (term : OrderingTerm S W) (a b : Row) :
    Ordering :=
  match resolveOrderTerm term outputs with
  | .ok e => orderCompare term.desc term.nulls (ctx.orderCollation e)
      ((ctx.exprValue a e).getD .null) ((ctx.exprValue b e).getD .null)
  | .error _ => .eq

def orderByCompare (outputs : List (Expr S W × String)) (orderBy : List (OrderingTerm S W))
    (a b : Row) : Ordering :=
  lexCompare (orderBy.map (ctx.termCompare outputs)) a b

def keyHolds (ic : IndexedColumn S W) (key : RangeKey) (row : Row) : Bool :=
  (key.op.cmpOp.getD .eq).holds (memCompare (ctx.indexValue ic row) key.value ic.collation)

def inRange (plan : IndexPlan S W) (row : Row) : Bool :=
  let n := eqPrefixLen plan.range
  ((plan.index.columns.zip (plan.range.take n)).all fun (ic, key) => ctx.keyHolds ic key row) &&
    (plan.index.columns[n]?.all fun ic => (plan.range.drop n).all fun key =>
        ctx.keyHolds ic key row)

def SkipsSort (outputs : List (Expr S W × String)) (orderBy : List (OrderingTerm S W))
    (plan : IndexPlan S W) : Prop :=
  ∀ rows : List Row, (rows.map Row.rowid).Nodup →
    (∀ row ∈ rows, ∀ ic ∈ plan.index.columns, (ctx.indexValue ic row).isOrdered) →
    rows.Pairwise (fun a b => ctx.indexCompare plan.index a b ≠ .gt) →
    (rows.filter (ctx.inRange plan)).Pairwise
      (fun a b => ctx.orderByCompare outputs orderBy a b ≠ .gt)

end Ctx

/-! ## The values of the constraints -/

variable {c e : Expr S W} {key : RangeKey} {select : SelectStmt S W}
  {constraints range : List RangeKey} {tableColumns : List String} {index : IndexObject S W}
  {table : Table} {plan : IndexPlan S W} {column : ColumnRef} {ic : IndexedColumn S W} {v w : Value}
  {coll : Collation} {desc : Bool} {term : OrderingTerm S W} {row a b : Row} {q p j : Nat}
  {outputs : List (Expr S W × String)} {terms orderBy : List (OrderingTerm S W)} {ctx : Ctx S W}
  {s t : String}

theorem isOrdered_of_keySource (h : KeySource c key) : key.value.isOrdered := by
  have hisKey {col : String} {v : Value} (hv : v.isOrdered) :
      (asRangeKey.isKey col v).value.isOrdered := by
    unfold asRangeKey.isKey
    split_ifs <;> exact hv
  cases h with
  | isLeft _ hval => exact hisKey (isOrdered_of_constValue hval)
  | isRight _ hval => exact hisKey (isOrdered_of_constValue hval)
  | isNot _ _ => rfl
  | inOrder _ _ hval => exact isOrdered_of_constValue hval
  | constFirst _ _ _ hval => exact isOrdered_of_constValue hval

theorem isOrdered_of_conjunctKeys {ks : List RangeKey} (h : conjunctKeys c = .ok ks)
    (hkey : key ∈ ks) : key.value.isOrdered := by
  unfold conjunctKeys at h
  split at h
  next e low high =>
    unfold betweenKeys at h
    split at h
    next => cases h; cases hkey
    next col hcol =>
      obtain ⟨lo?, hlow, h⟩ := Result.bind_eq_ok.mp h
      obtain ⟨hi?, hhigh, h⟩ := Result.bind_eq_ok.mp h
      cases h
      obtain hkey | hkey := List.mem_append.mp hkey
      · obtain ⟨k, rfl, rfl⟩ := Option.map_eq_some_iff.mp (Option.mem_toList.mp hkey)
        exact isOrdered_of_constValue hlow
      · obtain ⟨k, rfl, rfl⟩ := Option.map_eq_some_iff.mp (Option.mem_toList.mp hkey)
        exact isOrdered_of_constValue hhigh
  next =>
    obtain ⟨key?, hkey?, h⟩ := Result.bind_eq_ok.mp h
    cases h
    cases Option.mem_toList.mp hkey
    exact isOrdered_of_keySource (keySource_of_asRangeKey hkey?)

theorem isOrdered_of_whereConstraints {likeOpts : List (LikeOpt S W)}
    (h : whereConstraints select likeOpts = .ok constraints) (hkey : key ∈ constraints) :
    key.value.isOrdered := by
  obtain ⟨collected, hcollected, h⟩ := Result.bind_eq_ok.mp h
  cases h
  obtain hkey | hkey := List.mem_append.mp hkey
  · cases hw : select.whereClause with
    | none =>
        rw [hw] at hcollected
        cases hcollected
        cases hkey
    | some w =>
        rw [hw] at hcollected
        obtain ⟨c, -, ks, hks, hmem⟩ := (mem_flattenAndCollectRange hcollected key).mp hkey
        exact isOrdered_of_conjunctKeys hks hmem
  · obtain ⟨opt, -, hopt⟩ := List.mem_flatMap.mp hkey
    obtain rfl | hupper := List.mem_cons.mp hopt
    · rfl
    · obtain ⟨upper, -, rfl⟩ := Option.map_eq_some_iff.mp (Option.mem_toList.mp hupper)
      rfl

theorem mem_of_gatherRange {sawRange : Bool} {columns : List (IndexedColumn S W)}
    (h : gatherRange tableColumns constraints sawRange columns = some range) (hkey : key ∈ range) :
    key ∈ constraints := by
  have hfound {name : String} {p : RangeKey → Bool} {k : RangeKey}
      (hk : (constraintsOn constraints name).find? p = some k) : k ∈ constraints :=
    (List.mem_filter.mp (List.mem_of_find?_eq_some hk)).1
  induction columns generalizing sawRange range with
  | nil =>
      cases h
      cases hkey
  | cons ic rest ih =>
      rw [gatherRange] at h
      split_ifs at h
      · cases h
        cases hkey
      · dsimp only at h
        split at h
        next eq heq =>
          obtain ⟨range', hrest, rfl⟩ := Option.map_eq_some_iff.mp h
          obtain rfl | hkey := List.mem_cons.mp hkey
          · exact hfound heq
          · exact ih hrest hkey
        next =>
          split at h
          next =>
            cases h
            cases hkey
          next lower upper hnot =>
            obtain ⟨range', hrest, rfl⟩ := Option.map_eq_some_iff.mp h
            obtain hbound | hkey := List.mem_append.mp hkey
            · obtain hbound | hbound := List.mem_append.mp hbound
              · exact hfound (Option.mem_toList.mp hbound)
              · exact hfound (Option.mem_toList.mp hbound)
            · exact ih hrest hkey

theorem mem_of_findIndexRangePrefix
    (h : (findIndexRangePrefix index tableColumns constraints).getD [] = range)
    (hkey : key ∈ range) :
    key ∈ constraints := by
  subst h
  unfold findIndexRangePrefix at hkey
  split at hkey
  · cases hkey
  · cases hkey
  · next hgather => exact mem_of_gatherRange hgather hkey

theorem pickPlan_cases [BEq S] [BEq W] {caseSensitiveLike : Bool} {referenced : List Nat}
    {forced : Bool}
    (h : pickPlan select index table caseSensitiveLike referenced forced = .ok plan) :
    plan.index = index ∧ (∀ key ∈ plan.range, key.value.isOrdered) ∧
      (plan.orderBySatisfied = true →
        orderByMatchesIndex select.orderBy index table (eqPrefixLen plan.range) = true) := by
  obtain ⟨constraints, hconstraints, h⟩ := Result.bind_eq_ok.mp h
  cases h
  unfold planForIndex
  split_ifs
  · exact ⟨rfl, by simp, by simp⟩
  · refine ⟨rfl, fun key hkey => ?_, id⟩
    exact isOrdered_of_whereConstraints hconstraints (mem_of_findIndexRangePrefix rfl hkey)

/-! ## Terms and the columns of an index -/

def Ctx.columnRead (ctx : Ctx S W) : Expr S W → Option ColumnRef
  | .collate e _ => ctx.columnRead e
  | .column _ _ name => ctx.table.resolveColumn name
  | _ => none

def Ctx.indexedColumn (ctx : Ctx S W) (ic : IndexedColumn S W) : Option ColumnRef :=
  if ic.isExpression then none else ctx.table.resolveColumn ic.name

def IndexPlan.AdmitsText (plan : IndexPlan S W) (q : Nat) (ic : IndexedColumn S W)
    (s : String) : Prop :=
  q < eqPrefixLen plan.range →
    ∀ key, plan.range[q]? = some key → memCompare (.text s) key.value ic.collation = .eq

/--
Among entries of the range that agree on the first columns of the index, up to
`p`, the column is constant: it is one of these columns, and no two texts that
are equal there differ under the collation.
-/
def Ctx.Constant (ctx : Ctx S W) (plan : IndexPlan S W) (p : Nat) (column : ColumnRef)
    (coll : Collation) : Prop :=
  ∃ q < p, ∃ ic, plan.index.columns[q]? = some ic ∧ ctx.indexedColumn ic = some column ∧
    ∀ s t, plan.AdmitsText q ic s → plan.AdmitsText q ic t →
      ic.collation.compare s t = .eq → coll.compare s t = .eq

/--
The terms go along the index from column `p` on.  Each of them, as it is
resolved, is a column that is constant by then, or the next column of the index
with its collation and its direction.
-/
def Ctx.Follows (ctx : Ctx S W) (plan : IndexPlan S W) (outputs : List (Expr S W × String)) :
    Nat → List (OrderingTerm S W) → Prop
  | _, [] => True
  | p, term :: rest => ∃ e column, resolveOrderTerm term outputs = .ok e ∧
      ctx.columnRead e = some column ∧
      ((ctx.Constant plan p column (ctx.orderCollation e) ∧ ctx.Follows plan outputs p rest) ∨
        ∃ ic, plan.index.columns[p]? = some ic ∧ ctx.indexedColumn ic = some column ∧
          ic.collation = ctx.orderCollation e ∧ ic.desc = term.desc ∧
          ctx.Follows plan outputs (p + 1) rest)

def valueAt (table : Table) (row : Row) : ColumnRef → Value
  | .rowid => .int row.rowid
  | .index i => row.column table i

theorem read_eq_valueAt {name : String} (row : Row) (h : table.resolveColumn name = some column) :
    row.read table name = some (valueAt table row column) := by
  rw [Row.read, h]
  cases column <;> rfl

theorem exprValue_columnRead (ctx : Ctx S W) (row : Row) (h : ctx.columnRead e = some column) :
    ctx.exprValue row e = some (valueAt ctx.table row column) := by
  induction e using Ctx.columnRead.induct with
  | case1 e name ih =>
      rw [Ctx.exprValue]
      exact ih h
  | case2 schema qualifier name => rw [Ctx.exprValue, Ctx.readColumn, read_eq_valueAt row h]
  | case3 e hcollate hcolumn =>
      rw [Ctx.columnRead] at h
      · cases h
      · exact hcollate
      · exact hcolumn

theorem indexValue_indexedColumn (ctx : Ctx S W) (row : Row)
    (h : ctx.indexedColumn ic = some column) :
    ctx.indexValue ic row = valueAt ctx.table row column := by
  unfold Ctx.indexedColumn at h
  split_ifs at h with hplain
  rw [Ctx.indexValue, if_neg hplain, read_eq_valueAt row h]
  rfl

theorem memCompare_tie {k : Value} (hv : v.isOrdered) (hw : w.isOrdered) (hk : k.isOrdered)
    (hvk : memCompare v k coll = .eq) (hwk : memCompare w k coll = .eq) :
    memCompare v w coll = .eq := by
  rw [memCompare_eq coll hv hk] at hvk
  rw [memCompare_eq coll hw hk] at hwk
  rw [memCompare_eq coll hv hw]
  exact Std.TransCmp.eq_trans hvk (Std.OrientedCmp.eq_symm hwk)

theorem columnCompare_eq_iff {a b : Value} :
    columnCompare desc coll a b = .eq ↔ memCompare a b coll = .eq := by
  unfold columnCompare
  split_ifs
  · exact Ordering.swap_eq_eq
  · exact Iff.rfl

theorem memCompare_constant {c d : Collation}
    (h : ∀ s t, v = .text s → w = .text t → c.compare s t = .eq → d.compare s t = .eq)
    (heq : memCompare v w c = .eq) : memCompare v w d = .eq := by
  cases v <;> cases w <;> first | exact heq | exact h _ _ rfl rfl heq

theorem orderCompare_eq (h : nullsIsDefault term = true) (coll : Collation) (a b : Value) :
    orderCompare term.desc term.nulls coll a b = columnCompare term.desc coll a b := by
  have hfirst : orderCompare.nullsFirst term.desc term.nulls = !term.desc := by
    unfold nullsIsDefault at h
    unfold orderCompare.nullsFirst
    split at h <;> simp_all
  unfold columnCompare
  cases a <;> cases b <;> simp only [orderCompare, columnCompare, hfirst, memCompare] <;>
    cases term.desc <;> rfl

theorem take_eqPrefixLen (range : List RangeKey) :
    range.take (eqPrefixLen range) = range.takeWhile fun k => k.op.isEquality :=
  (List.prefix_iff_eq_take.mp (List.takeWhile_prefix _)).symm

theorem isEquality_of_mem_take (h : key ∈ range.take (eqPrefixLen range)) :
    key.op.isEquality = true := by
  rw [take_eqPrefixLen] at h
  have hkey := List.mem_takeWhile_imp h
  exact hkey

theorem keyHolds_equality (ctx : Ctx S W) (heq : key.op.isEquality = true)
    (h : ctx.keyHolds ic key row = true) :
    memCompare (ctx.indexValue ic row) key.value ic.collation = .eq := by
  have hop : key.op.cmpOp.getD .eq = .eq := by
    cases hkey : key.op <;> rw [hkey] at heq <;> first | rfl | cases heq
  unfold Ctx.keyHolds at h
  rw [hop] at h
  simpa [CmpOp.holds] using h

theorem getElem?_eqPrefix (hq : q < eqPrefixLen range) :
    ∃ key, range[q]? = some key ∧ key.op.isEquality = true ∧
      (range.take (eqPrefixLen range))[q]? = some key := by
  have hle : eqPrefixLen range ≤ range.length := (List.takeWhile_sublist _).length_le
  refine ⟨range[q], List.getElem?_eq_getElem (by omega), ?_, ?_⟩
  · exact isEquality_of_mem_take (List.mem_take_iff_getElem.mpr ⟨q, by omega, rfl⟩)
  · rw [List.getElem?_take_of_lt hq, List.getElem?_eq_getElem (by omega)]

theorem pinned_of_inRange (ctx : Ctx S W) (h : ctx.inRange plan row = true)
    (hq : q < eqPrefixLen plan.range) (hic : plan.index.columns[q]? = some ic)
    (hkey : plan.range[q]? = some key) :
    memCompare (ctx.indexValue ic row) key.value ic.collation = .eq := by
  obtain ⟨key', hkey', heq, htake⟩ := getElem?_eqPrefix hq
  cases hkey.symm.trans hkey'
  rw [Ctx.inRange, Bool.and_eq_true, List.all_eq_true] at h
  refine keyHolds_equality ctx heq (h.1 (ic, key) (List.mem_iff_getElem?.mpr ⟨q, ?_⟩))
  rw [List.getElem?_zip_eq_some]
  exact ⟨hic, htake⟩

theorem tie_of_inRange (ctx : Ctx S W) (hkeys : ∀ key ∈ plan.range, key.value.isOrdered)
    (ha : ∀ ic ∈ plan.index.columns, (ctx.indexValue ic a).isOrdered)
    (hb : ∀ ic ∈ plan.index.columns, (ctx.indexValue ic b).isOrdered)
    (hina : ctx.inRange plan a = true) (hinb : ctx.inRange plan b = true)
    (hq : q < eqPrefixLen plan.range) (hic : plan.index.columns[q]? = some ic) :
    ctx.keyCompare ic a b = .eq := by
  obtain ⟨key, hkey, -, -⟩ := getElem?_eqPrefix hq
  have hmem := List.mem_of_getElem? hic
  exact columnCompare_eq_iff.mpr (memCompare_tie (ha ic hmem) (hb ic hmem)
    (hkeys key (List.mem_of_getElem? hkey)) (pinned_of_inRange ctx hina hq hic hkey)
    (pinned_of_inRange ctx hinb hq hic hkey))

theorem keyCompare_eq (ctx : Ctx S W) (h : ctx.indexedColumn ic = some column) (a b : Row) :
    ctx.keyCompare ic a b = columnCompare ic.desc ic.collation (valueAt ctx.table a column)
      (valueAt ctx.table b column) := by
  rw [Ctx.keyCompare, indexValue_indexedColumn ctx a h, indexValue_indexedColumn ctx b h]

theorem termCompare_eq (ctx : Ctx S W) (hnulls : nullsIsDefault term = true)
    (hresolve : resolveOrderTerm term outputs = .ok e) (hread : ctx.columnRead e = some column)
    (a b : Row) :
    ctx.termCompare outputs term a b = columnCompare term.desc (ctx.orderCollation e)
      (valueAt ctx.table a column) (valueAt ctx.table b column) := by
  simp only [Ctx.termCompare, hresolve]
  rw [orderCompare_eq hnulls, exprValue_columnRead ctx a hread, exprValue_columnRead ctx b hread]
  rfl

theorem constant_tie (ctx : Ctx S W) (hina : ctx.inRange plan a = true)
    (hinb : ctx.inRange plan b = true)
    (hties : ∀ q < p, ∀ ic, plan.index.columns[q]? = some ic → ctx.keyCompare ic a b = .eq)
    (h : ctx.Constant plan p column coll) :
    memCompare (valueAt ctx.table a column) (valueAt ctx.table b column) coll = .eq := by
  obtain ⟨q, hq, ic, hic, hcolumn, htexts⟩ := h
  have htie := hties q hq ic hic
  rw [keyCompare_eq ctx hcolumn, columnCompare_eq_iff] at htie
  have hadmits {row : Row} (hin : ctx.inRange plan row = true) {s : String}
      (hs : valueAt ctx.table row column = .text s) : plan.AdmitsText q ic s := by
    intro hlt key hkey
    rw [← hs, ← indexValue_indexedColumn ctx row hcolumn]
    exact pinned_of_inRange ctx hin hlt hic hkey
  exact memCompare_constant (fun s t hs ht => htexts s t (hadmits hina hs) (hadmits hinb ht)) htie

theorem orderBy_ne_gt_of_follows (ctx : Ctx S W) (hina : ctx.inRange plan a = true)
    (hinb : ctx.inRange plan b = true) (hnulls : ∀ term ∈ terms, nullsIsDefault term = true)
    (hfollows : ctx.Follows plan outputs p terms)
    (hties : ∀ q < p, ∀ ic, plan.index.columns[q]? = some ic → ctx.keyCompare ic a b = .eq)
    (hle : lexCompare ((plan.index.columns.drop p).map ctx.keyCompare) a b ≠ .gt) :
    ctx.orderByCompare outputs terms a b ≠ .gt := by
  induction terms generalizing p with
  | nil => simp [Ctx.orderByCompare, lexCompare]
  | cons term rest ih =>
      rw [List.forall_mem_cons] at hnulls
      obtain ⟨e, column, hresolve, hread, hcase⟩ := hfollows
      have hterm := termCompare_eq ctx hnulls.1 hresolve hread a b
      rw [Ctx.orderByCompare, List.map_cons, lexCompare, hterm]
      rcases hcase with ⟨hconstant, hrest⟩ | ⟨ic, hic, hcolumn, hcoll, hdesc, hrest⟩
      · rw [columnCompare_eq_iff.mpr (constant_tie ctx hina hinb hties hconstant), Ordering.eq_then]
        exact ih hnulls.2 hrest hties hle
      · obtain ⟨hp, rfl⟩ := List.getElem?_eq_some_iff.mp hic
        rw [List.drop_eq_getElem_cons hp, List.map_cons, lexCompare] at hle
        rw [← hcoll, ← hdesc, ← keyCompare_eq ctx hcolumn]
        cases hkey : ctx.keyCompare plan.index.columns[p] a b with
        | lt => simp
        | gt => simp [hkey] at hle
        | eq =>
            rw [hkey, Ordering.eq_then] at hle
            rw [Ordering.eq_then]
            refine ih hnulls.2 hrest (fun q hq ic' hic' => ?_) hle
            rcases Nat.lt_succ_iff_lt_or_eq.mp hq with hlt | rfl
            · exact hties q hlt ic' hic'
            · cases hic.symm.trans hic'
              exact hkey

theorem nullsIsDefault_of_matches {n : Nat} (h : orderByMatchesIndex orderBy index table n = true) :
    n + orderBy.length ≤ index.columns.length ∧
      ∀ term ∈ orderBy, nullsIsDefault term = true := by
  unfold orderByMatchesIndex at h
  split_ifs at h with hempty hlen
  rw [List.all_eq_true] at h
  refine ⟨by omega, fun term hterm => ?_⟩
  obtain ⟨i, hi, rfl⟩ := List.mem_iff_getElem.mp hterm
  have hmatch : termMatches table orderBy[i] index.columns[n + i] = true :=
    h (orderBy[i], index.columns[n + i]) (List.mem_iff_getElem.mpr
      ⟨i, by simp only [List.length_zip, List.length_drop]; omega, by simp⟩)
  unfold termMatches at hmatch
  split at hmatch
  · cases hmatch
  · rw [Bool.and_eq_true] at hmatch
    exact hmatch.2

theorem skipsSort_of_follows (ctx : Ctx S W) (hkeys : ∀ key ∈ plan.range, key.value.isOrdered)
    (hnulls : ∀ term ∈ orderBy, nullsIsDefault term = true)
    (hfollows : ctx.Follows plan outputs (eqPrefixLen plan.range) orderBy) :
    ctx.SkipsSort outputs orderBy plan := by
  intro rows _ hordered hsorted
  refine (hsorted.filter _).imp_of_mem fun {a b} ha hb hab => ?_
  obtain ⟨ha, hina⟩ := List.mem_filter.mp ha
  obtain ⟨hb, hinb⟩ := List.mem_filter.mp hb
  have hties (q : Nat) (hq : q < eqPrefixLen plan.range) (ic : IndexedColumn S W)
      (hic : plan.index.columns[q]? = some ic) : ctx.keyCompare ic a b = .eq :=
    tie_of_inRange ctx hkeys (hordered a ha) (hordered b hb) hina hinb hq hic
  refine orderBy_ne_gt_of_follows ctx hina hinb hnulls hfollows hties ?_
  have hsplit : plan.index.columns.map ctx.keyCompare =
      (plan.index.columns.take (eqPrefixLen plan.range)).map ctx.keyCompare ++
        (plan.index.columns.drop (eqPrefixLen plan.range)).map ctx.keyCompare ++ [] := by
    rw [← List.map_append, List.take_append_drop, List.append_nil]
  rw [Ctx.indexCompare, hsplit] at hab
  refine lexCompare_ne_gt (fun c hc => ?_) hab
  obtain ⟨ic, hic, rfl⟩ := List.mem_map.mp hc
  obtain ⟨q, hq, rfl⟩ := List.mem_take_iff_getElem.mp hic
  exact hties q (by omega) _ (List.getElem?_eq_getElem (by omega))

/-! ## Collations that differ -/

theorem exists_texts {c c' : Collation} (h : c ≠ c') :
    ∃ x y : String, c.compare x y = .lt ∧ c'.compare x y = .gt := by
  cases c <;> cases c'
  case binary.noCase => exact ⟨"B", "a", by decide, by decide⟩
  case binary.rTrim => exact ⟨"a\x01", "a ", by decide, by decide⟩
  case noCase.binary => exact ⟨"a", "B", by decide, by decide⟩
  case noCase.rTrim => exact ⟨"a", "B", by decide, by decide⟩
  case rTrim.binary => exact ⟨"a ", "a\x01", by decide, by decide⟩
  case rTrim.noCase => exact ⟨"B", "a", by decide, by decide⟩
  all_goals exact absurd rfl h

theorem exists_columnCompare (c c' : Collation) (desc desc' : Bool) (h : c ≠ c' ∨ desc ≠ desc') :
    ∃ x y : String, columnCompare desc c (.text x) (.text y) = .lt ∧
      columnCompare desc' c' (.text x) (.text y) = .gt := by
  have hcompare (d : Bool) (k : Collation) (x y : String) :
      columnCompare d k (.text x) (.text y) = if d then k.compare y x else k.compare x y := by
    cases d
    · rfl
    · exact (memCompare_swap (.text x) (.text y) k).symm
  simp only [hcompare]
  by_cases hdesc : desc = desc'
  · obtain ⟨x, y, hlt, hgt⟩ := exists_texts (h.resolve_right fun hne => hne hdesc)
    subst hdesc
    cases desc
    · exact ⟨x, y, hlt, hgt⟩
    · exact ⟨y, x, hlt, hgt⟩
  · cases desc <;> cases desc' <;> first | exact absurd rfl hdesc | skip
    · exact ⟨"a", "b", by cases c <;> decide, by cases c' <;> decide⟩
    · exact ⟨"b", "a", by cases c <;> decide, by cases c' <;> decide⟩

def setColumn (row : Row) (j : Nat) (v : Value) : Row :=
  { row with values := (row.values ++ List.replicate (j + 1 - row.values.length)
      Value.null).set j v }

theorem getD_setColumn (row : Row) (j : Nat) (v : Value) (i : Nat) :
    (setColumn row j v).values.getD i .null = if i = j then v else row.values.getD i .null := by
  have hlen : j < (row.values ++ List.replicate (j + 1 - row.values.length) Value.null).length := by
    simp only [List.length_append, List.length_replicate]
    omega
  unfold setColumn
  simp only [List.getD_eq_getElem?_getD]
  split_ifs with hij
  · rw [hij, List.getElem?_set_self hlen]
    rfl
  · rw [List.getElem?_set_ne (Ne.symm hij)]
    rcases lt_or_ge i row.values.length with hi | hi
    · rw [List.getElem?_append_left hi]
    · rw [List.getElem?_append_right hi, List.getElem?_eq_none hi, List.getElem?_replicate]
      split_ifs <;> rfl

def withTexts (row : Row) (j : Nat) (s : String) (k : Nat) (t : String) (rowid : Int64) : Row :=
  { setColumn (setColumn row j (.text s)) k (.text t) with rowid := rowid }

theorem column_withTexts (table : Table) (row : Row) (j : Nat) (s : String) (k : Nat) (t : String)
    (rowid : Int64) (i : Nat) : (withTexts row j s k t rowid).column table i =
      if i = k then .text t else if i = j then .text s else row.column table i := by
  rw [Row.column, withTexts]
  dsimp only
  rw [getD_setColumn, getD_setColumn]
  unfold Row.column
  split_ifs <;> rfl

structure Ctx.PinsOnly (ctx : Ctx S W) (plan : IndexPlan S W) : Prop where
  pins : ∀ key ∈ plan.range, key.op.isEquality = true
  plain : ∀ ic ∈ plan.index.columns, ic.isExpression = false
  stored : ∀ ic ∈ plan.index.columns, ∃ j, ctx.table.resolveColumn ic.name = some (.index j)
  distinct : plan.index.columns.Pairwise fun ic ic' =>
    ctx.table.resolveColumn ic.name ≠ ctx.table.resolveColumn ic'.name
  inhabited : ∃ row, ctx.inRange plan row = true ∧
    ∀ ic ∈ plan.index.columns, (ctx.indexValue ic row).isOrdered

theorem columnCompare_self (desc : Bool) (coll : Collation) (v : Value) :
    columnCompare desc coll v v = .eq :=
  columnCompare_eq_iff.mpr (memCompare_self v coll)

namespace Ctx.PinsOnly

variable {ctx : Ctx S W} {plan : IndexPlan S W} (hpins : ctx.PinsOnly plan)
include hpins

theorem indexedColumn (hic : plan.index.columns[q]? = some ic) :
    ∃ j, ctx.indexedColumn ic = some (.index j) := by
  obtain ⟨j, hj⟩ := hpins.stored ic (List.mem_of_getElem? hic)
  exact ⟨j, by rw [Ctx.indexedColumn, hpins.plain ic (List.mem_of_getElem? hic), ← hj]; rfl⟩

theorem eq_of_column {q' : Nat} {ic' : IndexedColumn S W} (hic : plan.index.columns[q]? = some ic)
    (hic' : plan.index.columns[q']? = some ic') (h : ctx.indexedColumn ic = some column)
    (h' : ctx.indexedColumn ic' = some column) : q = q' := by
  obtain ⟨hq, rfl⟩ := List.getElem?_eq_some_iff.mp hic
  obtain ⟨hq', rfl⟩ := List.getElem?_eq_some_iff.mp hic'
  have hresolve : ctx.table.resolveColumn plan.index.columns[q].name =
      ctx.table.resolveColumn plan.index.columns[q'].name := by
    unfold Ctx.indexedColumn at h h'
    split_ifs at h h'
    rw [h, h']
  by_contra hne
  rcases lt_or_gt_of_ne hne with hlt | hgt
  · exact List.pairwise_iff_getElem.mp hpins.distinct q q' hq hq' hlt hresolve
  · exact List.pairwise_iff_getElem.mp hpins.distinct q' q hq' hq hgt hresolve.symm

theorem inRange (h : ∀ q ic, q < eqPrefixLen plan.range →
      plan.index.columns[q]? = some ic → ∀ key, plan.range[q]? = some key →
        memCompare (ctx.indexValue ic row) key.value ic.collation = .eq) :
    ctx.inRange plan row = true := by
  have hlen : eqPrefixLen plan.range = plan.range.length := by
    rw [eqPrefixLen, List.takeWhile_eq_self_iff.mpr hpins.pins]
  rw [Ctx.inRange, Bool.and_eq_true, List.all_eq_true]
  constructor
  · rintro ⟨ic, key⟩ hpair
    obtain ⟨q, hq⟩ := List.mem_iff_getElem?.mp hpair
    rw [List.getElem?_zip_eq_some, hlen, List.take_length] at hq
    have hlt : q < eqPrefixLen plan.range := by
      rw [hlen]
      exact (List.getElem?_eq_some_iff.mp hq.2).1
    have heq := h q ic hlt hq.1 key hq.2
    have hop := hpins.pins key (List.mem_of_getElem? hq.2)
    have hholds : ctx.keyHolds ic key row = true := by
      rw [Ctx.keyHolds, heq]
      cases hkey : key.op <;> rw [hkey] at hop <;> first | rfl | cases hop
    exact hholds
  · rw [hlen, List.drop_length]
    cases plan.index.columns[plan.range.length]? <;> rfl

end Ctx.PinsOnly

structure Ctx.Misordered (ctx : Ctx S W) (plan : IndexPlan S W)
    (outputs : List (Expr S W × String)) (p : Nat) (terms : List (OrderingTerm S W))
    (a b : Row) : Prop where
  rowids : a.rowid ≠ b.rowid
  inRange : ctx.inRange plan a = true ∧ ctx.inRange plan b = true
  ordered : ∀ ic ∈ plan.index.columns,
    (ctx.indexValue ic a).isOrdered ∧ (ctx.indexValue ic b).isOrdered
  agree : ∀ q < p, ∀ ic, plan.index.columns[q]? = some ic → ctx.keyCompare ic a b = .eq
  inOrder : ctx.indexCompare plan.index a b ≠ .gt
  against : ctx.orderByCompare outputs terms a b = .gt

theorem indexValue_withTexts (ctx : Ctx S W) {l : Nat} (h : ctx.indexedColumn ic = some (.index l))
    (row : Row) (j : Nat) (s : String) (k : Nat) (t : String) (rowid : Int64) :
    ctx.indexValue ic (withTexts row j s k t rowid) =
      if l = k then .text t else if l = j then .text s else ctx.indexValue ic row := by
  rw [indexValue_indexedColumn ctx _ h, indexValue_indexedColumn ctx _ h]
  exact column_withTexts ctx.table row j s k t rowid l

theorem isOrdered_withTexts (hpins : ctx.PinsOnly plan)
    (hrow : ∀ ic ∈ plan.index.columns, (ctx.indexValue ic row).isOrdered)
    (hmem : ic ∈ plan.index.columns) (j : Nat) (s : String) (k : Nat) (t : String) (rowid : Int64) :
    (ctx.indexValue ic (withTexts row j s k t rowid)).isOrdered := by
  obtain ⟨q, hq⟩ := List.mem_iff_getElem?.mp hmem
  obtain ⟨l, hl⟩ := hpins.indexedColumn hq
  rw [indexValue_withTexts ctx hl]
  split_ifs
  · rfl
  · rfl
  · exact hrow ic hmem

theorem misordered_of_texts (hpins : ctx.PinsOnly plan) (hp : eqPrefixLen plan.range ≤ p)
    (hic : plan.index.columns[p]? = some ic) {k : Nat} (hk : ctx.indexedColumn ic = some (.index k))
    (hj : ∀ q < p, ∀ ic', plan.index.columns[q]? = some ic' →
      ctx.indexedColumn ic' ≠ some (.index j)) {x y : String} {r r' : Int64}
    (hlt : columnCompare ic.desc ic.collation (.text s) (.text t) = .lt) (hr : r ≠ r')
    (hgt : ∀ row, ctx.orderByCompare outputs terms (withTexts row j x k s r)
      (withTexts row j y k t r') = .gt) : ∃ a b, ctx.Misordered plan outputs p terms a b := by
  obtain ⟨row, hrow, hordered⟩ := hpins.inhabited
  have hvalue (q : Nat) (hq : q < p) (ic' : IndexedColumn S W)
      (hic' : plan.index.columns[q]? = some ic') (u v : String) (i : Int64) :
      ctx.indexValue ic' (withTexts row j u k v i) = ctx.indexValue ic' row := by
    obtain ⟨l, hl⟩ := hpins.indexedColumn hic'
    have hlk : l ≠ k := by
      rintro rfl
      exact hq.ne (hpins.eq_of_column hic' hic hl hk)
    have hlj : l ≠ j := by
      rintro rfl
      exact hj q hq ic' hic' hl
    rw [indexValue_withTexts ctx hl, if_neg hlk, if_neg hlj]
  have hin (u v : String) (i : Int64) : ctx.inRange plan (withTexts row j u k v i) = true := by
    refine hpins.inRange fun q ic' hq hic' key hkey => ?_
    rw [hvalue q (by omega) ic' hic']
    exact pinned_of_inRange ctx hrow hq hic' hkey
  have htie (q : Nat) (hq : q < p) (ic' : IndexedColumn S W)
      (hic' : plan.index.columns[q]? = some ic') :
      ctx.keyCompare ic' (withTexts row j x k s r) (withTexts row j y k t r') = .eq := by
    rw [Ctx.keyCompare, hvalue q hq ic' hic', hvalue q hq ic' hic']
    exact columnCompare_self _ _ _
  have hfirst : ctx.keyCompare ic (withTexts row j x k s r) (withTexts row j y k t r') = .lt := by
    rw [Ctx.keyCompare, indexValue_withTexts ctx hk, indexValue_withTexts ctx hk, if_pos rfl,
      if_pos rfl]
    exact hlt
  refine ⟨_, _, hr, ⟨hin x s r, hin y t r'⟩, fun ic' hmem =>
    ⟨isOrdered_withTexts hpins hordered hmem j x k s r,
      isOrdered_withTexts hpins hordered hmem j y k t r'⟩, htie, ?_, hgt row⟩
  obtain ⟨hlen, rfl⟩ := List.getElem?_eq_some_iff.mp hic
  have hsplit : plan.index.columns.map ctx.keyCompare =
      (plan.index.columns.take p).map ctx.keyCompare ++
        ctx.keyCompare plan.index.columns[p] ::
          (plan.index.columns.drop (p + 1)).map ctx.keyCompare := by
    rw [← List.map_cons, ← List.map_append, ← List.drop_eq_getElem_cons hlen, List.take_append_drop]
  rw [Ctx.indexCompare, hsplit, lexCompare_of_first (fun c hc => ?_) (by simp [hfirst]), hfirst]
  · simp
  · obtain ⟨ic', hmem, rfl⟩ := List.mem_map.mp hc
    obtain ⟨q, hq, rfl⟩ := List.mem_take_iff_getElem.mp hmem
    exact htie q (by omega) _ (List.getElem?_eq_getElem (by omega))

theorem misordered_of_tie (hpins : ctx.PinsOnly plan) (hic : plan.index.columns[q]? = some ic)
    (hj : ctx.indexedColumn ic = some (.index j)) (hs : plan.AdmitsText q ic s)
    (ht : plan.AdmitsText q ic t) (htie : ic.collation.compare s t = .eq)
    (hgt : ∀ row, ctx.orderByCompare outputs terms (withTexts row j s j s 1)
      (withTexts row j t j t 2) = .gt) : ∃ a b, ctx.Misordered plan outputs p terms a b := by
  obtain ⟨row, hrow, hordered⟩ := hpins.inhabited
  have hin (u : String) (hu : plan.AdmitsText q ic u) (i : Int64) :
      ctx.inRange plan (withTexts row j u j u i) = true := by
    refine hpins.inRange fun q' ic' hq' hic' key hkey => ?_
    obtain ⟨l, hl⟩ := hpins.indexedColumn hic'
    rw [indexValue_withTexts ctx hl]
    split_ifs with hlj
    · subst hlj
      obtain rfl := hpins.eq_of_column hic hic' hj hl
      cases hic.symm.trans hic'
      exact hu hq' key hkey
    · exact pinned_of_inRange ctx hrow hq' hic' hkey
  have htied (q' : Nat) (ic' : IndexedColumn S W) (hic' : plan.index.columns[q']? = some ic') :
      ctx.keyCompare ic' (withTexts row j s j s 1) (withTexts row j t j t 2) = .eq := by
    obtain ⟨l, hl⟩ := hpins.indexedColumn hic'
    rw [Ctx.keyCompare, indexValue_withTexts ctx hl, indexValue_withTexts ctx hl]
    split_ifs with hlj
    · subst hlj
      obtain rfl := hpins.eq_of_column hic hic' hj hl
      cases hic.symm.trans hic'
      exact columnCompare_eq_iff.mpr htie
    · exact columnCompare_self _ _ _
  refine ⟨_, _, by simp [withTexts], ⟨hin s hs 1, hin t ht 2⟩, fun ic' hmem =>
    ⟨isOrdered_withTexts hpins hordered hmem j s j s 1,
      isOrdered_withTexts hpins hordered hmem j t j t 2⟩,
    fun q' _ ic' hic' => htied q' ic' hic', ?_, hgt row⟩
  rw [Ctx.indexCompare, lexCompare_eq_of_forall (fun c hc => ?_), Ordering.eq_then]
  · simp only [withTexts]
    decide
  · obtain ⟨ic', hmem, rfl⟩ := List.mem_map.mp hc
    obtain ⟨q', hq'⟩ := List.mem_iff_getElem?.mp hmem
    exact htied q' ic' hq'

theorem exists_gt_of_ne (h : coll.compare s t ≠ .eq) :
    columnCompare desc coll (.text s) (.text t) = .gt ∨
      columnCompare desc coll (.text t) (.text s) = .gt := by
  have hswap : columnCompare desc coll (.text t) (.text s) =
      (columnCompare desc coll (.text s) (.text t)).swap := by
    unfold columnCompare
    split_ifs <;> rw [memCompare_swap]
  have hne : columnCompare desc coll (.text s) (.text t) ≠ .eq := by
    rw [Ne, columnCompare_eq_iff]
    exact h
  rw [hswap]
  cases hcmp : columnCompare desc coll (.text s) (.text t) with
  | lt => exact .inr rfl
  | eq => exact absurd hcmp hne
  | gt => exact .inl rfl

theorem exists_misordered (hpins : ctx.PinsOnly plan)
    (hnulls : ∀ term ∈ terms, nullsIsDefault term = true)
    (hcolumns : ∀ term ∈ terms, ∃ e column, resolveOrderTerm term outputs = .ok e ∧
      ctx.columnRead e = some column) (hp : eqPrefixLen plan.range ≤ p)
    (hlen : p + terms.length ≤ plan.index.columns.length) (h : ¬ctx.Follows plan outputs p terms) :
    ∃ a b, ctx.Misordered plan outputs p terms a b := by
  induction terms generalizing p with
  | nil => exact absurd trivial h
  | cons term rest ih =>
      rw [List.forall_mem_cons] at hnulls hcolumns
      rw [List.length_cons] at hlen
      obtain ⟨⟨e, column, hresolve, hread⟩, hcolumns⟩ := hcolumns
      have hterm := termCompare_eq ctx hnulls.1 hresolve hread
      have hcons (a b : Row) : ctx.orderByCompare outputs (term :: rest) a b =
          (ctx.termCompare outputs term a b).then (ctx.orderByCompare outputs rest a b) := rfl
      obtain ⟨ic, hic⟩ : ∃ ic, plan.index.columns[p]? = some ic :=
        ⟨_, List.getElem?_eq_getElem (by omega)⟩
      obtain ⟨k, hk⟩ := hpins.indexedColumn hic
      by_cases hconstant : ctx.Constant plan p column (ctx.orderCollation e)
      · -- The term is of no account, and the rest leaves the index from the same column on.
        obtain ⟨a, b, hab⟩ := ih hnulls.2 hcolumns hp (by omega) fun hrest =>
          h ⟨e, column, hresolve, hread, .inl ⟨hconstant, hrest⟩⟩
        refine ⟨a, b, { hab with against := ?_ }⟩
        rw [hcons, hterm, columnCompare_eq_iff.mpr (constant_tie ctx hab.inRange.1 hab.inRange.2
          hab.agree hconstant), Ordering.eq_then]
        exact hab.against
      by_cases hnext : ctx.indexedColumn ic = some column ∧
          ic.collation = ctx.orderCollation e ∧ ic.desc = term.desc
      · -- The term is the next column, and the rest leaves the index behind it.
        obtain ⟨hcolumn, hcoll, hdesc⟩ := hnext
        obtain ⟨a, b, hab⟩ := ih hnulls.2 hcolumns (p := p + 1) (by omega) (by omega) fun hrest =>
          h ⟨e, column, hresolve, hread, .inr ⟨ic, hic, hcolumn, hcoll, hdesc, hrest⟩⟩
        refine ⟨a, b, { hab with agree := fun q hq => hab.agree q (by omega), against := ?_ }⟩
        rw [hcons, hterm, ← hcoll, ← hdesc, ← keyCompare_eq ctx hcolumn,
          hab.agree p (by omega) ic hic, Ordering.eq_then]
        exact hab.against
      have hdecides {a b : Row} (hgt : columnCompare term.desc (ctx.orderCollation e)
          (valueAt ctx.table a column) (valueAt ctx.table b column) = .gt) :
          ctx.orderByCompare outputs (term :: rest) a b = .gt := by
        rw [hcons, hterm, hgt]
        rfl
      by_cases hearlier : ∃ q < p, ∃ ic', plan.index.columns[q]? = some ic' ∧
          ctx.indexedColumn ic' = some column
      · -- An earlier column under another collation: equal there, and not for the term.
        obtain ⟨q, hq, ic', hic', hcolumn⟩ := hearlier
        obtain ⟨s, t, hs, ht, htie, hne⟩ : ∃ s t,
            plan.AdmitsText q ic' s ∧ plan.AdmitsText q ic' t ∧
            ic'.collation.compare s t = .eq ∧ (ctx.orderCollation e).compare s t ≠ .eq := by
          by_contra hall
          push Not at hall
          exact hconstant ⟨q, hq, ic', hic', hcolumn, hall⟩
        obtain ⟨j, hj⟩ := hpins.indexedColumn hic'
        cases hj.symm.trans hcolumn
        have hvalue (row : Row) (u : String) (i : Int64) :
            valueAt ctx.table (withTexts row j u j u i) (.index j) = .text u := by
          rw [valueAt, column_withTexts, if_pos rfl]
        rcases exists_gt_of_ne hne with hgt | hgt
        · exact misordered_of_tie hpins hic' hj hs ht htie fun row =>
            hdecides (by rw [hvalue, hvalue]; exact hgt)
        · have htie' : ic'.collation.compare t s = .eq := by
            have hswap := memCompare_swap (.text s) (.text t) ic'.collation
            simp only [memCompare, htie] at hswap
            exact hswap
          exact misordered_of_tie hpins hic' hj ht hs htie' fun row =>
            hdecides (by rw [hvalue, hvalue]; exact hgt)
      · push Not at hearlier
        cases column with
        | rowid =>
            obtain ⟨s, t, hlt, -⟩ := exists_columnCompare ic.collation ic.collation ic.desc
              (!ic.desc) (.inr (by cases ic.desc <;> simp))
            cases hdesc : term.desc with
            | false =>
                refine misordered_of_texts hpins hp hic hk (fun q hq ic' hic' => ?_) hlt
                  (show (2 : Int64) ≠ 1 by decide) (x := s) (y := t) (j := k)
                  fun row => hdecides ?_
                · exact fun hcol => hq.ne (hpins.eq_of_column hic' hic hcol hk)
                · rw [hdesc]
                  rfl
            | true =>
                refine misordered_of_texts hpins hp hic hk (fun q hq ic' hic' => ?_) hlt
                  (show (1 : Int64) ≠ 2 by decide) (x := s) (y := t) (j := k)
                  fun row => hdecides ?_
                · exact fun hcol => hq.ne (hpins.eq_of_column hic' hic hcol hk)
                · rw [hdesc]
                  rfl
        | index j =>
            by_cases hjk : j = k
            · subst hjk
              obtain ⟨s, t, hlt, hgt⟩ := exists_columnCompare ic.collation
                (ctx.orderCollation e) ic.desc term.desc (by
                  by_contra heq
                  push Not at heq
                  exact hnext ⟨hk, heq⟩)
              refine misordered_of_texts hpins hp hic hk hearlier hlt
                (show (1 : Int64) ≠ 2 by decide) (x := s) (y := t) fun row => hdecides ?_
              rw [valueAt, valueAt, column_withTexts, column_withTexts, if_pos rfl, if_pos rfl]
              exact hgt
            · obtain ⟨s, t, hlt, -⟩ := exists_columnCompare ic.collation ic.collation ic.desc
                (!ic.desc) (.inr (by cases ic.desc <;> simp))
              obtain ⟨x, y, -, hgt⟩ := exists_columnCompare (ctx.orderCollation e)
                (ctx.orderCollation e) (!term.desc) term.desc (.inr (by cases term.desc <;> simp))
              refine misordered_of_texts hpins hp hic hk hearlier hlt
                (show (1 : Int64) ≠ 2 by decide) (x := x) (y := y) fun row => hdecides ?_
              rw [valueAt, valueAt, column_withTexts, column_withTexts, if_neg hjk, if_neg hjk,
                if_pos rfl, if_pos rfl]
              exact hgt

/--
A plan that leaves out the sorter gives the rows in order where its ORDER BY
terms, as they are resolved, go along the index.  On a range that only pins
columns, and for terms that are columns, they have to.
-/
theorem skipsSort_iff_follows [BEq S] [BEq W] (ctx : Ctx S W)
    (outputs : List (Expr S W × String)) (select : SelectStmt S W) (index : IndexObject S W)
    (caseSensitiveLike : Bool) (referenced : List Nat) (forced : Bool) (plan : IndexPlan S W)
    (h : pickPlan select index ctx.table caseSensitiveLike referenced forced = .ok plan)
    (hsatisfied : plan.orderBySatisfied = true) :
    (ctx.Follows plan outputs (eqPrefixLen plan.range) select.orderBy →
      ctx.SkipsSort outputs select.orderBy plan) ∧
    (ctx.PinsOnly plan →
      (∀ term ∈ select.orderBy, ∃ e column, resolveOrderTerm term outputs = .ok e ∧
        ctx.columnRead e = some column) →
      (ctx.SkipsSort outputs select.orderBy plan ↔
        ctx.Follows plan outputs (eqPrefixLen plan.range) select.orderBy)) := by
  obtain ⟨rfl, hkeys, hmatches⟩ := pickPlan_cases h
  obtain ⟨hlen, hnulls⟩ := nullsIsDefault_of_matches (hmatches hsatisfied)
  refine ⟨skipsSort_of_follows ctx hkeys hnulls, fun hpins hcolumns =>
    ⟨fun hskips => ?_, skipsSort_of_follows ctx hkeys hnulls⟩⟩
  by_contra hnot
  obtain ⟨a, b, hab⟩ := exists_misordered hpins hnulls hcolumns le_rfl hlen hnot
  have hsorted := hskips [a, b] (by simpa using hab.rowids) (by
    intro row hrow ic hic
    rcases List.mem_pair.mp hrow with rfl | rfl
    · exact (hab.ordered ic hic).1
    · exact (hab.ordered ic hic).2) (by simpa using hab.inOrder)
  rw [List.filter_eq_self.mpr fun row hrow => (List.mem_pair.mp hrow).elim
    (fun ha => ha ▸ hab.inRange.1) fun hb => hb ▸ hab.inRange.2] at hsorted
  exact absurd hab.against (by simpa using hsorted)

/-! ## An output under the name of a column -/

def textCtx : Ctx Empty Empty where
  table := ⟨"t", [⟨"a", .text, .binary⟩, ⟨"b", .text, .binary⟩], none, false⟩
  numerals := ⟨fun _ => "", fun _ => (none, false)⟩
  outer _ _ := none
  otherValue _ _ := none

def columnA : Expr Empty Empty := .column none none "a"

def columnB : Expr Empty Empty := .column none none "b"

def selectByA : SelectStmt Empty Empty := ⟨none, [⟨columnA, false, none⟩]⟩

def indexOnA (collation : Collation) : IndexObject Empty Empty :=
  ⟨"i", [⟨"a", some columnA, collation, false⟩], none⟩

def planOnA : IndexPlan Empty Empty := ⟨indexOnA .binary, [], true, false, false, none⟩

/-- `SELECT b AS a FROM t ORDER BY a` asks for the order of `b`, and comes in the one of `a`. -/
theorem planOnA_not_skipsSort :
    pickPlan selectByA (indexOnA .binary) textCtx.table false [1, 0] false = .ok planOnA ∧
      planOnA.orderBySatisfied = true ∧
      ¬textCtx.SkipsSort [(columnB, "a")] selectByA.orderBy planOnA := by
  refine ⟨rfl, rfl, fun hskips => ?_⟩
  have hsorted := hskips [⟨1, [.text "x", .text "2"]⟩, ⟨2, [.text "y", .text "1"]⟩] (by decide)
    (by simp [planOnA, indexOnA]; decide) (by decide)
  exact absurd hsorted (by decide)

theorem planOnA_pinsOnly : textCtx.PinsOnly planOnA where
  pins := by simp [planOnA]
  plain := by simp [planOnA, indexOnA]; rfl
  stored := by
    intro ic hic
    cases List.mem_singleton.mp hic
    exact ⟨0, rfl⟩
  distinct := List.pairwise_singleton _ _
  inhabited := by
    refine ⟨⟨1, [.text "x", .text "2"]⟩, rfl, fun ic hic => ?_⟩
    cases List.mem_singleton.mp hic
    rfl

/-- `SELECT b, a FROM t ORDER BY a` -/
theorem planOnA_skipsSort :
    pickPlan selectByA (indexOnA .binary) textCtx.table false [1, 0] false = .ok planOnA ∧
      textCtx.SkipsSort [(columnB, "b"), (columnA, "a")] selectByA.orderBy
        planOnA := by
  refine ⟨rfl, ((skipsSort_iff_follows textCtx [(columnB, "b"), (columnA, "a")]
    selectByA (indexOnA .binary) false [1, 0] false planOnA rfl rfl).2
    planOnA_pinsOnly ?_).mpr ?_⟩
  · intro term hterm
    cases List.mem_singleton.mp hterm
    exact ⟨columnA, .index 0, rfl, rfl⟩
  · exact ⟨columnA, .index 0, rfl, rfl,
      .inr ⟨⟨"a", some columnA, .binary, false⟩, rfl, rfl, rfl, rfl, trivial⟩⟩

end Rustqlite.Codegen
