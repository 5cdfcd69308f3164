import Rustqlite.Codegen.Scope

/-!
# The operands of a comparison

A column is resolved three times over: when its value is loaded, when the
affinity of a comparison is looked up, and when its collation is.  Here the
column that is loaded is set beside the ones that the two lookups find.
-/

namespace Rustqlite.Codegen.Operand

open Foundation Rustqlite.Parser Schema Vdbe

abbrev SqlExpr := Expr Select Window

structure JoinTable where
  table : Table
  cursor : Int
  name : String
  deriving DecidableEq

structure Ctx where
  table : Table
  cursor : Int
  joinTables : Option (List JoinTable)
  outer : OuterScope

def joinCtx (first : JoinTable) (rest : List JoinTable) : Ctx :=
  ⟨first.table, first.cursor, some (first :: rest), []⟩

/-! ## The value of a column -/

inductive Load where
  | valuesColumn (i : Nat)
  | column (table : Table) (cursor : Int) (ref : ColumnRef)
  | outer (t : OuterTable) (ref : ColumnRef)
  deriving DecidableEq

namespace Ctx

variable (ctx : Ctx)

def findJoinTable (tables : List JoinTable) (qualifier : Option String) (name : String) :
    Option JoinTable :=
  match qualifier with
  | some q => tables.find? fun t => eqIgnoreAsciiCase t.name q
  | none => tables.find? fun t => (t.table.resolveColumn name).isSome

def outerLoad (qualifier : Option String) (name : String) : Option Load :=
  (lookupOuter ctx.outer qualifier name).map fun found => .outer found.1 found.2

def tableLoad (table : Table) (cursor : Int) (qualifier : Option String) (name : String) :
    Option Load :=
  if table.columns = [] then
    if valuesColumn qualifier name = 0 then ctx.outerLoad qualifier name
    else some (.valuesColumn (valuesColumn qualifier name))
  else
    match table.resolveColumn name with
    | some ref => some (.column table cursor ref)
    | none => ctx.outerLoad qualifier name

def load (qualifier : Option String) (name : String) : Option Load :=
  match ctx.joinTables with
  | some tables =>
      (findJoinTable tables qualifier name).bind fun t =>
        ctx.tableLoad t.table t.cursor qualifier name
  | none => ctx.tableLoad ctx.table ctx.cursor qualifier name

/-! ## Affinity -/

/-- The name is looked up in the first table, whatever its qualifier. -/
def exprAffinity : SqlExpr → Option Affinity
  | .column _ _ name =>
      match ctx.table.resolveColumn name with
      | some (.index i) => some (ctx.table.affinityAt i)
      | some .rowid => some .integer
      | none => none
  | _ => none

def isNumeric : Affinity → Bool
  | .integer | .real | .numeric => true
  | .text | .blob => false

def pairAffinity : Option Affinity → Option Affinity → Option Affinity
  | some a, some b => if isNumeric a || isNumeric b then some .numeric else none
  | some a, none => some a
  | none, some b => some b
  | none, none => none

def comparisonAffinity (left right : SqlExpr) : Option Affinity :=
  pairAffinity (ctx.exprAffinity left) (ctx.exprAffinity right)

/-! ## Collation -/

def unlessBinary (c : Collation) : Option Collation := if c = .binary then none else some c

def columnCollation (table : Table) : ColumnRef → Option Collation
  | .index i => unlessBinary (table.collationAt i)
  | .rowid => none

def joinColumn (qualifier : Option String) (name : String) : Option (Table × ColumnRef) :=
  let resolve (t : JoinTable) := (t.table.resolveColumn name).map fun ref => (t.table, ref)
  match qualifier with
  | some q =>
      ((ctx.joinTables.getD []).find? fun t => eqIgnoreAsciiCase t.name q).bind resolve
  | none => (ctx.joinTables.getD []).findSome? resolve

def resolveColumnCollation (qualifier : Option String) (name : String) : Option Collation :=
  match ctx.joinColumn qualifier name with
  | some (table, ref) => columnCollation table ref
  | none =>
      -- a qualifier has to be the name of the table itself, also where it goes by another one
      if qualifier.any fun q => !eqIgnoreAsciiCase ctx.table.name q then none
      else
        match ctx.table.resolveColumn name with
        | some ref => columnCollation ctx.table ref
        | none =>
            (lookupOuter ctx.outer qualifier name).bind fun found =>
              columnCollation found.1.table found.2

def exprCollation : SqlExpr → Option Collation
  | .collate e name => (Collation.fromName name).or (exprCollation e)
  | .column _ qualifier name => ctx.resolveColumnCollation qualifier name
  | _ => none

def comparisonCollation (left right : SqlExpr) : Option Collation :=
  match ctx.exprCollation left, ctx.exprCollation right with
  | some c, _ => unlessBinary c
  | none, some c => unlessBinary c
  | none, none => none

end Ctx

/-! ## The columns that are read -/

namespace Load

def affinity : Load → Option Affinity
  | .valuesColumn _ => none
  | .column table _ ref | .outer ⟨table, _, _⟩ ref =>
      match ref with
      | .rowid => some .integer
      | .index i => some (table.affinityAt i)

def collation : Load → Option Collation
  | .valuesColumn _ => none
  | .column table _ ref | .outer ⟨table, _, _⟩ ref =>
      match ref with
      | .rowid => some ((table.rowidAlias.map table.collationAt).getD .binary)
      | .index i => some (table.collationAt i)

end Load

namespace Ctx

variable (ctx : Ctx)

def readAffinity : SqlExpr → Option Affinity
  | .column _ qualifier name => (ctx.load qualifier name).bind Load.affinity
  | _ => none

def explicitCollation : SqlExpr → Option Collation
  | .collate e name => (Collation.fromName name).or (explicitCollation e)
  | _ => none

def declaredCollation : SqlExpr → Option Collation
  | .collate e name => if (Collation.fromName name).isSome then none else declaredCollation e
  | .column _ qualifier name => (ctx.load qualifier name).bind Load.collation
  | _ => none

def statedCollation (left right : SqlExpr) : Collation :=
  (((explicitCollation left).or (explicitCollation right)).or
    ((ctx.declaredCollation left).or (ctx.declaredCollation right))).getD .binary

/-! ## Which collation is chosen -/

@[simp] theorem unlessBinary_getD (c : Collation) : (unlessBinary c).getD .binary = c := by
  unfold unlessBinary
  split_ifs with h
  · exact h.symm
  · rfl

theorem comparisonCollation_getD (left right : SqlExpr) :
    (ctx.comparisonCollation left right).getD .binary =
      ((ctx.exprCollation left).or (ctx.exprCollation right)).getD .binary := by
  unfold comparisonCollation
  cases ctx.exprCollation left <;> cases ctx.exprCollation right <;> simp

variable {e : SqlExpr}

theorem exprCollation_of_explicit {c : Collation} (h : explicitCollation e = some c) :
    ctx.exprCollation e = some c := by
  fun_induction explicitCollation e with
  | case1 e name ih =>
      rw [exprCollation]
      rcases Option.or_eq_some_iff.mp h with hname | ⟨hname, hinner⟩
      · rw [hname, Option.some_or]
      · rw [hname, Option.none_or, ih hinner]
  | case2 => cases h

def columnName : SqlExpr → Option (Option String × String)
  | .collate e _ => columnName e
  | .column _ qualifier name => some (qualifier, name)
  | _ => none

/-- The table itself goes by its own name only, and what it does not have the enclosing
statements may have. -/
def ownColumn (qualifier : Option String) (name : String) : Option (Table × ColumnRef) :=
  if qualifier.all (eqIgnoreAsciiCase ctx.table.name) then
    ((ctx.table.resolveColumn name).map fun ref => (ctx.table, ref)).or
      ((lookupOuter ctx.outer qualifier name).map fun found => (found.1.table, found.2))
  else none

/-- The column that is looked at for the collation of a name: one of the joined tables, and
otherwise of the (first) table under its own name. -/
def lookedUp (qualifier : Option String) (name : String) : Option (Table × ColumnRef) :=
  (ctx.joinColumn qualifier name).or (ctx.ownColumn qualifier name)

def lookedUpCollation (e : SqlExpr) : Option Collation :=
  (columnName e).bind fun column => (ctx.lookedUp column.1 column.2).bind fun found =>
    columnCollation found.1 found.2

theorem resolveColumnCollation_eq (qualifier : Option String) (name : String) :
    ctx.resolveColumnCollation qualifier name =
      (ctx.lookedUp qualifier name).bind fun found => columnCollation found.1 found.2 := by
  have hall : (qualifier.any fun q => !eqIgnoreAsciiCase ctx.table.name q) =
      !qualifier.all (eqIgnoreAsciiCase ctx.table.name) := by
    cases qualifier <;> simp
  unfold resolveColumnCollation lookedUp ownColumn
  cases ctx.joinColumn qualifier name with
  | some found => rfl
  | none =>
      simp only [Option.none_or, hall]
      cases qualifier.all (eqIgnoreAsciiCase ctx.table.name) with
      | false => rfl
      | true =>
          cases ctx.table.resolveColumn name with
          | some ref => rfl
          | none => cases lookupOuter ctx.outer qualifier name <;> rfl

theorem exprCollation_eq_lookedUp (h : explicitCollation e = none) :
    ctx.exprCollation e = ctx.lookedUpCollation e := by
  fun_induction explicitCollation e with
  | case1 e name ih =>
      obtain ⟨hname, hinner⟩ := Option.or_eq_none_iff.mp h
      rw [exprCollation, hname, Option.none_or, ih hinner]
      rfl
  | case2 e hcollate =>
      cases e with
      | column schema qualifier name => exact ctx.resolveColumnCollation_eq qualifier name
      | collate e name => exact absurd rfl (hcollate e name)
      | _ => rfl

/--
When the collation of a comparison is the stated one.  A clause on the right
is passed over for a left column that is found with a collation of its own.
Without clauses the first column found with a collation but the plain one has
to be the first column that is read at all, and if there is none that one has to
be plain.
-/
def Decides (left right : SqlExpr) : Prop :=
  match explicitCollation left, explicitCollation right with
  | some _, _ => True
  | none, some c => ∀ d, ctx.lookedUpCollation left = some d → d = c
  | none, none =>
      match (ctx.lookedUpCollation left).or (ctx.lookedUpCollation right) with
      | some c => ctx.declaredCollation left = some c ∨
          ctx.declaredCollation left = none ∧ ctx.declaredCollation right = some c
      | none => ctx.declaredCollation left = some .binary ∨ ctx.declaredCollation left = none ∧
          ∀ d, ctx.declaredCollation right = some d → d = .binary

theorem lookedUpCollation_ne_binary (e : SqlExpr) : ctx.lookedUpCollation e ≠ some .binary := by
  intro h
  obtain ⟨column, -, h⟩ := Option.bind_eq_some_iff.mp h
  obtain ⟨⟨table, ref⟩, -, h⟩ := Option.bind_eq_some_iff.mp h
  cases ref with
  | rowid => cases h
  | index i =>
      have h : unlessBinary (table.collationAt i) = some .binary := h
      rw [unlessBinary] at h
      split_ifs at h with hplain
      exact hplain (Option.some.inj h)

theorem comparisonCollation_eq_stated_iff (left right : SqlExpr) :
    (ctx.comparisonCollation left right).getD .binary = ctx.statedCollation left right ↔
      ctx.Decides left right := by
  rw [comparisonCollation_getD, statedCollation]
  unfold Decides
  cases hl : explicitCollation left with
  | some c => simp [ctx.exprCollation_of_explicit hl]
  | none =>
      rw [ctx.exprCollation_eq_lookedUp hl]
      cases hr : explicitCollation right with
      | some c =>
          rw [ctx.exprCollation_of_explicit hr]
          cases ctx.lookedUpCollation left <;> simp
      | none =>
          have hplain := ctx.lookedUpCollation_ne_binary left
          have hplain' := ctx.lookedUpCollation_ne_binary right
          rw [ctx.exprCollation_eq_lookedUp hr, Option.none_or, Option.none_or]
          cases hfound : (ctx.lookedUpCollation left).or (ctx.lookedUpCollation right) with
          | some c =>
              have hc : c ≠ .binary := by
                rintro rfl
                rcases Option.or_eq_some_iff.mp hfound with h | ⟨-, h⟩
                · exact hplain h
                · exact hplain' h
              cases ctx.declaredCollation left with
              | some d => simp [eq_comm]
              | none =>
                  cases ctx.declaredCollation right with
                  | some d => simp [eq_comm]
                  | none => simp [hc]
          | none =>
              cases ctx.declaredCollation left with
              | some d => simp [eq_comm]
              | none => cases ctx.declaredCollation right <;> simp [eq_comm]

def noCaseTable : Table := ⟨"t", [⟨"a", .text, .noCase⟩], none, false⟩

theorem comparisonCollation_passes_clause :
    ¬ ∀ (ctx : Ctx) (left right : SqlExpr),
      (ctx.comparisonCollation left right).getD .binary = ctx.statedCollation left right := by
  intro h
  have := h ⟨noCaseTable, 0, none, []⟩ (.column none none "a")
    (.collate (.literal (.text "x")) "RTRIM")
  revert this
  decide

/-! ## Which affinity is applied -/

/-- Where an operand of a comparison in a join comes from.  `likeNamed` is the affinity of the
column of the first table that has the name of the other one. -/
inductive Source where
  | value
  | first (affinity : Affinity)
  | other (affinity : Affinity) (likeNamed : Option Affinity)
  deriving DecidableEq

def declaredAffinity (table : Table) : ColumnRef → Affinity
  | .rowid => .integer
  | .index i => table.affinityAt i

def leadsToFirst (first : JoinTable) (qualifier : Option String) (name : String) : Bool :=
  match qualifier with
  | some q => eqIgnoreAsciiCase first.name q
  | none => (first.table.resolveColumn name).isSome

def sourceColumn (first : JoinTable) (rest : List JoinTable) (qualifier : Option String)
    (name : String) : Option Source :=
  let likeNamed := (first.table.resolveColumn name).map (declaredAffinity first.table)
  if leadsToFirst first qualifier name then likeNamed.map .first
  else
    (findJoinTable rest qualifier name).bind fun t =>
      (t.table.resolveColumn name).map fun ref => .other (declaredAffinity t.table ref) likeNamed

/-- Where an operand comes from; there may be no such column. -/
def source (first : JoinTable) (rest : List JoinTable) : SqlExpr → Option Source
  | .column _ qualifier name => sourceColumn first rest qualifier name
  | _ => some .value

/-- A column of another table has to be declared like the column of its name in the first table,
as far as the other operand lets a difference show. -/
def AppliesOther (a : Affinity) (likeNamed : Option Affinity) : Source → Prop
  | .value => likeNamed = some a
  | .first b =>
      if isNumeric b then likeNamed.isSome ∨ b = .numeric
      else ∃ c, likeNamed = some c ∧ isNumeric c = isNumeric a
  | .other b likeNamed' =>
      match likeNamed, likeNamed' with
      | some c, some d => (isNumeric c || isNumeric d) = (isNumeric a || isNumeric b)
      | some c, none | none, some c => c = .numeric ∧ (isNumeric a || isNumeric b) = true
      | none, none => isNumeric a = false ∧ isNumeric b = false

def Applies : Source → Source → Prop
  | .other a likeNamed, operand => AppliesOther a likeNamed operand
  | operand, .other a likeNamed => AppliesOther a likeNamed operand
  | _, _ => True

def Source.firstAffinity : Source → Option Affinity
  | .value => none
  | .first a => some a
  | .other _ likeNamed => likeNamed

def Source.readAffinity : Source → Option Affinity
  | .value => none
  | .first a | .other a _ => some a

theorem pairAffinity_comm (a b : Option Affinity) : pairAffinity a b = pairAffinity b a := by
  unfold pairAffinity
  rcases a with _ | x <;> rcases b with _ | y <;> simp [Bool.or_comm]

theorem appliesOther_iff (a : Affinity) (likeNamed : Option Affinity) (operand : Source) :
    pairAffinity likeNamed operand.firstAffinity = pairAffinity (some a) operand.readAffinity ↔
      AppliesOther a likeNamed operand := by
  cases operand with
  | value => cases likeNamed <;> simp [Source.firstAffinity, Source.readAffinity, AppliesOther,
      pairAffinity]
  | first b =>
      rcases likeNamed with _ | c <;> cases b <;> cases a <;> try cases c
      all_goals simp [Source.firstAffinity, Source.readAffinity, AppliesOther, pairAffinity,
        isNumeric]
  | other b likeNamed' =>
      rcases likeNamed with _ | c <;> rcases likeNamed' with _ | d <;> cases b <;> cases a
      all_goals first | cases c | skip
      all_goals first | cases d | skip
      all_goals simp [Source.firstAffinity, Source.readAffinity, AppliesOther, pairAffinity,
        isNumeric]

theorem applies_iff (left right : Source) :
    pairAffinity left.firstAffinity right.firstAffinity =
        pairAffinity left.readAffinity right.readAffinity ↔ Applies left right := by
  cases left with
  | other a likeNamed => exact appliesOther_iff a likeNamed right
  | value =>
      cases right with
      | other a likeNamed =>
          rw [pairAffinity_comm, pairAffinity_comm Source.value.readAffinity]
          exact appliesOther_iff a likeNamed .value
      | value | first b => simp [Source.firstAffinity, Source.readAffinity, Applies]
  | first b =>
      cases right with
      | other a likeNamed =>
          rw [pairAffinity_comm, pairAffinity_comm (Source.first b).readAffinity]
          exact appliesOther_iff a likeNamed (.first b)
      | value | first c => simp [Source.firstAffinity, Source.readAffinity, Applies]

/-! ### In a join -/

structure Joins (first : JoinTable) (rest : List JoinTable) : Prop where
  table : ctx.table = first.table
  joinTables : ctx.joinTables = some (first :: rest)
  columns : ∀ t ∈ first :: rest, t.table.columns ≠ []

section

variable {ctx : Ctx} {first : JoinTable} {rest : List JoinTable} {s : Source}

variable {qualifier : Option String} {name : String} {t : JoinTable}

theorem mem_of_findJoinTable {tables : List JoinTable}
    (h : findJoinTable tables qualifier name = some t) : t ∈ tables := by
  unfold findJoinTable at h
  split at h
  · exact List.mem_of_find?_eq_some h
  · exact List.mem_of_find?_eq_some h

theorem findJoinTable_cons (qualifier : Option String) (name : String) :
    findJoinTable (first :: rest) qualifier name =
      if leadsToFirst first qualifier name then some first
      else findJoinTable rest qualifier name := by
  cases qualifier with
  | some q =>
      rw [findJoinTable, findJoinTable, leadsToFirst]
      by_cases h : eqIgnoreAsciiCase first.name q = true <;> simp [h]
  | none =>
      rw [findJoinTable, findJoinTable, leadsToFirst]
      by_cases h : (first.table.resolveColumn name).isSome = true <;> simp [h]

theorem affinity_column (table : Table) (cursor : Int) (ref : ColumnRef) :
    (Load.column table cursor ref).affinity = some (declaredAffinity table ref) := by
  cases ref <;> rfl

theorem tableLoad_resolved {ref : ColumnRef} (hcolumns : t.table.columns ≠ [])
    (href : t.table.resolveColumn name = some ref) :
    ctx.tableLoad t.table t.cursor qualifier name = some (.column t.table t.cursor ref) := by
  rw [tableLoad, if_neg hcolumns, href]

/-- What the value and what the affinity of an operand are looked up in. -/
theorem affinities_of_source (hjoins : ctx.Joins first rest) (h : source first rest e = some s) :
    ctx.exprAffinity e = s.firstAffinity ∧ ctx.readAffinity e = s.readAffinity := by
  cases e with
  | column schema qualifier name =>
      have hfirst : ctx.exprAffinity (.column schema qualifier name) =
          (first.table.resolveColumn name).map (declaredAffinity first.table) := by
        rw [exprAffinity, hjoins.table]
        rcases first.table.resolveColumn name with _ | _ | i <;> rfl
      have h : sourceColumn first rest qualifier name = some s := h
      rw [sourceColumn] at h
      rw [hfirst, Ctx.readAffinity, Ctx.load, hjoins.joinTables]
      simp only [findJoinTable_cons]
      split_ifs at h ⊢ with hleads
      · obtain ⟨a, ha, rfl⟩ := Option.map_eq_some_iff.mp h
        obtain ⟨ref, href, rfl⟩ := Option.map_eq_some_iff.mp ha
        refine ⟨ha, ?_⟩
        rw [Option.bind_some, tableLoad_resolved (hjoins.columns first List.mem_cons_self) href,
          Option.bind_some, affinity_column]
        rfl
      · obtain ⟨t, ht, h⟩ := Option.bind_eq_some_iff.mp h
        obtain ⟨ref, href, rfl⟩ := Option.map_eq_some_iff.mp h
        have hmem := List.mem_cons_of_mem first (mem_of_findJoinTable ht)
        refine ⟨rfl, ?_⟩
        rw [ht, Option.bind_some, tableLoad_resolved (hjoins.columns t hmem) href,
          Option.bind_some, affinity_column]
        rfl
  | _ =>
      cases h
      exact ⟨rfl, rfl⟩

/--
The affinity is that of the columns that are read, where each column of another
table is declared like the one of its name in the first table, as far as that
shows.
-/
theorem comparisonAffinity_eq_read_iff (hjoins : ctx.Joins first rest) {left right : SqlExpr}
    {l r : Source} (hl : source first rest left = some l) (hr : source first rest right = some r) :
    ctx.comparisonAffinity left right =
        pairAffinity (ctx.readAffinity left) (ctx.readAffinity right) ↔ Applies l r := by
  obtain ⟨hfirst, hread⟩ := affinities_of_source hjoins hl
  obtain ⟨hfirst', hread'⟩ := affinities_of_source hjoins hr
  rw [comparisonAffinity, hfirst, hfirst', hread, hread']
  exact applies_iff l r

end

def integerTable : JoinTable := ⟨⟨"t", [⟨"a", .integer, .binary⟩], none, false⟩, 0, "t"⟩

def textTable : JoinTable := ⟨⟨"u", [⟨"a", .text, .binary⟩], none, false⟩, 1, "u"⟩

theorem comparisonAffinity_bothTables :
    (joinCtx integerTable [textTable]).comparisonAffinity (.column none (some "t") "a")
        (.column none (some "u") "a") =
      pairAffinity ((joinCtx integerTable [textTable]).readAffinity (.column none (some "t") "a"))
        ((joinCtx integerTable [textTable]).readAffinity (.column none (some "u") "a")) := by
  have hjoins : (joinCtx integerTable [textTable]).Joins integerTable [textTable] :=
    ⟨rfl, rfl, by decide⟩
  exact (comparisonAffinity_eq_read_iff hjoins (l := .first .integer)
    (r := .other .text (some .integer)) (by decide) (by decide)).mpr (.inl rfl)

theorem comparisonAffinity_of_first_table :
    ¬ ∀ (first : JoinTable) (rest : List JoinTable) (left right : SqlExpr),
      (joinCtx first rest).comparisonAffinity left right =
        pairAffinity ((joinCtx first rest).readAffinity left)
          ((joinCtx first rest).readAffinity right) := by
  intro h
  have := h integerTable [textTable] (.column none (some "u") "a") (.literal (.integer 1))
  revert this
  decide

end Ctx

end Rustqlite.Codegen.Operand
