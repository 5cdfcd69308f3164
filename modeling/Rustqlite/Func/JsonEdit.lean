import Rustqlite.Func.JsonPath

/-!
# Editing JSON

`json_set`, `json_insert` and `json_replace` write one value at the end of a
path.  Keys that are missing on the way are made as they are met, before it is
known whether the value can be written.
-/

namespace Rustqlite.Func.Json

open Foundation Members

inductive UpdateMode where
  | insert
  | replace
  | set
  deriving DecidableEq

def valueArgToJson : Value → Result JsonNode
  | .null => .ok .null
  | .int i => .ok (.int i)
  | .real r => .ok (.real r)
  | .text s => .ok (.string s)
  | .blob _ => .error (.msg "JSON cannot hold BLOB values")

/-- Goes down to the parent of the last segment and writes there; where it cannot go on, what it
has made so far stays. -/
def navigateToParent (write : JsonNode → Result JsonNode) :
    JsonNode → List PathSeg → Result JsonNode
  | node, [] => write node
  | .object entries, .key k :: segs =>
      match rposition k entries with
      | some i => do
          let child ← navigateToParent write ((rfind k entries).getD .null) segs
          .ok (.object (assign entries i fun _ => child))
      | none => do
          let child ← navigateToParent write (.object []) segs
          .ok (.object (entries ++ [(k, child)]))
  | node, .key _ :: _ => .ok node
  | .array items, seg :: segs =>
      match resolveIndex seg items.length with
      | some i =>
          match items[i]? with
          | some item => do
              let child ← navigateToParent write item segs
              .ok (.array (items.set i child))
          | none => .ok (.array items)
      | none => .ok (.array items)
  | node, _ :: _ => .ok node

def writeLast (last : PathSeg) (value : Value) : JsonNode → Result JsonNode
  | .object entries =>
      match last with
      | .key k => do
          let new ← valueArgToJson value
          .ok (.object (put k (fun _ => new) new entries))
      | _ => .ok (.object entries)
  | .array items =>
      match last with
      | .key _ => .ok (.array items)
      | seg => do
          let new ← valueArgToJson value
          match resolveIndex seg items.length with
          | some i => .ok (.array (if i < items.length then items.set i new else items ++ [new]))
          | none => .ok (.array items)
  | node => .ok node

def shouldWrite (mode : UpdateMode) (pathExists : Bool) : Bool :=
  match mode with
  | .insert => !pathExists
  | .replace => pathExists
  | .set => true

def applyPathUpdate (root : JsonNode) (segs : List PathSeg) (value : Value) (mode : UpdateMode) :
    Result JsonNode :=
  match segs.getLast? with
  | none => if mode = .insert then .ok root else valueArgToJson value
  | some last =>
      if shouldWrite mode (pathExists root segs) then
        navigateToParent (writeLast last value) root segs.dropLast
      else .ok root

/-! ## Places -/

/-- One step down from a node: a place does not move when an array grows. -/
inductive Step where
  | key (k : String)
  | item (i : Nat)
  deriving DecidableEq

def JsonNode.part : JsonNode → Step → Option JsonNode
  | .object entries, .key k => rfind k entries
  | .array items, .item i => items[i]?
  | _, _ => none

def JsonNode.at (node : JsonNode) : List Step → Option JsonNode
  | [] => some node
  | step :: place => (node.part step).bind fun next => next.at place

/-- The place that a path names; missing keys are there already, and so is the slot past the last
item, for the last segment alone. -/
def JsonNode.locate : JsonNode → List PathSeg → Option (List Step)
  | _, [] => some []
  | .object entries, .key k :: segs =>
      (((rfind k entries).getD (.object [])).locate segs).map (.key k :: ·)
  | .array items, seg :: segs =>
      (resolveIndex seg items.length).bind fun i =>
        match items[i]? with
        | some item => (item.locate segs).map (.item i :: ·)
        | none => if segs = [] then some [.item i] else none
  | _, _ :: _ => none

def Apart (place other : List Step) : Prop := ¬ place <+: other ∧ ¬ other <+: place

/-- The path names the slot past the last item, which is another one after the write. -/
def Appends (segs : List PathSeg) : Prop :=
  segs.getLast? = some .append ∨ segs.getLast? = some (.fromEnd 0)

def PathSeg.isKey : PathSeg → Bool
  | .key _ => true
  | _ => false

def keysAfterMissing : JsonNode → List PathSeg → Bool
  | _, [] => true
  | .object entries, .key k :: segs =>
      match rfind k entries with
      | some v => keysAfterMissing v segs
      | none => segs.all PathSeg.isKey
  | node, seg :: segs =>
      match node.child seg with
      | some next => keysAfterMissing next segs
      | none => true

structure Written (root root' : JsonNode) (segs : List PathSeg) (place : List Step)
    (new : JsonNode) : Prop where
  found : ¬ Appends segs → root'.nodeAt segs = some new
  here : root'.at place = some new
  others : ∀ other, Apart place other → root'.at other = root.at other

/-! ## One step of the way -/

variable {place other : List Step} {seg last : PathSeg} {segs : List PathSeg} {i : Nat}
  {entries entries' : List (String × JsonNode)} {k : String} {child new item root root' : JsonNode}
  {items : List JsonNode}

theorem apart_cons {step : Step} : Apart (step :: place) (step :: other) ↔ Apart place other := by
  simp [Apart]

theorem ne_nil_of_apart (h : Apart place other) : other ≠ [] := by
  rintro rfl
  exact h.2 List.nil_prefix

theorem not_appends_of_cons (h : ¬ Appends (seg :: segs)) : ¬ Appends segs := by
  cases segs with
  | nil => simp [Appends]
  | cons seg' segs => simpa [Appends] using h

theorem resolveIndex_le {len : Nat} (h : resolveIndex seg len = some i) :
    i ≤ len ∧ ∀ k, seg ≠ .key k := by
  cases seg <;> simp only [resolveIndex, inSlots, reduceCtorEq] at h <;>
    split_ifs at h <;> cases h <;> exact ⟨‹_›, fun k hk => by cases hk⟩

theorem written_self (node new : JsonNode) : Written node new [] [] new where
  found _ := rfl
  here := rfl
  others _ h := absurd List.nil_prefix h.1

theorem written_object (hfind : rfind k entries' = some child)
    (hothers : ∀ name, name ≠ k → rfind name entries' = rfind name entries)
    (h : Written ((rfind k entries).getD (.object [])) child segs place new) :
    Written (.object entries) (.object entries') (.key k :: segs) (.key k :: place) new where
  found happ := by
    rw [JsonNode.nodeAt, JsonNode.child, hfind]
    exact h.found (not_appends_of_cons happ)
  here := by
    rw [JsonNode.at, JsonNode.part, hfind]
    exact h.here
  others other hapart := by
    cases other with
    | nil => exact absurd rfl (ne_nil_of_apart hapart)
    | cons step other =>
        rw [JsonNode.at, JsonNode.at]
        cases step with
        | item i => rfl
        | key name =>
            rw [JsonNode.part, JsonNode.part]
            by_cases hname : name = k
            · subst hname
              rw [apart_cons] at hapart
              have hsame := h.others other hapart
              rw [hfind, Option.bind_some, hsame]
              cases hold : rfind name entries with
              | some old => rfl
              | none =>
                  obtain ⟨step, other, rfl⟩ :=
                    List.exists_cons_of_ne_nil (ne_nil_of_apart hapart)
                  cases step <;> rfl
            · rw [hothers name hname]

theorem written_array (hres : resolveIndex seg items.length = some i) (hget : items[i]? = some item)
    (h : Written item child segs place new) :
    Written (.array items) (.array (items.set i child)) (seg :: segs) (.item i :: place) new := by
  have hlt : i < items.length := (List.getElem?_eq_some_iff.mp hget).1
  have hset : (items.set i child)[i]? = some child := List.getElem?_set_self hlt
  refine ⟨fun happ => ?_, ?_, fun other hapart => ?_⟩
  · rw [JsonNode.nodeAt, child_of_bracket (resolveIndex_le hres).2, List.length_set, hres,
      Option.bind_some, hset]
    exact h.found (not_appends_of_cons happ)
  · rw [JsonNode.at, JsonNode.part, hset]
    exact h.here
  · cases other with
    | nil => exact absurd rfl (ne_nil_of_apart hapart)
    | cons step other =>
        rw [JsonNode.at, JsonNode.at]
        cases step with
        | key name => rfl
        | item j =>
            rw [JsonNode.part, JsonNode.part]
            by_cases hj : j = i
            · subst hj
              rw [apart_cons] at hapart
              rw [hset, hget]
              exact h.others other hapart
            · rw [List.getElem?_set_ne (Ne.symm hj)]

theorem written_push (hres : resolveIndex seg items.length = some items.length) :
    Written (.array items) (.array (items ++ [new])) [seg] [.item items.length] new where
  found happ := by
    rw [JsonNode.nodeAt, child_of_bracket (resolveIndex_le hres).2, List.length_append]
    cases seg with
    | key k => cases hres
    | append => simp [Appends] at happ
    | index n =>
        simp only [resolveIndex, inSlots] at hres ⊢
        split_ifs at hres with hle
        cases hres
        simp [JsonNode.nodeAt]
    | fromEnd n =>
        simp only [Appends, List.getLast?_singleton, Option.some.injEq, reduceCtorEq,
          PathSeg.fromEnd.injEq, false_or] at happ
        simp only [resolveIndex, inSlots, checkedSubU64] at hres
        split_ifs at hres <;> simp_all
        omega
  here := by simp [JsonNode.at, JsonNode.part]
  others other hapart := by
    cases other with
    | nil => exact absurd rfl (ne_nil_of_apart hapart)
    | cons step other =>
        rw [JsonNode.at, JsonNode.at]
        cases step with
        | key name => rfl
        | item j =>
            have hj : j ≠ items.length := by
              rintro rfl
              exact hapart.1 (List.cons_prefix_cons.mpr ⟨rfl, List.nil_prefix⟩)
            have hsame : (items ++ [new])[j]? = items[j]? := by
              rcases Nat.lt_or_gt_of_ne hj with hlt | hgt
              · exact List.getElem?_append_left hlt
              · rw [List.getElem?_eq_none (by simp; omega), List.getElem?_eq_none (by omega)]
            rw [JsonNode.part, JsonNode.part, hsame]

/-! ## The whole way -/

theorem locate_of_keys (h : segs.all PathSeg.isKey) :
    ((JsonNode.object []).locate segs).isSome := by
  induction segs with
  | nil => rfl
  | cons seg segs ih =>
      rw [List.all_cons, Bool.and_eq_true] at h
      cases seg with
      | key k => simpa [JsonNode.locate, rfind] using ih h.2
      | _ => cases h.1

structure EditSpec (value : Value) (root root' : JsonNode) (segs : List PathSeg) : Prop where
  writes : ∀ place, root.locate segs = some place →
    ∃ new, valueArgToJson value = .ok new ∧ Written root root' segs place new
  keeps : root.locate segs = none → keysAfterMissing root segs → root' = root

variable {value : Value}

theorem editSpec_of_none (h : root.locate segs = none) :
    EditSpec value root root segs where
  writes place hplace := by
    rw [h] at hplace
    cases hplace
  keeps _ _ := rfl

theorem writeLast_array (h : ∀ k, last ≠ .key k) :
    writeLast last value (.array items) = (do
      let new ← valueArgToJson value
      match resolveIndex last items.length with
      | some i => .ok (.array (if i < items.length then items.set i new else items ++ [new]))
      | none => .ok (.array items)) := by
  cases last with
  | key k => exact absurd rfl (h k)
  | _ => rfl

theorem editSpec_last (h : writeLast last value root = .ok root') :
    EditSpec value root root' [last] := by
  cases root with
  | object entries =>
      cases last with
      | key k =>
          obtain ⟨new, hnew, h⟩ := Result.bind_eq_ok.mp h
          cases h
          have hput : rfind k (put k (fun _ => new) new entries) = some new := by
            rw [rfind_put, if_pos rfl]
            cases rfind k entries <;> rfl
          refine ⟨?_, fun hnone => by simp [JsonNode.locate] at hnone⟩
          rintro place ⟨⟩
          exact ⟨new, hnew, written_object hput
            (fun name hname => by rw [rfind_put, if_neg (Ne.symm hname)]) (written_self _ new)⟩
      | _ =>
          cases h
          exact editSpec_of_none rfl
  | array items =>
      by_cases hkey : ∃ k, last = .key k
      · obtain ⟨k, rfl⟩ := hkey
        cases h
        exact editSpec_of_none rfl
      · have hbracket : ∀ k, last ≠ .key k := fun k hk => hkey ⟨k, hk⟩
        rw [writeLast_array hbracket] at h
        obtain ⟨new, hnew, h⟩ := Result.bind_eq_ok.mp h
        cases hres : resolveIndex last items.length with
        | none =>
            rw [hres] at h
            cases h
            exact editSpec_of_none (by rw [JsonNode.locate, hres]; rfl)
        | some i =>
            rw [hres] at h
            have hle := (resolveIndex_le hres).1
            have hlocate : (JsonNode.array items).locate [last] = some [.item i] := by
              rw [JsonNode.locate, hres, Option.bind_some]
              cases items[i]? <;> rfl
            refine ⟨fun place hplace => ⟨new, hnew, ?_⟩, fun hnone => by simp [hlocate] at hnone⟩
            rw [hlocate] at hplace
            cases hplace
            dsimp only at h
            split_ifs at h with hlt
            · cases h
              exact written_array hres (List.getElem?_eq_getElem hlt) (written_self _ new)
            · obtain rfl : i = items.length := by omega
              cases h
              exact written_push hres
  | _ =>
      cases h
      exact editSpec_of_none (by cases last <;> rfl)

theorem editSpec_object (hfind : rfind k entries' = some child)
    (hothers : ∀ name, name ≠ k → rfind name entries' = rfind name entries)
    (hsame : rfind k entries = some child → entries' = entries)
    (h : EditSpec value ((rfind k entries).getD (.object [])) child segs) :
    EditSpec value (.object entries) (.object entries') (.key k :: segs) where
  writes place hplace := by
    rw [JsonNode.locate, Option.map_eq_some_iff] at hplace
    obtain ⟨rest, hrest, rfl⟩ := hplace
    obtain ⟨new, hnew, hwritten⟩ := h.writes rest hrest
    exact ⟨new, hnew, written_object hfind hothers hwritten⟩
  keeps hnone hkeys := by
    rw [JsonNode.locate, Option.map_eq_none_iff] at hnone
    rw [keysAfterMissing] at hkeys
    cases hold : rfind k entries with
    | none =>
        rw [hold] at hnone hkeys
        have hsome := locate_of_keys hkeys
        rw [Option.getD_none] at hnone
        rw [hnone] at hsome
        cases hsome
    | some old =>
        rw [hold] at h hnone hkeys hsame
        have hchild := h.keeps hnone hkeys
        rw [hchild] at hsame
        rw [hsame rfl]

theorem editSpec_array (hres : resolveIndex seg items.length = some i)
    (hget : items[i]? = some item) (h : EditSpec value item child segs) :
    EditSpec value (.array items) (.array (items.set i child)) (seg :: segs) := by
  have hlocate : (JsonNode.array items).locate (seg :: segs) =
      (item.locate segs).map (.item i :: ·) := by
    rw [JsonNode.locate, hres, Option.bind_some, hget]
  constructor
  · intro place hplace
    rw [hlocate, Option.map_eq_some_iff] at hplace
    obtain ⟨rest, hrest, rfl⟩ := hplace
    obtain ⟨new, hnew, hwritten⟩ := h.writes rest hrest
    exact ⟨new, hnew, written_array hres hget hwritten⟩
  · intro hnone hkeys
    have hbracket := (resolveIndex_le hres).2
    rw [hlocate, Option.map_eq_none_iff] at hnone
    have hkeys' : keysAfterMissing item segs := by
      cases seg with
      | key k => exact absurd rfl (hbracket k)
      | _ => simpa [keysAfterMissing, JsonNode.child, hres, hget] using hkeys
    obtain ⟨hlt, rfl⟩ := List.getElem?_eq_some_iff.mp hget
    rw [h.keeps hnone hkeys', List.set_getElem_self]

theorem navigateToParent_array {write : JsonNode → Result JsonNode} (h : ∀ k, seg ≠ .key k) :
    navigateToParent write (.array items) (seg :: segs) =
      match resolveIndex seg items.length with
      | some i =>
          match items[i]? with
          | some item => do
              let child ← navigateToParent write item segs
              .ok (.array (items.set i child))
          | none => .ok (.array items)
      | none => .ok (.array items) := by
  cases seg with
  | key k => exact absurd rfl (h k)
  | _ => rfl

theorem editSpec_navigate (segs : List PathSeg) (last : PathSeg)
    (h : navigateToParent (writeLast last value) root segs = .ok root') :
    EditSpec value root root' (segs ++ [last]) := by
  induction segs generalizing root root' with
  | nil =>
      rw [navigateToParent] at h
      exact editSpec_last h
  | cons seg segs ih =>
      cases root with
      | object entries =>
          cases seg with
          | key k =>
              rw [navigateToParent] at h
              cases hpos : rposition k entries with
              | some i =>
                  rw [hpos] at h
                  obtain ⟨child, hchild, h⟩ := Result.bind_eq_ok.mp h
                  cases h
                  obtain ⟨old, hget, hold⟩ := getElem?_rposition hpos
                  rw [hold] at hchild
                  refine editSpec_object ?_ ?_ ?_ (by rw [hold]; exact ih hchild)
                  · rw [rfind_assign _ hpos, if_pos rfl, hold]
                    rfl
                  · intro name hname
                    rw [rfind_assign _ hpos, if_neg (Ne.symm hname)]
                  · intro hsame
                    exact assign_self hpos hsame
              | none =>
                  rw [hpos] at h
                  obtain ⟨child, hchild, h⟩ := Result.bind_eq_ok.mp h
                  cases h
                  have hnone := rfind_eq_none_of_rposition hpos
                  refine editSpec_object ?_ ?_ ?_ (by rw [hnone]; exact ih hchild)
                  · rw [rfind_append_singleton, if_pos rfl]
                  · intro name hname
                    rw [rfind_append_singleton, if_neg (Ne.symm hname)]
                  · intro hsame
                    rw [hnone] at hsame
                    cases hsame
          | _ =>
              cases h
              exact editSpec_of_none rfl
      | array items =>
          by_cases hkey : ∃ k, seg = .key k
          · obtain ⟨k, rfl⟩ := hkey
            cases h
            exact editSpec_of_none rfl
          · have hbracket : ∀ k, seg ≠ .key k := fun k hk => hkey ⟨k, hk⟩
            rw [navigateToParent_array hbracket] at h
            cases hres : resolveIndex seg items.length with
            | none =>
                rw [hres] at h
                cases h
                exact editSpec_of_none (by rw [List.cons_append, JsonNode.locate, hres]; rfl)
            | some i =>
                rw [hres] at h
                dsimp only at h
                cases hget : items[i]? with
                | none =>
                    rw [hget] at h
                    cases h
                    refine editSpec_of_none ?_
                    rw [List.cons_append, JsonNode.locate, hres, Option.bind_some, hget]
                    exact if_neg (by simp)
                | some item =>
                    rw [hget] at h
                    obtain ⟨child, hchild, h⟩ := Result.bind_eq_ok.mp h
                    cases h
                    exact editSpec_array hres hget (ih hchild)
      | _ =>
          cases seg <;> cases h <;> exact editSpec_of_none rfl

theorem keysAfterMissing_of_exists (h : pathExists root segs) : keysAfterMissing root segs := by
  induction segs generalizing root with
  | nil => rw [keysAfterMissing]
  | cons seg segs ih =>
      rw [pathExists_cons] at h
      obtain ⟨next, hnext, hrest⟩ := (Option.any_eq_true _ _).mp h
      have hkept := ih hrest
      by_cases hobject : ∃ entries k, root = .object entries ∧ seg = .key k
      · obtain ⟨entries, k, rfl, rfl⟩ := hobject
        rw [JsonNode.child] at hnext
        rw [keysAfterMissing, hnext]
        exact hkept
      · have hother : keysAfterMissing root (seg :: segs) =
            match root.child seg with
            | some next => keysAfterMissing next segs
            | none => true := by
          rw [keysAfterMissing]
          rintro entries k rfl rfl
          exact hobject ⟨entries, k, rfl, rfl⟩
        rw [hother, hnext]
        exact hkept

/-! ## All or nothing -/

theorem lookupPath_iff_nodeAt {node : JsonNode} {path : String}
    (hparse : parsePathSegments (utf8Bytes path) = .ok segs) :
    lookupPath root ("$" ++ path) = .ok (some node) ↔ root.nodeAt segs = some node := by
  unfold parsePathSegments at hparse
  simp [lookupPath, next?_root, walk_iff, hparse]

/-- Where the path of the edit leads to a place: the value is there, the path leads to it, and
every place apart from it is as before.  Otherwise the document is the same. -/
def AllOrNothing (root root' : JsonNode) (path : String) (segs : List PathSeg) (value : Value) :
    Prop :=
  root' = root ∨ ∃ new place, valueArgToJson value = .ok new ∧ root.locate segs = some place ∧
    (¬ Appends segs → lookupPath root' ("$" ++ path) = .ok (some new)) ∧
    root'.at place = some new ∧ ∀ other, Apart place other → root'.at other = root.at other

/--
An edit writes the value at the place that the path names and changes nothing
apart from it, or it changes nothing at all, when no missing key is followed by
an index.
-/
theorem applyPathUpdate_allOrNothing {root root' : JsonNode} {path : String}
    {segs : List PathSeg} {value : Value} {mode : UpdateMode}
    (hparse : parsePathSegments (utf8Bytes path) = .ok segs)
    (hkeys : mode ≠ .replace → keysAfterMissing root segs)
    (h : applyPathUpdate root segs value mode = .ok root') :
    AllOrNothing root root' path segs value := by
  rw [applyPathUpdate] at h
  cases hlast : segs.getLast? with
  | none =>
      rw [hlast] at h
      obtain rfl := List.getLast?_eq_none_iff.mp hlast
      dsimp only at h
      split_ifs at h
      · cases h
        exact .inl rfl
      · exact .inr ⟨root', [], h, rfl, fun _ => (lookupPath_iff_nodeAt hparse).mpr rfl, rfl,
          (written_self root root').others⟩
  | some last =>
      rw [hlast] at h
      obtain ⟨init, rfl⟩ := List.getLast?_eq_some_iff.mp hlast
      dsimp only at h
      split_ifs at h with hshould
      · rw [List.dropLast_concat] at h
        have hspec := editSpec_navigate init last h
        cases hplace : root.locate (init ++ [last]) with
        | some place =>
            obtain ⟨new, hnew, hwritten⟩ := hspec.writes place hplace
            exact .inr ⟨new, place, hnew, hplace,
              fun happ => (lookupPath_iff_nodeAt hparse).mpr (hwritten.found happ), hwritten.here,
              hwritten.others⟩
        | none =>
            refine .inl (hspec.keeps hplace ?_)
            cases mode with
            | replace => exact keysAfterMissing_of_exists hshould
            | _ => exact hkeys (by simp)
      · cases h
        exact .inl rfl

/-- `json_set('{"a":[1]}', '$.a[1]', 2)` -/
theorem applyPathUpdate_allOrNothing_append :
    parsePathSegments (utf8Bytes ".a[1]") = .ok [.key "a", .index 1] ∧
      keysAfterMissing (.object [("a", .array [.int 1])]) [.key "a", .index 1] ∧
      AllOrNothing (.object [("a", .array [.int 1])]) (.object [("a", .array [.int 1, .int 2])])
        ".a[1]" [.key "a", .index 1] (.int 2) := by
  have hparse : parsePathSegments (utf8Bytes ".a[1]") = .ok [.key "a", .index 1] := rfl
  have hkeys : keysAfterMissing (.object [("a", .array [.int 1])]) [.key "a", .index 1] := rfl
  have hset : applyPathUpdate (.object [("a", .array [.int 1])]) [.key "a", .index 1] (.int 2)
      .set = .ok (.object [("a", .array [.int 1, .int 2])]) := rfl
  exact ⟨hparse, hkeys, applyPathUpdate_allOrNothing hparse (fun _ => hkeys) hset⟩

def AllOrNothingBySpelling (root root' : JsonNode) (path : String) (segs : List PathSeg)
    (value : Value) : Prop :=
  root' = root ∨
    (∃ new, valueArgToJson value = .ok new ∧ lookupPath root' ("$" ++ path) = .ok (some new)) ∧
      ∀ path' segs', parsePathSegments (utf8Bytes path') = .ok segs' → ¬ segs <+: segs' →
        ¬ segs' <+: segs → lookupPath root' ("$" ++ path') = lookupPath root ("$" ++ path')

/--
`$[0]` and `$[#-2]` are one place in `[1,2]`; `$[#]` names the slot behind the
value that it appended; and `$.a[0]` is refused in `{}` after the key was made.
-/
theorem applyPathUpdate_not_bySpelling :
    (applyPathUpdate (.array [.int 1, .int 2]) [.index 0] (.int 9) .set =
        .ok (.array [.int 9, .int 2]) ∧
      ¬ AllOrNothingBySpelling (.array [.int 1, .int 2]) (.array [.int 9, .int 2]) "[0]" [.index 0]
        (.int 9)) ∧
    (applyPathUpdate (.array [.int 1]) [.append] (.int 2) .set = .ok (.array [.int 1, .int 2]) ∧
      ¬ AllOrNothingBySpelling (.array [.int 1]) (.array [.int 1, .int 2]) "[#]" [.append]
        (.int 2)) ∧
    (applyPathUpdate (.object []) [.key "a", .index 0] (.int 1) .set =
        .ok (.object [("a", .object [])]) ∧
      ¬ AllOrNothingBySpelling (.object []) (.object [("a", .object [])]) ".a[0]"
        [.key "a", .index 0] (.int 1)) := by
  refine ⟨⟨rfl, ?_⟩, ⟨rfl, ?_⟩, rfl, ?_⟩
  · rintro (h | ⟨-, h⟩)
    · simp at h
    · have hparse : parsePathSegments (utf8Bytes "[#-2]") = .ok [.fromEnd 2] := rfl
      have hsame := h "[#-2]" [.fromEnd 2] hparse (by simp) (by simp)
      have hnew : lookupPath (.array [.int 9, .int 2]) ("$" ++ "[#-2]") = .ok (some (.int 9)) :=
        (lookupPath_iff_nodeAt hparse).mpr rfl
      have hold : lookupPath (.array [.int 1, .int 2]) ("$" ++ "[#-2]") = .ok (some (.int 1)) :=
        (lookupPath_iff_nodeAt hparse).mpr rfl
      rw [hnew, hold] at hsame
      simp at hsame
  · rintro (h | ⟨⟨new, -, h⟩, -⟩)
    · simp at h
    · have hparse : parsePathSegments (utf8Bytes "[#]") = .ok [.append] := rfl
      rw [lookupPath_iff_nodeAt hparse] at h
      cases h
  · rintro (h | ⟨⟨new, -, h⟩, -⟩)
    · simp at h
    · have hparse : parsePathSegments (utf8Bytes ".a[0]") = .ok [.key "a", .index 0] := rfl
      rw [lookupPath_iff_nodeAt hparse] at h
      cases h

end Rustqlite.Func.Json
