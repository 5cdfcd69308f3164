import Rustqlite.Foundation.Members
import Rustqlite.Func.Json

/-!
# Merge patches

`json_patch` changes a document by another one: the members of the patch go
into the members of the target, and a null takes a member away.  The result is
compared with the pseudo-code of RFC 7396, section 2.
-/

namespace Rustqlite.Func.Json

open Foundation Members

/-! ## The patch -/

/-- The members to merge into: of what is not an object there are none. -/
def JsonNode.entries : JsonNode → List (String × JsonNode)
  | .object entries => entries
  | _ => []

mutual

def mergePatch (target : JsonNode) : JsonNode → JsonNode
  | .object patchEntries => .object (mergeEntries target.entries patchEntries)
  | patch => patch

def mergeEntries (targetEntries : List (String × JsonNode)) :
    List (String × JsonNode) → List (String × JsonNode)
  | [] => targetEntries
  | entry :: patchEntries => mergeEntries (mergeEntry targetEntries entry) patchEntries

def mergeEntry (targetEntries : List (String × JsonNode)) :
    String × JsonNode → List (String × JsonNode)
  | (key, .null) => remove key targetEntries
  | (key, pval) => put key (fun old => mergePatch old pval) pval targetEntries

end

/-! ## The pseudo-code -/

mutual

def rfcMergePatch (target : Option JsonNode) : JsonNode → JsonNode
  | .object patch => .object (rfcMembers ((target.map JsonNode.entries).getD []) patch)
  | patch => patch

def rfcMembers (target : List (String × JsonNode)) :
    List (String × JsonNode) → List (String × JsonNode)
  | [] => target
  | member :: patch => rfcMembers (rfcMember target member) patch

def rfcMember (target : List (String × JsonNode)) :
    String × JsonNode → List (String × JsonNode)
  | (name, .null) => remove name target
  | (name, value) =>
      put name (fun old => rfcMergePatch (some old) value) (rfcMergePatch none value) target

end

/-! ## Documents -/

inductive Document where
  | null
  | bool (b : Bool)
  | int (i : Int64)
  | real (r : UInt64)
  | string (s : String)
  | array (items : List Document)
  | object (members : String → Option Document)

mutual

def JsonNode.document : JsonNode → Document
  | .null => .null
  | .bool b => .bool b
  | .int i => .int i
  | .real r => .real r
  | .string s => .string s
  | .array items => .array (itemDocuments items)
  | .object entries => .object fun name => memberDocument name entries

def itemDocuments : List JsonNode → List Document
  | [] => []
  | item :: items => item.document :: itemDocuments items

def memberDocument (name : String) : List (String × JsonNode) → Option Document
  | [] => none
  | entry :: entries => (memberDocument name entries).or (entryDocument name entry)

def entryDocument (name : String) : String × JsonNode → Option Document
  | (key, value) => if key = name then some value.document else none

end

mutual

def JsonNode.uniqueKeys : JsonNode → Bool
  | .array items => uniqueItems items
  | .object entries => decide (entries.map Prod.fst).Nodup && uniqueEntries entries
  | _ => true

def uniqueItems : List JsonNode → Bool
  | [] => true
  | item :: items => item.uniqueKeys && uniqueItems items

def uniqueEntries : List (String × JsonNode) → Bool
  | [] => true
  | entry :: entries => uniqueEntry entry && uniqueEntries entries

def uniqueEntry : String × JsonNode → Bool
  | (_, value) => value.uniqueKeys

end

mutual

/-- No member is null, neither of the node nor of the objects that are its members. -/
def JsonNode.noNulls : JsonNode → Bool
  | .object entries => noNullEntries entries
  | _ => true

def noNullEntries : List (String × JsonNode) → Bool
  | [] => true
  | entry :: entries => noNullEntry entry && noNullEntries entries

def noNullEntry : String × JsonNode → Bool
  | (_, .null) => false
  | (_, value) => value.noNulls

end

mutual

/-- What the patch puts under a name that the target does not have holds no nulls. -/
def addsNoNulls (target : JsonNode) : JsonNode → Bool
  | .object patchEntries => addsNoNullEntries target.entries patchEntries
  | _ => true

def addsNoNullEntries (targetEntries : List (String × JsonNode)) :
    List (String × JsonNode) → Bool
  | [] => true
  | entry :: patchEntries =>
      addsNoNullEntry targetEntries entry && addsNoNullEntries targetEntries patchEntries

def addsNoNullEntry (targetEntries : List (String × JsonNode)) : String × JsonNode → Bool
  | (_, .null) => true
  | (key, pval) =>
      match rfind key targetEntries with
      | some old => addsNoNulls old pval
      | none => pval.noNulls

end

/-! ## Member by member -/

theorem object_induction {motive : JsonNode → Prop}
    (object : ∀ entries, (∀ e ∈ entries, motive e.2) → motive (.object entries))
    (other : ∀ node, (∀ entries, node ≠ .object entries) → motive node) :
    ∀ node, motive node
  | .object entries => object entries fun e _ => object_induction object other e.2
  | .null => other _ fun _ h => by cases h
  | .bool _ => other _ fun _ h => by cases h
  | .int _ => other _ fun _ h => by cases h
  | .real _ => other _ fun _ h => by cases h
  | .string _ => other _ fun _ h => by cases h
  | .array _ => other _ fun _ h => by cases h
termination_by node => sizeOf node
decreasing_by
  rename_i he
  have hlt := List.sizeOf_lt_of_mem he
  obtain ⟨key, value⟩ := e
  simp only [Prod.mk.sizeOf_spec, JsonNode.object.sizeOf_spec] at hlt ⊢
  omega

theorem memberDocument_eq (name : String) (entries : List (String × JsonNode)) :
    memberDocument name entries = (rfind name entries).map JsonNode.document := by
  induction entries with
  | nil => rfl
  | cons entry entries ih =>
      obtain ⟨key, value⟩ := entry
      rw [memberDocument, rfind, ih, entryDocument]
      dsimp only
      split_ifs <;> cases rfind name entries <;> rfl

theorem document_object_inj {as bs : List (String × JsonNode)} :
    (JsonNode.object as).document = (JsonNode.object bs).document ↔
      ∀ name, (rfind name as).map JsonNode.document = (rfind name bs).map JsonNode.document := by
  simp only [JsonNode.document, Document.object.injEq, funext_iff, memberDocument_eq]

variable {entries patch : List (String × JsonNode)} {target : JsonNode}

theorem uniqueEntries_iff : uniqueEntries entries ↔ ∀ e ∈ entries, e.2.uniqueKeys := by
  induction entries with
  | nil => simp [uniqueEntries]
  | cons entry entries ih =>
      obtain ⟨key, value⟩ := entry
      simp [uniqueEntries, uniqueEntry, ih]

theorem uniqueKeys_object :
    (JsonNode.object entries).uniqueKeys ↔
      (entries.map Prod.fst).Nodup ∧ ∀ e ∈ entries, e.2.uniqueKeys := by
  rw [JsonNode.uniqueKeys, Bool.and_eq_true, decide_eq_true_eq, uniqueEntries_iff]

def JsonNode.isNull : JsonNode → Bool
  | .null => true
  | _ => false

theorem noNulls_object :
    (JsonNode.object entries).noNulls ↔ ∀ e ∈ entries, e.2.isNull = false ∧ e.2.noNulls := by
  rw [JsonNode.noNulls]
  induction entries with
  | nil => simp [noNullEntries]
  | cons entry entries ih =>
      obtain ⟨key, value⟩ := entry
      rw [noNullEntries, Bool.and_eq_true, ih, List.forall_mem_cons]
      cases value <;> simp [noNullEntry, JsonNode.isNull]

theorem addsNoNulls_object :
    addsNoNulls target (.object entries) ↔ ∀ e ∈ entries, e.2.isNull = false →
      match rfind e.1 target.entries with
      | some old => addsNoNulls old e.2
      | none => e.2.noNulls := by
  rw [addsNoNulls]
  induction entries with
  | nil => simp [addsNoNullEntries]
  | cons entry entries ih =>
      obtain ⟨key, value⟩ := entry
      rw [addsNoNullEntries, Bool.and_eq_true, ih, List.forall_mem_cons]
      cases value <;> cases hold : rfind key target.entries <;>
        simp [addsNoNullEntry, JsonNode.isNull, hold]

/-! ### What a loop leaves under a name -/

theorem mergeEntries_eq_foldl (entries patch : List (String × JsonNode)) :
    mergeEntries entries patch = patch.foldl mergeEntry entries := by
  induction patch generalizing entries with
  | nil => rfl
  | cons entry patch ih => rw [mergeEntries, ih, List.foldl_cons]

theorem rfcMembers_eq_foldl (entries patch : List (String × JsonNode)) :
    rfcMembers entries patch = patch.foldl rfcMember entries := by
  induction patch generalizing entries with
  | nil => rfl
  | cons entry patch ih => rw [rfcMembers, ih, List.foldl_cons]

theorem rfind_mergeEntry (entries : List (String × JsonNode)) (e : String × JsonNode)
    (name : String) : rfind name (mergeEntry entries e) =
      if e.1 = name then
        if e.2.isNull then none
        else some ((rfind e.1 entries).elim e.2 fun old => mergePatch old e.2)
      else rfind name entries := by
  obtain ⟨key, value⟩ := e
  cases value with
  | null => exact rfind_remove key entries name
  | _ => exact rfind_put key _ _ entries name

theorem rfind_rfcMember (entries : List (String × JsonNode)) (e : String × JsonNode)
    (name : String) : rfind name (rfcMember entries e) =
      if e.1 = name then
        if e.2.isNull then none else some (rfcMergePatch (rfind e.1 entries) e.2)
      else rfind name entries := by
  obtain ⟨key, value⟩ := e
  cases value with
  | null => exact rfind_remove key entries name
  | _ =>
      refine (rfind_put key _ _ entries name).trans ?_
      cases rfind key entries <;> rfl

theorem rfind_mergeEntries (hnodup : (patch.map Prod.fst).Nodup)
    (entries : List (String × JsonNode)) (name : String) :
    rfind name (mergeEntries entries patch) = (rfind name patch).elim (rfind name entries)
      fun v => if v.isNull then none
        else some ((rfind name entries).elim v fun old => mergePatch old v) := by
  rw [mergeEntries_eq_foldl]
  exact rfind_foldl (fun e old => if e.2.isNull then none
    else some (old.elim e.2 fun old => mergePatch old e.2)) rfind_mergeEntry hnodup entries name

theorem rfind_rfcMembers (hnodup : (patch.map Prod.fst).Nodup) (entries : List (String × JsonNode))
    (name : String) :
    rfind name (rfcMembers entries patch) = (rfind name patch).elim (rfind name entries)
      fun v => if v.isNull then none else some (rfcMergePatch (rfind name entries) v) := by
  rw [rfcMembers_eq_foldl]
  exact rfind_foldl (fun e old => if e.2.isNull then none
    else some (rfcMergePatch old e.2)) rfind_rfcMember hnodup entries name

/-! ## Where the two agree -/

theorem mergePatch_of_other {patch : JsonNode} (h : ∀ entries, patch ≠ .object entries) :
    mergePatch target patch = patch := by
  cases patch with
  | object entries => exact absurd rfl (h entries)
  | _ => rfl

theorem rfcMergePatch_of_other {target : Option JsonNode} {patch : JsonNode}
    (h : ∀ entries, patch ≠ .object entries) : rfcMergePatch target patch = patch := by
  cases patch with
  | object entries => exact absurd rfl (h entries)
  | _ => rfl

theorem forall_rfind_iff (hnodup : (patch.map Prod.fst).Nodup) {P : String → JsonNode → Prop} :
    (∀ name v, rfind name patch = some v → P name v) ↔ ∀ e ∈ patch, P e.1 e.2 := by
  constructor
  · intro h e he
    exact h e.1 e.2 (rfind_of_mem hnodup he)
  · intro h name v hv
    exact h (name, v) (mem_of_rfind hv)

theorem document_rfcMergePatch_none (patch : JsonNode) (hunique : patch.uniqueKeys) :
    patch.document = (rfcMergePatch none patch).document ↔ patch.noNulls := by
  induction patch using object_induction with
  | other patch h =>
      rw [rfcMergePatch_of_other h]
      cases patch with
      | object entries => exact absurd rfl (h entries)
      | _ => simp [JsonNode.noNulls]
  | object entries ih =>
      rw [uniqueKeys_object] at hunique
      rw [rfcMergePatch, document_object_inj, noNulls_object,
        ← forall_rfind_iff hunique.1 (P := fun _ v => v.isNull = false ∧ v.noNulls)]
      refine forall_congr' fun name => ?_
      rw [rfind_rfcMembers hunique.1]
      cases hfind : rfind name entries with
      | none => simp [rfind]
      | some v =>
          have hmem := mem_of_rfind hfind
          have hv := ih _ hmem (hunique.2 _ hmem)
          cases hnull : v.isNull with
          | true => simp [hnull]
          | false => simpa [hnull, rfind] using hv

/--
The target becomes the document that the RFC defines, but for the order of
members, exactly when what is put under a new name holds no nulls.
-/
theorem mergePatch_iff (target patch : JsonNode) (hunique : patch.uniqueKeys) :
    (mergePatch target patch).document = (rfcMergePatch (some target) patch).document ↔
      addsNoNulls target patch := by
  induction patch using object_induction generalizing target with
  | other patch h =>
      rw [mergePatch_of_other h, rfcMergePatch_of_other h]
      cases patch with
      | object entries => exact absurd rfl (h entries)
      | _ => simp [addsNoNulls]
  | object entries ih =>
      rw [uniqueKeys_object] at hunique
      rw [mergePatch, rfcMergePatch, document_object_inj, addsNoNulls_object,
        ← forall_rfind_iff hunique.1 (P := fun name v => v.isNull = false →
          match rfind name target.entries with
          | some old => addsNoNulls old v
          | none => v.noNulls)]
      refine forall_congr' fun name => ?_
      rw [rfind_mergeEntries hunique.1, rfind_rfcMembers hunique.1]
      cases hfind : rfind name entries with
      | none => simp
      | some v =>
          have hmem := mem_of_rfind hfind
          have hv := hunique.2 _ hmem
          cases hnull : v.isNull with
          | true => simp [hnull]
          | false =>
              cases hold : rfind name target.entries with
              | none => simpa [hnull, hold] using document_rfcMergePatch_none v hv
              | some old => simpa [hnull, hold] using ih _ hmem old hv

/-- A member changed, one taken away and one added. -/
theorem mergePatch_iff_members :
    let target : JsonNode := .object [("a", .int 1), ("b", .int 2)]
    let patch : JsonNode := .object [("a", .object [("x", .null)]), ("b", .null), ("c", .int 3)]
    patch.uniqueKeys ∧
      ((mergePatch target patch).document = (rfcMergePatch (some target) patch).document ↔
        addsNoNulls target patch) := by
  have hunique : (JsonNode.object [("a", .object [("x", .null)]), ("b", .null),
      ("c", .int 3)]).uniqueKeys := by decide
  exact ⟨hunique, mergePatch_iff _ _ hunique⟩

/-- `{"a":{"b":null}}` put into `{}` keeps its null. -/
theorem mergePatch_keeps_null :
    (JsonNode.object [("a", .object [("b", .null)])]).uniqueKeys ∧
    (mergePatch (.object []) (.object [("a", .object [("b", .null)])])).document ≠
      (rfcMergePatch (some (.object [])) (.object [("a", .object [("b", .null)])])).document := by
  refine ⟨by decide, fun h => ?_⟩
  have hmember : some (JsonNode.object [("b", .null)]).document =
      some (JsonNode.object []).document := (document_object_inj).mp h "a"
  have hnull : some Document.null = none := (document_object_inj).mp (Option.some.inj hmember) "b"
  cases hnull

end Rustqlite.Func.Json
