import Rustqlite.Func.JsonParse

/-!
# What is rendered is read back

The renderer writes a text of the grammar that means the tree it was given, so
that the parser returns that tree.
-/

namespace Rustqlite.Func.Json

open Foundation

/-! ## Trees -/

mutual

/-- As many levels as there are arrays and objects around the innermost parts, and one more. -/
def JsonNode.levels : JsonNode → Nat
  | .array items => 1 + levelsItems items
  | .object entries => 1 + levelsEntries entries
  | .null | .bool _ | .int _ | .real _ | .string _ => 1

def levelsItems : List JsonNode → Nat
  | [] => 0
  | item :: items => max item.levels (levelsItems items)

def levelsEntries : List (String × JsonNode) → Nat
  | [] => 0
  | entry :: entries => max (levelsEntry entry) (levelsEntries entries)

def levelsEntry : String × JsonNode → Nat
  | (_, value) => value.levels

end

mutual

def JsonNode.noReal : JsonNode → Bool
  | .real _ => false
  | .array items => noRealItems items
  | .object entries => noRealEntries entries
  | .null | .bool _ | .int _ | .string _ => true

def noRealItems : List JsonNode → Bool
  | [] => true
  | item :: items => item.noReal && noRealItems items

def noRealEntries : List (String × JsonNode) → Bool
  | [] => true
  | entry :: entries => noRealEntry entry && noRealEntries entries

def noRealEntry : String × JsonNode → Bool
  | (_, value) => value.noReal

end

/-! ## Numbers -/

def intNumber (i : Int64) : NumberText := ⟨i.toInt < 0, toDigits i.toInt.natAbs, none, none⟩

theorem numberSpelled_intText (i : Int64) : NumberSpelled (intText i) (intNumber i) := by
  have h : NumberSpelled (minusText (i.toInt < 0) ++ (spellDigits (toDigits i.toInt.natAbs) ++
      ([] ++ [])))
      (intNumber i) := .mk (canonical_toDigits _) .none .none
  have heq : intText i =
      minusText (i.toInt < 0) ++ (spellDigits (toDigits i.toInt.natAbs) ++ ([] ++ [])) := by
    simp [intText, minusText, spellDigits, digitChar]
  rwa [heq]

theorem node_intNumber (i : Int64) : (intNumber i).node = .int i := by
  have hvalue : (intNumber i).toInt = i.toInt := by
    simp only [intNumber, NumberText.toInt, ofDigits_toDigits, decide_eq_true_eq]
    split_ifs <;> omega
  unfold NumberText.node
  rw [hvalue, if_pos ⟨rfl, rfl, Int64.le_toInt i, Int64.toInt_lt i⟩, Int64.ofInt_toInt]

/-! ## Strings -/

theorem hexValue_hexChar {k : Nat} (h : k < 16) : hexValue (hexChar k) = some k := by
  interval_cases k <;> rfl

theorem codeUnit_control {c : Char} (h : c.toNat < 0x20) :
    codeUnit '0' '0' (hexChar (c.toNat / 16)) (hexChar (c.toNat % 16)) = some c.toNat := by
  have hzero : hexValue '0' = some 0 := rfl
  rw [codeUnit, hzero, hexValue_hexChar (by omega), hexValue_hexChar (by omega)]
  simp only [Option.bind_eq_bind, Option.bind_some, Option.pure_def, Option.some.injEq]
  omega

theorem charText_escapeChar (c : Char) : CharText (escapeChar c) c := by
  unfold escapeChar
  split_ifs with h1 h2 h3 h4 h5 h6 h7 h8
  · exact .short (by simp [h1, shortEscapes])
  · exact .short (by simp [h2, shortEscapes])
  · exact .short (by simp [h3, shortEscapes])
  · exact .short (by simp [h4, shortEscapes])
  · exact .short (by simp [h5, shortEscapes])
  · exact .short (by simp [h6, shortEscapes])
  · exact .short (by simp [h7, shortEscapes])
  · have hnot : ¬0xd800 ≤ c.toNat ∧ ¬0xdc00 ≤ c.toNat := ⟨by omega, by omega⟩
    exact .unicode (codeUnit_control h8) (by simp [isHighSurrogate, hnot.1])
      (by simp [isLowSurrogate, hnot.2]) rfl
  · exact .unescaped (Nat.le_of_not_lt h8) h1 h2

theorem charsText_flatMap (cs : List Char) : CharsText (cs.flatMap escapeChar) cs := by
  induction cs with
  | nil => exact .nil
  | cons c cs ih =>
      rw [List.flatMap_cons]
      exact .cons (charText_escapeChar c) ih

theorem stringText_renderString (s : String) : StringText (renderString s) s := by
  have h := StringText.mk (charsText_flatMap s.toList)
  rwa [String.ofList_toList] at h

/-! ## Values -/

theorem levels_pos (node : JsonNode) : 0 < node.levels := by
  cases node <;> simp only [JsonNode.levels] <;> omega

theorem spaces_nil : Spaces [] := fun _ h => by cases h

section

variable (n : Numerals)

theorem renderItems_false (item : JsonNode) (items : List JsonNode) :
    renderItems n false (item :: items) = ',' :: renderItems n true (item :: items) := by
  simp [renderItems]

theorem renderEntries_false (entry : String × JsonNode) (entries : List (String × JsonNode)) :
    renderEntries n false (entry :: entries) = ',' :: renderEntries n true (entry :: entries) := by
  simp [renderEntries]

mutual

theorem valueText_render : ∀ (node : JsonNode) (room : Nat), node.noReal = true →
    node.levels ≤ room + 1 → LevelText (ValueText room) (renderInto n node) node
  | .null, _, _, _ => .null
  | .bool true, _, _, _ => .true
  | .bool false, _, _, _ => .false
  | .int i, room, _, _ => by
      have h : LevelText (ValueText room) (intText i) (intNumber i).node :=
        .number (numberSpelled_intText i)
      rwa [node_intNumber] at h
  | .real _, _, hreal, _ => by cases hreal
  | .string s, _, _, _ => .string (stringText_renderString s)
  | .array [], _, _, _ => .array (.empty spaces_nil)
  | .array (item :: items), room, hreal, hlevels => by
      have hroom : levelsItems (item :: items) ≤ room := by
        simp only [JsonNode.levels] at hlevels
        omega
      exact .array (.parts (partsText_items (item :: items) room (List.cons_ne_nil _ _)
          hreal hroom))
  | .object [], _, _, _ => .object (.empty spaces_nil)
  | .object (entry :: entries), room, hreal, hlevels => by
      have hroom : levelsEntries (entry :: entries) ≤ room := by
        simp only [JsonNode.levels] at hlevels
        omega
      exact .object (.parts (partsText_entries (entry :: entries) room (List.cons_ne_nil _ _)
          hreal hroom))

theorem partsText_items : ∀ (items : List JsonNode) (room : Nat), items ≠ [] →
    noRealItems items = true → levelsItems items ≤ room →
      PartsText (ValueText room) (renderItems n true items) items
  | [], _, hne, _, _ => absurd rfl hne
  | item :: items, 0, _, _, hlevels => by
      have hpos := levels_pos item
      simp only [levelsItems] at hlevels
      omega
  | [item], room + 1, _, hreal, hlevels => by
      simp only [noRealItems, Bool.and_true] at hreal
      have hlevel : item.levels ≤ room + 1 := (le_max_left _ _).trans hlevels
      have hvalue : ValueText (room + 1) (renderInto n item) item :=
        valueText_render item room hreal hlevel
      have h := PartsText.one spaces_nil hvalue spaces_nil
      simpa [renderItems] using h
  | item :: next :: items, room + 1, _, hreal, hlevels => by
      have hboth := (Bool.and_eq_true _ _).mp hreal
      have hlevel : item.levels ≤ room + 1 := (le_max_left _ _).trans hlevels
      have hrest : levelsItems (next :: items) ≤ room + 1 := (le_max_right _ _).trans hlevels
      have hvalue : ValueText (room + 1) (renderInto n item) item :=
        valueText_render item room hboth.1 hlevel
      have hparts := partsText_items (next :: items) (room + 1) (List.cons_ne_nil _ _) hboth.2 hrest
      have h := PartsText.cons spaces_nil hvalue spaces_nil hparts
      rw [List.nil_append, List.nil_append, ← renderItems_false] at h
      exact h

theorem partsText_entries : ∀ (entries : List (String × JsonNode)) (room : Nat), entries ≠ [] →
    noRealEntries entries = true → levelsEntries entries ≤ room →
      PartsText (EntryText (ValueText room)) (renderEntries n true entries) entries
  | [], _, hne, _, _ => absurd rfl hne
  | (key, value) :: entries, 0, _, _, hlevels => by
      have hpos := levels_pos value
      simp only [levelsEntries, levelsEntry] at hlevels
      omega
  | [entry], room + 1, _, hreal, hlevels => by
      simp only [noRealEntries, Bool.and_true] at hreal
      have hlevel : levelsEntry entry ≤ room + 1 := (le_max_left _ _).trans hlevels
      have hentry := entryText_render entry room hreal hlevel
      have h := PartsText.one spaces_nil hentry spaces_nil
      simpa [renderEntries] using h
  | entry :: next :: entries, room + 1, _, hreal, hlevels => by
      have hboth := (Bool.and_eq_true _ _).mp hreal
      have hlevel : levelsEntry entry ≤ room + 1 := (le_max_left _ _).trans hlevels
      have hrest : levelsEntries (next :: entries) ≤ room + 1 := (le_max_right _ _).trans hlevels
      have hentry := entryText_render entry room hboth.1 hlevel
      have hparts :=
        partsText_entries (next :: entries) (room + 1) (List.cons_ne_nil _ _) hboth.2 hrest
      have h := PartsText.cons spaces_nil hentry spaces_nil hparts
      rw [List.nil_append, List.nil_append, ← renderEntries_false] at h
      exact h

theorem entryText_render : ∀ (entry : String × JsonNode) (room : Nat), noRealEntry entry = true →
    levelsEntry entry ≤ room + 1 →
      EntryText (ValueText (room + 1)) (renderEntry n entry) entry
  | (key, value), room, hreal, hlevel => by
      have hvalue : ValueText (room + 1) (renderInto n value) value :=
        valueText_render value room hreal hlevel
      have h := EntryText.mk (stringText_renderString key) spaces_nil spaces_nil hvalue
      simpa [renderEntry] using h

end

/--
The parser returns the tree that was rendered, if there are no reals in it and
no more levels than the parser goes into.
-/
theorem parse_render (node : JsonNode) (hreal : node.noReal = true)
    (hlevels : node.levels ≤ jsonMaxDepth) : parse (render n node) = .ok node := by
  have hvalue : ValueText jsonMaxDepth (renderInto n node) node :=
    valueText_render n node 999 hreal hlevels
  have h := JsonText.mk spaces_nil hvalue spaces_nil
  rw [List.nil_append, List.append_nil] at h
  rw [parse_eq_ok_iff, render, String.toList_ofList]
  exact h

end

/-! ## A tree and its text -/

def sampleNode : JsonNode := .object [("é\n", .array [.int (-5), .null, .object []])]

theorem parse_render_sample : sampleNode.noReal = true ∧ sampleNode.levels ≤ jsonMaxDepth ∧
    parse (render ⟨fun _ => "", fun _ => (none, false)⟩ sampleNode) = .ok sampleNode :=
  ⟨rfl, by decide, parse_render _ sampleNode rfl (by decide)⟩

end Rustqlite.Func.Json
