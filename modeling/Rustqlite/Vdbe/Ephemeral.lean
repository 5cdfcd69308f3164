import Rustqlite.Format.Record
import Rustqlite.Types.Affinity
import Rustqlite.Vdbe.Opcode

/-!
# Ephemeral indexes

The set of keys behind DISTINCT, IN and UNION.  A key is looked up by the bytes
of its record.
-/

namespace Rustqlite.Vdbe

open Foundation Format Double

structure Ephemeral where
  records : List Bytes

namespace Ephemeral

def findRecord (e : Ephemeral) (needle : Bytes) : Bool := e.records.any (· = needle)

def findValues (e : Ephemeral) (values : List Value) : Bool := e.findRecord (encodeRecord values)

def idxInsert (e : Ephemeral) (record : Bytes) : Bool × Ephemeral :=
  if e.findRecord record then (false, e) else (true, { e with records := e.records ++ [record] })

/-- Whether `Found`, `NotFound` or `NoConflict` jumps. -/
def probe (e : Ephemeral) (op : Opcode) (values : List Value) : Bool :=
  match op with
  | .found => e.findValues values
  | .notFound => !e.findValues values
  | _ => values.any (· = .null) || !e.findValues values

def insertKeys (keys : List ValueSlice) : Ephemeral :=
  keys.foldl (fun e key => (e.idxInsert (encodeRecord key.values)).2) ⟨[]⟩

/-! ## What is found -/

theorem mem_idxInsert {e : Ephemeral} {record r : Bytes} :
    r ∈ (e.idxInsert record).2.records ↔ r ∈ e.records ∨ r = record := by
  rw [idxInsert, findRecord]
  split_ifs with hfound
  · simp only [List.any_eq_true, decide_eq_true_eq] at hfound
    obtain ⟨r', hmem, rfl⟩ := hfound
    exact ⟨.inl, fun h => h.elim id fun heq => heq ▸ hmem⟩
  · simp

theorem mem_insertKeys {keys : List ValueSlice} {r : Bytes} :
    r ∈ (insertKeys keys).records ↔ ∃ key ∈ keys, r = encodeRecord key.values := by
  have hrun : ∀ e : Ephemeral, r ∈ (keys.foldl (fun e key =>
      (e.idxInsert (encodeRecord key.values)).2) e).records ↔
        r ∈ e.records ∨ ∃ key ∈ keys, r = encodeRecord key.values := by
    induction keys with
    | nil => simp
    | cons key keys ih =>
        intro e
        rw [List.foldl_cons, ih, mem_idxInsert]
        simp only [List.exists_mem_cons_iff, or_assoc]
  rw [insertKeys, hrun]
  simp

theorem encodeRecord_inj {vs ws : ValueSlice}
    (h : encodeRecord vs.values = encodeRecord ws.values) : vs.values = ws.values := by
  have hvs := (decodeRecord_encodeRecord vs).1
  rw [h, (decodeRecord_encodeRecord ws).1] at hvs
  exact (Except.ok.inj hvs).symm

theorem findValues_insertKeys (keys : List ValueSlice) (needle : ValueSlice) :
    (insertKeys keys).findValues needle.values = true ↔
      ∃ key ∈ keys, key.values = needle.values := by
  rw [findValues, findRecord, List.any_eq_true]
  simp only [decide_eq_true_eq, exists_eq_right, mem_insertKeys]
  exact exists_congr fun key => and_congr_right fun _ => ⟨fun h => (encodeRecord_inj h).symm,
    fun h => by rw [h]⟩

/-! ## Equal values that are stored differently -/

def Twin : Value → Value → Prop
  | .int i, .real r | .real r, .int i => isNaN r = false ∧ value r = i.toInt * one
  | .real r, .real r' => r ≠ r' ∧ (isNaN r = true ∨ isNaN r' = true ∨ value r = value r')
  | _, _ => False

theorem compareBytes_eq_eq {a b : Bytes} : compareBytes a b = .eq ↔ a = b := by
  induction a generalizing b with
  | nil => cases b <;> simp [compareBytes]
  | cons x a ih =>
      cases b with
      | nil => simp [compareBytes]
      | cons y b => simp [compareBytes, Ordering.then_eq_eq, ih, UInt8.toNat_inj]

theorem utf8Bytes_inj {s t : String} : utf8Bytes s = utf8Bytes t ↔ s = t := by
  refine ⟨fun h => ?_, fun h => by rw [h]⟩
  rw [← fromUtf8Lossy_utf8Bytes s, h, fromUtf8Lossy_utf8Bytes]

theorem intFloatCompare_eq_eq {i : Int64} {r : UInt64} :
    intFloatCompare i r = .eq ↔ isNaN r = false ∧ value r = i.toInt * one := by
  cases hnan : isNaN r with
  | true =>
      rw [intFloatCompare, if_pos hnan]
      constructor
      · intro h
        cases h
      · rintro ⟨h, -⟩
        cases h
  | false =>
      rw [intFloatCompare_eq hnan, compare_eq_iff_eq]
      exact ⟨fun h => ⟨rfl, h.symm⟩, fun h => h.2.symm⟩

theorem partialCmp_eq_eq {r r' : UInt64} : (partialCmp r r').getD .eq = .eq ↔
    isNaN r = true ∨ isNaN r' = true ∨ value r = value r' := by
  rw [partialCmp]
  split_ifs with hnan
  · rw [Bool.or_eq_true] at hnan
    exact ⟨fun _ => hnan.imp_right .inl, fun _ => rfl⟩
  · rw [Bool.or_eq_true, not_or] at hnan
    rw [Option.getD_some, compare_eq_iff_eq]
    exact ⟨fun h => .inr (.inr h), fun h => (h.resolve_left hnan.1).resolve_left hnan.2⟩

theorem memCompare_eq_eq {a b : Value} :
    memCompare a b .binary = .eq ↔ a = b ∨ Twin a b := by
  cases a with
  | null => cases b <;> simp [memCompare, Twin]
  | int i =>
      cases b with
      | int j => simp [memCompare, Twin, Int64.toInt_inj]
      | real r => exact (intFloatCompare_eq_eq).trans (or_iff_right (by simp)).symm
      | null | text _ | blob _ => simp [memCompare, Twin]
  | real r =>
      cases b with
      | int j =>
          rw [memCompare, Ordering.swap_eq_eq]
          exact (intFloatCompare_eq_eq).trans (or_iff_right (by simp)).symm
      | real r' =>
          rw [memCompare, partialCmp_eq_eq, Value.real.injEq]
          by_cases h : r = r'
          · simp [h]
          · exact ⟨fun hcmp => .inr ⟨h, hcmp⟩, fun hor => (hor.resolve_left h).2⟩
      | null | text _ | blob _ => simp [memCompare, Twin]
  | text s =>
      cases b with
      | text t => simp [memCompare, Twin, Collation.compare, compareBytes_eq_eq, utf8Bytes_inj]
      | null | int _ | real _ | blob _ => simp [memCompare, Twin]
  | blob x =>
      cases b with
      | blob y => simp [memCompare, Twin, compareBytes_eq_eq]
      | null | int _ | real _ | text _ => simp [memCompare, Twin]

def EqualColumns : List Value → List Value → Prop :=
  List.Forall₂ fun a b => memCompare a b .binary = .eq

/-- Other values, each of them the same or another form of the same number. -/
def Variant (a b : List Value) : Prop := a ≠ b ∧ List.Forall₂ (fun v w => v = w ∨ Twin v w) a b

theorem equalColumns_iff {a b : List Value} : EqualColumns a b ↔ a = b ∨ Variant a b := by
  simp only [EqualColumns, memCompare_eq_eq]
  constructor
  · intro h
    by_cases hsame : a = b
    · exact .inl hsame
    · exact .inr ⟨hsame, h⟩
  · rintro (rfl | h)
    · exact List.forall₂_same.mpr fun v _ => .inl rfl
    · exact h.2

/--
`Found` finds the keys that are equal to the probe when the probe itself was
inserted, or nothing that only differs in how its numbers are stored.
-/
theorem found_iff_equalColumns (keys : List ValueSlice) (needle : ValueSlice) :
    ((insertKeys keys).probe .found needle.values = true ↔
        ∃ key ∈ keys, EqualColumns key.values needle.values) ↔
      (∃ key ∈ keys, key.values = needle.values) ∨
        ∀ key ∈ keys, ¬Variant key.values needle.values := by
  have hfound : (insertKeys keys).probe .found needle.values = true ↔
      ∃ key ∈ keys, key.values = needle.values := findValues_insertKeys keys needle
  simp only [hfound, equalColumns_iff]
  constructor
  · intro h
    by_cases hmem : ∃ key ∈ keys, key.values = needle.values
    · exact .inl hmem
    · exact .inr fun key hkey hvariant => hmem (h.mpr ⟨key, hkey, .inr hvariant⟩)
  · rintro (hmem | hnone)
    · obtain ⟨key, hkey, hsame⟩ := hmem
      exact ⟨fun _ => ⟨key, hkey, .inl hsame⟩, fun _ => ⟨key, hkey, hsame⟩⟩
    · refine ⟨fun ⟨key, hkey, hsame⟩ => ⟨key, hkey, .inl hsame⟩, fun ⟨key, hkey, hor⟩ => ?_⟩
      exact ⟨key, hkey, hor.resolve_right (hnone key hkey)⟩

def oneInt : ValueSlice := ⟨[.int 1], by decide⟩

def oneReal : ValueSlice := ⟨[.real 0x3ff0000000000000], by decide⟩

/-- 1.0 is not found where 1 was inserted. -/
theorem found_one_real : ¬((insertKeys [oneInt]).probe .found oneReal.values = true ↔
    ∃ key ∈ [oneInt], EqualColumns key.values oneReal.values) := by
  have hequal : EqualColumns oneInt.values oneReal.values :=
    .cons (by decide +kernel) .nil
  have hmiss : (insertKeys [oneInt]).probe .found oneReal.values = false := by decide +kernel
  rw [hmiss]
  intro h
  exact Bool.noConfusion (h.mpr ⟨oneInt, List.mem_singleton_self _, hequal⟩)

end Ephemeral

end Rustqlite.Vdbe
