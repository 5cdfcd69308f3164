import Rustqlite.Foundation.Text
import Rustqlite.Types.Compare

/-!
# The order of texts

The bytes of two texts compare as their code points do, and folding the case
of the bytes is folding the case of the characters.
-/

namespace Rustqlite

open Rustqlite.Foundation

def compareChar (a b : Char) : Ordering := compare a.toNat b.toNat

def compareChars : List Char → List Char → Ordering := List.compareLex compareChar

/-! ## Bytes and code points -/

variable {a b : UInt8} {x y : Bytes} {c u : Char}

theorem compareBytes_cons_lt :
    compareBytes (a :: x) (b :: y) = .lt ↔
      a.toNat < b.toNat ∨ a.toNat = b.toNat ∧ compareBytes x y = .lt := by
  rw [compareBytes, Ordering.then_eq_lt, compare_lt_iff_lt, compare_eq_iff_eq]

theorem compareBytes_cons_gt :
    compareBytes (a :: x) (b :: y) = .gt ↔
      b.toNat < a.toNat ∨ a.toNat = b.toNat ∧ compareBytes x y = .gt := by
  rw [compareBytes, Ordering.then_eq_gt, compare_gt_iff_gt, compare_eq_iff_eq]

theorem compareBytes_append_left (z x y : Bytes) :
    compareBytes (z ++ x) (z ++ y) = compareBytes x y := by
  induction z with
  | nil => rfl
  | cons b z ih =>
      rw [List.cons_append, List.cons_append, compareBytes, compare_eq_iff_eq.mpr rfl, ih]
      rfl

theorem compareBytes_of_spells {v w : Nat} (hx : Spells v x) (hy : Spells w y) (s t : Bytes) :
    compareBytes (x ++ s) (y ++ t) = (compare v w).then (compareBytes s t) := by
  rcases lt_trichotomy v w with hlt | heq | hgt
  · rw [compare_lt_iff_lt.mpr hlt]
    cases hx <;> cases hy <;>
      simp only [List.cons_append, List.nil_append, compareBytes_cons_lt, Ordering.then] <;> omega
  · subst heq
    rw [hx.unique hy, compareBytes_append_left, compare_eq_iff_eq.mpr rfl]
    rfl
  · rw [compare_gt_iff_gt.mpr hgt]
    cases hx <;> cases hy <;>
      simp only [List.cons_append, List.nil_append, compareBytes_cons_gt, Ordering.then] <;> omega

theorem compareBytes_flatMap (as bs : List Char) :
    compareBytes (as.flatMap String.utf8EncodeChar) (bs.flatMap String.utf8EncodeChar) =
      compareChars as bs := by
  have hne (c : Char) : ∃ a rest, String.utf8EncodeChar c = a :: rest :=
    List.exists_cons_of_ne_nil String.utf8EncodeChar_ne_nil
  induction as generalizing bs with
  | nil =>
      cases bs with
      | nil => rfl
      | cons b bs =>
          obtain ⟨x, rest, hx⟩ := hne b
          rw [List.flatMap_cons, hx]
          rfl
  | cons a as ih =>
      cases bs with
      | nil =>
          obtain ⟨x, rest, hx⟩ := hne a
          rw [List.flatMap_cons, hx]
          rfl
      | cons b bs =>
          rw [List.flatMap_cons, List.flatMap_cons, compareBytes_of_spells (spells a)
              (spells b), ih]
          rw [compareChars, List.compareLex_cons_cons]
          rfl

/-! ## Folding the case -/

theorem toNat_toLower (c : Char) :
    c.toLower.toNat = if 0x41 ≤ c.toNat ∧ c.toNat ≤ 0x5a then c.toNat + 0x20 else c.toNat := by
  unfold Char.toLower
  split_ifs with h hcase hcase
  · change (c.val + ('a'.val - 'A'.val)).toNat = c.val.toNat + 0x20
    have hshift : ('a'.val - 'A'.val).toNat = 32 := by decide
    rw [UInt32.toNat_add, hshift]
    have hle : c.val.toNat ≤ 0x5a := hcase.2
    omega
  · exact absurd h hcase
  · exact absurd hcase h
  · rfl

theorem toNat_toUpper (c : Char) :
    c.toUpper.toNat = if 0x61 ≤ c.toNat ∧ c.toNat ≤ 0x7a then c.toNat - 0x20 else c.toNat := by
  unfold Char.toUpper
  split_ifs with h hcase hcase
  · change (c.val + ('A'.val - 'a'.val)).toNat = c.val.toNat - 0x20
    have hshift : ('A'.val - 'a'.val).toNat = 4294967264 := by decide
    rw [UInt32.toNat_add, hshift]
    have hle : 0x61 ≤ c.val.toNat ∧ c.val.toNat ≤ 0x7a := hcase
    omega
  · exact absurd h hcase
  · exact absurd hcase h
  · rfl

theorem char_ext {d : Char} (h : c.toNat = d.toNat) : c = d := Char.ext (UInt32.toNat_inj.mp h)

/-- Only letters of ASCII are folded, so two characters that become one are of ASCII. -/
theorem toLower_ascii {d : Char} (h : c.toLower = d.toLower) (hne : c ≠ d) :
    c.toNat < 0x80 ∧ d.toNat < 0x80 := by
  have hnat := congrArg Char.toNat h
  rw [toNat_toLower, toNat_toLower] at hnat
  have hne' : c.toNat ≠ d.toNat := fun h => hne (char_ext h)
  split_ifs at hnat <;> omega

structure FoldsAscii (onByte : UInt8 → UInt8) (onChar : Char → Char) : Prop where
  ascii : ∀ c : Char, c.toNat < 0x80 → (onChar c).toNat < 0x80 ∧
    (onByte (UInt8.ofNat c.toNat)).toNat = (onChar c).toNat
  other : ∀ c : Char, 0x80 ≤ c.toNat → onChar c = c
  otherByte : ∀ b : UInt8, 0x80 ≤ b.toNat → onByte b = b

theorem FoldsAscii.map_flatMap {onByte : UInt8 → UInt8} {onChar : Char → Char}
    (h : FoldsAscii onByte onChar) (cs : List Char) :
    (cs.flatMap String.utf8EncodeChar).map onByte =
      (cs.map onChar).flatMap String.utf8EncodeChar := by
  induction cs with
  | nil => rfl
  | cons c cs ih =>
      rw [List.flatMap_cons, List.map_append, ih, List.map_cons, List.flatMap_cons]
      congr 1
      rcases lt_or_ge c.toNat 0x80 with hlt | hge
      · obtain ⟨hascii, hbyte⟩ := h.ascii c hlt
        rw [utf8EncodeChar_of_lt hlt, utf8EncodeChar_of_lt hascii, ← hbyte]
        simp
      · obtain ⟨-, -, -, -, -, hbytes⟩ := utf8EncodeChar_of_le hge
        rw [h.other c hge, List.map_congr_left fun b hb => h.otherByte b (hbytes b hb),
            List.map_id']

theorem toNat_asciiLower (b : UInt8) :
    (asciiLower b).toNat = if 0x41 ≤ b.toNat ∧ b.toNat ≤ 0x5a then b.toNat + 0x20 else b.toNat := by
  unfold asciiLower
  have hiff : 65 ≤ b ∧ b ≤ 90 ↔ 0x41 ≤ b.toNat ∧ b.toNat ≤ 0x5a := by
    rw [UInt8.le_iff_toNat_le, UInt8.le_iff_toNat_le]
    rfl
  simp only [hiff]
  split_ifs with h
  · rw [UInt8.toNat_add]
    change (b.toNat + 32) % 256 = _
    omega
  · rfl

theorem foldsAscii_lower : FoldsAscii asciiLower Char.toLower where
  ascii c h := by
    have hbyte : (UInt8.ofNat c.toNat).toNat = c.toNat := by
      rw [UInt8.toNat_ofNat']
      omega
    rw [toNat_toLower, toNat_asciiLower, hbyte]
    split_ifs <;> omega
  other c h := char_ext (by rw [toNat_toLower]; split_ifs <;> omega)
  otherByte b h := by
    rw [← UInt8.toNat_inj, toNat_asciiLower]
    split_ifs <;> omega

theorem Collation.compare_binary (a b : String) :
    Collation.binary.compare a b = compareChars a.toList b.toList :=
  compareBytes_flatMap a.toList b.toList

theorem Collation.compare_noCase (a b : String) :
    Collation.noCase.compare a b =
      compareChars (a.toList.map Char.toLower) (b.toList.map Char.toLower) := by
  rw [← compareBytes_flatMap, ← (foldsAscii_lower).map_flatMap, ← (foldsAscii_lower).map_flatMap]
  rfl

/-! ## Texts that start alike -/

theorem compareChars_cons (a b : Char) (as bs : List Char) :
    compareChars (a :: as) (b :: bs) = (compareChar a b).then (compareChars as bs) :=
  List.compareLex_cons_cons

@[simp] theorem compareChar_self (c : Char) : compareChar c c = .eq := compare_eq_iff_eq.mpr rfl

theorem compareChars_append_left (z x y : List Char) :
    compareChars (z ++ x) (z ++ y) = compareChars x y := by
  induction z with
  | nil => rfl
  | cons c z ih => rw [List.cons_append, List.cons_append, compareChars_cons, compareChar_self, ih,
      Ordering.eq_then]

theorem compareChars_append_right_ne_gt (x t : List Char) : compareChars x (x ++ t) ≠ .gt := by
  have happend := compareChars_append_left x [] t
  rw [List.append_nil] at happend
  rw [happend]
  cases t <;> simp [compareChars, List.compareLex]

theorem compareChars_singleton_lt {t : List Char} :
    compareChars (c :: t) [u] = .lt ↔ c.toNat < u.toNat := by
  have hne : compareChars t [] ≠ .lt := by cases t <;> simp [compareChars, List.compareLex]
  rw [compareChars_cons, Ordering.then_eq_lt, compareChar, compare_lt_iff_lt]
  exact or_iff_left fun h => hne h.2

theorem exists_of_between {front s : List Char} (hlow : compareChars (front ++ [c]) s ≠ .gt)
    (hhigh : compareChars s (front ++ [u]) = .lt) :
    ∃ d t, s = front ++ d :: t ∧ c.toNat ≤ d.toNat ∧ d.toNat < u.toNat := by
  induction front generalizing s with
  | nil =>
      cases s with
      | nil => exact absurd rfl hlow
      | cons d t =>
          refine ⟨d, t, rfl, ?_, (compareChars_singleton_lt).mp hhigh⟩
          by_contra hlt
          refine hlow ?_
          rw [List.nil_append, compareChars_cons, compareChar,
            compare_gt_iff_gt.mpr (Nat.lt_of_not_le hlt)]
          rfl
  | cons x front ih =>
      cases s with
      | nil => exact absurd rfl hlow
      | cons y s =>
          rw [List.cons_append, compareChars_cons] at hlow hhigh
          have heq : x = y := by
            refine char_ext (Nat.le_antisymm ?_ ?_)
            · by_contra hlt
              rw [compareChar, compare_gt_iff_gt.mpr (Nat.lt_of_not_le hlt)] at hlow
              exact hlow rfl
            · by_contra hlt
              rw [compareChar, compare_gt_iff_gt.mpr (Nat.lt_of_not_le hlt)] at hhigh
              cases hhigh
          subst heq
          rw [compareChar_self, Ordering.eq_then] at hlow hhigh
          obtain ⟨d, t, rfl, hd⟩ := ih hlow hhigh
          exact ⟨d, t, rfl, hd⟩

end Rustqlite
