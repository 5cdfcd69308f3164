import Mathlib.Data.List.Basic
import Mathlib.Data.List.Nodup
import Mathlib.Tactic

/-!
# Members by name

Lists of named values, read from the back: where a name stands twice, the last
value is the one that counts.
-/

namespace Rustqlite.Foundation.Members

variable {κ α : Type} [DecidableEq κ]

def rfind (name : κ) : List (κ × α) → Option α
  | [] => none
  | m :: ms => (rfind name ms).or (if m.1 = name then some m.2 else none)

def rposition (name : κ) : List (κ × α) → Option Nat
  | [] => none
  | m :: ms =>
      match rposition name ms with
      | some i => some (i + 1)
      | none => if m.1 = name then some 0 else none

def assign (ms : List (κ × α)) (i : Nat) (f : α → α) : List (κ × α) :=
  ms.modify i fun m => (m.1, f m.2)

def remove (name : κ) (ms : List (κ × α)) : List (κ × α) := ms.filter (·.1 ≠ name)

/-- The last value under the name becomes another, or the first under it comes at the end. -/
def put (name : κ) (f : α → α) (new : α) (ms : List (κ × α)) : List (κ × α) :=
  match rposition name ms with
  | some i => assign ms i f
  | none => ms ++ [(name, new)]

theorem rposition_isSome (name : κ) (ms : List (κ × α)) :
    (rposition name ms).isSome = (rfind name ms).isSome := by
  induction ms with
  | nil => rfl
  | cons m ms ih =>
      rw [rposition, rfind]
      cases hpos : rposition name ms with
      | some i =>
          rw [hpos] at ih
          simp [← ih]
      | none =>
          rw [hpos] at ih
          split_ifs <;> simp [← ih]

variable {name : κ} {ms : List (κ × α)} {i : Nat} {v : α}

theorem rfind_eq_none_of_rposition (h : rposition name ms = none) : rfind name ms = none := by
  have hsome := rposition_isSome name ms
  rw [h] at hsome
  exact Option.isNone_iff_eq_none.mp (Option.isSome_eq_false_iff.mp hsome.symm)

theorem getElem?_rposition (h : rposition name ms = some i) :
    ∃ v, ms[i]? = some (name, v) ∧ rfind name ms = some v := by
  induction ms generalizing i with
  | nil => cases h
  | cons m ms ih =>
      rw [rposition] at h
      cases hpos : rposition name ms with
      | some j =>
          rw [hpos] at h
          cases h
          obtain ⟨v, hget, hfind⟩ := ih hpos
          exact ⟨v, by simpa using hget, by rw [rfind, hfind]; rfl⟩
      | none =>
          rw [hpos] at h
          have hnone := rfind_eq_none_of_rposition hpos
          dsimp only at h
          split_ifs at h with hname
          cases h
          exact ⟨m.2, by rw [← hname]; rfl, by rw [rfind, hnone, if_pos hname]; rfl⟩

theorem assign_self (h : rposition name ms = some i) (hv : rfind name ms = some v) :
    assign ms i (fun _ => v) = ms := by
  obtain ⟨w, hget, hw⟩ := getElem?_rposition h
  rw [hv, Option.some.injEq] at hw
  subst hw
  refine List.ext_getElem? fun j => ?_
  rw [assign, List.getElem?_modify]
  split_ifs with hj
  · subst hj
    rw [hget]
    rfl
  · simp

theorem rfind_append_singleton (name other : κ) (ms : List (κ × α)) (v : α) :
    rfind other (ms ++ [(name, v)]) = if name = other then some v else rfind other ms := by
  induction ms with
  | nil => simp [rfind]
  | cons m ms ih =>
      rw [List.cons_append, rfind, ih, rfind]
      split_ifs <;> simp

theorem rfind_assign (f : α → α) (h : rposition name ms = some i) (other : κ) :
    rfind other (assign ms i f) =
      if name = other then (rfind name ms).map f else rfind other ms := by
  induction ms generalizing i with
  | nil => cases h
  | cons m ms ih =>
      rw [rposition] at h
      cases hpos : rposition name ms with
      | some j =>
          rw [hpos] at h
          cases h
          obtain ⟨v, -, hfind⟩ := getElem?_rposition hpos
          have hrest := ih hpos
          rw [assign] at hrest
          rw [assign, List.modify_succ_cons, rfind, hrest, rfind, rfind, hfind]
          split_ifs <;> simp
      | none =>
          rw [hpos] at h
          have hnone := rfind_eq_none_of_rposition hpos
          dsimp only at h
          split_ifs at h with hname
          cases h
          rw [assign, List.modify_zero_cons, rfind, rfind, rfind, hnone]
          by_cases hother : name = other
          · subst hother
            simp [hname, hnone]
          · have hne : m.1 ≠ other := hname ▸ hother
            simp [hother, hne]

theorem rfind_put (name : κ) (f : α → α) (new : α) (ms : List (κ × α)) (other : κ) :
    rfind other (put name f new ms) =
      if name = other then some ((rfind name ms).elim new f) else rfind other ms := by
  rw [put]
  cases hpos : rposition name ms with
  | some i =>
      obtain ⟨v, -, hfind⟩ := getElem?_rposition hpos
      dsimp only
      rw [rfind_assign f hpos, hfind]
      rfl
  | none =>
      dsimp only
      rw [rfind_append_singleton, rfind_eq_none_of_rposition hpos]
      rfl

theorem rfind_remove (name : κ) (ms : List (κ × α)) (other : κ) :
    rfind other (remove name ms) = if name = other then none else rfind other ms := by
  induction ms with
  | nil => simp [remove, rfind]
  | cons m ms ih =>
      rw [remove] at ih
      rw [remove, List.filter_cons, rfind]
      by_cases hname : m.1 = name
      · rw [if_neg (by simpa using hname), ih]
        by_cases hother : name = other
        · simp [hother]
        · have hne : m.1 ≠ other := hname ▸ hother
          simp [hother, hne]
      · rw [if_pos (by simpa using hname), rfind, ih]
        by_cases hother : name = other
        · have hne : m.1 ≠ other := hother ▸ hname
          simp [hother, hne]
        · simp [hother]

theorem mem_of_rfind (h : rfind name ms = some v) : (name, v) ∈ ms := by
  induction ms with
  | nil => cases h
  | cons m ms ih =>
      rw [rfind, Option.or_eq_some_iff] at h
      rcases h with h | ⟨-, h⟩
      · exact List.mem_cons_of_mem _ (ih h)
      · split_ifs at h with hname
        cases h
        rw [← hname]
        exact List.mem_cons_self

theorem rfind_of_mem (hnodup : (ms.map Prod.fst).Nodup) {m : κ × α} (h : m ∈ ms) :
    rfind m.1 ms = some m.2 := by
  induction ms with
  | nil => cases h
  | cons n ms ih =>
      rw [List.map_cons, List.nodup_cons] at hnodup
      rw [rfind]
      rcases List.mem_cons.mp h with rfl | h
      · have hnone : rfind m.1 ms = none := by
          by_contra hsome
          obtain ⟨v, hv⟩ := Option.ne_none_iff_exists'.mp hsome
          exact hnodup.1 (List.mem_map.mpr ⟨_, mem_of_rfind hv, rfl⟩)
        simp [hnone]
      · rw [ih hnodup.2 h]
        rfl

/--
A loop over members that changes what is found under their names alone: what is
found at the end was changed by the one member of that name.
-/
theorem rfind_foldl {β : Type} {step : List (κ × α) → κ × β → List (κ × α)}
    (change : κ × β → Option α → Option α)
    (hstep : ∀ ms m other, rfind other (step ms m) =
      if m.1 = other then change m (rfind m.1 ms) else rfind other ms)
    {changes : List (κ × β)} (hnodup : (changes.map Prod.fst).Nodup) (ms : List (κ × α))
    (other : κ) : rfind other (changes.foldl step ms) =
      (rfind other changes).elim (rfind other ms) fun v => change (other, v) (rfind other ms) := by
  induction changes generalizing ms with
  | nil => rfl
  | cons m changes ih =>
      rw [List.map_cons, List.nodup_cons] at hnodup
      rw [List.foldl_cons, ih hnodup.2, hstep, rfind]
      by_cases hname : m.1 = other
      · have hnone : rfind other changes = none := by
          by_contra hsome
          obtain ⟨v, hv⟩ := Option.ne_none_iff_exists'.mp hsome
          exact hnodup.1 (List.mem_map.mpr ⟨_, mem_of_rfind hv, hname.symm⟩)
        rw [hnone, if_pos hname, if_pos hname, hname]
        simp [← hname]
      · rw [if_neg hname, if_neg hname, Option.or_none]

end Rustqlite.Foundation.Members
