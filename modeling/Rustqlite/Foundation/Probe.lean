import Mathlib.Tactic

/-!
# Linear probing

A table of numbered entries in which 0 marks an empty slot.  An entry is put
into the first empty slot from the hash of its key on, going round the table;
a search walks the same slots and stops at the first empty one.
-/

namespace Rustqlite.Foundation

/-- The entries met from slot `i` on, up to the first empty slot. -/
def chain (table : List Nat) : Nat → Nat → List Nat
  | 0, _ => []
  | fuel + 1, i =>
      if table.getD i 0 = 0 then []
      else table.getD i 0 :: chain table fuel ((i + 1) % table.length)

/-- Put `v` into the first empty slot from `i` on. -/
def probeInsert (table : List Nat) (v : Nat) : Nat → Nat → List Nat
  | 0, _ => table
  | fuel + 1, i =>
      if table.getD i 0 = 0 then table.set i v
      else probeInsert table v fuel ((i + 1) % table.length)

def slotAfter (table : List Nat) (i d : Nat) : Nat := (i + d) % table.length

def EmptyAfter (table : List Nat) (i d : Nat) : Prop :=
  table.getD (slotAfter table i d) 0 = 0 ∧
    ∀ d' < d, table.getD (slotAfter table i d') 0 ≠ 0

theorem slotAfter_succ (table : List Nat) (i d : Nat) :
    slotAfter table ((i + 1) % table.length) d = slotAfter table i (d + 1) := by
  simp only [slotAfter, Nat.mod_add_mod]
  congr 1
  omega

variable {table : List Nat} {i : Nat}

theorem slotAfter_zero (h : i < table.length) : slotAfter table i 0 = i := by
  rw [slotAfter, Nat.add_zero, Nat.mod_eq_of_lt h]

theorem EmptyAfter.step {table : List Nat} {i d : Nat} (h : EmptyAfter table i (d + 1)) :
    EmptyAfter table ((i + 1) % table.length) d := by
  refine ⟨by rw [slotAfter_succ]; exact h.1, fun d' hd' => ?_⟩
  rw [slotAfter_succ]
  exact h.2 (d' + 1) (by omega)

theorem exists_emptyAfter (hfree : table.countP (· ≠ 0) < table.length) (hi : i < table.length) :
    ∃ d < table.length, EmptyAfter table i d := by
  obtain ⟨j, hj, hzero⟩ : ∃ j < table.length, table.getD j 0 = 0 := by
    by_contra hnone
    push Not at hnone
    have hall : table.countP (· ≠ 0) = table.length := by
      rw [List.countP_eq_length]
      intro v hv
      obtain ⟨j, hj, rfl⟩ := List.getElem_of_mem hv
      have := hnone j hj
      rw [List.getD_eq_getElem?_getD, List.getElem?_eq_getElem hj, Option.getD_some] at this
      simpa using this
    omega
  have hex : ∃ d, d < table.length ∧ table.getD (slotAfter table i d) 0 = 0 := by
    by_cases hij : i ≤ j
    · refine ⟨j - i, by omega, ?_⟩
      rw [slotAfter, show i + (j - i) = j by omega, Nat.mod_eq_of_lt hj, hzero]
    · refine ⟨j + table.length - i, by omega, ?_⟩
      rw [slotAfter, show i + (j + table.length - i) = j + table.length by omega,
        Nat.add_mod_right, Nat.mod_eq_of_lt hj, hzero]
  classical
  refine ⟨Nat.find hex, (Nat.find_spec hex).1, (Nat.find_spec hex).2, fun d' hd' hz => ?_⟩
  exact Nat.find_min hex hd' ⟨hd'.trans (Nat.find_spec hex).1, hz⟩

theorem mem_chain_iff (v : Nat) :
    ∀ fuel {i : Nat}, i < table.length →
      (v ∈ chain table fuel i ↔ ∃ d < fuel, table.getD (slotAfter table i d) 0 = v ∧
        ∀ d' ≤ d, table.getD (slotAfter table i d') 0 ≠ 0) := by
  intro fuel
  induction fuel with
  | zero => simp [chain]
  | succ fuel ih =>
      intro i hi
      have hnext : (i + 1) % table.length < table.length := Nat.mod_lt _ (by omega)
      unfold chain
      by_cases hzero : table.getD i 0 = 0
      · rw [if_pos hzero]
        simp only [List.not_mem_nil, false_iff, not_exists, not_and, not_forall]
        intro d _ _
        exact ⟨0, Nat.zero_le d, by rw [slotAfter_zero hi]; exact fun h => h hzero⟩
      · rw [if_neg hzero, List.mem_cons, ih hnext]
        constructor
        · rintro (rfl | ⟨d, hd, hv, hpath⟩)
          · refine ⟨0, by omega, by rw [slotAfter_zero hi], fun d' hd' => ?_⟩
            obtain rfl : d' = 0 := by omega
            rwa [slotAfter_zero hi]
          · refine ⟨d + 1, by omega, by rwa [← slotAfter_succ], fun d' hd' => ?_⟩
            cases d' with
            | zero => rwa [slotAfter_zero hi]
            | succ d' =>
                rw [← slotAfter_succ]
                exact hpath d' (by omega)
        · rintro ⟨d, hd, hv, hpath⟩
          cases d with
          | zero => exact .inl (by rw [← hv, slotAfter_zero hi])
          | succ d =>
              refine .inr ⟨d, by omega, by rwa [slotAfter_succ], fun d' hd' => ?_⟩
              rw [slotAfter_succ]
              exact hpath (d' + 1) (by omega)

theorem probeInsert_eq_set (v : Nat) :
    ∀ fuel {i d : Nat}, i < table.length → EmptyAfter table i d → d < fuel →
      probeInsert table v fuel i = table.set (slotAfter table i d) v := by
  intro fuel
  induction fuel with
  | zero => intro i d _ _ hd; omega
  | succ fuel ih =>
      intro i d hi hempty hd
      have hnext : (i + 1) % table.length < table.length := Nat.mod_lt _ (by omega)
      unfold probeInsert
      cases d with
      | zero =>
          have hzero := hempty.1
          rw [slotAfter_zero hi] at hzero ⊢
          rw [if_pos hzero]
      | succ d =>
          have hfull := hempty.2 0 (by omega)
          rw [slotAfter_zero hi] at hfull
          rw [if_neg hfull, ih hnext hempty.step (by omega), slotAfter_succ]

@[simp] theorem length_probeInsert (table : List Nat) (v : Nat) :
    ∀ fuel i, (probeInsert table v fuel i).length = table.length := by
  intro fuel
  induction fuel with
  | zero => intro i; rfl
  | succ fuel ih =>
      intro i
      unfold probeInsert
      split_ifs
      · exact List.length_set
      · exact ih _

/-! ## The table as an index of keys -/

/--
Entry `k + 1` of the table stands for the `k`-th key, and is met by a walk from
that key's hash.
-/
structure Probed {K : Type} (hash : K → Nat) (table : List Nat) (keys : List K) : Prop where
  entry_le : ∀ v ∈ table, v ≤ keys.length
  used : table.countP (· ≠ 0) ≤ keys.length
  placed : ∀ (k : Nat) (hk : k < keys.length),
    k + 1 ∈ chain table table.length (hash keys[k])

namespace Probed

variable {K : Type} {hash : K → Nat} {table : List Nat} {keys : List K}

theorem empty (hash : K → Nat) (n : Nat) : Probed hash (List.replicate n 0) [] where
  entry_le := by simp
  used := by simp
  placed := by simp

private theorem getD_set (table : List Nat) {j : Nat} (hj : j < table.length) (v i : Nat) :
    (table.set j v).getD i 0 = if i = j then v else table.getD i 0 := by
  by_cases h : i = j
  · subst h
    simp [List.getD_eq_getElem?_getD, hj]
  · simp [List.getD_eq_getElem?_getD, List.getElem?_set_ne (Ne.symm h), h]

theorem insert (h : Probed hash table keys) (hash_lt : ∀ k, hash k < table.length)
    (hroom : keys.length < table.length) (key : K) :
    Probed hash (probeInsert table (keys.length + 1) table.length (hash key)) (keys ++ [key]) := by
  obtain ⟨d, hd, hempty⟩ := exists_emptyAfter (h.used.trans_lt hroom) (hash_lt key)
  rw [probeInsert_eq_set _ _ (hash_lt key) hempty hd]
  set j := slotAfter table (hash key) d with hj
  have hjlt : j < table.length := Nat.mod_lt _ (by omega)
  have hslot : ∀ i e, slotAfter (table.set j (keys.length + 1)) i e = slotAfter table i e := by
    intro i e
    simp [slotAfter]
  -- full slots stay full, so every walk gets at least as far as before
  have hfull : ∀ i, table.getD i 0 ≠ 0 →
      (table.set j (keys.length + 1)).getD i 0 = table.getD i 0 := by
    intro i hi
    rw [getD_set table hjlt, if_neg]
    rintro rfl
    exact hi hempty.1
  refine ⟨?_, ?_, ?_⟩
  · intro v hv
    rw [List.length_append, List.length_singleton]
    rcases List.mem_or_eq_of_mem_set hv with hv | rfl
    · have := h.entry_le v hv
      omega
    · exact le_refl _
  · have hzero : table[j] = 0 := by
      have := hempty.1
      rwa [List.getD_eq_getElem?_getD, List.getElem?_eq_getElem hjlt, Option.getD_some] at this
    have := h.used
    rw [List.countP_set hjlt, List.length_append, List.length_singleton,
      if_neg (by simp [hzero]), if_pos (by simp)]
    omega
  · intro k hk
    rw [List.length_append, List.length_singleton] at hk
    rw [List.length_set, mem_chain_iff _ _ (by rw [List.length_set]; exact hash_lt _)]
    by_cases hlast : k = keys.length
    · subst hlast
      refine ⟨d, hd, ?_, fun d' hd' => ?_⟩
      · simp only [List.getElem_concat_length, hslot, ← hj, getD_set table hjlt, if_true]
      · simp only [List.getElem_concat_length, hslot]
        by_cases heq : d' = d
        · rw [heq, ← hj, getD_set table hjlt, if_pos rfl]
          omega
        · have := hempty.2 d' (by omega)
          rwa [hfull _ this]
    · have hk' : k < keys.length := by omega
      rw [List.getElem_append_left hk']
      obtain ⟨e, he, hv, hpath⟩ :=
        (mem_chain_iff _ _ (hash_lt keys[k])).mp (h.placed k hk')
      refine ⟨e, he, ?_, fun e' he' => ?_⟩
      · rw [hslot, hfull _ (hpath e le_rfl), hv]
      · rw [hslot, hfull _ (hpath e' he')]
        exact hpath e' he'

theorem entry_of_mem_chain (h : Probed hash table keys) {v : Nat} (hi : i < table.length)
    {fuel : Nat} (hv : v ∈ chain table fuel i) : 1 ≤ v ∧ v ≤ keys.length := by
  obtain ⟨d, -, hval, hpath⟩ := (mem_chain_iff v fuel hi).mp hv
  have hne := hpath d le_rfl
  have hlt : slotAfter table i d < table.length := Nat.mod_lt _ (by omega)
  rw [List.getD_eq_getElem?_getD, List.getElem?_eq_getElem hlt, Option.getD_some] at hval hne
  exact ⟨by omega, h.entry_le v (hval ▸ List.getElem_mem hlt)⟩

end Probed

end Rustqlite.Foundation
