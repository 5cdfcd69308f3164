import Mathlib.Order.Basic
import Mathlib.Data.List.Basic

/-!
# Halving

A search halves an interval and goes on behind its middle as long as the test
holds there.  When the test holds up to a place and nowhere behind it, the
search ends at that place.
-/

namespace Rustqlite.Foundation

section Monadic

variable {m : Type → Type} [Monad m]

def bisectM (test : Nat → m Bool) : Nat → Nat → Nat → m Nat
  | 0, lo, _ => pure lo
  | fuel + 1, lo, hi =>
      if lo < hi then do
        let mid := (lo + hi) / 2
        if ← test mid then bisectM test fuel (mid + 1) hi else bisectM test fuel lo mid
      else pure lo

end Monadic

def bisect (test : Nat → Bool) (fuel lo hi : Nat) : Nat := (bisectM (m := Id) test fuel lo hi).run

section Pure

variable {test : Nat → Bool} {fuel lo hi : Nat}

theorem bisect_succ : bisect test (fuel + 1) lo hi =
    if lo < hi then
      if test ((lo + hi) / 2) then bisect test fuel ((lo + hi) / 2 + 1) hi
      else bisect test fuel lo ((lo + hi) / 2)
    else lo := rfl

theorem bisect_le (h : lo ≤ hi) : bisect test fuel lo hi ≤ hi := by
  induction fuel generalizing lo hi with
  | zero => exact h
  | succ fuel ih =>
      rw [bisect_succ]
      split_ifs with hlt
      · exact ih (by omega)
      · exact Nat.le_trans (ih (by omega)) (by omega)
      · exact h

theorem bisect_eq {k : Nat} (hfuel : hi - lo ≤ fuel) (hlo : lo ≤ k) (hhi : k ≤ hi)
    (hbelow : ∀ i, lo ≤ i → i < k → test i) (habove : ∀ i, k ≤ i → i < hi → test i = false) :
    bisect test fuel lo hi = k := by
  induction fuel generalizing lo hi with
  | zero =>
      have heq : lo = k := by omega
      exact heq
  | succ fuel ih =>
      rw [bisect_succ]
      split_ifs with hlt htest
      · have hmid : (lo + hi) / 2 < k := by
          by_contra hge
          rw [habove _ (by omega) (by omega)] at htest
          cases htest
        exact ih (by omega) (by omega) hhi (fun i hi => hbelow i (by omega)) habove
      · have hmid : k ≤ (lo + hi) / 2 := by
          by_contra hlt'
          exact htest (hbelow _ (by omega) (by omega))
        exact ih (by omega) hlo hmid hbelow fun i hi hi' => habove i hi (by omega)
      · omega

theorem bisect_reversed {n k : Nat} (hbelow : ∀ i < k, test i = false)
    (habove : ∀ i, k ≤ i → i < n → test i) :
    bisect test n 0 n = if 0 < n ∧ test (n / 2) then n else 0 := by
  cases n with
  | zero => rfl
  | succ n =>
      rw [bisect_succ, if_pos (by omega), Nat.zero_add]
      by_cases htest : test ((n + 1) / 2) = true
      · have hmid : k ≤ (n + 1) / 2 := by
          by_contra hlt
          rw [hbelow _ (by omega)] at htest
          cases htest
        rw [if_pos htest, if_pos ⟨by omega, htest⟩]
        exact bisect_eq (by omega) (by omega) (Nat.le_refl _)
            (fun i hi hi' => habove i (by omega) hi')
          fun i hi hi' => by omega
      · have hmid : (n + 1) / 2 < k := by
          by_contra hge
          exact htest (habove _ (by omega) (by omega))
        rw [if_neg htest, if_neg (by simp [htest])]
        exact bisect_eq (by omega) (Nat.le_refl _) (by omega) (fun i _ hi => by omega)
          fun i _ hi => hbelow i (by omega)

end Pure

/-!
## Separators

The children of a node of a search tree have separators between them.  A
separator is at least as large as every key on its left, and smaller than every
key on its right.
-/

variable {K C D E : Type} [LE K] [LT K]

/-- The keys behind `lo` up to `hi`; `none` is no bound. -/
def Within (lo hi : Option K) (k : K) : Prop := (∀ l ∈ lo, l < k) ∧ ∀ h ∈ hi, k ≤ h

/-- The separators `ks` part the children `cs`, which hold `xss`. -/
inductive Parted (P : Option K → Option K → C → List E → Prop) :
    Option K → Option K → List K → List C → List (List E) → Prop where
  | last {lo hi : Option K} {c : C} {xs : List E} (hc : P lo hi c xs) : Parted P lo hi [] [c] [xs]
  | cons {lo hi : Option K} {k : K} {ks : List K} {c : C} {cs : List C} {xs : List E}
      {xss : List (List E)} (hk : Within lo hi k) (hc : P lo (some k) c xs)
      (hrest : Parted P (some k) hi ks cs xss) : Parted P lo hi (k :: ks) (c :: cs) (xs :: xss)

namespace Parted

variable {P Q : Option K → Option K → C → List E → Prop} {lo hi : Option K} {ks : List K}
  {cs : List C} {xss : List (List E)}

section

variable (h : Parted P lo hi ks cs xss)

include h

theorem imp (hPQ : ∀ lo hi c xs, P lo hi c xs → Q lo hi c xs) : Parted Q lo hi ks cs xss := by
  induction h with
  | last hc => exact .last (hPQ _ _ _ _ hc)
  | cons hk hc _ ih => exact .cons hk (hPQ _ _ _ _ hc) ih

theorem forall₂ {R : C → List E → Prop} (hPR : ∀ lo hi c xs, P lo hi c xs → R c xs) :
    List.Forall₂ R cs xss := by
  induction h with
  | last hc => exact .cons (hPR _ _ _ _ hc) .nil
  | cons _ hc _ ih => exact .cons (hPR _ _ _ _ hc) ih

theorem length : cs.length = ks.length + 1 := by
  induction h with
  | last => rfl
  | cons _ _ _ ih => simp [ih]

theorem imp_of_mem (hPQ : ∀ lo hi xs, ∀ c ∈ cs, P lo hi c xs → Q lo hi c xs) :
    Parted Q lo hi ks cs xss := by
  induction h with
  | last hc => exact .last (hPQ _ _ _ _ List.mem_cons_self hc)
  | cons hk hc _ ih =>
      exact .cons hk (hPQ _ _ _ _ List.mem_cons_self hc)
        (ih fun lo hi xs c hmem => hPQ lo hi xs c (List.mem_cons_of_mem _ hmem))

theorem map {f : C → D} {R : Option K → Option K → D → List E → Prop}
    (hPR : ∀ lo hi c xs, P lo hi c xs → R lo hi (f c) xs) : Parted R lo hi ks (cs.map f) xss := by
  induction h with
  | last hc => exact .last (hPR _ _ _ _ hc)
  | cons hk hc _ ih => exact .cons hk (hPR _ _ _ _ hc) ih

theorem snoc : ∃ cs₁ c xss₁ xs lo', cs = cs₁ ++ [c] ∧
    xss = xss₁ ++ [xs] ∧ P lo' hi c xs ∧
    (∀ x, Within lo hi x → (∀ k ∈ ks, k < x) → Within lo' hi x) ∧
    ∀ Q ks' cs' xss', (∀ lo hi xs, ∀ c ∈ cs₁, P lo hi c xs → Q lo hi c xs) →
      Parted Q lo' hi ks' cs' xss' → Parted Q lo hi (ks ++ ks') (cs₁ ++ cs') (xss₁ ++ xss') := by
  induction h with
  | @last lo hi c xs hc => exact ⟨[], c, [], xs, lo, rfl, rfl, hc, fun x hx _ => hx,
      fun Q ks' cs' xss' _ h => h⟩
  | @cons lo hi k ks c cs xs xss hk hc _ ih =>
      obtain ⟨cs₁, c', xss₁, xs', lo', rfl, rfl, hc', hwithin, hfill⟩ := ih
      refine ⟨c :: cs₁, c', xs :: xss₁, xs', lo', rfl, rfl, hc', fun x hx hbelow => ?_,
        fun Q ks' cs' xss' himp h => ?_⟩
      · have hlow : ∀ l ∈ some k, l < x := fun l hl =>
          Option.mem_some_iff.mp hl ▸ hbelow k List.mem_cons_self
        exact hwithin x ⟨hlow, hx.2⟩ fun j hj => hbelow j (List.mem_cons_of_mem _ hj)
      · exact .cons hk (himp _ _ _ c List.mem_cons_self hc) (hfill Q ks' cs' xss'
          (fun lo hi xs d hd => himp lo hi xs d (List.mem_cons_of_mem _ hd)) h)

end

section Order

variable [Std.IsLinearOrder K] [Std.LawfulOrderLT K] {key : E → K}

theorem within (h : Parted P lo hi ks cs xss)
    (hP : ∀ lo hi c xs, P lo hi c xs → ∀ x ∈ xs, Within lo hi (key x)) :
    ∀ x ∈ xss.flatten, Within lo hi (key x) := by
  induction h with
  | last hc => simpa using hP _ _ _ _ hc
  | @cons lo hi k ks c cs xs xss hk hc hrest ih =>
      intro x hx
      rw [List.flatten_cons, List.mem_append] at hx
      rcases hx with hx | hx
      · obtain ⟨hlow, hhigh⟩ := hP _ _ _ _ hc x hx
        exact ⟨hlow, fun h hh => Std.le_trans (hhigh k rfl) (hk.2 h hh)⟩
      · obtain ⟨hlow, hhigh⟩ := ih x hx
        exact ⟨fun l hl => Std.lt_trans (hk.1 l hl) (hlow k rfl), hhigh⟩

theorem ascending (h : Parted P lo hi ks cs xss)
    (hP : ∀ lo hi c xs, P lo hi c xs → ∀ x ∈ xs, Within lo hi (key x))
    (hasc : ∀ lo hi c xs, P lo hi c xs → xs.Pairwise fun x y => key x < key y) :
    xss.flatten.Pairwise fun x y => key x < key y := by
  induction h with
  | last hc => simpa using hasc _ _ _ _ hc
  | @cons lo hi k ks c cs xs xss hk hc hrest ih =>
      rw [List.flatten_cons, List.pairwise_append]
      refine ⟨hasc _ _ _ _ hc, ih, fun x hx y hy => ?_⟩
      have hleft := (hP _ _ _ _ hc x hx).2 k rfl
      have hright := (hrest.within hP y hy).1 k rfl
      exact Std.lt_of_le_of_lt hleft hright

variable [DecidableLE K]

theorem mem_child (h : Parted P lo hi ks cs xss)
    (hP : ∀ lo hi c xs, P lo hi c xs → ∀ x ∈ xs, Within lo hi (key x)) {x : E}
    (hx : x ∈ xss.flatten) :
    ∃ lo' hi' c xs, cs[ks.findIdx fun k => decide (key x ≤ k)]? = some c ∧
      xss[ks.findIdx fun k => decide (key x ≤ k)]? = some xs ∧ P lo' hi' c xs ∧ x ∈ xs := by
  induction h with
  | @last lo hi c xs hc => exact ⟨lo, hi, c, xs, rfl, rfl, hc, by simpa using hx⟩
  | @cons lo hi k ks c cs xs xss hk hc hrest ih =>
      rw [List.flatten_cons, List.mem_append] at hx
      rw [List.findIdx_cons]
      by_cases hle : key x ≤ k
      · have hmem : x ∈ xs := by
          refine hx.resolve_right fun hright => ?_
          have hlt := (hrest.within hP x hright).1 k rfl
          exact Std.not_le.mpr hlt hle
        exact ⟨lo, some k, c, xs, by simp [hle], by simp [hle], hc, hmem⟩
      · have hmem : x ∈ xss.flatten := by
          refine hx.resolve_left fun hleft => ?_
          exact hle ((hP _ _ _ _ hc x hleft).2 k rfl)
        obtain ⟨lo', hi', c', xs', hc', hxs', hP', hin⟩ := ih hmem
        exact ⟨lo', hi', c', xs', by simpa [hle] using hc', by simpa [hle] using hxs', hP', hin⟩

/--
The first separator that is not below a key stands behind the child where the key
belongs; another child may take its place.
-/
theorem route (h : Parted P lo hi ks cs xss) {x : K} (hx : Within lo hi x) :
    ∃ cs₁ c cs₂ xss₁ xs xss₂ lo' hi', cs = cs₁ ++ c :: cs₂ ∧ xss = xss₁ ++ xs :: xss₂ ∧
      cs₁.length = (ks.findIdx fun k => decide (x ≤ k)) ∧ P lo' hi' c xs ∧ Within lo' hi' x ∧
      ∀ Q c' xs', (∀ lo hi xs, ∀ d ∈ cs₁ ++ cs₂, P lo hi d xs → Q lo hi d xs) → Q lo' hi' c' xs' →
        Parted Q lo hi ks (cs₁ ++ c' :: cs₂) (xss₁ ++ xs' :: xss₂) := by
  induction h with
  | @last lo hi c xs hc =>
      exact ⟨[], c, [], [], xs, [], lo, hi, rfl, rfl, rfl, hc, hx, fun Q c' xs' _ h => .last h⟩
  | @cons lo hi k ks c cs xs xss hk hc hrest ih =>
      by_cases hle : x ≤ k
      · have hhigh : ∀ h ∈ some k, x ≤ h := fun h hh => Option.mem_some_iff.mp hh ▸ hle
        refine ⟨[], c, cs, [], xs, xss, lo, some k, rfl, rfl, ?_, hc, ⟨hx.1, hhigh⟩,
          fun Q c' xs' himp h => .cons hk h (hrest.imp_of_mem himp)⟩
        rw [List.findIdx_cons, decide_eq_true hle]
        rfl
      · have hlow : ∀ l ∈ some k, l < x := fun l hl =>
          Option.mem_some_iff.mp hl ▸ Std.not_le.mp hle
        obtain ⟨cs₁, c', cs₂, xss₁, xs', xss₂, lo', hi', rfl, rfl, hlen, hc', hwithin, hfill⟩ :=
          ih ⟨hlow, hx.2⟩
        refine ⟨c :: cs₁, c', cs₂, xs :: xss₁, xs', xss₂, lo', hi', rfl, rfl, ?_, hc', hwithin,
          fun Q d ys himp h => ?_⟩
        · rw [List.findIdx_cons, decide_eq_false hle, List.length_cons, hlen]
          rfl
        · exact .cons hk (himp _ _ _ c List.mem_cons_self hc) (hfill Q d ys
            (fun lo hi xs d hd => himp lo hi xs d (List.mem_cons_of_mem _ hd)) h)

end Order

end Parted

end Rustqlite.Foundation
