/-!
# Trees on a thread

A node of a search tree has dividers, each with a subtree in front of it, and one
more subtree behind the last of them.  What is in the subtrees and what is in the
dividers is read off in their order.
-/

namespace Rustqlite.Foundation

section

variable {P D E : Type}

/--
The subtrees in front of the dividers `ds` and the one at `last`: `T p pages es`
says that the subtree at `p` takes the places `pages` and has the entries `es`.
-/
inductive Threaded (T : P → List P → List E → Prop) (child : D → P) (entry : D → E) :
    List D → P → List P → List E → Prop where
  | last {p : P} {pages : List P} {es : List E} (h : T p pages es) :
      Threaded T child entry [] p pages es
  | cons {d : D} {ds : List D} {p : P} {pages pages' : List P} {es es' : List E}
      (h : T (child d) pages es) (hrest : Threaded T child entry ds p pages' es') :
      Threaded T child entry (d :: ds) p (pages ++ pages') (es ++ entry d :: es')

namespace Threaded

variable {T T' : P → List P → List E → Prop} {child : D → P} {entry : D → E} {ds ds' : List D}
  {d : D} {p p' : P} {pages pages' : List P} {es es' : List E}

theorem imp (h : Threaded T child entry ds p pages es)
    (himp : ∀ q inner within, inner ⊆ pages → T q inner within → T' q inner within) :
    Threaded T' child entry ds p pages es := by
  induction h with
  | last h => exact .last (himp _ _ _ (List.Subset.refl _) h)
  | cons h _ ih =>
      refine .cons (himp _ _ _ (List.subset_append_left _ _) h) (ih fun q inner within hsub => ?_)
      exact himp q inner within (List.Subset.trans hsub (List.subset_append_right _ _))

theorem append (h : Threaded T child entry ds (child d) pages es)
    (h' : Threaded T child entry ds' p pages' es') :
    Threaded T child entry (ds ++ d :: ds') p (pages ++ pages') (es ++ entry d :: es') := by
  generalize hq : child d = q at h
  induction h with
  | last h =>
      subst hq
      exact .cons h h'
  | cons h _ ih =>
      have hrest := ih hq
      rw [List.append_assoc, List.append_assoc, List.cons_append, List.cons_append]
      exact .cons h hrest

theorem cut (h : Threaded T child entry (ds ++ d :: ds') p pages es) :
    ∃ inner within outer without, Threaded T child entry ds (child d) inner within ∧
      Threaded T child entry ds' p outer without ∧ pages = inner ++ outer ∧
      es = within ++ entry d :: without := by
  induction ds generalizing pages es with
  | nil =>
      cases h with
      | cons h hrest => exact ⟨_, _, _, _, .last h, hrest, rfl, rfl⟩
  | cons c ds ih =>
      cases h with
      | @cons _ _ _ pages₁ pages₂ es₁ es₂ h hrest =>
          obtain ⟨inner, within, outer, without, hfirst, hlast, rfl, rfl⟩ := ih hrest
          exact ⟨_, _, outer, without, .cons h hfirst, hlast, (List.append_assoc ..).symm,
            by simp⟩

theorem exists_tree {c : P} (h : Threaded T child entry ds p pages es)
    (hmem : c ∈ ds.map child ++ [p]) : ∃ inner within, T c inner within ∧ inner ⊆ pages := by
  induction h with
  | last h =>
      obtain rfl : c = _ := by simpa using hmem
      exact ⟨_, _, h, List.Subset.refl _⟩
  | cons h _ ih =>
      rw [List.map_cons, List.cons_append, List.mem_cons] at hmem
      rcases hmem with rfl | hmem
      · exact ⟨_, _, h, List.subset_append_left _ _⟩
      · obtain ⟨inner, within, htree, hsub⟩ := ih hmem
        exact ⟨inner, within, htree, List.Subset.trans hsub (List.subset_append_right _ _)⟩

theorem focus_last (h : Threaded T child entry ds p pages es) :
    ∃ before inner front within, T p inner within ∧ pages = before ++ inner ∧
      es = front ++ within ∧ ∀ {T' : P → List P → List E → Prop} {inner' : List P}
        {within' : List E}, (∀ q ps qs, ps ⊆ before → T q ps qs → T' q ps qs) →
        T' p inner' within' →
        Threaded T' child entry ds p (before ++ inner') (front ++ within') := by
  induction h with
  | last h => exact ⟨[], _, [], _, h, rfl, rfl, fun _ h' => .last h'⟩
  | @cons d ds p pages pages' es es' h hrest ih =>
      obtain ⟨before, inner, front, within, htree, rfl, rfl, hput⟩ := ih
      refine ⟨pages ++ before, inner, es ++ entry d :: front, within, htree,
        (List.append_assoc ..).symm, by simp, fun himp htree' => ?_⟩
      have hrest' := hput (fun q ps qs hsub => himp q ps qs
        (List.Subset.trans hsub (List.subset_append_right _ _))) htree'
      rw [List.append_assoc, List.append_assoc, List.cons_append]
      exact .cons (himp _ _ _ (List.subset_append_left _ _) h) hrest'

theorem focus_mem {x : P} (h : Threaded T child entry ds p pages es) (hx : x ∈ pages) :
    ∃ c before inner behind front within back, T c inner within ∧ x ∈ inner ∧
      pages = before ++ inner ++ behind ∧ es = front ++ within ++ back ∧
      ∀ {T' : P → List P → List E → Prop} {inner' : List P} {within' : List E},
        (∀ q ps qs, ps ⊆ before ++ behind → T q ps qs → T' q ps qs) → T' c inner' within' →
        Threaded T' child entry ds p (before ++ inner' ++ behind) (front ++ within' ++ back) := by
  induction h with
  | @last p pages es h =>
      refine ⟨p, [], pages, [], [], es, [], h, hx, by simp, by simp, fun _ htree => ?_⟩
      simpa using Threaded.last htree
  | @cons d ds p pages₁ pages₂ es₁ es₂ h hrest ih =>
      rcases List.mem_append.mp hx with hx | hx
      · refine ⟨child d, [], pages₁, pages₂, [], es₁, entry d :: es₂, h, hx, by simp, by simp,
          fun himp htree => ?_⟩
        have hrest' := hrest.imp fun q ps qs hsub => himp q ps qs (by simpa using hsub)
        simpa using Threaded.cons htree hrest'
      · obtain ⟨c, before, inner, behind, front, within, back, htree, hmem, rfl, rfl, hput⟩ := ih hx
        refine ⟨c, pages₁ ++ before, inner, behind, es₁ ++ entry d :: front, within, back, htree,
          hmem, by simp, by simp, fun himp htree' => ?_⟩
        have hrest' := hput (fun q ps qs hsub => himp q ps qs (by
          rw [List.append_assoc]
          exact List.Subset.trans hsub (List.subset_append_right _ _))) htree'
        have hfirst := himp _ _ _ (by
          rw [List.append_assoc]
          exact List.subset_append_left _ _) h
        simpa using Threaded.cons hfirst hrest'

end Threaded

end

end Rustqlite.Foundation
