import Mathlib.Tactic

/-!
# Result codes and errors

The engine pairs a primary result code with a message.  Callers of the b-tree
layer recognise some errors by their message, so the text is kept.
-/

namespace Rustqlite

inductive ResultCode where
  | error
  | busy
  | ioErr
  | corrupt
  | cantOpen
  | constraint
  | notADb
  /-- Not a result of the engine: the thread panics. -/
  | panic
  deriving DecidableEq, Repr

structure Error where
  code : ResultCode
  message : String
  deriving DecidableEq, Repr

abbrev Result := Except Error

namespace Error

def corrupt (message : String) : Error := ⟨.corrupt, message⟩

def notADb (message : String) : Error := ⟨.notADb, message⟩

/-- An I/O error at the VFS layer. -/
def ioErr (message : String) : Error := ⟨.ioErr, message⟩

def busy (message : String) : Error := ⟨.busy, message⟩

def panic (message : String) : Error := ⟨.panic, message⟩

def msg (message : String) : Error := ⟨.error, message⟩

end Error

namespace Result

variable {α β : Type}

@[simp] theorem ok_bind (a : α) (f : α → Result β) : (Except.ok a >>= f) = f a := rfl

@[simp] theorem error_bind (e : Error) (f : α → Result β) :
    (Except.error e >>= f) = Except.error e := rfl

variable {x : Result α} {f : α → Result β} {b : β} {l : List α}

theorem bind_eq_ok : (x >>= f) = Except.ok b ↔ ∃ a, x = .ok a ∧ f a = .ok b := by
  cases x with
  | error e => simp
  | ok a => simp

theorem map_eq_ok {f : α → β} : f <$> x = Except.ok b ↔ ∃ a, x = .ok a ∧ f a = b := by
  cases x with
  | error e => simp
  | ok a => simp

theorem mapM_eq_ok {bs : List β} :
    l.mapM f = Except.ok bs ↔ List.Forall₂ (fun a b => f a = .ok b) l bs := by
  induction l generalizing bs with
  | nil =>
      rw [List.mapM_nil, List.forall₂_nil_left_iff]
      exact ⟨fun h => (Except.ok.inj h).symm, fun h => h ▸ rfl⟩
  | cons a l ih =>
      simp only [List.mapM_cons, bind_eq_ok, List.forall₂_cons_left_iff]
      constructor
      · rintro ⟨b, hb, bs', hbs, hpure⟩
        exact ⟨b, bs', hb, ih.mp hbs, (Except.ok.inj hpure).symm⟩
      · rintro ⟨b, bs', hb, hbs, rfl⟩
        exact ⟨b, hb, bs', ih.mpr hbs, rfl⟩

theorem mapM_bind_eq_ok {γ : Type} {g : β → Result γ} {cs : List γ} :
    (l.mapM fun a => f a >>= g) = Except.ok cs ↔
      ∃ bs, l.mapM f = .ok bs ∧ bs.mapM g = .ok cs := by
  induction l generalizing cs with
  | nil =>
      constructor
      · intro h
        exact ⟨[], rfl, h⟩
      · rintro ⟨bs, hbs, hcs⟩
        cases hbs
        exact hcs
  | cons a l ih =>
      simp only [List.mapM_cons, bind_eq_ok, ih]
      constructor
      · rintro ⟨c, ⟨b, hb, hc⟩, cs', ⟨bs, hbs, hcs⟩, hpure⟩
        refine ⟨b :: bs, ⟨b, hb, bs, hbs, rfl⟩, ?_⟩
        simp only [List.mapM_cons, hc, hcs, ok_bind]
        exact hpure
      · rintro ⟨bs', ⟨b, hb, bs, hbs, hpure⟩, hcs⟩
        cases hpure
        simp only [List.mapM_cons, bind_eq_ok] at hcs
        obtain ⟨c, hc, cs', hcs', hpure⟩ := hcs
        exact ⟨c, ⟨b, hb, hc⟩, cs', ⟨bs, hbs, hcs'⟩, hpure⟩

end Result

end Rustqlite
