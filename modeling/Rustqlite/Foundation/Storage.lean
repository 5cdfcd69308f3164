import Rustqlite.Foundation.File

/-!
# File operations, crashes and failures

Programs that work on a fixed set of named files.  Every operation is recorded,
so that a crash is a prefix of the record, and one operation of the run may be
made to fail.
-/

namespace Rustqlite.Foundation

/-- The contents of every file; `none` for a file that does not exist. -/
abbrev Disk (F : Type) := F → Option Bytes

/--
One call to the file layer.  A `probe` stands for the calls that change no
file: reads, size and existence queries, locking and unlocking.
-/
inductive FileOp (F : Type) where
  | create (f : F)
  | write (f : F) (off : Nat) (data : Bytes)
  | truncate (f : F) (size : Nat)
  | sync (f : F)
  | delete (f : F)
  | probe (f : F)
  deriving DecidableEq

variable {F : Type} [DecidableEq F]

/-- A write or a truncation through a handle whose file is gone has no effect. -/
def applyOp (disk : Disk F) : FileOp F → Disk F
  | .create f => Function.update disk f (some ((disk f).getD []))
  | .write f off data => Function.update disk f ((disk f).map fun b => writeAt b off data)
  | .truncate f size => Function.update disk f ((disk f).map fun b => resize b size)
  | .delete f => Function.update disk f none
  | .sync _ | .probe _ => disk

def applyOps (disk : Disk F) (ops : List (FileOp F)) : Disk F := ops.foldl applyOp disk

@[simp] theorem applyOps_nil (disk : Disk F) : applyOps disk [] = disk := rfl

@[simp] theorem applyOps_cons (disk : Disk F) (op : FileOp F) (ops : List (FileOp F)) :
    applyOps disk (op :: ops) = applyOps (applyOp disk op) ops := rfl

@[simp] theorem applyOps_append (disk : Disk F) (ops ops' : List (FileOp F)) :
    applyOps disk (ops ++ ops') = applyOps (applyOps disk ops) ops' :=
  List.foldl_append

def FileOp.target : FileOp F → F
  | .create f | .write f _ _ | .truncate f _ | .sync f | .delete f | .probe f => f

theorem applyOp_of_ne (disk : Disk F) {op : FileOp F} {f : F} (h : op.target ≠ f) :
    applyOp disk op f = disk f := by
  cases op <;> first | rfl | exact Function.update_of_ne (Ne.symm h) _ _

variable {ops ops' : List (FileOp F)}

theorem applyOps_of_ne (disk : Disk F) {f : F} (h : ∀ op ∈ ops, op.target ≠ f) :
    applyOps disk ops f = disk f := by
  induction ops generalizing disk with
  | nil => rfl
  | cons op ops ih =>
      rw [applyOps_cons, ih _ fun o ho => h o (List.mem_cons_of_mem op ho),
        applyOp_of_ne disk (h op List.mem_cons_self)]

@[simp] theorem applyOp_sync (disk : Disk F) (f : F) : applyOp disk (.sync f) = disk := rfl

@[simp] theorem applyOp_probe (disk : Disk F) (f : F) : applyOp disk (.probe f) = disk := rfl

@[simp] theorem applyOp_write_same (disk : Disk F) (f : F) (off : Nat) (data : Bytes) :
    applyOp disk (.write f off data) f = (disk f).map fun b => writeAt b off data :=
  Function.update_self _ _ _

@[simp] theorem applyOp_truncate_same (disk : Disk F) (f : F) (size : Nat) :
    applyOp disk (.truncate f size) f = (disk f).map fun b => resize b size :=
  Function.update_self _ _ _

/-! ## Programs -/

structure World (F : Type) where
  disk : Disk F
  /-- What has been done so far, oldest first. -/
  trace : List (FileOp F)
  /-- How many operations still succeed before one fails. -/
  failAt : Option Nat

def World.apply (w : World F) (op : FileOp F) : World F where
  disk := applyOp w.disk op
  trace := w.trace ++ [op]
  failAt := w.failAt.map (· - 1)

def World.applyAll (w : World F) (ops : List (FileOp F)) : World F := ops.foldl World.apply w

/-- A program with state `σ` over the files `F` that can stop with an `ε`. -/
abbrev FileM (ε F σ : Type) := EStateM ε (σ × World F)

variable {w : World F}

namespace FileM

variable {ε σ τ α β : Type}

def getState : FileM ε F σ σ := fun p => .ok p.1 p

def modifyState (f : σ → σ) : FileM ε F σ Unit := fun p => .ok () (f p.1, p.2)

/-- Carry out one operation, or stop with `e` if it is the one that fails. -/
def perform (e : ε) (op : FileOp F) : FileM ε F σ Unit := fun p =>
  if p.2.failAt = some 0 then .error e (p.1, { p.2 with failAt := none })
  else .ok () (p.1, p.2.apply op)

def performAll (e : ε) : List (FileOp F) → FileM ε F σ Unit
  | [] => pure ()
  | op :: ops => do
      perform e op
      performAll e ops

/-- The contents of a file, as an operation that may fail. -/
def contents (e : ε) (f : F) : FileM ε F σ (Option Bytes) := do
  perform e (.probe f)
  fun p => .ok (p.2.disk f) p

/-- Ignore a failure of `m` and go on. -/
def attempt (m : FileM ε F σ Unit) : FileM ε F σ Unit := fun p =>
  match m p with
  | .ok _ q => .ok () q
  | .error _ q => .ok () q

def zoom (get : σ → τ) (set : τ → σ → σ) (m : FileM ε F τ α) : FileM ε F σ α := fun p =>
  match m (get p.1, p.2) with
  | .ok a q => .ok a (set q.1 p.1, q.2)
  | .error e q => .error e (set q.1 p.1, q.2)

omit [DecidableEq F] in
theorem bind_ok {m : FileM ε F σ α} {f : α → FileM ε F σ β} {p q : σ × World F} {a : α}
    (h : m p = .ok a q) : (m >>= f) p = f a q := by
  simp [bind, EStateM.bind, h]

omit [DecidableEq F] in
theorem bind_error {m : FileM ε F σ α} {f : α → FileM ε F σ β} {p q : σ × World F} {e : ε}
    (h : m p = .error e q) : (m >>= f) p = .error e q := by
  simp [bind, EStateM.bind, h]

omit [DecidableEq F] in
theorem of_bind_ok {m : FileM ε F σ α} {f : α → FileM ε F σ β} {p q : σ × World F} {b : β}
    (h : (m >>= f) p = .ok b q) : ∃ a p', m p = .ok a p' ∧ f a p' = .ok b q := by
  cases hm : m p with
  | ok a p' => exact ⟨a, p', rfl, by rwa [bind_ok hm] at h⟩
  | error e p' =>
      rw [bind_error hm] at h
      cases h

omit [DecidableEq F] in
@[simp] theorem pure_run (a : α) (p : σ × World F) : (pure a : FileM ε F σ α) p = .ok a p := rfl

omit [DecidableEq F] in
@[simp] theorem getState_bind (f : σ → FileM ε F σ β) (p : σ × World F) :
    (getState >>= f) p = f p.1 p := rfl

omit [DecidableEq F] in
@[simp] theorem modifyState_bind (g : σ → σ) (f : Unit → FileM ε F σ β) (p : σ × World F) :
    (modifyState g >>= f) p = f () (g p.1, p.2) := rfl

theorem perform_ok (e : ε) (op : FileOp F) (s : σ) (h : w.failAt ≠ some 0) :
    perform e op (s, w) = .ok () (s, w.apply op) := by
  simp [perform, h]

theorem contents_ok (e : ε) (f : F) (s : σ) (h : w.failAt ≠ some 0) :
    contents e f (s, w) = .ok (w.disk f) (s, w.apply (.probe f)) :=
  bind_ok (perform_ok e (.probe f) s h)

theorem perform_fail (e : ε) (op : FileOp F) (s : σ) (h : w.failAt = some 0) :
    perform e op (s, w) = .error e (s, { w with failAt := none }) := by
  simp [perform, h]

end FileM

namespace World

@[simp] theorem applyAll_nil (w : World F) : w.applyAll [] = w := rfl

@[simp] theorem applyAll_cons (w : World F) (op : FileOp F) (ops : List (FileOp F)) :
    w.applyAll (op :: ops) = (w.apply op).applyAll ops := rfl

theorem disk_applyAll (w : World F) (ops : List (FileOp F)) :
    (w.applyAll ops).disk = applyOps w.disk ops := by
  induction ops generalizing w with
  | nil => rfl
  | cons op ops ih => rw [applyAll_cons, ih, applyOps_cons, World.apply]

theorem trace_applyAll (w : World F) (ops : List (FileOp F)) :
    (w.applyAll ops).trace = w.trace ++ ops := by
  induction ops generalizing w with
  | nil => simp
  | cons op ops ih => rw [applyAll_cons, ih, World.apply, List.append_assoc, List.singleton_append]

theorem failAt_applyAll (w : World F) (ops : List (FileOp F)) :
    (w.applyAll ops).failAt = w.failAt.map (· - ops.length) := by
  induction ops generalizing w with
  | nil => simp
  | cons op ops ih =>
      rw [applyAll_cons, ih, World.apply, List.length_cons]
      cases w.failAt with
      | none => rfl
      | some n =>
          simp only [Option.map_some, Option.some.injEq]
          omega

end World

namespace FileM

variable {ε σ : Type}

theorem performAll_ok (e : ε) (ops : List (FileOp F)) (s : σ)
    (h : ∀ k, w.failAt = some k → ops.length ≤ k) :
    performAll e ops (s, w) = .ok () (s, w.applyAll ops) := by
  induction ops generalizing w with
  | nil => rfl
  | cons op ops ih =>
      have hne : w.failAt ≠ some 0 := by
        intro h0
        have := h 0 h0
        simp at this
      rw [performAll, bind_ok (perform_ok e op s hne), ih, World.applyAll_cons]
      intro k hk
      simp only [World.apply, Option.map_eq_some_iff] at hk
      obtain ⟨n, hn, rfl⟩ := hk
      have := h n hn
      simp only [List.length_cons] at this
      omega

/-- The sequence stops right before the operation that fails. -/
theorem performAll_fail (e : ε) (ops : List (FileOp F)) (s : σ) {k : Nat} (hk : w.failAt = some k)
    (hlt : k < ops.length) :
    performAll e ops (s, w) =
      .error e (s, { w.applyAll (ops.take k) with failAt := none }) := by
  induction ops generalizing w k with
  | nil => simp at hlt
  | cons op ops ih =>
      cases k with
      | zero => rw [performAll, bind_error (perform_fail e op s hk)]; rfl
      | succ k =>
          have hne : w.failAt ≠ some 0 := by simp [hk]
          rw [performAll, bind_ok (perform_ok e op s hne)]
          exact ih (by simp [World.apply, hk]) (by simpa using hlt)

end FileM

/-! ## What a program does to the files -/

namespace World

theorem applyAll_append (w : World F) (ops ops' : List (FileOp F)) :
    w.applyAll (ops ++ ops') = (w.applyAll ops).applyAll ops' :=
  List.foldl_append

end World

namespace FileM

variable {ε σ τ α β : Type}

/--
From `p` the program carries out `ops` and ends with `a` in state `s'`, or stops
with `e` right before the one of them that fails.
-/
structure Performs (e : ε) (m : FileM ε F σ α) (p : σ × World F) (ops : List (FileOp F)) (a : α)
    (s' : σ) : Prop where
  ok : (∀ k, p.2.failAt = some k → ops.length ≤ k) → m p = .ok a (s', p.2.applyAll ops)
  fail : ∀ k, p.2.failAt = some k → k < ops.length →
    ∃ s'', m p = .error e (s'', { p.2.applyAll (ops.take k) with failAt := none })

namespace Performs

variable {e : ε} {p : σ × World F} {s' s'' : σ} {ops ops' : List (FileOp F)} {a : α} {b : β}

theorem pure (a : α) (p : σ × World F) : Performs e (pure a) p [] a p.1 where
  ok _ := rfl
  fail k _ hk := by simp at hk

theorem getState (p : σ × World F) : Performs e FileM.getState p [] p.1 p.1 where
  ok _ := rfl
  fail k _ hk := by simp at hk

theorem modifyState (f : σ → σ) (p : σ × World F) :
    Performs e (FileM.modifyState f) p [] () (f p.1) where
  ok _ := rfl
  fail k _ hk := by simp at hk

theorem performAll (ops : List (FileOp F)) (p : σ × World F) :
    Performs e (FileM.performAll e ops) p ops () p.1 where
  ok h := performAll_ok e ops p.1 h
  fail _ hk hlt := ⟨p.1, performAll_fail e ops p.1 hk hlt⟩

theorem perform (op : FileOp F) (p : σ × World F) :
    Performs e (FileM.perform e op) p [op] () p.1 := by
  have h := performAll (e := e) [op] p
  have heq : FileM.performAll e [op] = (FileM.perform e op : FileM ε F σ Unit) := by
    funext q
    simp only [FileM.performAll, bind, EStateM.bind]
    cases FileM.perform e op q <;> rfl
  rwa [heq] at h

theorem bind {m : FileM ε F σ α} {f : α → FileM ε F σ β} (hm : Performs e m p ops a s')
    (hf : Performs e (f a) (s', p.2.applyAll ops) ops' b s'') :
    Performs e (m >>= f) p (ops ++ ops') b s'' where
  ok h := by
    have hfirst : ∀ k, p.2.failAt = some k → ops.length ≤ k := by
      intro k hk
      have := h k hk
      simp only [List.length_append] at this
      omega
    rw [bind_ok (hm.ok hfirst), hf.ok, World.applyAll_append]
    intro k hk
    simp only [World.failAt_applyAll, Option.map_eq_some_iff] at hk
    obtain ⟨n, hn, rfl⟩ := hk
    have := h n hn
    simp only [List.length_append] at this
    omega
  fail k hk hlt := by
    rw [List.length_append] at hlt
    by_cases hin : k < ops.length
    · obtain ⟨q, hq⟩ := hm.fail k hk hin
      exact ⟨q, by rw [bind_error hq, List.take_append_of_le_length hin.le]⟩
    · have hfirst : ∀ n, p.2.failAt = some n → ops.length ≤ n := by
        intro n hn
        rw [hk, Option.some.injEq] at hn
        omega
      obtain ⟨q, hq⟩ := hf.fail (k - ops.length)
        (by simp [World.failAt_applyAll, hk]) (by omega)
      have htake : (ops ++ ops').take k = ops ++ ops'.take (k - ops.length) := by
        rw [List.take_append, List.take_of_length_le (not_lt.mp hin)]
      refine ⟨q, ?_⟩
      rw [bind_ok (hm.ok hfirst), hq, htake, World.applyAll_append]

theorem bind_nil {m : FileM ε F σ α} {f : α → FileM ε F σ β} (hm : Performs e m p [] a s')
    (hf : Performs e (f a) (s', p.2) ops b s'') : Performs e (m >>= f) p ops b s'' :=
  hm.bind hf

theorem contents (f : F) (p : σ × World F) :
    Performs e (FileM.contents e f) p [.probe f] (p.2.disk f) p.1 := by
  have hread : Performs e (fun q => .ok (q.2.disk f) q : FileM ε F σ (Option Bytes))
      (p.1, p.2.applyAll [.probe f]) [] (p.2.disk f) p.1 :=
    ⟨fun _ => rfl, fun k _ hk => by simp at hk⟩
  exact (perform (.probe f) p).bind hread

theorem of_ok {m : FileM ε F σ α} {a' : α} {q : σ × World F} (hm : Performs e m p ops a s')
    (h : m p = .ok a' q) : a' = a ∧ q = (s', p.2.applyAll ops) := by
  by_cases hall : ∀ k, p.2.failAt = some k → ops.length ≤ k
  · rw [hm.ok hall] at h
    cases h
    exact ⟨rfl, rfl⟩
  · push Not at hall
    obtain ⟨k, hk, hlt⟩ := hall
    obtain ⟨s'', herr⟩ := hm.fail k hk hlt
    rw [herr] at h
    cases h

end Performs

end FileM

/-! ## Torn writes -/

def FileOp.bytes : FileOp F → Nat
  | .write _ _ data => data.length
  | _ => 0

/-- What has reached the disk when only `k` of the written bytes have. -/
def tear : Nat → List (FileOp F) → List (FileOp F)
  | _, [] => []
  | k, .write f off data :: ops =>
      if data.length ≤ k then .write f off data :: tear (k - data.length) ops
      else if k = 0 then []
      else [.write f off (data.take k)]
  | k, op :: ops => op :: tear k ops

def totalBytes (ops : List (FileOp F)) : Nat := (ops.map FileOp.bytes).sum

omit [DecidableEq F] in
@[simp] theorem totalBytes_append (ops ops' : List (FileOp F)) :
    totalBytes (ops ++ ops') = totalBytes ops + totalBytes ops' := by
  simp [totalBytes]

omit [DecidableEq F] in
theorem tear_append_of_le :
    ∀ {k}, totalBytes ops ≤ k → tear k (ops ++ ops') = ops ++ tear (k - totalBytes ops) ops' := by
  induction ops with
  | nil => intro k _; simp [totalBytes]
  | cons op ops ih =>
      intro k hk
      simp only [totalBytes, List.map_cons, List.sum_cons] at hk ih ⊢
      cases op with
      | write f off data =>
          simp only [FileOp.bytes] at hk ⊢
          rw [List.cons_append, tear, if_pos (by omega), ih (by omega), List.cons_append,
            Nat.sub_sub]
      | _ =>
          simp only [FileOp.bytes, Nat.zero_add] at hk ⊢
          simp only [List.cons_append, tear, ih hk]

omit [DecidableEq F] in
theorem tear_append_of_lt : ∀ {k}, k < totalBytes ops → tear k (ops ++ ops') = tear k ops := by
  induction ops with
  | nil => intro k hk; simp [totalBytes] at hk
  | cons op ops ih =>
      intro k hk
      simp only [totalBytes, List.map_cons, List.sum_cons] at hk ih
      cases op with
      | write f off data =>
          simp only [FileOp.bytes] at hk
          simp only [List.cons_append, tear]
          split_ifs with hle
          · rw [ih (by omega)]
          · rfl
          · rfl
      | _ =>
          simp only [FileOp.bytes, Nat.zero_add] at hk
          simp only [List.cons_append, tear, ih hk]

end Rustqlite.Foundation
