import Rustqlite.Types.Error
import Rustqlite.Foundation.Bytes

/-!
# Operations that panic

Slices and the arithmetic of the fixed widths, which end the thread where the
index or the result is out of range.
-/

namespace Rustqlite

open Rustqlite.Foundation

namespace Result

variable {α β : Type}

/-- A value or an error comes of it. -/
def NoPanic (r : Result α) : Prop := ∀ e, r = .error e → e.code ≠ .panic

theorem noPanic_ok (a : α) : NoPanic (.ok a : Result α) := nofun

theorem noPanic_error {e : Error} (h : e.code ≠ .panic) : NoPanic (.error e : Result α) := by
  intro e' he
  cases he
  exact h

end Result

namespace Checked

def addOverflow : Error := .panic "attempt to add with overflow"

def subOverflow : Error := .panic "attempt to subtract with overflow"

def outOfRange : Error := .panic "range end index out of range"

def addUsize (a b : Nat) : Result Nat := if a + b < 2 ^ 64 then .ok (a + b) else .error addOverflow

def subU64 (a b : UInt64) : Result UInt64 := if b ≤ a then .ok (a - b) else .error subOverflow

def sliceFrom (bytes : Bytes) (start : Nat) : Result Bytes :=
  if start ≤ bytes.length then .ok (bytes.drop start) else .error outOfRange

def sliceRange (bytes : Bytes) (start stop : Nat) : Result Bytes :=
  if start ≤ stop ∧ stop ≤ bytes.length then .ok (slice bytes start (stop - start))
  else .error outOfRange

variable {a b start stop : Nat} {bytes : Bytes}

theorem addUsize_ok (h : a + b < 2 ^ 64) : addUsize a b = .ok (a + b) := if_pos h

theorem subU64_ok {a b : UInt64} (h : b ≤ a) : subU64 a b = .ok (a - b) := if_pos h

theorem sliceFrom_ok (h : start ≤ bytes.length) : sliceFrom bytes start = .ok (bytes.drop start) :=
  if_pos h

theorem sliceRange_ok (hle : start ≤ stop) (h : stop ≤ bytes.length) :
    sliceRange bytes start stop = .ok (slice bytes start (stop - start)) :=
  if_pos ⟨hle, h⟩

end Checked

end Rustqlite
