import Rustqlite.Foundation.Text

/-!
# SQL values

The five storage classes.  A real is kept as the bits of its 64-bit double,
which is what the record format stores.
-/

namespace Rustqlite

open Rustqlite.Foundation

inductive Value where
  | null
  | int (i : Int64)
  | real (bits : UInt64)
  | text (s : String)
  | blob (b : Bytes)
  deriving DecidableEq

def Value.heapBytes : Value → Nat
  | .text s => (utf8Bytes s).length
  | .blob b => b.length
  | _ => 0

/-- `size_of::<Value>()`: a tag folded into the niche of a `String`. -/
def valueSize : Nat := 24

/--
A `&[Value]` that the record encoder can be run on.  While it runs, the slice,
the bytes its texts and blobs own, and the copies the encoder makes of them are
all alive, so together they fit in the 64-bit address space.
-/
structure ValueSlice where
  values : List Value
  inMemory : valueSize * values.length + 2 * (values.map Value.heapBytes).sum ≤ 2 ^ 64

namespace ValueSlice

theorem length_bound (vs : ValueSlice) : 24 * vs.values.length ≤ 2 ^ 64 := by
  have := vs.inMemory
  simp only [valueSize] at this
  omega

theorem heapBytes_bound (vs : ValueSlice) {v : Value} (hv : v ∈ vs.values) :
    2 * v.heapBytes + 24 ≤ 2 ^ 64 := by
  have hmem := vs.inMemory
  have hle : v.heapBytes ≤ (vs.values.map Value.heapBytes).sum :=
    List.single_le_sum (by simp) _ (List.mem_map_of_mem hv)
  have hpos : 1 ≤ vs.values.length := List.length_pos_of_mem hv
  simp only [valueSize] at hmem
  omega

end ValueSlice

/-!
## Collations

A collation says how two texts compare.  The comparison works on the bytes of
their UTF-8 encoding.
-/

inductive Collation where
  | binary
  | noCase
  | rTrim
  deriving DecidableEq

def Collation.fromName (name : String) : Option Collation :=
  if eqIgnoreAsciiCase name "BINARY" then some .binary
  else if eqIgnoreAsciiCase name "NOCASE" then some .noCase
  else if eqIgnoreAsciiCase name "RTRIM" then some .rTrim
  else none

structure KeyField where
  desc : Bool
  collation : Collation
  deriving DecidableEq

def compareBytes : Bytes → Bytes → Ordering
  | [], [] => .eq
  | [], _ :: _ => .lt
  | _ :: _, [] => .gt
  | a :: as, b :: bs => (compare a.toNat b.toNat).then (compareBytes as bs)

def asciiLower (b : UInt8) : UInt8 := if 65 ≤ b ∧ b ≤ 90 then b + 32 else b

def rtrimSpaces (s : Bytes) : Bytes := (s.reverse.dropWhile (· == 32)).reverse

def Collation.compare (c : Collation) (a b : String) : Ordering :=
  match c with
  | .binary => compareBytes (utf8Bytes a) (utf8Bytes b)
  | .noCase =>
      compareBytes ((utf8Bytes a).map asciiLower) ((utf8Bytes b).map asciiLower)
  | .rTrim => compareBytes (rtrimSpaces (utf8Bytes a)) (rtrimSpaces (utf8Bytes b))

end Rustqlite
