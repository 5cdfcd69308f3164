import Rustqlite.Foundation.Bytes

/-!
# The variable-length integer codec

A varint is a big-endian encoding of a 64-bit integer in one to nine bytes.
The first eight bytes carry seven bits each under a continuation flag; a ninth
byte carries eight.  The embedding follows `format/varint.rs` on `UInt64`, and
the proofs run on the underlying natural numbers.
-/

namespace Rustqlite.Format

open Foundation

/--
The loop of `read_varint`: `left` counts the seven-bit bytes that may still be
read, so the byte under inspection has index `8 - left`, and with none left the
ninth byte is read whole.
-/
def readVarintFrom (buf : Bytes) : Nat → UInt64 → Option (UInt64 × Nat)
  | 0, result =>
      match buf[8]? with
      | none => none
      | some byte => some (result <<< 8 ||| byte.toUInt64, 9)
  | left + 1, result =>
      match buf[7 - left]? with
      | none => none
      | some byte =>
          let result := result <<< 7 ||| (byte &&& 0x7f).toUInt64
          if byte &&& 0x80 = 0 then some (result, 7 - left + 1)
          else readVarintFrom buf left result

def readVarint (buf : Bytes) : Option (UInt64 × Nat) := readVarintFrom buf 8 0

def readVarintI64 (buf : Bytes) : Option (Int64 × Nat) :=
  (readVarint buf).map fun (v, n) => (v.toInt64, n)

/-- The counting loop of `varint_len`; eight rounds exhaust a 64-bit value. -/
def varintLenFrom : Nat → Nat → UInt64 → Nat
  | 0, len, _ => len
  | fuel + 1, len, v => if v = 0 then len else varintLenFrom fuel (len + 1) (v >>> 7)

def varintLen (value : UInt64) : Nat :=
  if value &&& 0xff00000000000000 ≠ 0 then 9 else varintLenFrom 8 1 (value >>> 7)

/-- The slots of the nine-byte form: `count` seven-bit groups, last slot first. -/
def nineByteGroups : Nat → UInt64 → Bytes
  | 0, _ => []
  | count + 1, v => (v.toUInt8 &&& 0x7f ||| 0x80) :: nineByteGroups count (v >>> 7)

/-- The array `tmp` of the short form, least significant group first. -/
def shortGroups : Nat → UInt64 → Bytes
  | 0, _ => []
  | slots + 1, v =>
      (v.toUInt8 &&& 0x7f ||| 0x80) ::
        if v >>> 7 = 0 then [] else shortGroups slots (v >>> 7)

def writeVarint (value : UInt64) : Bytes :=
  if value &&& 0xff00000000000000 ≠ 0 then
    (nineByteGroups 8 (value >>> 8)).reverse ++ [(value &&& 0xff).toUInt8]
  else
    match shortGroups 9 value with
    | [] => []
    | first :: groups => ((first &&& 0x7f) :: groups).reverse

/-! ## Machine operations as arithmetic -/

theorem toNat_shiftRight_seven (v : UInt64) : (v >>> 7).toNat = v.toNat / 128 := by
  rw [UInt64.toNat_shiftRight]
  simp [Nat.shiftRight_eq_div_pow]

theorem toNat_shiftRight_eight (v : UInt64) : (v >>> 8).toNat = v.toNat / 256 := by
  rw [UInt64.toNat_shiftRight]
  simp [Nat.shiftRight_eq_div_pow]

theorem toNat_group (v : UInt64) :
    (v.toUInt8 &&& 0x7f ||| 0x80).toNat = v.toNat % 128 + 128 := by
  have hlow : (v.toUInt8 &&& 0x7f).toNat = v.toNat % 128 := by
    rw [UInt8.toNat_and, UInt64.toNat_toUInt8, show (0x7f : UInt8).toNat = 2 ^ 7 - 1 from rfl,
      Nat.and_two_pow_sub_one_eq_mod]
    omega
  rw [UInt8.toNat_or, hlow, show (0x80 : UInt8).toNat = 2 ^ 7 * 1 from rfl, Nat.or_comm,
    ← Nat.two_pow_add_eq_or_of_lt (show v.toNat % 128 < 2 ^ 7 by omega)]
  omega

theorem toNat_and_7f (b : UInt8) : (b &&& 0x7f).toNat = b.toNat % 128 := by
  rw [UInt8.toNat_and, show (0x7f : UInt8).toNat = 2 ^ 7 - 1 from rfl,
    Nat.and_two_pow_sub_one_eq_mod]

set_option maxRecDepth 10000 in
theorem and_80_eq_zero_iff (b : UInt8) : b &&& 0x80 = 0 ↔ b.toNat < 128 := by
  have h : ∀ x : Fin 256, x.val &&& 128 = x.val / 128 * 128 := by decide
  have hb : (b &&& 0x80).toNat = b.toNat / 128 * 128 := by
    rw [UInt8.toNat_and]
    exact h ⟨b.toNat, b.toNat_lt⟩
  rw [← UInt8.toNat_inj, hb]
  simp only [UInt8.toNat_zero]
  omega

theorem toNat_shiftLeft_or_seven (result : UInt64) (b : UInt8)
    (h : result.toNat < 2 ^ 57) :
    (result <<< 7 ||| (b &&& 0x7f).toUInt64).toNat = result.toNat * 128 + b.toNat % 128 := by
  have hshift : (result <<< 7).toNat = 2 ^ 7 * result.toNat := by
    rw [UInt64.toNat_shiftLeft, Nat.shiftLeft_eq]
    simp only [UInt64.reduceToNat, Nat.reduceMod]
    omega
  rw [UInt64.toNat_or, hshift, UInt8.toNat_toUInt64, toNat_and_7f,
    ← Nat.two_pow_add_eq_or_of_lt (show b.toNat % 128 < 2 ^ 7 by omega)]
  omega

theorem toNat_shiftLeft_or_eight (result : UInt64) (b : UInt8)
    (h : result.toNat < 2 ^ 56) :
    (result <<< 8 ||| b.toUInt64).toNat = result.toNat * 256 + b.toNat := by
  have hb : b.toNat < 2 ^ 8 := b.toNat_lt
  have hshift : (result <<< 8).toNat = 2 ^ 8 * result.toNat := by
    rw [UInt64.toNat_shiftLeft, Nat.shiftLeft_eq]
    simp only [UInt64.reduceToNat, Nat.reduceMod]
    omega
  rw [UInt64.toNat_or, hshift, UInt8.toNat_toUInt64,
    ← Nat.two_pow_add_eq_or_of_lt hb]
  omega

/-- The nine-byte form is taken exactly from `2 ^ 56` on. -/
theorem top_byte_ne_zero_iff (v : UInt64) :
    v &&& 0xff00000000000000 ≠ 0 ↔ 2 ^ 56 ≤ v.toNat := by
  have hand : (v &&& 0xff00000000000000).toNat = v.toNat / 2 ^ 56 * 2 ^ 56 := by
    have hmask : (0xff00000000000000 : UInt64).toNat = (2 ^ 8 - 1) <<< 56 := by decide
    have hv : v.toNat < 2 ^ 64 := v.toNat_lt
    rw [UInt64.toNat_and, hmask, ← Nat.shiftRight_eq_div_pow, ← Nat.shiftLeft_eq]
    apply Nat.eq_of_testBit_eq
    intro i
    rw [Nat.testBit_and, Nat.testBit_shiftLeft, Nat.testBit_shiftLeft,
      Nat.testBit_two_pow_sub_one, Nat.testBit_shiftRight]
    by_cases h56 : 56 ≤ i
    · rw [show 56 + (i - 56) = i by omega]
      by_cases h64 : i < 64
      · simp [h56, show i - 56 < 8 by omega]
      · have hbit : v.toNat.testBit i = false :=
          Nat.testBit_lt_two_pow (hv.trans_le (Nat.pow_le_pow_right (by omega) (by omega)))
        simp [hbit]
    · simp [h56]
  rw [ne_eq, ← UInt64.toNat_inj, hand]
  simp only [UInt64.toNat_zero]
  omega

/-! ## Groups and their value -/

def groupStep (acc : Nat) (b : UInt8) : Nat := acc * 128 + b.toNat % 128

def groupsValue : Bytes → Nat
  | [] => 0
  | b :: bs => b.toNat % 128 + 128 * groupsValue bs

theorem foldl_groupStep_reverse (bs : Bytes) (acc : Nat) :
    bs.reverse.foldl groupStep acc = acc * 128 ^ bs.length + groupsValue bs := by
  induction bs with
  | nil => simp [groupsValue]
  | cons b bs ih =>
      simp only [List.reverse_cons, List.foldl_append, ih, List.foldl_cons, List.foldl_nil,
        groupStep, groupsValue, List.length_cons]
      ring

theorem shortGroups_flagged (slots : Nat) (v : UInt64) :
    ∀ b ∈ shortGroups slots v, 128 ≤ b.toNat := by
  induction slots generalizing v with
  | zero => simp [shortGroups]
  | succ slots ih =>
      intro b hb
      simp only [shortGroups, List.mem_cons] at hb
      rcases hb with rfl | hb
      · rw [toNat_group]
        omega
      · split at hb
        · simp at hb
        · exact ih _ b hb

theorem groupsValue_shortGroups (slots : Nat) (v : UInt64) (h : v.toNat < 128 ^ slots) :
    groupsValue (shortGroups slots v) = v.toNat := by
  induction slots generalizing v with
  | zero => simp [shortGroups, groupsValue] at h ⊢; omega
  | succ slots ih =>
      simp only [shortGroups, groupsValue, toNat_group]
      split
      · next hz =>
          have := congrArg UInt64.toNat hz
          rw [toNat_shiftRight_seven] at this
          simp only [UInt64.toNat_zero] at this
          simp only [groupsValue]
          omega
      · rw [ih (v >>> 7) (by rw [toNat_shiftRight_seven]; rw [pow_succ] at h; omega),
          toNat_shiftRight_seven]
        omega

theorem length_shortGroups_le_iff (slots : Nat) (v : UInt64) {k : Nat}
    (hk : 0 < k) (hs : k < slots) :
    (shortGroups slots v).length ≤ k ↔ v.toNat < 128 ^ k := by
  induction slots generalizing v k with
  | zero => omega
  | succ slots ih =>
      have hshift := toNat_shiftRight_seven v
      have hpow : 128 ^ k = 128 * 128 ^ (k - 1) := by
        rw [← pow_succ']; congr 1; omega
      have hpos : 0 < 128 ^ (k - 1) := Nat.pow_pos (by omega)
      simp only [shortGroups, List.length_cons]
      split
      · next hz =>
          rw [hz] at hshift
          simp only [UInt64.toNat_zero] at hshift
          simp only [List.length_nil]
          omega
      · next hz =>
          have hne : v.toNat / 128 ≠ 0 := by
            intro h0
            apply hz
            apply UInt64.toNat_inj.mp
            rw [hshift, h0]
            rfl
          by_cases hk1 : k = 1
          · have hgroups : 1 ≤ (shortGroups slots (v >>> 7)).length := by
              cases slots with
              | zero => omega
              | succ slots => simp [shortGroups]
            subst hk1
            simp only [Nat.sub_self, pow_zero] at hpow
            omega
          · have := ih (v >>> 7) (k := k - 1) (by omega) (by omega)
            rw [hshift] at this
            omega

/-! ## The length of an encoding -/

theorem varintLenFrom_shortGroups (fuel len : Nat) (v : UInt64) :
    varintLenFrom fuel (len + 1) (v >>> 7) = len + (shortGroups (fuel + 1) v).length := by
  induction fuel generalizing len v with
  | zero =>
      simp only [varintLenFrom, shortGroups, List.length_cons]
      split <;> simp
  | succ fuel ih =>
      rw [varintLenFrom, shortGroups]
      split
      · simp
      · rw [ih]
        simp only [List.length_cons]
        omega

theorem length_writeVarint (v : UInt64) : (writeVarint v).length = varintLen v := by
  unfold writeVarint varintLen
  split
  · have hlen : ∀ (count : Nat) (w : UInt64), (nineByteGroups count w).length = count := by
      intro count
      induction count with
      | zero => intro w; rfl
      | succ count ih => intro w; simp [nineByteGroups, ih]
    simp [hlen]
  · rw [varintLenFrom_shortGroups]
    cases h : shortGroups 9 v with
    | nil => simp [shortGroups] at h
    | cons first groups => simp

theorem varintLen_le_nine (v : UInt64) : varintLen v ≤ 9 := by
  unfold varintLen
  split
  · omega
  · next h =>
      have hv : v.toNat < 128 ^ 8 := by
        rw [top_byte_ne_zero_iff] at h
        omega
      rw [varintLenFrom_shortGroups, Nat.zero_add]
      exact ((length_shortGroups_le_iff 9 v (by omega) (by omega)).mpr hv).trans (by omega)

theorem varintLen_pos (v : UInt64) : 0 < varintLen v := by
  unfold varintLen
  split
  · omega
  · rw [varintLenFrom_shortGroups]
    simp [shortGroups]

theorem varintLen_le_iff (v : UInt64) {k : Nat} (hk : 0 < k) (h8 : k ≤ 8) :
    varintLen v ≤ k ↔ v.toNat < 128 ^ k := by
  unfold varintLen
  split
  · next h =>
      rw [top_byte_ne_zero_iff] at h
      have hpow : (128 : Nat) ^ k ≤ 128 ^ 8 := Nat.pow_le_pow_right (by omega) h8
      omega
  · rw [varintLenFrom_shortGroups, Nat.zero_add]
    exact length_shortGroups_le_iff 9 v hk (by omega)

theorem varintLen_mono {v w : UInt64} (h : v.toNat ≤ w.toNat) : varintLen v ≤ varintLen w := by
  by_cases hw : varintLen w ≤ 8
  · exact (varintLen_le_iff v (varintLen_pos w) hw).mpr
      (h.trans_lt ((varintLen_le_iff w (varintLen_pos w) hw).mp le_rfl))
  · have := varintLen_le_nine v
    omega

/-! ## Reading back what was written -/

private theorem getElem?_append_cons (before : Bytes) (b : UInt8) (rest : Bytes) :
    (before ++ b :: rest)[before.length]? = some b := by
  simp

/-- A flagged byte is read as the next seven bits. -/
theorem readVarintFrom_flagged (rest : Bytes) {before : Bytes} {g : UInt8} {left : Nat}
    {result : UInt64} (hleft : before.length + (left + 1) = 8) (hg : 128 ≤ g.toNat)
    (hresult : result.toNat < 128 ^ before.length) :
    ∃ next : UInt64, next.toNat = groupStep result.toNat g ∧
      next.toNat < 128 ^ (before ++ [g]).length ∧
      readVarintFrom (before ++ g :: rest) (left + 1) result =
        readVarintFrom ((before ++ [g]) ++ rest) left next := by
  have hidx : 7 - left = before.length := by omega
  have hbound : result.toNat < 2 ^ 57 := by
    have : (128 : Nat) ^ before.length ≤ 128 ^ 7 :=
      Nat.pow_le_pow_right (by omega) (by omega)
    omega
  have hstep := toNat_shiftLeft_or_seven result g hbound
  have hflag : ¬ g &&& 0x80 = 0 := by
    rw [and_80_eq_zero_iff]
    omega
  refine ⟨result <<< 7 ||| (g &&& 0x7f).toUInt64, hstep, ?_, ?_⟩
  · rw [hstep]
    simp only [List.length_append, List.length_singleton, pow_succ]
    omega
  · rw [readVarintFrom, hidx, getElem?_append_cons]
    simp only [hflag, if_false, List.append_assoc, List.singleton_append]

/--
The reader on a run of flagged groups followed by a final group.  `before` is
what was already consumed; its seven-bit groups are the bound on `result`.
-/
theorem readVarintFrom_short (groups : Bytes) :
    ∀ (before : Bytes) (last : UInt8) (rest : Bytes) (left : Nat) (result : UInt64),
      before.length + left = 8 → (∀ b ∈ groups, 128 ≤ b.toNat) → last.toNat < 128 →
      groups.length < left → result.toNat < 128 ^ before.length →
      ∃ value : UInt64,
        readVarintFrom (before ++ (groups ++ last :: rest)) left result =
          some (value, before.length + groups.length + 1) ∧
        value.toNat = (groups ++ [last]).foldl groupStep result.toNat := by
  induction groups with
  | nil =>
      intro before last rest left result hleft hgroups hlast hlen hresult
      cases left with
      | zero => simp at hlen
      | succ left =>
          have hidx : 7 - left = before.length := by omega
          have hbound : result.toNat < 2 ^ 57 := by
            have : (128 : Nat) ^ before.length ≤ 128 ^ 7 :=
              Nat.pow_le_pow_right (by omega) (by omega)
            omega
          refine ⟨_, ?_, toNat_shiftLeft_or_seven result last hbound⟩
          rw [readVarintFrom, hidx, List.nil_append, getElem?_append_cons]
          simp [(and_80_eq_zero_iff last).mpr hlast]
  | cons g groups ih =>
      intro before last rest left result hleft hgroups hlast hlen hresult
      cases left with
      | zero => simp at hlen
      | succ left =>
          obtain ⟨next, hvalue, hbound, hread⟩ :=
            readVarintFrom_flagged (groups ++ last :: rest) hleft
              (hgroups g List.mem_cons_self) hresult
          obtain ⟨value, htail, hfold⟩ := ih (before ++ [g]) last rest left next
            (by simp; omega) (fun b hb => hgroups b (List.mem_cons_of_mem _ hb)) hlast
            (Nat.lt_of_succ_lt_succ hlen) hbound
          refine ⟨value, ?_, ?_⟩
          · rw [List.cons_append, hread, htail]
            simp
            omega
          · rw [hfold, hvalue]
            rfl

theorem readVarintFrom_nine (groups : Bytes) :
    ∀ (before : Bytes) (last : UInt8) (rest : Bytes) (left : Nat) (result : UInt64),
      before.length + left = 8 → (∀ b ∈ groups, 128 ≤ b.toNat) →
      groups.length = left → result.toNat < 128 ^ before.length →
      ∃ value : UInt64,
        readVarintFrom (before ++ (groups ++ last :: rest)) left result = some (value, 9) ∧
        value.toNat = groups.foldl groupStep result.toNat * 256 + last.toNat := by
  induction groups with
  | nil =>
      intro before last rest left result hleft hgroups hlen hresult
      obtain rfl : left = 0 := by simpa using hlen.symm
      have hidx : before.length = 8 := by omega
      have hbound : result.toNat < 2 ^ 56 := by
        rw [hidx] at hresult
        omega
      refine ⟨_, ?_, toNat_shiftLeft_or_eight result last hbound⟩
      rw [readVarintFrom, ← hidx, List.nil_append, getElem?_append_cons]
  | cons g groups ih =>
      intro before last rest left result hleft hgroups hlen hresult
      obtain ⟨left, rfl⟩ : ∃ n, left = n + 1 := ⟨groups.length, by simpa using hlen.symm⟩
      obtain ⟨next, hvalue, hbound, hread⟩ :=
        readVarintFrom_flagged (groups ++ last :: rest) hleft
          (hgroups g List.mem_cons_self) hresult
      obtain ⟨value, htail, hfold⟩ := ih (before ++ [g]) last rest left next
        (by simp; omega) (fun b hb => hgroups b (List.mem_cons_of_mem _ hb))
        (Nat.succ_injective hlen) hbound
      exact ⟨value, by rw [List.cons_append, hread, htail], by rw [hfold, hvalue]; rfl⟩

theorem nineByteGroups_spec (count : Nat) (v : UInt64) :
    (nineByteGroups count v).length = count ∧
      (∀ b ∈ nineByteGroups count v, 128 ≤ b.toNat) ∧
      groupsValue (nineByteGroups count v) = v.toNat % 128 ^ count := by
  induction count generalizing v with
  | zero => simp [nineByteGroups, groupsValue, Nat.mod_one]
  | succ count ih =>
      obtain ⟨hlen, hflag, hvalue⟩ := ih (v >>> 7)
      refine ⟨by simp [nineByteGroups, hlen], ?_, ?_⟩
      · intro b hb
        simp only [nineByteGroups, List.mem_cons] at hb
        rcases hb with rfl | hb
        · rw [toNat_group]
          omega
        · exact hflag b hb
      · simp only [nineByteGroups, groupsValue, toNat_group, hvalue, toNat_shiftRight_seven]
        rw [pow_succ', Nat.mod_mul]
        omega

theorem readVarint_writeVarint_append (v : UInt64) (rest : Bytes) :
    readVarint (writeVarint v ++ rest) = some (v, (writeVarint v).length) := by
  unfold readVarint writeVarint
  split
  · next htop =>
      obtain ⟨hlen, hflag, hvalue⟩ := nineByteGroups_spec 8 (v >>> 8)
      obtain ⟨value, hread, hval⟩ := readVarintFrom_nine (nineByteGroups 8 (v >>> 8)).reverse
        [] ((v &&& 0xff).toUInt8) rest 8 0 rfl (by simpa using hflag) (by simp [hlen]) (by simp)
      have hlow : ((v &&& 0xff).toUInt8).toNat = v.toNat % 256 := by
        rw [UInt64.toNat_toUInt8, UInt64.toNat_and,
          show (0xff : UInt64).toNat = 2 ^ 8 - 1 from rfl, Nat.and_two_pow_sub_one_eq_mod]
        omega
      have hv : value = v := by
        apply UInt64.toNat_inj.mp
        have hlt := v.toNat_lt
        rw [hval, foldl_groupStep_reverse, hvalue, hlow, toNat_shiftRight_eight]
        simp only [UInt64.toNat_zero, zero_mul, zero_add]
        omega
      subst hv
      simpa [hlen] using hread
  · next htop =>
      have hv : v.toNat < 128 ^ 8 := by
        rw [top_byte_ne_zero_iff] at htop
        omega
      have hflag := shortGroups_flagged 9 v
      have hvalue := groupsValue_shortGroups 9 v (by omega)
      have hlen := (length_shortGroups_le_iff 9 v (k := 8) (by omega) (by omega)).mpr hv
      cases hgroups : shortGroups 9 v with
      | nil => simp [shortGroups] at hgroups
      | cons first groups =>
          rw [hgroups] at hflag hvalue hlen
          obtain ⟨value, hread, hval⟩ := readVarintFrom_short groups.reverse [] (first &&& 0x7f)
            rest 8 0 rfl (fun b hb => hflag b (by simp at hb; simp [hb]))
            (by rw [toNat_and_7f]; omega) (by simp at hlen ⊢; omega) (by simp)
          have hv' : value = v := by
            apply UInt64.toNat_inj.mp
            rw [hval, ← List.reverse_cons, foldl_groupStep_reverse, ← hvalue, groupsValue,
              groupsValue, toNat_and_7f]
            simp
          subst hv'
          simpa using hread

@[simp] theorem readVarintI64_writeVarint_append (v : Int64) (rest : Bytes) :
    readVarintI64 (writeVarint v.toUInt64 ++ rest) =
      some (v, (writeVarint v.toUInt64).length) := by
  simp [readVarintI64, readVarint_writeVarint_append]

/-!
## The varint codec

What `write_varint` writes is read back, and is as short as the format allows:
no reading has a value that its bytes have no room for.
-/

def appendVarint (value : UInt64) (out : Bytes) : Bytes × Nat :=
  (out ++ writeVarint value,
    if value &&& 0xff00000000000000 ≠ 0 then 9 else (shortGroups 9 value).length)

theorem appendVarint_count (value : UInt64) (out : Bytes) :
    (appendVarint value out).2 = (writeVarint value).length := by
  rw [length_writeVarint, appendVarint, varintLen]
  dsimp only
  split_ifs with htop
  · rfl
  · rw [varintLenFrom_shortGroups, Nat.zero_add]

/-! ## What any reading says -/

/--
A reading that starts with `left` flagged bytes to go: where it ends, and how
large its value can be.  A ninth byte has no such bound.
-/
theorem readVarintFrom_bounds (buf : Bytes) (left : Nat) (result : UInt64)
    (hleft : left ≤ 8) (hresult : result.toNat < 128 ^ (8 - left)) :
    readVarintFrom buf left result = none ∨ ∃ value n,
      readVarintFrom buf left result = some (value, n) ∧ 8 - left < n ∧ n ≤ 9 ∧
        n ≤ buf.length ∧ (n ≤ 8 → value.toNat < 128 ^ n) := by
  induction left generalizing result with
  | zero =>
      cases hbyte : buf[8]? with
      | none => exact .inl (by rw [readVarintFrom, hbyte])
      | some byte =>
          obtain ⟨hlt, -⟩ := List.getElem?_eq_some_iff.mp hbyte
          exact .inr ⟨_, 9, by rw [readVarintFrom, hbyte], by omega, by omega, by omega, by omega⟩
  | succ left ih =>
      cases hbyte : buf[7 - left]? with
      | none => exact .inl (by rw [readVarintFrom, hbyte])
      | some byte =>
          obtain ⟨hlt, -⟩ := List.getElem?_eq_some_iff.mp hbyte
          have hpow : 128 ^ (8 - (left + 1)) * 128 = 128 ^ (8 - left) := by
            rw [← pow_succ]
            congr 1
            omega
          have hsmall : (128 : Nat) ^ (8 - (left + 1)) ≤ 128 ^ 7 :=
            Nat.pow_le_pow_right (by omega) (by omega)
          have hstep := toNat_shiftLeft_or_seven result byte (by omega)
          have hnext : (result <<< 7 ||| (byte &&& 0x7f).toUInt64).toNat < 128 ^ (8 - left) := by
            rw [hstep]
            omega
          by_cases hlast : byte &&& 0x80 = 0
          · refine .inr ⟨result <<< 7 ||| (byte &&& 0x7f).toUInt64, 7 - left + 1, ?_, by omega,
              by omega, by omega, fun _ => ?_⟩
            · rw [readVarintFrom, hbyte]
              simp only [hlast, if_true]
            · rwa [show 7 - left + 1 = 8 - left by omega]
          · have hrun : readVarintFrom buf (left + 1) result =
                readVarintFrom buf left (result <<< 7 ||| (byte &&& 0x7f).toUInt64) := by
              rw [readVarintFrom, hbyte]
              simp only [hlast, if_false]
            rw [hrun]
            rcases ih _ (by omega) hnext with hnone | ⟨value, n, hread, hlo, hhi, hbuf, hvalue⟩
            · exact .inl hnone
            · exact .inr ⟨value, n, hread, by omega, hhi, hbuf, hvalue⟩

theorem readVarint_bounds (buf : Bytes) :
    readVarint buf = none ∨ ∃ value n, readVarint buf = some (value, n) ∧ 1 ≤ n ∧ n ≤ 9 ∧
      n ≤ buf.length ∧ (n ≤ 8 → value.toNat < 128 ^ n) := by
  rcases readVarintFrom_bounds buf 8 0 le_rfl (by simp) with
    hnone | ⟨value, n, hread, hlo, hhi, hbuf, hvalue⟩
  · exact .inl hnone
  · exact .inr ⟨value, n, hread, hlo, hhi, hbuf, hvalue⟩

theorem varintLen_le_of_readVarint {buf : Bytes} {value : UInt64} {n : Nat}
    (h : readVarint buf = some (value, n)) : varintLen value ≤ n := by
  rcases readVarint_bounds buf with hnone | ⟨value', n', hread, hpos, -, -, hvalue⟩
  · rw [h] at hnone
    cases hnone
  · rw [h] at hread
    cases hread
    by_cases hshort : n ≤ 8
    · exact (varintLen_le_iff value hpos hshort).mpr (hvalue hshort)
    · have := varintLen_le_nine value
      omega

/--
The codec: what was written is read back with its length, whatever follows; no
shorter reading has the same value; and every reading stays in its buffer.
-/
theorem varint_codec (value : UInt64) (out rest : Bytes) :
    (∃ bytes n, appendVarint value out = (out ++ bytes, n) ∧ n = bytes.length ∧
      readVarint (bytes ++ rest) = some (value, n) ∧
      ∀ buf m, readVarint buf = some (value, m) → n ≤ m) ∧
    ∀ buf, readVarint buf = none ∨
      ∃ v n, readVarint buf = some (v, n) ∧ 1 ≤ n ∧ n ≤ 9 ∧ n ≤ buf.length := by
  have hcount := appendVarint_count value out
  refine ⟨⟨writeVarint value, _, rfl, hcount, ?_, fun buf m h => ?_⟩, fun buf => ?_⟩
  · rw [readVarint_writeVarint_append, ← hcount]
    rfl
  · have hlen := varintLen_le_of_readVarint h
    rw [← length_writeVarint, ← hcount] at hlen
    exact hlen
  · rcases readVarint_bounds buf with hnone | ⟨v, n, hread, hpos, hnine, hbuf, -⟩
    · exact .inl hnone
    · exact .inr ⟨v, n, hread, hpos, hnine, hbuf⟩

end Rustqlite.Format
