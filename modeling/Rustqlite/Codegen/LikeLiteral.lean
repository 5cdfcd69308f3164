import Mathlib.Data.List.GetD
import Rustqlite.Codegen.LikeRaise
import Rustqlite.Func.Like

/-!
# What a pattern starts with

The characters of a pattern up to its first wildcard, without the escapes.
The planner counts them in bytes; the matcher reads them one by one.
-/

namespace Rustqlite.Codegen

open Foundation Func

def byteChar (b : UInt8) : Char := Char.ofNat b.toNat

theorem toNat_byteChar (b : UInt8) : (byteChar b).toNat = b.toNat :=
  toNat_ofNat (.inl (by have := b.toNat_lt; omega))

def LikeKind.stops (kind : LikeKind) (c : Char) : Bool :=
  c = nul || c = byteChar kind.wcAll || c = byteChar kind.wcOne ||
    (c = byteChar kind.wcSet && kind = .glob)

def literalChars (kind : LikeKind) (escape : Char) : List Char → List Char × List Char
  | [] => ([], [])
  | [c] =>
      if kind.stops c ∨ c = replacementChar ∨ escape ≠ nul ∧ c = escape then ([], [c])
      else ([c], [])
  | c :: d :: rest =>
      if kind.stops c ∨ c = replacementChar then ([], c :: d :: rest)
      else if escape ≠ nul ∧ c = escape then
        if d = replacementChar then ([], c :: d :: rest)
        else (d :: (literalChars kind escape rest).1, (literalChars kind escape rest).2)
      else (c :: (literalChars kind escape (d :: rest)).1, (literalChars kind escape (d :: rest)).2)

/-- The pattern ends in a wildcard for all that is left of the text. -/
def LikeKind.isOpen (kind : LikeKind) (rest : List Char) : Bool :=
  rest.head? = some (byteChar kind.wcAll) && (read rest.tail).1 = nul

variable {kind : LikeKind} {c : Char} {escape b : UInt8}

theorem LikeKind.isOpen_cons {rest : List Char} :
    kind.isOpen (c :: rest) = true ↔ c = byteChar kind.wcAll ∧ (read rest).1 = nul := by
  rw [LikeKind.isOpen, Bool.and_eq_true, decide_eq_true_eq, decide_eq_true_eq, List.head?_cons,
    Option.some_inj]
  rfl

/-! ## Counting bytes -/

theorem byteAt_append (front x : Bytes) (i : Nat) :
    byteAt (front ++ x) (front.length + i) = byteAt x i := by
  rw [byteAt, byteAt, List.getD_append_right _ _ _ _ (Nat.le_add_right _ _),
      Nat.add_sub_cancel_left]

theorem removeEscapes_cons (h : ¬(escape ≠ 0 ∧ b = escape)) (x : Bytes) :
    removeEscapes escape (b :: x) = b :: removeEscapes escape x := by
  cases x with
  | nil => simp only [removeEscapes, if_neg h]
  | cons b' x => simp only [removeEscapes, if_neg h]

theorem removeEscapes_append {x : Bytes} (h : ∀ b ∈ x, b ≠ escape) (y : Bytes) :
    removeEscapes escape (x ++ y) = x ++ removeEscapes escape y := by
  induction x with
  | nil => rfl
  | cons b x ih =>
      rw [List.forall_mem_cons] at h
      rw [List.cons_append, removeEscapes_cons (fun hb => h.1 hb.2), ih h.2, List.cons_append]

theorem removeEscapes_escape (hne : escape ≠ 0) (b : UInt8) (x : Bytes) :
    removeEscapes escape (escape :: b :: x) = b :: removeEscapes escape x := by
  simp [removeEscapes, hne]

set_option maxRecDepth 4096 in
theorem isContinuation_iff (b : UInt8) : isContinuation b = true ↔ 0x80 ≤ b.toNat ∧
    b.toNat < 0xc0 := by
  have hall : ∀ n : Fin 256, isContinuation (UInt8.ofNat n) = true ↔ 0x80 ≤ n.val ∧
      n.val < 0xc0 := by
    decide
  have hb := hall ⟨b.toNat, b.toNat_lt⟩
  rwa [UInt8.ofNat_toNat] at hb

section Steps

variable {kind : LikeKind} {escape : UInt8}

theorem stops_iff (h : b.toNat = c.toNat) : kind.stops c = true ↔
    b = 0 ∨ b = kind.wcAll ∨ b = kind.wcOne ∨ b = kind.wcSet ∧ kind = .glob := by
  have heq (k : UInt8) : c = byteChar k ↔ b = k := by
    rw [← UInt8.toNat_inj, h, ← toNat_byteChar k]
    exact ⟨congrArg Char.toNat, char_ext⟩
  have hnul : c = nul ↔ b = 0 := heq 0
  simp only [LikeKind.stops, Bool.or_eq_true, Bool.and_eq_true, decide_eq_true_eq, heq, hnul,
    or_assoc]

theorem not_stops_of_le (h : 0x80 ≤ b.toNat) :
    ¬(b = 0 ∨ b = kind.wcAll ∨ b = kind.wcOne ∨ b = kind.wcSet ∧ kind = .glob) := by
  have hne {k : UInt8} (hk : k.toNat < 0x80) : b ≠ k := by
    rintro rfl
    omega
  cases kind <;> simp only [LikeKind.wcAll, LikeKind.wcOne, LikeKind.wcSet] <;>
    simp [hne (k := 0) (by decide), hne (k := 0x25) (by decide), hne (k := 0x5f) (by decide),
      hne (k := 0x2a) (by decide), hne (k := 0x3f) (by decide), hne (k := 0x5b) (by decide)]

variable (front tail : Bytes) (fuel : Nat)

theorem byteAt_length (b : UInt8) : byteAt (front ++ b :: tail) front.length = b :=
  byteAt_append front (b :: tail) 0

theorem byteAt_length_succ (b : UInt8) :
    byteAt (front ++ b :: tail) (front.length + 1) = byteAt tail 0 :=
  byteAt_append front (b :: tail) 1

theorem literalCount_stop
    (h : b = 0 ∨ b = kind.wcAll ∨ b = kind.wcOne ∨ b = kind.wcSet ∧ kind = .glob) :
    literalCount kind escape (front ++ b :: tail) (fuel + 1) front.length = (front.length, b) := by
  rw [literalCount, byteAt_length]
  exact if_pos h

theorem literalCount_end :
    literalCount kind escape front (fuel + 1) front.length = (front.length, 0) := by
  have hbyte : byteAt front front.length = 0 := by simp [byteAt]
  rw [literalCount, hbyte]
  exact if_pos (.inl rfl)

theorem literalCount_escape {d : UInt8}
    (hstop : ¬(b = 0 ∨ b = kind.wcAll ∨ b = kind.wcOne ∨ b = kind.wcSet ∧ kind = .glob))
    (hesc : escape ≠ 0) (hb : b = escape) (hd : d < 0x80) :
    literalCount kind escape (front ++ b :: d :: tail) (fuel + 1) front.length =
      literalCount kind escape (front ++ b :: d :: tail) fuel (front.length + 2) := by
  rw [literalCount, byteAt_length, byteAt_length_succ]
  dsimp only
  rw [if_neg hstop, if_pos]
  refine ⟨hesc, hb, ?_, hd⟩
  simp

theorem literalCount_ascii
    (hstop : ¬(b = 0 ∨ b = kind.wcAll ∨ b = kind.wcOne ∨ b = kind.wcSet ∧ kind = .glob))
    (hesc : ¬(escape ≠ 0 ∧ b = escape ∧ tail ≠ [] ∧ byteAt tail 0 < 0x80)) (hb : b < 0x80) :
    literalCount kind escape (front ++ b :: tail) (fuel + 1) front.length =
      literalCount kind escape (front ++ b :: tail) fuel (front.length + 1) := by
  have hlen : front.length + 1 < (front ++ b :: tail).length ↔ tail ≠ [] := by
    cases tail <;> simp
  rw [literalCount, byteAt_length, byteAt_length_succ]
  dsimp only
  rw [if_neg hstop, if_neg fun h => hesc ⟨h.1, h.2.1, hlen.mp h.2.2.1, h.2.2.2⟩, if_pos hb]

theorem expectedLen_eq (b : UInt8) : expectedLen b =
    if 0xc0 ≤ b.toNat ∧ b.toNat ≤ 0xdf then 2
    else if 0xe0 ≤ b.toNat ∧ b.toNat ≤ 0xef then 3
    else if 0xf0 ≤ b.toNat ∧ b.toNat ≤ 0xf7 then 4 else 1 := by
  unfold expectedLen
  simp only [UInt8.le_iff_toNat_le]
  rfl

theorem takeWhile_spelling (hc : 0x80 ≤ c.toNat) (cs : List Char) :
    ∃ b more, String.utf8EncodeChar c = b :: more ∧ 0xc0 < b.toNat ∧ b.toNat < 0xff ∧
      (more ++ cs.flatMap String.utf8EncodeChar).takeWhile isContinuation = more ∧
      (b :: more).length = expectedLen b ∧ codepoint (b :: more) = c.toNat := by
  have hnext : (cs.flatMap String.utf8EncodeChar).takeWhile isContinuation = [] := by
    cases cs with
    | nil => rfl
    | cons d cs =>
        have hspells := spells d
        rw [List.flatMap_cons]
        generalize String.utf8EncodeChar d = bytes at hspells
        have hhead {a : UInt8} {rest : Bytes} (ha : ¬(0x80 ≤ a.toNat ∧ a.toNat < 0xc0)) :
            (a :: rest).takeWhile isContinuation = [] := by
          rw [← isContinuation_iff] at ha
          simp [ha]
        cases hspells <;> exact hhead (by omega)
  have hspells := spells c
  generalize String.utf8EncodeChar c = bytes at hspells
  have hstays {x : Bytes} (hx : ∀ b ∈ x, 0x80 ≤ b.toNat ∧ b.toNat < 0xc0) :
      (x ++ cs.flatMap String.utf8EncodeChar).takeWhile isContinuation = x := by
    rw [List.takeWhile_append_of_pos fun b hb => (isContinuation_iff b).mpr (hx b hb), hnext,
      List.append_nil]
  cases hspells with
  | one ha hv => omega
  | @two a b hb hv h =>
      refine ⟨a, [b], rfl, by omega, by omega, hstays (by simpa using hb), ?_, ?_⟩
      · rw [expectedLen_eq, if_pos (by omega)]
        rfl
      · change a.toNat % 0x20 * 64 + b.toNat % 64 = _
        omega
  | @three a b d hb hd hv h =>
      refine ⟨a, [b, d], rfl, by omega, by omega, hstays (by simpa using ⟨hb, hd⟩), ?_, ?_⟩
      · rw [expectedLen_eq, if_neg (by omega), if_pos (by omega)]
        rfl
      · change (a.toNat % 0x10 * 64 + b.toNat % 64) * 64 + d.toNat % 64 = _
        omega
  | @four a b d e hb hd he hv h =>
      refine ⟨a, [b, d, e], rfl, by omega, by omega, hstays (by simpa using ⟨hb, hd, he⟩), ?_, ?_⟩
      · rw [expectedLen_eq, if_neg (by omega), if_neg (by omega), if_pos (by omega)]
        rfl
      · change ((a.toNat % 0x08 * 64 + b.toNat % 64) * 64 + d.toNat % 64) * 64 + e.toNat % 64 = _
        omega

theorem literalCount_char (hc : 0x80 ≤ c.toNat) (hescape : escape < 0x80) (cs : List Char) :
    literalCount kind escape (front ++ (c :: cs).flatMap String.utf8EncodeChar) (fuel + 1)
        front.length =
      if c = replacementChar then
        (front.length, byteAt ((c :: cs).flatMap String.utf8EncodeChar) 0)
      else literalCount kind escape (front ++ (c :: cs).flatMap String.utf8EncodeChar) fuel
        (front.length + (String.utf8EncodeChar c).length) := by
  obtain ⟨b, more, hbytes, hlow, hhigh, htake, hlen, hcode⟩ := takeWhile_spelling hc cs
  have hflat : (c :: cs).flatMap String.utf8EncodeChar =
      b :: (more ++ cs.flatMap String.utf8EncodeChar) := by
    rw [List.flatMap_cons, hbytes]
    rfl
  have hdrop : (front ++ b :: (more ++ cs.flatMap String.utf8EncodeChar)).drop (front.length + 1) =
      more ++ cs.flatMap String.utf8EncodeChar := by
    rw [List.drop_append, List.drop_eq_nil_of_le (by omega), Nat.add_sub_cancel_left]
    rfl
  have hne {k : UInt8} (hk : b.toNat ≠ k.toNat) : b ≠ k := fun h => hk (congrArg _ h)
  have hesc : escape.toNat < 0x80 := UInt8.lt_iff_toNat_lt.mp hescape
  have hreplace : codepoint (b :: more) = 0xfffd ↔ c = replacementChar := by
    rw [hcode]
    exact ⟨fun h => char_ext h, fun h => congrArg Char.toNat h⟩
  rw [hflat, literalCount, byteAt_length]
  dsimp only
  rw [if_neg (not_stops_of_le (by omega)), if_neg fun h => hne (by omega) h.2.1,
    if_neg fun h => absurd (UInt8.lt_iff_toNat_lt.mp h) (by change ¬ b.toNat < 0x80; omega),
    if_neg (hne (by change _ ≠ 0xff; omega)), hdrop, htake, hbytes]
  simp only [hlen, ne_eq, not_true_eq_false, false_or, hreplace]
  rfl

end Steps

def Counted (kind : LikeKind) (escape : UInt8) (front bytes : Bytes) (fuel : Nat)
    (literal : List Char) (isOpen : Bool) : Prop :=
  ∃ taken rest, bytes = taken ++ rest ∧
    removeEscapes escape taken = literal.flatMap String.utf8EncodeChar ∧
    literalCount kind escape (front ++ bytes) fuel front.length =
      (front.length + taken.length, byteAt rest 0) ∧
    (byteAt rest 0 = kind.wcAll ∧ (rest.length ≤ 1 ∨ byteAt rest 1 = 0) ↔ isOpen = true)

theorem Counted.step {kind : LikeKind} {escape : UInt8} {front x y : Bytes} {fuel fuel' : Nat}
    {literal : List Char} {isOpen : Bool} (first : List Char)
    (h : Counted kind escape (front ++ x) y fuel literal isOpen)
    (hcount : literalCount kind escape (front ++ (x ++ y)) fuel' front.length =
      literalCount kind escape (front ++ (x ++ y)) fuel (front.length + x.length))
    (hremove : ∀ taken, removeEscapes escape (x ++ taken) =
      first.flatMap String.utf8EncodeChar ++ removeEscapes escape taken) :
    Counted kind escape front (x ++ y) fuel' (first ++ literal) isOpen := by
  obtain ⟨taken, rest, rfl, htaken, heq, hopen⟩ := h
  refine ⟨x ++ taken, rest, (List.append_assoc _ _ _).symm, ?_, ?_, hopen⟩
  · rw [hremove, htaken, List.flatMap_append]
  · rw [hcount, ← List.append_assoc, ← List.length_append, heq, List.length_append,
      List.length_append, Nat.add_assoc]

theorem byteAt_flatMap {k : UInt8} (hk : k.toNat < 0x80) (c : Char) (cs : List Char) :
    byteAt ((c :: cs).flatMap String.utf8EncodeChar) 0 = k ↔ c = byteChar k := by
  rcases lt_or_ge c.toNat 0x80 with hlt | hge
  · rw [List.flatMap_cons, utf8EncodeChar_of_lt hlt]
    change UInt8.ofNat c.toNat = k ↔ _
    have hbyte : (UInt8.ofNat c.toNat).toNat = c.toNat := by
      rw [UInt8.toNat_ofNat']
      omega
    rw [← UInt8.toNat_inj, hbyte, ← toNat_byteChar k]
    exact ⟨char_ext, congrArg Char.toNat⟩
  · obtain ⟨a, b, more, hbytes, hlow, -⟩ := utf8EncodeChar_of_le hge
    rw [List.flatMap_cons, hbytes]
    change a = k ↔ _
    constructor
    · rintro rfl
      omega
    · rintro rfl
      rw [toNat_byteChar] at hge
      omega

theorem byteAt_flatMap_eq_zero (cs : List Char) :
    byteAt (cs.flatMap String.utf8EncodeChar) 0 = 0 ↔ (read cs).1 = nul := by
  cases cs with
  | nil => exact iff_of_true rfl rfl
  | cons c cs => exact byteAt_flatMap (by decide) c cs

theorem isOpen_flatMap (kind : LikeKind) (rest : List Char) :
    byteAt (rest.flatMap String.utf8EncodeChar) 0 = kind.wcAll ∧
        ((rest.flatMap String.utf8EncodeChar).length ≤ 1 ∨
          byteAt (rest.flatMap String.utf8EncodeChar) 1 = 0) ↔
      kind.isOpen rest = true := by
  have hwild : kind.wcAll.toNat < 0x80 ∧ 0 ≠ kind.wcAll := by cases kind <;> decide
  cases rest with
  | nil => exact iff_of_false (fun h => hwild.2 h.1) (by simp [LikeKind.isOpen])
  | cons c cs =>
      rw [LikeKind.isOpen_cons, byteAt_flatMap hwild.1]
      refine and_congr_right fun hc => ?_
      have hlt : c.toNat < 0x80 := by
        rw [hc, toNat_byteChar]
        exact hwild.1
      rw [List.flatMap_cons, utf8EncodeChar_of_lt hlt, ← byteAt_flatMap_eq_zero]
      have hsucc (bytes : Bytes) : byteAt ([UInt8.ofNat c.toNat] ++ bytes) 1 = byteAt bytes 0 := rfl
      rw [hsucc]
      refine or_iff_right_of_imp fun hlen => ?_
      have hnil : cs.flatMap String.utf8EncodeChar = [] := by
        rw [← List.length_eq_zero_iff]
        simp at hlen
        simpa using hlen
      rw [hnil]
      rfl

section Counting

variable {kind : LikeKind} {escape : UInt8} {front : Bytes} {fuel : Nat}

theorem Counted.stop {cs : List Char}
    (h : literalCount kind escape (front ++ cs.flatMap String.utf8EncodeChar) fuel front.length =
      (front.length, byteAt (cs.flatMap String.utf8EncodeChar) 0)) :
    Counted kind escape front (cs.flatMap String.utf8EncodeChar) fuel [] (kind.isOpen cs) :=
  ⟨[], _, rfl, rfl, h, isOpen_flatMap kind cs⟩

theorem utf8_of_stops (h : kind.stops c = true) :
    String.utf8EncodeChar c = [UInt8.ofNat c.toNat] ∧ (UInt8.ofNat c.toNat).toNat = c.toNat := by
  have hlt : c.toNat < 0x80 := by
    simp only [LikeKind.stops, Bool.or_eq_true, Bool.and_eq_true, decide_eq_true_eq] at h
    obtain ((rfl | rfl) | rfl) | ⟨rfl, -⟩ := h <;> cases kind <;> decide
  refine ⟨utf8EncodeChar_of_lt hlt, ?_⟩
  rw [UInt8.toNat_ofNat']
  omega

theorem counted_stop (cs : List Char) (hescape : escape < 0x80)
    (h : kind.stops c = true ∨ c = replacementChar) :
    Counted kind escape front ((c :: cs).flatMap String.utf8EncodeChar) (fuel + 1) []
      (kind.isOpen (c :: cs)) := by
  refine Counted.stop ?_
  rcases h with h | h
  · obtain ⟨hbytes, hnat⟩ := utf8_of_stops h
    rw [List.flatMap_cons, hbytes]
    exact literalCount_stop front _ fuel ((stops_iff hnat).mp h)
  · rw [literalCount_char front fuel (by rw [h]; decide) hescape, if_pos h]

theorem byteChar_ne_nul : byteChar escape ≠ nul ↔ escape ≠ 0 := by
  refine not_congr ⟨fun h => ?_, fun h => by rw [h]; rfl⟩
  rw [← UInt8.toNat_inj, ← toNat_byteChar, h]
  rfl

theorem flatMap_escape (hescape : escape < 0x80) (cs : List Char) :
    (byteChar escape :: cs).flatMap String.utf8EncodeChar =
      [escape] ++ cs.flatMap String.utf8EncodeChar := by
  have hlt : (byteChar escape).toNat < 0x80 := by
    rw [toNat_byteChar]
    exact UInt8.lt_iff_toNat_lt.mp hescape
  rw [List.flatMap_cons, utf8EncodeChar_of_lt hlt, toNat_byteChar, UInt8.ofNat_toNat]

theorem literalCount_escape_alone {tail : Bytes} (hescape : escape < 0x80)
    (hstop : ¬(escape = 0 ∨ escape = kind.wcAll ∨ escape = kind.wcOne ∨
      escape = kind.wcSet ∧ kind = .glob))
    (htail : tail ≠ [] → 0x80 ≤ (byteAt tail 0).toNat) :
    literalCount kind escape (front ++ ([escape] ++ tail)) (fuel + 1) front.length =
      literalCount kind escape (front ++ [escape] ++ tail) fuel (front ++ [escape]).length := by
  have hassoc : front ++ ([escape] ++ tail) = front ++ escape :: tail := rfl
  rw [hassoc, literalCount_ascii front tail fuel hstop _ hescape]
  · simp
  · rintro ⟨-, -, hne, hlt⟩
    exact absurd (UInt8.lt_iff_toNat_lt.mp hlt)
      (by have := htail hne; change ¬ (byteAt tail 0).toNat < 0x80; omega)

variable {cs literal : List Char} {isOpen : Bool}

theorem counted_dangling (hescape : escape < 0x80) (hne : escape ≠ 0)
    (hstop : ¬(escape = 0 ∨ escape = kind.wcAll ∨ escape = kind.wcOne ∨
      escape = kind.wcSet ∧ kind = .glob)) (h : cs = [] ∨ cs.head? = some replacementChar) :
    Counted kind escape front ((byteChar escape :: cs).flatMap String.utf8EncodeChar) (fuel + 2) []
      (kind.isOpen (byteChar escape :: cs)) := by
  have hclosed : kind.isOpen (byteChar escape :: cs) = kind.isOpen cs := by
    have hescape : byteChar escape ≠ byteChar kind.wcAll := fun heq => hstop (.inr (.inl (by
      rw [← UInt8.toNat_inj, ← toNat_byteChar, heq, toNat_byteChar])))
    have hreplace : replacementChar ≠ byteChar kind.wcAll := by cases kind <;> decide
    rcases h with rfl | h
    · simp [LikeKind.isOpen, hescape]
    · simp [LikeKind.isOpen, hescape, h, hreplace]
  have hcount : literalCount kind escape
      (front ++ ([escape] ++ cs.flatMap String.utf8EncodeChar)) (fuel + 2) front.length =
        (front.length + [escape].length, byteAt (cs.flatMap String.utf8EncodeChar) 0) := by
    cases cs with
    | nil =>
        rw [List.flatMap_nil, literalCount_escape_alone hescape hstop (fun h => absurd rfl h),
          List.append_nil, literalCount_end, List.length_append]
        rfl
    | cons c cs =>
        have hc : c = replacementChar := by simpa using h
        subst hc
        have hhead : 0x80 ≤ (byteAt ((replacementChar :: cs).flatMap String.utf8EncodeChar)
            0).toNat := by
          rw [List.flatMap_cons]
          exact (by decide : 0x80 ≤ (0xef : UInt8).toNat)
        rw [literalCount_escape_alone hescape hstop (fun _ => hhead),
          literalCount_char _ fuel (by decide) hescape, if_pos rfl, List.length_append]
  rw [flatMap_escape hescape, hclosed]
  exact ⟨[escape], cs.flatMap String.utf8EncodeChar, rfl, by simp [removeEscapes, hne], hcount,
    isOpen_flatMap kind cs⟩

theorem counted_escape {d : Char} (hescape : escape < 0x80) (hne : escape ≠ 0)
    (hstop : ¬(escape = 0 ∨ escape = kind.wcAll ∨ escape = kind.wcOne ∨
      escape = kind.wcSet ∧ kind = .glob)) (hd : d ≠ replacementChar)
    (h : ∀ fuel, (cs.flatMap String.utf8EncodeChar).length < fuel →
      Counted kind escape (front ++ ([escape] ++ String.utf8EncodeChar d))
        (cs.flatMap String.utf8EncodeChar) fuel literal isOpen)
    (hfuel : ((byteChar escape :: d :: cs).flatMap String.utf8EncodeChar).length < fuel) :
    Counted kind escape front ((byteChar escape :: d :: cs).flatMap String.utf8EncodeChar) fuel
      (d :: literal) isOpen := by
  have hpos : 0 < d.utf8Size := d.utf8Size_pos
  rw [flatMap_escape hescape, List.flatMap_cons] at hfuel ⊢
  simp only [List.length_append, List.length_singleton, String.length_utf8EncodeChar] at hfuel
  rw [← List.append_assoc]
  have hflat : [d].flatMap String.utf8EncodeChar = String.utf8EncodeChar d := by simp
  obtain ⟨fuel, rfl⟩ : ∃ n, fuel = n + 2 := ⟨fuel - 2, by omega⟩
  rcases lt_or_ge d.toNat 0x80 with hlt | hge
  · have hnat : UInt8.ofNat d.toNat < 0x80 := by
      rw [UInt8.lt_iff_toNat_lt, UInt8.toNat_ofNat']
      change d.toNat % 2 ^ 8 < 0x80
      omega
    refine Counted.step [d] (h (fuel + 1) (by omega)) ?_ fun taken => ?_
    · rw [utf8EncodeChar_of_lt hlt]
      exact literalCount_escape front _ (fuel + 1) hstop hne rfl hnat
    · rw [hflat, utf8EncodeChar_of_lt hlt]
      exact removeEscapes_escape hne _ taken
  · obtain ⟨a, b, more, hbytes, hlow, hhigh⟩ := utf8EncodeChar_of_le hge
    refine Counted.step [d] (h fuel (by omega)) ?_ fun taken => ?_
    · have hhead : 0x80 ≤ (byteAt ((d :: cs).flatMap String.utf8EncodeChar) 0).toNat := by
        rw [List.flatMap_cons, hbytes]
        change 0x80 ≤ a.toNat
        omega
      rw [List.append_assoc, ← List.flatMap_cons,
        literalCount_escape_alone hescape hstop (fun _ => hhead),
        literalCount_char _ fuel hge hescape, if_neg hd]
      simp only [List.append_assoc, List.length_append, Nat.add_assoc]
    · have hesc := UInt8.lt_iff_toNat_lt.mp hescape
      have hmore : ∀ x ∈ b :: more, x ≠ escape := by
        rintro x hx rfl
        have hx' := hhigh x (by rw [hbytes]; exact List.mem_cons_of_mem _ hx)
        exact absurd hesc (by change ¬ x.toNat < 0x80; omega)
      rw [hflat, hbytes, List.append_assoc, List.singleton_append, List.cons_append,
        removeEscapes_escape hne, removeEscapes_append hmore]
      rfl

theorem counted_plain (hescape : escape < 0x80)
    (hstop : ¬(kind.stops c = true ∨ c = replacementChar))
    (hesc : ¬(byteChar escape ≠ nul ∧ c = byteChar escape))
    (h : Counted kind escape (front ++ String.utf8EncodeChar c)
      (cs.flatMap String.utf8EncodeChar) fuel literal isOpen) :
    Counted kind escape front ((c :: cs).flatMap String.utf8EncodeChar) (fuel + 1)
      (c :: literal) isOpen := by
  rw [not_or] at hstop
  have hflat : [c].flatMap String.utf8EncodeChar = String.utf8EncodeChar c := by simp
  rw [List.flatMap_cons]
  refine Counted.step [c] h ?_ ?_
  · rcases lt_or_ge c.toNat 0x80 with hlt | hge
    · have hnat : (UInt8.ofNat c.toNat).toNat = c.toNat := by
        rw [UInt8.toNat_ofNat']
        omega
      rw [utf8EncodeChar_of_lt hlt]
      refine literalCount_ascii front _ fuel (fun h => hstop.1 ((stops_iff hnat).mpr h))
        (fun h => hesc ⟨(byteChar_ne_nul).mpr h.1, char_ext ?_⟩) ?_
      · rw [toNat_byteChar, ← h.2.1, hnat]
      · rw [UInt8.lt_iff_toNat_lt, hnat]
        exact hlt
    · rw [← List.flatMap_cons, literalCount_char front fuel hge hescape, if_neg hstop.2]
  · intro taken
    rw [hflat]
    rcases lt_or_ge c.toNat 0x80 with hlt | hge
    · rw [utf8EncodeChar_of_lt hlt]
      refine removeEscapes_cons (fun h => hesc ⟨(byteChar_ne_nul).mpr h.1, char_ext ?_⟩) taken
      rw [toNat_byteChar, ← h.2, UInt8.toNat_ofNat']
      omega
    · obtain ⟨-, -, -, -, -, hhigh⟩ := utf8EncodeChar_of_le hge
      have hlow := UInt8.lt_iff_toNat_lt.mp hescape
      refine removeEscapes_append (fun b hb hbe => ?_) taken
      have hb' := hhigh b hb
      rw [hbe] at hb'
      exact absurd hlow (by change ¬ escape.toNat < 0x80; omega)

end Counting

theorem counted_literalChars (hescape : escape < 0x80) (hwild : ¬(escape ≠ 0 ∧
      (escape = kind.wcAll ∨ escape = kind.wcOne ∨ escape = kind.wcSet))) (cs : List Char)
    (front : Bytes) (fuel : Nat) (hfuel : (cs.flatMap String.utf8EncodeChar).length < fuel) :
    Counted kind escape front (cs.flatMap String.utf8EncodeChar) fuel
      (literalChars kind (byteChar escape) cs).1
      (kind.isOpen (literalChars kind (byteChar escape) cs).2) := by
  have hstop (hne : escape ≠ 0) : ¬(escape = 0 ∨ escape = kind.wcAll ∨ escape = kind.wcOne ∨
      escape = kind.wcSet ∧ kind = .glob) := by
    rintro (h | h | h | ⟨h, -⟩)
    · exact hne h
    · exact hwild ⟨hne, .inl h⟩
    · exact hwild ⟨hne, .inr (.inl h)⟩
    · exact hwild ⟨hne, .inr (.inr h)⟩
  have hsize (c : Char) (cs : List Char) : ((c :: cs).flatMap String.utf8EncodeChar).length =
      c.utf8Size + (cs.flatMap String.utf8EncodeChar).length := by simp
  have hempty (front : Bytes) (fuel : Nat) (hfuel : 0 < fuel) :
      Counted kind escape front (([] : List Char).flatMap String.utf8EncodeChar) fuel []
        (kind.isOpen []) := by
    obtain ⟨fuel, rfl⟩ : ∃ n, fuel = n + 1 := ⟨fuel - 1, by omega⟩
    refine Counted.stop ?_
    rw [List.flatMap_nil, List.append_nil]
    exact literalCount_end front fuel
  fun_induction literalChars kind (byteChar escape) cs generalizing front fuel with
  | case1 => exact hempty front fuel (by omega)
  | case2 c h =>
      have hpos := c.utf8Size_pos
      rw [hsize] at hfuel
      obtain ⟨fuel, rfl⟩ : ∃ n, fuel = n + 2 := ⟨fuel - 2, by omega⟩
      rcases h with h | h | ⟨hne, rfl⟩
      · exact counted_stop [] hescape (.inl h)
      · exact counted_stop [] hescape (.inr h)
      · have hne := (byteChar_ne_nul).mp hne
        exact counted_dangling hescape hne (hstop hne) (.inl rfl)
  | case3 c h =>
      have hpos := c.utf8Size_pos
      rw [hsize] at hfuel
      obtain ⟨fuel, rfl⟩ : ∃ n, fuel = n + 1 := ⟨fuel - 1, by omega⟩
      rw [not_or, not_or] at h
      exact counted_plain hescape (not_or.mpr ⟨h.1, h.2.1⟩) h.2.2 (hempty _ fuel (by omega))
  | case4 c d rest h =>
      obtain ⟨fuel, rfl⟩ : ∃ n, fuel = n + 1 := ⟨fuel - 1, by omega⟩
      exact counted_stop (d :: rest) hescape h
  | case5 c rest h hesc =>
      have hpos := c.utf8Size_pos
      rw [hsize] at hfuel
      obtain ⟨fuel, rfl⟩ : ∃ n, fuel = n + 2 := ⟨fuel - 2, by omega⟩
      have hne := (byteChar_ne_nul).mp hesc.1
      rw [hesc.2]
      exact counted_dangling hescape hne (hstop hne) (.inr rfl)
  | case6 c d rest h hesc hd ih =>
      have hne := (byteChar_ne_nul).mp hesc.1
      rw [hesc.2] at hfuel ⊢
      exact counted_escape hescape hne (hstop hne) hd (fun fuel hfuel => ih _ fuel hfuel) hfuel
  | case7 c d rest h hesc ih =>
      have hpos := c.utf8Size_pos
      rw [hsize] at hfuel
      obtain ⟨fuel, rfl⟩ : ∃ n, fuel = n + 1 := ⟨fuel - 1, by omega⟩
      exact counted_plain hescape h hesc (ih _ fuel (by omega))

end Rustqlite.Codegen
