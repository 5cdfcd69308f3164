import Rustqlite.Foundation.Members
import Rustqlite.Func.Json

/-!
# JSON paths

The functions that read walk along the text of a path, the functions that edit
take it apart into segments first.  Both hold the bytes that are left in place
of a position.
-/

namespace Rustqlite.Func.Json

open Foundation Members

def badPath {α : Type} : Result α := .error (.msg "bad JSON path")

/-! ## Keys -/

def utf8Len (b : UInt8) : Nat :=
  if b < 0x80 then 1
  else if b >>> 5 = 0b110 then 2
  else if b >>> 4 = 0b1110 then 3
  else if b >>> 3 = 0b11110 then 4
  else 1

def keyUnit : Bytes → Result (Char × Bytes)
  | a :: b :: c :: d :: rest =>
      match hexDigit a, hexDigit b, hexDigit c, hexDigit d with
      | some a, some b, some c, some d =>
          match charFromU32 (((a * 16 + b) * 16 + c) * 16 + d) with
          | some ch => .ok (ch, rest)
          | none => badPath
      | _, _, _, _ => badPath
  | _ => badPath

def keyEscape : Bytes → Result (Char × Bytes)
  | [] => badPath
  | esc :: rest =>
      match shortEscapes.find? fun e => e.1.toUInt8 = esc with
      | some (_, c) => .ok (c, rest)
      | none => if esc = 'u'.toUInt8 then keyUnit rest else badPath

def keyChar (bytes : Bytes) (len : Nat) : Result (List Char × Bytes) :=
  if bytes.length < len then badPath
  else
    match fromUtf8 (bytes.take len) with
    | some cs => .ok (cs, bytes.drop len)
    | none => badPath

/-- Every turn takes a byte, so that `fuel` is not used up. -/
def quotedKey (quote : UInt8) : Nat → List Char → Bytes → Result (String × Bytes)
  | 0, _, _ | _, _, [] => badPath
  | fuel + 1, key, b :: after =>
      if b = quote then .ok (String.ofList key, after)
      else if b = '\\'.toUInt8 ∧ after ≠ [] then do
        let (c, rest) ← keyEscape after
        quotedKey quote fuel (key ++ [c]) rest
      else do
        let (cs, rest) ← keyChar (b :: after) (utf8Len b)
        quotedKey quote fuel (key ++ cs) rest

def bareKey (rest : Bytes) : Result (String × Bytes) :=
  let stays := fun b : UInt8 => b ≠ '.'.toUInt8 && b ≠ '['.toUInt8
  match rest.takeWhile stays with
  | [] => badPath
  | bytes =>
      match fromUtf8 bytes with
      | some cs => .ok (String.ofList cs, rest.dropWhile stays)
      | none => badPath

def parseKeySegment : Bytes → Result (String × Bytes)
  | [] => badPath
  | b :: after =>
      if b = '"'.toUInt8 ∨ b = 0x27 then quotedKey b (after.length + 1) [] after
      else bareKey (b :: after)

/-! ## Brackets -/

structure Bracket where
  fromEnd : Bool
  negative : Bool
  idx : Nat
  haveDigit : Bool

def maxU64 : Nat := 2 ^ 64 - 1

def saturating (ds : List Digit) : Nat :=
  ds.foldl (fun idx d => min maxU64 (min maxU64 (idx * 10) + d)) 0

def parseBracket (rest : Bytes) : Result (Bracket × Bytes) :=
  let fromEnd := (next? '#' rest).isSome
  let rest := (next? '#' rest).getD rest
  let negative := (next? '-' rest).isSome
  let rest := (next? '-' rest).getD rest
  let digits := scanDigits rest
  match next? ']' digits.2 with
  | some rest => .ok (⟨fromEnd, negative, saturating digits.1, digits.1 ≠ []⟩, rest)
  | none => badPath

def checkedSubU64 (a b : Nat) : Option Nat := if b ≤ a then some (a - b) else none

/-! ## Walking -/

def Bracket.target (b : Bracket) (len : Nat) : Result (Option Nat) :=
  if b.fromEnd then
    if b.negative then .ok (checkedSubU64 len b.idx)
    else if !b.haveDigit then .ok (some len)
    else .ok (checkedSubU64 len b.idx)
  else if b.negative then .ok (checkedSubU64 len b.idx)
  else if !b.haveDigit then badPath
  else .ok (some b.idx)

/-- Every turn takes a byte, so that `fuel` is not used up. -/
def walk : Nat → JsonNode → Bytes → Result (Option JsonNode)
  | _, node, [] => .ok (some node)
  | 0, _, _ => badPath
  | fuel + 1, node, b :: rest =>
      if b = '.'.toUInt8 then do
        let (key, rest) ← parseKeySegment rest
        match node with
        | .object entries =>
            match rfind key entries with
            | some v => walk fuel v rest
            | none => .ok none
        | _ => .ok none
      else if b = '['.toUInt8 then do
        let (bracket, rest) ← parseBracket rest
        match node with
        | .array items => do
            let target ← bracket.target items.length
            match target.bind (items[·]?) with
            | some item => walk fuel item rest
            | none => .ok none
        | _ => .ok none
      else badPath

def lookupPath (root : JsonNode) (path : String) : Result (Option JsonNode) :=
  match next? '$' (utf8Bytes path) with
  | some rest => walk rest.length root rest
  | none => .error (.msg "JSON path error near '")

/-! ## Segments -/

inductive PathSeg where
  | key (k : String)
  | index (n : Nat)
  | append
  | fromEnd (n : Nat)
  deriving DecidableEq

def Bracket.seg (b : Bracket) : Result PathSeg :=
  if b.fromEnd then
    if !b.haveDigit && !b.negative then .ok .append
    else .ok (.fromEnd b.idx)
  else if b.negative then .ok (.fromEnd b.idx)
  else if !b.haveDigit then badPath
  else .ok (.index b.idx)

/-- Every turn takes a byte, so that `fuel` is not used up. -/
def parseSegmentsLoop : Nat → List PathSeg → Bytes → Result (List PathSeg)
  | _, segs, [] => .ok segs
  | 0, _, _ => badPath
  | fuel + 1, segs, b :: rest =>
      if b = '.'.toUInt8 then do
        let (key, rest) ← parseKeySegment rest
        parseSegmentsLoop fuel (segs ++ [.key key]) rest
      else if b = '['.toUInt8 then do
        let (bracket, rest) ← parseBracket rest
        let seg ← bracket.seg
        parseSegmentsLoop fuel (segs ++ [seg]) rest
      else badPath

def parsePathSegments (path : Bytes) : Result (List PathSeg) :=
  parseSegmentsLoop path.length [] path

def inSlots (len idx : Nat) : Option Nat := if idx ≤ len then some idx else none

def resolveIndex (seg : PathSeg) (len : Nat) : Option Nat :=
  match seg with
  | .index n => inSlots len n
  | .append => inSlots len len
  | .fromEnd n => inSlots len ((checkedSubU64 len n).getD (len + 1))
  | .key _ => none

def pathExists : JsonNode → List PathSeg → Bool
  | _, [] => true
  | .object entries, .key k :: segs =>
      match rfind k entries with
      | some v => pathExists v segs
      | none => false
  | _, .key _ :: _ => false
  | .array items, seg :: segs =>
      match (resolveIndex seg items.length).bind (items[·]?) with
      | some item => pathExists item segs
      | none => false
  | _, _ :: _ => false

/-! ## One path, one node -/

def JsonNode.child : JsonNode → PathSeg → Option JsonNode
  | .object entries, .key k => rfind k entries
  | _, .key _ => none
  | .array items, seg => (resolveIndex seg items.length).bind (items[·]?)
  | _, _ => none

def JsonNode.nodeAt (node : JsonNode) : List PathSeg → Option JsonNode
  | [] => some node
  | seg :: segs => (node.child seg).bind fun next => next.nodeAt segs

theorem pathExists_cons (node : JsonNode) (seg : PathSeg) (segs : List PathSeg) :
    pathExists node (seg :: segs) = (node.child seg).any (pathExists · segs) := by
  have hany : ∀ next : Option JsonNode, (match next with
      | some item => pathExists item segs
      | none => false) = next.any (pathExists · segs) := by
    rintro (_ | _) <;> rfl
  cases node <;> cases seg <;> first | rfl | exact hany _

theorem pathExists_eq (node : JsonNode) (segs : List PathSeg) :
    pathExists node segs = (node.nodeAt segs).isSome := by
  induction segs generalizing node with
  | nil => rw [pathExists, JsonNode.nodeAt]; rfl
  | cons seg segs ih =>
      rw [pathExists_cons, JsonNode.nodeAt]
      cases node.child seg with
      | none => rfl
      | some next => exact ih next

/-! ### Brackets -/

theorem bind_resolveIndex {α : Type} (items : List α) (n : Nat) :
    (resolveIndex (.index n) items.length).bind (items[·]?) = items[n]? := by
  rw [resolveIndex, inSlots]
  split_ifs with h
  · rfl
  · exact (List.getElem?_eq_none (by omega)).symm

theorem bind_resolveIndex_append {α : Type} (items : List α) :
    (resolveIndex .append items.length).bind (items[·]?) = none := by
  simp [resolveIndex, inSlots]

theorem bind_resolveIndex_fromEnd {α : Type} (items : List α) (n : Nat) :
    (resolveIndex (.fromEnd n) items.length).bind (items[·]?) =
      (checkedSubU64 items.length n).bind (items[·]?) := by
  rw [resolveIndex, checkedSubU64]
  split_ifs with h
  · simp [inSlots]
  · simp [inSlots]

theorem target_seg {α : Type} (b : Bracket) (items : List α) :
    (b.target items.length = badPath ∧ b.seg = badPath) ∨
      ∃ target seg, b.target items.length = .ok target ∧ b.seg = .ok seg ∧ (∀ k, seg ≠ .key k) ∧
        target.bind (items[·]?) = (resolveIndex seg items.length).bind (items[·]?) := by
  obtain ⟨fromEnd, negative, idx, haveDigit⟩ := b
  unfold Bracket.target Bracket.seg
  dsimp only
  cases fromEnd with
  | true =>
      cases negative with
      | true =>
          refine .inr ⟨_, .fromEnd idx, rfl, by simp, by simp, ?_⟩
          exact (bind_resolveIndex_fromEnd ..).symm
      | false =>
          cases haveDigit with
          | true => exact .inr ⟨_, _, rfl, rfl, by simp, (bind_resolveIndex_fromEnd ..).symm⟩
          | false =>
              refine .inr ⟨_, _, rfl, rfl, by simp, ?_⟩
              rw [bind_resolveIndex_append]
              simp
  | false =>
      cases negative with
      | true => exact .inr ⟨_, _, rfl, rfl, by simp, (bind_resolveIndex_fromEnd ..).symm⟩
      | false =>
          cases haveDigit with
          | true => exact .inr ⟨_, _, rfl, rfl, by simp, (bind_resolveIndex ..).symm⟩
          | false => exact .inl ⟨rfl, rfl⟩

/-! ### Segment by segment -/

theorem child_of_bracket {items : List JsonNode} {seg : PathSeg} (h : ∀ k, seg ≠ .key k) :
    (JsonNode.array items).child seg = (resolveIndex seg items.length).bind (items[·]?) := by
  cases seg with
  | key k => exact absurd rfl (h k)
  | _ => rfl

theorem child_eq_none_of_bracket {node : JsonNode} {seg : PathSeg} (h : ∀ k, seg ≠ .key k)
    (hnode : ∀ items, node ≠ .array items) : node.child seg = none := by
  cases seg with
  | key k => exact absurd rfl (h k)
  | _ =>
      cases node with
      | array items => exact absurd rfl (hnode items)
      | _ => rfl

theorem parseSegmentsLoop_acc (fuel : Nat) (acc : List PathSeg) (rest : Bytes) :
    parseSegmentsLoop fuel acc rest = (parseSegmentsLoop fuel [] rest).map (acc ++ ·) := by
  induction fuel generalizing acc rest with
  | zero => cases rest <;> simp [parseSegmentsLoop, badPath, Except.map]
  | succ fuel ih =>
      cases rest with
      | nil => simp [parseSegmentsLoop, Except.map]
      | cons b rest =>
          simp only [parseSegmentsLoop]
          split_ifs
          · cases parseKeySegment rest with
            | error e => rfl
            | ok p =>
                simp only [Result.ok_bind, List.nil_append]
                rw [ih, ih [.key p.1]]
                cases parseSegmentsLoop fuel [] p.2 <;> simp [Except.map]
          · cases parseBracket rest with
            | error e => rfl
            | ok p =>
                simp only [Result.ok_bind]
                cases p.1.seg with
                | error e => rfl
                | ok seg =>
                    simp only [Result.ok_bind, List.nil_append]
                    rw [ih, ih [seg]]
                    cases parseSegmentsLoop fuel [] p.2 <;> simp [Except.map]
          · rfl

theorem walk_iff (fuel : Nat) (root node : JsonNode) (rest : Bytes) :
    walk fuel root rest = .ok (some node) ↔
      ∃ segs, parseSegmentsLoop fuel [] rest = .ok segs ∧ root.nodeAt segs = some node := by
  induction fuel generalizing root rest with
  | zero =>
      cases rest with
      | nil => simp [walk, parseSegmentsLoop, JsonNode.nodeAt]
      | cons b rest => simp [walk, parseSegmentsLoop, badPath]
  | succ fuel ih =>
      cases rest with
      | nil => simp [walk, parseSegmentsLoop, JsonNode.nodeAt]
      | cons b rest =>
          -- what both do once they know the segment and where it leads
          have hnext : ∀ (seg : PathSeg) (rest : Bytes),
              (∃ segs, parseSegmentsLoop fuel ([] ++ [seg]) rest = .ok segs ∧
                root.nodeAt segs = some node) ↔
              ∃ next, root.child seg = some next ∧ walk fuel next rest = .ok (some node) := by
            intro seg rest
            rw [parseSegmentsLoop_acc]
            simp only [ih]
            cases parseSegmentsLoop fuel [] rest with
            | error e => simp [Except.map]
            | ok segs => simp [Except.map, JsonNode.nodeAt, Option.bind_eq_some_iff]
          simp only [walk, parseSegmentsLoop]
          split_ifs
          · cases parseKeySegment rest with
            | error e => simp
            | ok p =>
                simp only [Result.ok_bind, hnext]
                cases root with
                | object entries =>
                    simp only [JsonNode.child]
                    cases rfind p.1 entries <;> simp
                | _ => simp [JsonNode.child]
          · cases parseBracket rest with
            | error e => simp
            | ok p =>
                simp only [Result.ok_bind]
                cases root with
                | array items =>
                    rcases target_seg p.1 items with ⟨ht, hs⟩ | ⟨target, seg, ht, hs, hkey, heq⟩
                    · simp [ht, hs, badPath]
                    · simp only [ht, hs, Result.ok_bind, hnext, child_of_bracket hkey, heq]
                      cases (resolveIndex seg items.length).bind (items[·]?) <;> simp
                | _ =>
                    rcases target_seg p.1 ([] : List JsonNode) with
                      ⟨-, hs⟩ | ⟨-, seg, -, hs, hkey, -⟩
                    · simp [hs, badPath]
                    · have hnone {node : JsonNode} (hnode : ∀ items, node ≠ .array items) :
                          node.child seg = none := child_eq_none_of_bracket hkey hnode
                      simp only [hs, Result.ok_bind, hnext]
                      rw [hnone (by simp)]
                      simp
          · simp [badPath]

theorem next?_root (path : String) :
    next? '$' (utf8Bytes ("$" ++ path)) = some (utf8Bytes path) := by
  rw [utf8Bytes, String.toList_append, List.flatMap_append]
  rfl

/--
Looking a path up finds a node exactly when the path can be taken apart and its
segments lead to one.
-/
theorem lookupPath_iff_pathExists (root : JsonNode) (path : String) :
    (∃ node, lookupPath root ("$" ++ path) = .ok (some node)) ↔
      ∃ segs, parsePathSegments (utf8Bytes path) = .ok segs ∧ pathExists root segs := by
  simp only [lookupPath, next?_root, walk_iff, parsePathSegments, pathExists_eq,
    Option.isSome_iff_exists]
  constructor
  · rintro ⟨node, segs, hsegs, hnode⟩
    exact ⟨segs, hsegs, node, hnode⟩
  · rintro ⟨segs, hsegs, node, hnode⟩
    exact ⟨node, segs, hsegs, hnode⟩

end Rustqlite.Func.Json
