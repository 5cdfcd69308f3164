import Rustqlite.Foundation.Bytes
import Rustqlite.Foundation.Probe

/-!
# The wal-index

Which frame of the log holds the newest image of a page.  Frames are indexed in
blocks; a block keeps the page number of each of its frames and a hash table
with linear probing over them.
-/

namespace Rustqlite.Pager

open Foundation

def hashtableNpage : Nat := 4096

def hashtableNpageOne : Nat := 4062

def hashtableNslot : Nat := 2 * hashtableNpage

def walHashKey (page : UInt32) : Nat := (page * 383).toNat % hashtableNslot

structure IndexBlock where
  /-- One less than the number of the block's first frame. -/
  iZero : Nat
  pageMapping : List UInt32
  hashTable : List Nat
  deriving DecidableEq

namespace IndexBlock

def new (iZero capacity : Nat) : IndexBlock where
  iZero := iZero
  pageMapping := List.replicate capacity 0
  hashTable := List.replicate hashtableNslot 0

def append (block : IndexBlock) (iFrame : Nat) (pgno : UInt32) : IndexBlock :=
  let idx := iFrame - block.iZero - 1
  { block with
    pageMapping := block.pageMapping.set idx pgno
    hashTable := probeInsert block.hashTable (idx + 1) hashtableNslot (walHashKey pgno) }

/--
The collision walk of `find_frame` through one block; `none` when it has gone
round the whole table.
-/
def scanChain (block : IndexBlock) (mxFrame : Nat) (pgno : UInt32) :
    Nat → Nat → Nat → Option Nat
  | nCollide, iKey, iRead =>
      let h := block.hashTable.getD iKey 0
      if h = 0 then some iRead
      else
        let iFrame := block.iZero + h
        let iRead :=
          if iFrame ≤ mxFrame ∧ block.pageMapping.getD ((h - 1) % hashtableNpage) 0 = pgno ∧
              iRead < iFrame then iFrame
          else iRead
        match nCollide with
        | 0 => none
        | nCollide + 1 =>
            scanChain block mxFrame pgno nCollide ((iKey + 1) % hashtableNslot) iRead

end IndexBlock

/-- The block that holds frame `iFrame`. -/
def walFramePage (iFrame : Nat) : Nat :=
  (iFrame + hashtableNpage - hashtableNpageOne - 1) / hashtableNpage

def nextBlock (blocks : List IndexBlock) : IndexBlock :=
  match blocks.getLast? with
  | none => .new 0 hashtableNpageOne
  | some prev => .new (prev.iZero + prev.pageMapping.length) hashtableNpage

def growBlocks : Nat → List IndexBlock → List IndexBlock
  | 0, blocks => blocks
  | missing + 1, blocks => growBlocks missing (blocks ++ [nextBlock blocks])

def appendFrame (blocks : List IndexBlock) (iFrame : Nat) (pgno : UInt32) : List IndexBlock :=
  let blockIdx := walFramePage iFrame
  (growBlocks (blockIdx + 1 - blocks.length) blocks).modify blockIdx (·.append iFrame pgno)

/-- Look through the first `count` blocks, newest first. -/
def findInBlocks (blocks : List IndexBlock) (mxFrame : Nat) (pgno : UInt32) : Nat → Nat
  | 0 => 0
  | count + 1 =>
      match blocks[count]? with
      | none => findInBlocks blocks mxFrame pgno count
      | some block =>
          match block.scanChain mxFrame pgno hashtableNslot (walHashKey pgno) 0 with
          | none => 0
          | some 0 => findInBlocks blocks mxFrame pgno count
          | some iRead => iRead

def findFrame (blocks : List IndexBlock) (mxFrame : Nat) (pgno : UInt32) : Nat :=
  if mxFrame = 0 then 0 else findInBlocks blocks mxFrame pgno (walFramePage mxFrame + 1)

def indexFrames (blocks : List IndexBlock) (first : Nat) : List UInt32 → List IndexBlock
  | [] => blocks
  | pgno :: pgnos => indexFrames (appendFrame blocks first pgno) (first + 1) pgnos

theorem indexFrames_append (blocks : List IndexBlock) (first : Nat) (a b : List UInt32) :
    indexFrames blocks first (a ++ b) =
      indexFrames (indexFrames blocks first a) (first + a.length) b := by
  induction a generalizing blocks first with
  | nil => rfl
  | cons p a ih =>
      rw [List.cons_append, indexFrames, indexFrames, ih, List.length_cons]
      congr 1
      omega

/-! ## What the index answers -/

def newestFrame (pgno : UInt32) : List UInt32 → Nat
  | [] => 0
  | p :: pgnos =>
      if newestFrame pgno pgnos = 0 then if p = pgno then 1 else 0
      else newestFrame pgno pgnos + 1

variable {pgno : UInt32} {pgnos : List UInt32} {blocks : List IndexBlock}

section

attribute [local simp] newestFrame

theorem newestFrame_append (pgno : UInt32) (a b : List UInt32) :
    newestFrame pgno (a ++ b) =
      if newestFrame pgno b = 0 then newestFrame pgno a
      else a.length + newestFrame pgno b := by
  induction a with
  | nil => simp [newestFrame]
  | cons p a ih =>
      simp only [List.cons_append, newestFrame, ih, List.length_cons]
      split_ifs <;> omega

theorem newestFrame_eq_zero_iff (pgno : UInt32) (pgnos : List UInt32) :
    newestFrame pgno pgnos = 0 ↔ pgno ∉ pgnos := by
  induction pgnos with
  | nil => simp [newestFrame]
  | cons p pgnos ih =>
      simp only [newestFrame, List.mem_cons, not_or, ← ih]
      constructor
      · intro h
        split_ifs at h with h0 hp
        exact ⟨Ne.symm hp, h0⟩
      · rintro ⟨hp, h0⟩
        rw [if_pos h0, if_neg (Ne.symm hp)]

theorem newestFrame_spec (h : newestFrame pgno pgnos ≠ 0) :
    pgnos[newestFrame pgno pgnos - 1]? = some pgno := by
  induction pgnos with
  | nil => simp [newestFrame] at h
  | cons p pgnos ih =>
      simp only [newestFrame] at h ⊢
      split_ifs at h ⊢ with h0 hp
      · simp [hp]
      · exact absurd rfl h
      · have := ih h0
        obtain ⟨n, hn⟩ : ∃ n, newestFrame pgno pgnos = n + 1 := ⟨_, (Nat.succ_pred h0).symm⟩
        rw [hn] at this ⊢
        simpa using this

end

theorem newestFrame_eq {v : Nat} (hv : 1 ≤ v) (hat : pgnos[v - 1]? = some pgno)
    (hlast : ∀ k, pgnos[k]? = some pgno → k + 1 ≤ v) : newestFrame pgno pgnos = v := by
  have hne : newestFrame pgno pgnos ≠ 0 := by
    rw [ne_eq, newestFrame_eq_zero_iff, not_not]
    exact List.mem_of_getElem? hat
  have hle := hlast _ (newestFrame_spec hne)
  have hsplit : pgnos = pgnos.take (v - 1) ++ pgno :: pgnos.drop v := by
    obtain ⟨hlt, heq⟩ := List.getElem?_eq_some_iff.mp hat
    conv_lhs => rw [← List.take_append_drop (v - 1) pgnos, List.drop_eq_getElem_cons hlt, heq,
      Nat.sub_add_cancel hv]
  have hlen : (pgnos.take (v - 1)).length = v - 1 := by
    have := (List.getElem?_eq_some_iff.mp hat).1
    rw [List.length_take]
    omega
  have happ := newestFrame_append pgno (pgnos.take (v - 1)) (pgno :: pgnos.drop v)
  have hpos : newestFrame pgno (pgno :: pgnos.drop v) ≠ 0 := by
    rw [ne_eq, newestFrame_eq_zero_iff, not_not]
    exact List.mem_cons_self
  rw [← hsplit, hlen, if_neg hpos] at happ
  omega

theorem newestFrame_ge {f : Nat} (hf : 1 ≤ f) (hat : pgnos[f - 1]? = some pgno) :
    f ≤ newestFrame pgno pgnos := by
  induction pgnos generalizing f with
  | nil => simp at hat
  | cons p pgnos ih =>
      simp only [newestFrame]
      obtain _ | _ | f := f
      · exact Nat.zero_le _
      · obtain rfl : p = pgno := by simpa using hat
        rw [if_pos rfl]
        split_ifs <;> simp
      · have hle := ih (f := f + 1) (Nat.le_add_left 1 f) (by simpa using hat)
        rw [if_neg (by omega)]
        exact Nat.succ_le_succ hle

/-! ## One block -/

structure IndexBlock.Holds (block : IndexBlock) (iZero capacity : Nat) (pgnos : List UInt32) :
    Prop where
  iZero_eq : block.iZero = iZero
  length_mapping : block.pageMapping.length = capacity
  mapping : ∀ k p, pgnos[k]? = some p → block.pageMapping.getD k 0 = p
  length_table : block.hashTable.length = hashtableNslot
  probed : Probed walHashKey block.hashTable pgnos

namespace IndexBlock

theorem walHashKey_lt (pgno : UInt32) : walHashKey pgno < hashtableNslot :=
  Nat.mod_lt _ (by decide)

theorem holds_new (iZero capacity : Nat) : (new iZero capacity).Holds iZero capacity [] where
  iZero_eq := rfl
  length_mapping := by simp [new]
  mapping := by simp
  length_table := by simp [new]
  probed := Probed.empty _ _

variable {block : IndexBlock} {iZero capacity : Nat}

theorem Holds.append (h : block.Holds iZero capacity pgnos) (hroom : pgnos.length < capacity)
    (hcap : capacity ≤ hashtableNpage) (pgno : UInt32) :
    (block.append (iZero + pgnos.length + 1) pgno).Holds iZero capacity (pgnos ++ [pgno]) := by
  have hidx : iZero + pgnos.length + 1 - block.iZero - 1 = pgnos.length := by
    rw [h.iZero_eq]
    omega
  have hslots : hashtableNpage ≤ hashtableNslot := by decide
  refine ⟨h.iZero_eq, ?_, ?_, ?_, ?_⟩
  · simp [IndexBlock.append, h.length_mapping]
  · intro k p hk
    simp only [IndexBlock.append, hidx]
    by_cases hlast : k = pgnos.length
    · subst hlast
      rw [List.getElem?_concat_length, Option.some.injEq] at hk
      simp [List.getD_eq_getElem?_getD, h.length_mapping, hroom, hk]
    · have hlt : k < pgnos.length := by
        have := (List.getElem?_eq_some_iff.mp hk).1
        simp only [List.length_append, List.length_singleton] at this
        omega
      rw [List.getElem?_append_left hlt] at hk
      rw [List.getD_eq_getElem?_getD, List.getElem?_set_ne (Ne.symm hlast),
        ← List.getD_eq_getElem?_getD]
      exact h.mapping k p hk
  · simp only [IndexBlock.append, hidx]
    rw [length_probeInsert, h.length_table]
  · simp only [IndexBlock.append, hidx]
    rw [← h.length_table]
    exact h.probed.insert (by rw [h.length_table]; exact walHashKey_lt)
      (by rw [h.length_table]; omega) pgno

def pick (block : IndexBlock) (mxFrame : Nat) (pgno : UInt32) (iRead h : Nat) : Nat :=
  if block.iZero + h ≤ mxFrame ∧ block.pageMapping.getD ((h - 1) % hashtableNpage) 0 = pgno ∧
      iRead < block.iZero + h then block.iZero + h
  else iRead

theorem scanChain_eq (hlen : block.hashTable.length = hashtableNslot) (mxFrame : Nat)
    (pgno : UInt32) :
    ∀ nCollide d iKey iRead, iKey < hashtableNslot → EmptyAfter block.hashTable iKey d →
      d ≤ nCollide →
      block.scanChain mxFrame pgno nCollide iKey iRead =
        some ((chain block.hashTable nCollide iKey).foldl (block.pick mxFrame pgno) iRead) := by
  intro nCollide
  induction nCollide with
  | zero =>
      intro d iKey iRead hkey hempty hd
      obtain rfl : d = 0 := by omega
      have hzero := hempty.1
      rw [slotAfter_zero (by omega)] at hzero
      unfold scanChain chain
      simp only [hzero, if_true, List.foldl_nil]
  | succ nCollide ih =>
      intro d iKey iRead hkey hempty hd
      unfold scanChain chain
      cases d with
      | zero =>
          have hzero := hempty.1
          rw [slotAfter_zero (by omega)] at hzero
          simp only [hzero, if_true, List.foldl_nil]
      | succ d =>
          have hfull := hempty.2 0 (by omega)
          rw [slotAfter_zero (by omega)] at hfull
          have hstep := hempty.step
          rw [hlen] at hstep
          simp only [hfull, if_false, List.foldl_cons, hlen]
          exact ih d _ _ (Nat.mod_lt _ (by decide)) hstep (by omega)

theorem foldl_pick (block : IndexBlock) (mxFrame : Nat) (pgno : UInt32) (entries : List Nat) :
    ∀ iRead, let r := entries.foldl (block.pick mxFrame pgno) iRead
      iRead ≤ r ∧
      (∀ h ∈ entries, block.iZero + h ≤ mxFrame →
        block.pageMapping.getD ((h - 1) % hashtableNpage) 0 = pgno → block.iZero + h ≤ r) ∧
      (r = iRead ∨ ∃ h ∈ entries, r = block.iZero + h ∧ block.iZero + h ≤ mxFrame ∧
        block.pageMapping.getD ((h - 1) % hashtableNpage) 0 = pgno) := by
  induction entries with
  | nil => simp
  | cons e entries ih =>
      intro iRead
      obtain ⟨hge, hall, hfrom⟩ := ih (block.pick mxFrame pgno iRead e)
      have hpick : iRead ≤ block.pick mxFrame pgno iRead e := by
        unfold pick
        split_ifs <;> omega
      refine ⟨hpick.trans hge, ?_, ?_⟩
      · intro h hh hle hmap
        rcases List.mem_cons.mp hh with rfl | hh
        · refine le_trans ?_ hge
          unfold pick
          split_ifs with hc
          · exact le_refl _
          · push Not at hc
            exact hc hle hmap
        · exact hall h hh hle hmap
      · rcases hfrom with heq | ⟨h, hh, heq, hmap⟩
        · rw [List.foldl_cons, heq]
          unfold pick
          split_ifs with hc
          · exact .inr ⟨e, List.mem_cons_self, rfl, hc.1, hc.2.1⟩
          · exact .inl rfl
        · exact .inr ⟨h, List.mem_cons_of_mem e hh, heq, hmap⟩

theorem Holds.scanChain (h : block.Holds iZero capacity pgnos)
    (hroom : pgnos.length ≤ hashtableNpage) (mxFrame : Nat) (pgno : UInt32) :
    block.scanChain mxFrame pgno hashtableNslot (walHashKey pgno) 0 =
      some (if newestFrame pgno (pgnos.take (mxFrame - iZero)) = 0 then 0
        else iZero + newestFrame pgno (pgnos.take (mxFrame - iZero))) := by
  have hkey : walHashKey pgno < block.hashTable.length := by
    rw [h.length_table]
    exact walHashKey_lt pgno
  have hnpage : hashtableNpage < hashtableNslot := by decide
  obtain ⟨d, hd, hempty⟩ := exists_emptyAfter
    (h.probed.used.trans_lt (by rw [h.length_table]; omega)) hkey
  rw [h.length_table] at hd
  rw [scanChain_eq h.length_table mxFrame pgno _ d _ _ (walHashKey_lt pgno) hempty (by omega)]
  congr 1
  obtain ⟨-, hall, hfrom⟩ :=
    block.foldl_pick mxFrame pgno (chain block.hashTable hashtableNslot (walHashKey pgno)) 0
  set r := (chain block.hashTable hashtableNslot (walHashKey pgno)).foldl
    (block.pick mxFrame pgno) 0
  -- an entry of the walk stands for one of the block's frames
  have hentry : ∀ e ∈ chain block.hashTable hashtableNslot (walHashKey pgno),
      1 ≤ e ∧ e ≤ pgnos.length ∧
        pgnos[e - 1]? = some (block.pageMapping.getD ((e - 1) % hashtableNpage) 0) := by
    intro e he
    obtain ⟨h1, hle⟩ := h.probed.entry_of_mem_chain hkey he
    refine ⟨h1, hle, ?_⟩
    have hat := List.getElem?_eq_getElem (l := pgnos) (i := e - 1) (by omega)
    rw [hat, Nat.mod_eq_of_lt (by omega), h.mapping _ _ hat]
  -- and every frame for the page is met that is not past `mxFrame`
  have hmet : ∀ k, (pgnos.take (mxFrame - iZero))[k]? = some pgno → iZero + (k + 1) ≤ r := by
    intro k hk
    obtain ⟨hlt, -⟩ := List.getElem?_eq_some_iff.mp hk
    rw [List.length_take] at hlt
    rw [List.getElem?_take_of_lt (by omega)] at hk
    obtain ⟨hlt', heq⟩ := List.getElem?_eq_some_iff.mp hk
    have hin := h.probed.placed k hlt'
    rw [heq, h.length_table] at hin
    rw [← h.iZero_eq]
    refine hall (k + 1) hin (by rw [h.iZero_eq]; omega) ?_
    rw [Nat.add_sub_cancel, Nat.mod_eq_of_lt (by omega), h.mapping k pgno hk]
  rcases hfrom with hzero | ⟨e, he, hr, hmx, hmap⟩
  · have hnone : newestFrame pgno (pgnos.take (mxFrame - iZero)) = 0 := by
      rw [newestFrame_eq_zero_iff]
      intro hin
      obtain ⟨k, hk⟩ := List.mem_iff_getElem?.mp hin
      have := hmet k hk
      omega
    rw [if_pos hnone, hzero]
  · obtain ⟨h1, -, hat⟩ := hentry e he
    rw [hmap] at hat
    rw [h.iZero_eq] at hr hmx
    have hnewest : newestFrame pgno (pgnos.take (mxFrame - iZero)) = e := by
      refine newestFrame_eq h1 ?_ fun k hk => ?_
      · rw [List.getElem?_take_of_lt (by omega), hat]
      · have := hmet k hk
        omega
    rw [hnewest, if_neg (by omega), hr]

end IndexBlock

/-! ## All blocks -/

def blockStart (b : Nat) : Nat := hashtableNpage * b - (hashtableNpage - hashtableNpageOne)

def blockPages (pgnos : List UInt32) (b : Nat) : List UInt32 :=
  (pgnos.drop (blockStart b)).take (blockStart (b + 1) - blockStart b)

structure Indexed (blocks : List IndexBlock) (pgnos : List UInt32) : Prop where
  length_blocks : blocks.length = if pgnos = [] then 0 else walFramePage pgnos.length + 1
  holds : ∀ (b : Nat) (block : IndexBlock), blocks[b]? = some block →
    block.Holds (blockStart b) (blockStart (b + 1) - blockStart b) (blockPages pgnos b)

theorem indexed_nil : Indexed [] [] where
  length_blocks := rfl
  holds := by simp

theorem blockStart_walFramePage (n : Nat) :
    blockStart (walFramePage (n + 1)) ≤ n ∧ n < blockStart (walFramePage (n + 1) + 1) := by
  simp only [blockStart, walFramePage, hashtableNpage, hashtableNpageOne]
  omega

theorem length_blockPages_le (pgnos : List UInt32) (b : Nat) :
    (blockPages pgnos b).length ≤ hashtableNpage := by
  simp only [blockPages, blockStart, List.length_take, hashtableNpage, hashtableNpageOne]
  omega

theorem blockPages_take (pgnos : List UInt32) (b mxFrame : Nat) :
    (blockPages pgnos b).take (mxFrame - blockStart b) = blockPages (pgnos.take mxFrame) b := by
  rw [blockPages, blockPages, List.drop_take, List.take_take, List.take_take, Nat.min_comm]

theorem Indexed.length_le_blockStart (h : Indexed blocks pgnos) {b : Nat} (hb : blocks[b]? = none) :
    pgnos.length ≤ blockStart b := by
  have hcount := h.length_blocks
  rw [List.getElem?_eq_none_iff, hcount] at hb
  split_ifs at hb with hnil
  · simp [hnil]
  · have hpos : 0 < pgnos.length := List.length_pos_iff.mpr hnil
    simp only [blockStart, walFramePage, hashtableNpage, hashtableNpageOne] at hb ⊢
    omega

theorem Indexed.holds_nextBlock (h : Indexed blocks pgnos) :
    (nextBlock blocks).Holds (blockStart blocks.length)
      (blockStart (blocks.length + 1) - blockStart blocks.length) [] := by
  unfold nextBlock
  cases hlast : blocks.getLast? with
  | none =>
      have hnil : blocks = [] := List.getLast?_eq_none_iff.mp hlast
      subst hnil
      exact IndexBlock.holds_new _ _
  | some prev =>
      have hne : blocks ≠ [] := by
        rintro rfl
        simp at hlast
      have hpos : 0 < blocks.length := List.length_pos_iff.mpr hne
      rw [List.getLast?_eq_getElem?] at hlast
      have hprev := h.holds _ _ hlast
      have hstart : prev.iZero + prev.pageMapping.length = blockStart blocks.length := by
        rw [hprev.iZero_eq, hprev.length_mapping]
        simp only [blockStart, hashtableNpage, hashtableNpageOne]
        omega
      have hcap : blockStart (blocks.length + 1) - blockStart blocks.length = hashtableNpage := by
        simp only [blockStart, hashtableNpage, hashtableNpageOne]
        omega
      simp only [hstart, hcap]
      exact IndexBlock.holds_new _ _

theorem Indexed.append (h : Indexed blocks pgnos) (pgno : UInt32) :
    Indexed (appendFrame blocks (pgnos.length + 1) pgno) (pgnos ++ [pgno]) := by
  obtain ⟨hlo, hhi⟩ := blockStart_walFramePage pgnos.length
  set b := walFramePage (pgnos.length + 1) with hb
  -- at most one block is missing, and then it is the next one
  have hgrow : ∃ grown, growBlocks (b + 1 - blocks.length) blocks = grown ∧
      grown.length = b + 1 ∧ ∀ (i : Nat) (block : IndexBlock), grown[i]? = some block →
        block.Holds (blockStart i) (blockStart (i + 1) - blockStart i) (blockPages pgnos i) := by
    have hcount := h.length_blocks
    by_cases hnew : blocks.length = b
    · refine ⟨blocks ++ [nextBlock blocks], ?_, by simp [hnew], ?_⟩
      · rw [hnew, show b + 1 - b = 1 by omega]
        rfl
      · intro i block hi
        by_cases hlt : i < blocks.length
        · rw [List.getElem?_append_left hlt] at hi
          exact h.holds i block hi
        · have hib : i = blocks.length := by
            have := (List.getElem?_eq_some_iff.mp hi).1
            simp only [List.length_append, List.length_singleton] at this
            omega
          subst hib
          rw [List.getElem?_concat_length, Option.some.injEq] at hi
          have hempty : blockPages pgnos blocks.length = [] := by
            have hstart : pgnos.length ≤ blockStart blocks.length := by
              rw [h.length_blocks]
              split_ifs with hnil
              · simp [hnil]
              · have hpos : 0 < pgnos.length := List.length_pos_iff.mpr hnil
                simp only [blockStart, walFramePage, hashtableNpage, hashtableNpageOne]
                omega
            rw [blockPages, List.drop_eq_nil_of_le hstart, List.take_nil]
          rw [hempty, ← hi]
          exact h.holds_nextBlock
    · have hsame : blocks.length = b + 1 := by
        by_cases hnil : pgnos = []
        · rw [hcount, if_pos hnil, hb, hnil] at hnew
          exact absurd (by decide) hnew
        · have hpos : 0 < pgnos.length := List.length_pos_iff.mpr hnil
          rw [hcount, if_neg hnil] at hnew ⊢
          simp only [hb, walFramePage, hashtableNpage, hashtableNpageOne] at hnew ⊢
          omega
      exact ⟨blocks, by rw [hsame, Nat.sub_self]; rfl, hsame, h.holds⟩
  obtain ⟨grown, hgrown, hlen, hholds⟩ := hgrow
  rw [appendFrame, ← hb, hgrown]
  refine ⟨?_, ?_⟩
  · simp [List.length_modify, hlen, ← hb]
  · intro i block hi
    rw [List.getElem?_modify] at hi
    obtain ⟨old, hold, rfl⟩ := Option.map_eq_some_iff.mp hi
    have hpages := hholds i old hold
    by_cases hib : b = i
    · subst hib
      rw [if_pos rfl]
      have hkeys : (blockPages pgnos b).length = pgnos.length - blockStart b := by
        simp only [blockPages, List.length_take, List.length_drop]
        omega
      have happ : blockPages (pgnos ++ [pgno]) b = blockPages pgnos b ++ [pgno] := by
        rw [blockPages, List.drop_append_of_le_length hlo, List.take_of_length_le, blockPages,
          List.take_of_length_le]
        · rw [List.length_drop]
          omega
        · simp only [List.length_append, List.length_drop, List.length_singleton]
          omega
      have hcap : blockStart (b + 1) - blockStart b ≤ hashtableNpage := by
        simp only [blockStart, hashtableNpage, hashtableNpageOne]
        omega
      have hnew := hpages.append (by omega) hcap pgno
      rw [hkeys, show blockStart b + (pgnos.length - blockStart b) = pgnos.length by omega] at hnew
      rw [happ]
      exact hnew
    · rw [if_neg hib]
      have hlt : i < b := by
        have := (List.getElem?_eq_some_iff.mp hold).1
        omega
      have hbound : blockStart (i + 1) ≤ pgnos.length := by
        refine le_trans ?_ hlo
        simp only [blockStart, hashtableNpage, hashtableNpageOne]
        omega
      have hsame : blockPages (pgnos ++ [pgno]) i = blockPages pgnos i := by
        have hmono : blockStart i ≤ blockStart (i + 1) := by
          simp only [blockStart, hashtableNpage, hashtableNpageOne]
          omega
        rw [blockPages, List.drop_append_of_le_length (by omega), List.take_append_of_le_length]
        · rfl
        · rw [List.length_drop]
          omega
      rw [hsame]
      exact hpages

theorem Indexed.indexFrames {blocks : List IndexBlock} {pgnos : List UInt32}
    (h : Indexed blocks pgnos) (more : List UInt32) :
    Indexed (indexFrames blocks (pgnos.length + 1) more) (pgnos ++ more) := by
  induction more generalizing blocks pgnos with
  | nil => simpa [Pager.indexFrames] using h
  | cons pgno more ih =>
      have hstep := ih (h.append pgno)
      rw [List.length_append, List.length_singleton, List.append_assoc,
        List.singleton_append] at hstep
      exact hstep

theorem Indexed.findFrame_take (h : Indexed blocks pgnos) (mxFrame : Nat) (pgno : UInt32) :
    Pager.findFrame blocks mxFrame pgno = newestFrame pgno (pgnos.take mxFrame) := by
  have hblocks : ∀ count, findInBlocks blocks mxFrame pgno count =
      newestFrame pgno ((pgnos.take mxFrame).take (blockStart count)) := by
    intro count
    induction count with
    | zero => simp [findInBlocks, blockStart, newestFrame]
    | succ count ih =>
        have hmono : blockStart count ≤ blockStart (count + 1) := by
          simp only [blockStart, hashtableNpage, hashtableNpageOne]
          omega
        rw [findInBlocks]
        cases hat : blocks[count]? with
        | none =>
            -- past the last block there are no frames
            have hlen : pgnos.length ≤ blockStart count := h.length_le_blockStart hat
            have hshort : (pgnos.take mxFrame).length ≤ blockStart count := by
              rw [List.length_take]
              omega
            simp only [ih]
            rw [List.take_of_length_le hshort, List.take_of_length_le (hshort.trans hmono)]
        | some block =>
            have hscan := (h.holds count block hat).scanChain (length_blockPages_le pgnos count)
              mxFrame pgno
            rw [blockPages_take] at hscan
            have hsplit : (pgnos.take mxFrame).take (blockStart (count + 1)) =
                (pgnos.take mxFrame).take (blockStart count) ++
                  blockPages (pgnos.take mxFrame) count := by
              rw [blockPages, ← List.take_add, Nat.add_sub_cancel' hmono]
            rw [hsplit, newestFrame_append]
            simp only [hscan]
            by_cases hzero : newestFrame pgno (blockPages (pgnos.take mxFrame) count) = 0
            · simp only [hzero, if_true]
              exact ih
            · have hstart : blockStart count ≤ (pgnos.take mxFrame).length := by
                by_contra hlt
                rw [blockPages, List.drop_of_length_le (by omega)] at hzero
                exact hzero (by simp [newestFrame])
              rw [if_neg hzero, List.length_take, Nat.min_eq_left hstart, if_neg hzero]
              split
              · next heq => simp at heq
              · next heq =>
                  simp only [Option.some.injEq] at heq
                  omega
              · next heq => simpa using heq.symm
  rw [Pager.findFrame]
  split_ifs with hmx
  · simp [hmx, newestFrame]
  · rw [hblocks, List.take_of_length_le]
    rw [List.length_take]
    simp only [blockStart, walFramePage, hashtableNpage, hashtableNpageOne]
    omega

theorem Indexed.findFrame {blocks : List IndexBlock} {pgnos : List UInt32}
    (h : Indexed blocks pgnos) (pgno : UInt32) :
    findFrame blocks pgnos.length pgno = newestFrame pgno pgnos := by
  rw [h.findFrame_take, List.take_length]

/-- Frame `f` of a log holds page `pgno`. -/
def FrameFor (pgnos : List UInt32) (pgno : UInt32) (f : Nat) : Prop :=
  1 ≤ f ∧ pgnos[f - 1]? = some pgno

/--
The frame found is the last one for the page that is not past `mxFrame`; there
is none exactly when 0 is answered.
-/
theorem findFrame_isGreatest (pgnos : List UInt32) (mxFrame : Nat) (pgno : UInt32) :
    IsGreatest {f | f ≤ mxFrame ∧ FrameFor pgnos pgno f}
        (findFrame (indexFrames [] 1 pgnos) mxFrame pgno) ∨
      findFrame (indexFrames [] 1 pgnos) mxFrame pgno = 0 ∧
        ∀ f ≤ mxFrame, ¬FrameFor pgnos pgno f := by
  have hfind := ((indexed_nil).indexFrames pgnos).findFrame_take mxFrame pgno
  simp only [List.length_nil, List.nil_append] at hfind
  rw [hfind]
  -- the frames up to `mxFrame` are those of a shorter log
  have hshort : ∀ f, f ≤ mxFrame ∧ FrameFor pgnos pgno f ↔
      1 ≤ f ∧ (pgnos.take mxFrame)[f - 1]? = some pgno := by
    intro f
    rw [FrameFor, List.getElem?_take]
    split_ifs <;> simp <;> omega
  by_cases hzero : newestFrame pgno (pgnos.take mxFrame) = 0
  · refine .inr ⟨hzero, fun f hf hframe => ?_⟩
    have hmem := List.mem_of_getElem? ((hshort f).mp ⟨hf, hframe⟩).2
    exact (newestFrame_eq_zero_iff pgno _).mp hzero hmem
  · refine .inl ⟨(hshort _).mpr ⟨Nat.pos_of_ne_zero hzero, newestFrame_spec hzero⟩, ?_⟩
    intro f hf
    obtain ⟨hf1, hat⟩ := (hshort f).mp hf
    exact newestFrame_ge hf1 hat

end Rustqlite.Pager
