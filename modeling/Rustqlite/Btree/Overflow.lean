import Rustqlite.Btree.CellBuild
import Rustqlite.Btree.TableTree
import Rustqlite.Pager.Freelist

/-!
# Cells that spill

A cell that was built with a chain of overflow pages is read back as the payload
that it was built from, and takes as many bytes on its page as the functions
that measure cells say.
-/

namespace Rustqlite.Btree

open Foundation Format Pager Reading FileM

/-! ## Reading a chain -/

/-- The pages of a chain hold `tail`, and all but the last one are full. -/
def Filled (view : UInt32 → Result Bytes) (usable : Nat) : List UInt32 → Bytes → Prop
  | [], tail => tail = []
  | pgno :: chain, tail => tail ≠ [] ∧ (chain ≠ [] → usable - 4 ≤ tail.length) ∧
      (∃ page, view pgno = .ok page ∧
        slice page 4 (tail.take (usable - 4)).length = tail.take (usable - 4)) ∧
      Filled view usable chain (tail.drop (usable - 4))

variable {chain : List UInt32} {tail payload : Bytes} {overflow : Option UInt32}
  {n usable maxLocal : Nat} {p : PagerState × World DbFile} {trunks : List (UInt32 × List UInt32)}
  {curr : UInt32}

section Chain

variable {view view' : UInt32 → Result Bytes} {usable : Nat}

theorem Filled.length_le (h : Filled view usable chain tail) :
    tail.length ≤ chain.length * (usable - 4) := by
  induction chain generalizing tail with
  | nil =>
      obtain rfl : tail = [] := h
      simp
  | cons pgno chain ih =>
      have hrest := ih h.2.2.2
      rw [List.length_drop] at hrest
      rw [List.length_cons, Nat.succ_mul]
      omega

theorem assembleLoop_filled (husable : 4 < usable) {next : Option UInt32} (payload : Bytes)
    {left : Nat} (hlinked : Linked view (next.getD 0) chain)
    (hfilled : Filled view usable chain tail) (hleft : tail.length ≤ left) :
    (assembleLoop usable (payload.length + tail.length) left next payload).eval view =
      .ok (payload ++ tail) := by
  induction chain generalizing next tail payload left with
  | nil =>
      obtain rfl : tail = [] := hfilled
      cases left with
      | zero => simp [assembleLoop]
      | succ left => simp [assembleLoop]
  | cons pgno chain ih =>
      obtain ⟨hnext, hne0, page, hpage, hlinked⟩ := hlinked
      obtain ⟨hne, -, ⟨page', hpage', hchunk⟩, hrest⟩ := hfilled
      obtain rfl : page = page' := by
        rw [hpage] at hpage'
        exact Except.ok.inj hpage'
      have hsome : next = some pgno := by
        cases next with
        | none => exact absurd hnext.symm hne0
        | some q => exact congrArg some hnext
      subst hsome
      have hpos : 0 < tail.length := List.length_pos_iff.mpr hne
      cases left with
      | zero => omega
      | succ left =>
          have hwant : min (payload.length + tail.length - payload.length) (usable - 4) =
              (tail.take (usable - 4)).length := by
            rw [List.length_take]
            omega
          have hlong : ¬ page.length < 4 + (tail.take (usable - 4)).length := by
            have := congrArg List.length hchunk
            rw [length_slice, List.length_take] at this
            rw [List.length_take]
            omega
          have hlinked' : Linked view
              ((if readBe32 page = 0 then none else some (readBe32 page)).getD 0) chain := by
            split_ifs with hzero
            · simpa [hzero] using hlinked
            · exact hlinked
          have hleft' : (tail.drop (usable - 4)).length ≤ left := by
            rw [List.length_drop]
            omega
          have hih := ih (payload ++ tail.take (usable - 4)) hlinked' hrest hleft'
          rw [List.append_assoc, List.take_append_drop] at hih
          rw [assembleLoop, if_pos (by omega)]
          simp only [ne_eq, hne0, not_false_eq_true, decide_true, Option.filter_some, if_true,
            eval_bind, eval_getPage, hpage, Result.ok_bind, hwant, if_neg hlong, hchunk]
          convert hih using 2
          simp only [List.length_append, List.length_take, List.length_drop]
          congr 1
          omega

theorem assemble_filled (husable : 4 < usable) (hlinked : Linked view (overflow.getD 0) chain)
    (hfilled : Filled view usable chain (payload.drop n)) (hn : n ≤ payload.length) :
    (assemble usable payload.length (payload.take n) overflow).eval view = .ok payload := by
  have hlen : (payload.take n).length + (payload.drop n).length = payload.length := by
    rw [List.length_take, List.length_drop]
    omega
  have hleft : (payload.drop n).length ≤ payload.length - (payload.take n).length := by
    rw [List.length_take, List.length_drop]
    omega
  have hloop := assembleLoop_filled husable (payload.take n) hlinked hfilled hleft
  rw [hlen, List.take_append_drop] at hloop
  simp only [assemble, eval_bind, hloop, Result.ok_bind, Nat.lt_irrefl, if_false, List.take_length]
  rfl

end Chain

/-! ## Writing a chain -/

/--
What building a cell leaves: the pages of `chain` are in use now, and everything
that was in use before is shown as before, but for `S`.
-/
structure Spilled (p q : PagerState × World DbFile) (trunks rest : List (UInt32 × List UInt32))
    (S : Set UInt32) (chain : List UInt32) : Prop where
  grows : Grows p q { x | x ∈ freePages trunks ∨ x ∈ S }
  freelist : Freelist q rest
  rest_subset : ∀ x ∈ freePages rest, x ∈ freePages trunks
  nodup : chain.Nodup
  not_free : ∀ x ∈ chain, x ∉ freePages rest
  source : ∀ x ∈ chain, x ∈ S ∨ x ∈ freePages trunks ∨ p.1.pageCount < x
  le : ∀ x ∈ chain, x ≤ q.1.pageCount
  complete : Complete p → Complete q

section Page

variable {pageSize : Nat} {next : UInt32} {chunk : Bytes}

theorem length_overflowPageBytes (next : UInt32) (h : 4 + chunk.length ≤ pageSize) :
    (overflowPageBytes pageSize next chunk).length = pageSize := by
  have hinner : (splice (List.replicate pageSize 0) 0 (be32 next)).length = pageSize := by
    rw [length_splice (by simp; omega), List.length_replicate]
  rw [overflowPageBytes, length_splice (by omega), hinner]

theorem readBe32_overflowPageBytes (h : 4 + chunk.length ≤ pageSize) :
    readBe32 (overflowPageBytes pageSize next chunk) = next := by
  have hinner : (splice (List.replicate pageSize 0) 0 (be32 next)).length = pageSize := by
    rw [length_splice (by simp; omega), List.length_replicate]
  have hfits : 4 + chunk.length ≤ (splice (List.replicate pageSize 0) 0 (be32 next)).length := by
    omega
  have := readBe32_splice (i := 0) hfits (.inl (by omega))
  rw [List.drop_zero, List.drop_zero] at this
  rw [overflowPageBytes, this, splice, List.take_zero, List.nil_append, readBe32_be32_append]

theorem slice_overflowPageBytes (h : 4 + chunk.length ≤ pageSize) :
    slice (overflowPageBytes pageSize next chunk) 4 chunk.length = chunk := by
  apply slice_splice_same
  rw [length_splice (by simp; omega), List.length_replicate]
  omega

end Page

theorem writeOverflowPage_ok (hp : p.2.failAt = none) (h : Freelist p trunks) (next : UInt32)
    {chunk : Bytes} (h0 : curr ≠ 0) (hle : curr ≤ p.1.pageCount) (hfree : curr ∉ freePages trunks)
    (hchunk : 4 + chunk.length ≤ p.1.pageSize) :
    ∃ q, tryResult (writePage curr (overflowPageBytes p.1.pageSize next chunk)) p =
        .ok (.ok ()) q ∧ Changes p q {curr} ∧ Freelist q trunks ∧
      ∃ page, pageSeen q.1 q.2.disk curr = .ok page ∧ readBe32 page = next ∧
        slice page 4 chunk.length = chunk := by
  have hlen := length_overflowPageBytes next hchunk
  have hch := changes_written hp curr hlen
  refine ⟨_, tryResult_ok (writePage_ok _ hlen), hch, ?_, _,
    pageSeen_written p.1 p.2.disk _ h0 (UInt32.le_trans hle (effectiveCount_ge p.1)),
    readBe32_overflowPageBytes hchunk, slice_overflowPageBytes hchunk⟩
  refine h.changes hch rfl fun x hx => ?_
  rintro rfl
  exact hfree hx

section Compose

variable {p r w q : PagerState × World DbFile} {trunks rest rest' : List (UInt32 × List UInt32)}
  {next : UInt32} {chain : List UInt32}

theorem Spilled.of_allocated {S : Set UInt32} (halloc : Allocated p r trunks rest next)
    (hw : Changes r w S) (h : Spilled w q rest rest' {next} chain) :
    Spilled p q trunks rest' S chain := by
  have hcount : w.1.pageCount = r.1.pageCount := hw.pageCount
  have hnext : ∀ x, x ∈ ({next} : Set UInt32) ∨ x ∈ freePages rest ∨ w.1.pageCount < x →
      x ∈ freePages trunks ∨ p.1.pageCount < x := by
    rintro x (rfl | hx | hx)
    · exact halloc.source
    · exact .inl (halloc.rest_subset x hx)
    · exact .inr (UInt32.lt_of_le_of_lt (hcount ▸ halloc.grows.pageCount) hx)
  constructor
  · have h₁ : Grows p r { x | x ∈ freePages trunks ∨ x ∈ S } :=
      halloc.grows.mono fun x hx => .inl hx
    have h₂ : Grows r w { x | x ∈ freePages trunks ∨ x ∈ S } :=
      (hw.mono fun x hx => .inr hx).grows
    have hpw := h₁.trans h₂
    refine ⟨h.grows.geometry.trans hpw.geometry, h.grows.wal.trans hpw.wal,
      h.grows.autoVacuum.trans hpw.autoVacuum, h.grows.failAt,
      UInt32.le_trans hpw.pageCount h.grows.pageCount, fun x hx h0 hxle => ?_⟩
    refine (h.grows.view x ?_ h0 (UInt32.le_trans hxle hpw.pageCount)).trans
      (hpw.view x hx h0 hxle)
    intro hx'
    rcases hnext x (hx'.symm.imp_right .inl) with hin | hgt
    · exact hx (.inl hin)
    · exact UInt32.not_lt.mpr hxle hgt
  · exact h.freelist
  · exact fun x hx => halloc.rest_subset x (h.rest_subset x hx)
  · exact h.nodup
  · exact h.not_free
  · exact fun x hx => .inr (hnext x (h.source x hx))
  · exact h.le
  · exact fun hcomp => h.complete (hw.complete (halloc.complete hcomp))

theorem Spilled.cons {curr : UInt32} (hle : curr ≤ p.1.pageCount)
    (hfree : curr ∉ freePages trunks) (hcurr : curr ∉ chain)
    (h : Spilled p q trunks rest {curr} chain) : Spilled p q trunks rest {curr}
    (curr :: chain) where
  grows := h.grows
  freelist := h.freelist
  rest_subset := h.rest_subset
  nodup := List.nodup_cons.mpr ⟨hcurr, h.nodup⟩
  not_free := by
    intro x hx
    rcases List.mem_cons.mp hx with rfl | hx
    · exact fun hmem => hfree (h.rest_subset x hmem)
    · exact h.not_free x hx
  source := by
    intro x hx
    rcases List.mem_cons.mp hx with rfl | hx
    · exact .inl rfl
    · exact h.source x hx
  le := by
    intro x hx
    rcases List.mem_cons.mp hx with rfl | hx
    · exact UInt32.le_trans hle h.grows.pageCount
    · exact h.le x hx
  complete := h.complete

end Compose

structure Stored (p q : PagerState × World DbFile) (trunks : List (UInt32 × List UInt32))
    (S : Set UInt32) (first : UInt32) (chain : List UInt32) (tail : Bytes) : Prop where
  spilled : ∃ rest, Spilled p q trunks rest S chain
  linked : Linked (pageSeen q.1 q.2.disk) first chain
  filled : Filled (pageSeen q.1 q.2.disk) p.1.geometry.usableSize chain tail

section Step

variable {left : Nat} (hchunk : 4 + (tail.take (usable - 4)).length ≤ p.1.pageSize)

include hchunk in
theorem writeOverflowChain_last {q : PagerState × World DbFile}
    (hlast : (tail.drop (usable - 4)).isEmpty = true)
    (hwrite : tryResult (writePage curr
      (overflowPageBytes p.1.pageSize 0 (tail.take (usable - 4)))) p = .ok (.ok ()) q) :
    writeOverflowChain usable (left + 1) curr tail p = .ok () q := by
  simp only [writeOverflowChain, nextOverflowPage, hlast, if_true, pure_bind, getState_bind,
    if_neg (Nat.not_lt.mpr hchunk), bind_ok hwrite]
  rfl

theorem writeOverflowChain_refused {e : Error} {q : PagerState × World DbFile}
    (hlast : (tail.drop (usable - 4)).isEmpty = false) (hrun : allocatePage p = .error e q) :
    writeOverflowChain usable (left + 1) curr tail p = .error e q := by
  simp only [writeOverflowChain, nextOverflowPage, hlast, Bool.false_eq_true, if_false,
    bind_error hrun]

include hchunk in
variable (left) in
theorem writeOverflowChain_step {next : UInt32} {r w : PagerState × World DbFile}
    (hlast : (tail.drop (usable - 4)).isEmpty = false) (hrun : allocatePage p = .ok next r)
    (hsize : r.1.pageSize = p.1.pageSize)
    (hwrite : tryResult (writePage curr
      (overflowPageBytes r.1.pageSize next (tail.take (usable - 4)))) r = .ok (.ok ()) w) :
    writeOverflowChain usable (left + 1) curr tail p =
      writeOverflowChain usable left next (tail.drop (usable - 4)) w := by
  rw [hsize] at hwrite
  simp only [writeOverflowChain, nextOverflowPage, hlast, Bool.false_eq_true, if_false,
    bind_ok hrun, getState_bind, hsize, if_neg (Nat.not_lt.mpr hchunk), bind_ok hwrite]

end Step

theorem writeOverflowChain_spec (left : Nat) (hp : p.2.failAt = none) (h : Freelist p trunks)
    (h0 : curr ≠ 0) (hle : curr ≤ p.1.pageCount) (hfree : curr ∉ freePages trunks) (hne : tail ≠ [])
    (hleft : tail.length < left) :
    match writeOverflowChain p.1.geometry.usableSize left curr tail p with
    | .ok _ q => ∃ chain, Stored p q trunks {curr} curr (curr :: chain) tail
    | .error e q => Exhausted e q := by
  induction left generalizing p trunks curr tail with
  | zero => omega
  | succ left ih =>
      have husable := p.1.geometry.le_usable
      have hsize : p.1.geometry.usableSize ≤ p.1.pageSize := p.1.geometry.usable_le
      have hpos : 0 < tail.length := List.length_pos_iff.mpr hne
      set usable := p.1.geometry.usableSize with husableEq
      have hchunk : 4 + (tail.take (usable - 4)).length ≤ p.1.pageSize := by
        rw [List.length_take]
        omega
      cases hlast : (tail.drop (usable - 4)).isEmpty with
      | true =>
          obtain ⟨q, hwrite, hch, hfl, page, hpage, hnext, hdata⟩ :=
            writeOverflowPage_ok hp h 0 h0 hle hfree hchunk
          rw [writeOverflowChain_last hchunk hlast hwrite]
          have hnil : tail.drop (usable - 4) = [] := List.isEmpty_iff.mp hlast
          refine ⟨[], ⟨trunks, ?_⟩, ⟨rfl, h0, page, hpage, hnext⟩,
            ⟨hne, by simp, ⟨page, hpage, hdata⟩, hnil⟩⟩
          refine ⟨(hch.mono fun x hx => .inr hx).grows, hfl, fun x hx => hx, by simp, ?_, ?_, ?_,
            hch.complete⟩
          · simpa using hfree
          · simp
          · simpa [hch.pageCount] using hle
      | false =>
          have hrest : tail.drop (usable - 4) ≠ [] := by
            intro hnil
            rw [hnil] at hlast
            cases hlast
          have halloc := allocatePage_ok hp h
          cases hrun : allocatePage p with
          | error e q =>
              rw [hrun] at halloc
              rw [writeOverflowChain_refused hlast hrun]
              exact halloc
          | ok next r =>
              rw [hrun] at halloc
              obtain ⟨rest, halloc⟩ := halloc
              have hg := halloc.grows
              have hcurr : curr ∉ freePages rest := fun hmem => hfree (halloc.rest_subset _ hmem)
              have hler : curr ≤ r.1.pageCount := UInt32.le_trans hle hg.pageCount
              obtain ⟨w, hwrite, hch, hfl, page, hpage, hnext, hdata⟩ :=
                writeOverflowPage_ok hg.failAt halloc.freelist next h0 hler hcurr
                  (by rw [hg.pageSize]; exact hchunk)
              have hgw : w.1.geometry = p.1.geometry := hch.geometry.trans hg.geometry
              have hih := ih hch.failAt hfl halloc.ne_zero (by rw [hch.pageCount]; exact halloc.le)
                halloc.not_free hrest (by rw [List.length_drop]; omega)
              have hstep := writeOverflowChain_step left hchunk hlast hrun
                hg.pageSize hwrite
              rw [hgw, ← husableEq, ← hstep] at hih
              cases hres : writeOverflowChain usable (left + 1) curr tail p with
              | error e q =>
                  rw [hres] at hih
                  exact hih
              | ok u q =>
                  rw [hres] at hih
                  obtain ⟨chain, ⟨rest', hsp⟩, hlinked, hfilled⟩ := hih
                  rw [hgw, ← husableEq] at hfilled
                  have hbehind : curr ∉ next :: chain := by
                    intro hmem
                    rcases hsp.source curr hmem with rfl | hin | hgt
                    · rcases halloc.source with hin | hgt
                      · exact hfree hin
                      · exact UInt32.not_lt.mpr hle hgt
                    · exact hcurr hin
                    · exact UInt32.not_lt.mpr hler (hch.pageCount ▸ hgt)
                  have hall := (Spilled.of_allocated halloc hch hsp).cons hle hfree hbehind
                  have hseen : pageSeen q.1 q.2.disk curr = .ok page := by
                    refine (hsp.grows.view curr ?_ h0 (by rw [hch.pageCount]; exact hler)).trans
                      hpage
                    rintro (hmem | rfl)
                    · exact hcurr hmem
                    · exact (List.nodup_cons.mp hall.nodup).1 (by simp)
                  refine ⟨next :: chain, ⟨rest', hall⟩, ⟨rfl, h0, page, hseen, hnext ▸ hlinked⟩,
                    ⟨hne, fun _ => ?_, ⟨page, hseen, hdata⟩, hfilled⟩⟩
                  have := List.length_pos_iff.mpr hrest
                  rw [List.length_drop] at this
                  omega

/-! ## Spilling a payload -/

/-- The smallest part of a payload that spills which stays on the page. -/
def minLocal (usable : Nat) : Nat := (usable - 12) * 32 / 255 - 23

theorem localPayloadLen_spills {payload : Nat} (hmin : minLocal usable ≤ maxLocal)
    (h : (localPayloadLen payload usable maxLocal).2 = true) :
    (localPayloadLen payload usable maxLocal).1 < payload ∧
      (localPayloadLen payload usable maxLocal).1 ≤ maxLocal := by
  rw [localPayloadLen] at h ⊢
  split_ifs at h ⊢ with hfits
  have hmin' : (usable - 12) * 32 / 255 - 23 ≤ maxLocal := hmin
  dsimp only
  split_ifs with hsurplus <;> omega

theorem localPayloadLen_whole {payload : Nat}
    (h : (localPayloadLen payload usable maxLocal).2 = false) :
    (localPayloadLen payload usable maxLocal).1 = payload ∧ payload ≤ maxLocal := by
  rw [localPayloadLen] at h ⊢
  split_ifs at h ⊢ with hfits
  exact ⟨rfl, hfits⟩

def pointerBytes (overflow : Option UInt32) : Bytes := overflow.elim [] be32

structure SpilledAs (p q : PagerState × World DbFile) (trunks : List (UInt32 × List UInt32))
    (payload : Bytes) (n : Nat) (overflow : Option UInt32) (chain : List UInt32) : Prop where
  stored : Stored p q trunks ∅ (overflow.getD 0) chain (payload.drop n)
  le : n ≤ payload.length
  small : payload.length < 2 ^ 64

theorem SpilledAs.of_stored {q : PagerState × World DbFile}
    (h : Stored p q trunks ∅ (overflow.getD 0) chain (payload.drop n)) (hle : n ≤ payload.length)
    (hn : n ≤ 2 ^ 16) : SpilledAs p q trunks payload n overflow
        chain := by
  obtain ⟨rest, hsp⟩ := h.spilled
  have htail := h.filled.length_le
  have hchain := length_le_of_nodup hsp.nodup
  have husable : p.1.geometry.usableSize ≤ 2 ^ 16 :=
    p.1.geometry.usable_le.trans p.1.geometry.pageSize.size_le
  have hmul := Nat.mul_le_mul hchain ((Nat.sub_le _ 4).trans husable)
  rw [List.length_drop] at htail
  exact ⟨h, hle, by omega⟩

theorem spillPayload_spec (hp : p.2.failAt = none) (h : Freelist p trunks) (payload : Bytes)
    (hmin : minLocal p.1.geometry.usableSize ≤ maxLocal)
    (hmax : maxLocal ≤ p.1.geometry.usableSize) :
    match spillPayload payload p.1.geometry.usableSize maxLocal p with
    | .ok content q => ∃ n overflow chain,
        localPayloadLen payload.length p.1.geometry.usableSize maxLocal = (n, overflow.isSome) ∧
        content = payload.take n ++ pointerBytes overflow ∧
        SpilledAs p q trunks payload n overflow chain
    | .error e q => Exhausted e q := by
  have husable : p.1.geometry.usableSize ≤ 2 ^ 16 :=
    p.1.geometry.usable_le.trans p.1.geometry.pageSize.size_le
  rw [spillPayload]
  generalize hlen : localPayloadLen payload.length p.1.geometry.usableSize maxLocal = l
  obtain ⟨n, spills⟩ := l
  cases spills with
  | false =>
      obtain ⟨hn, hfits⟩ := localPayloadLen_whole (congrArg Prod.snd hlen)
      rw [hlen] at hn
      dsimp only at hn
      subst hn
      refine ⟨payload.length, none, [], rfl, by simp [pointerBytes], ?_⟩
      refine .of_stored ⟨⟨trunks, ?_⟩, rfl, by simp [Filled]⟩ (le_refl _) (by omega)
      exact ⟨Grows.refl hp, h, fun x hx => hx, List.nodup_nil, by simp, by simp, by simp, id⟩
  | true =>
      obtain ⟨hlt, hn⟩ := localPayloadLen_spills hmin (congrArg Prod.snd hlen)
      rw [hlen] at hlt hn
      dsimp only at hlt hn ⊢
      rw [if_pos rfl]
      have halloc := allocatePage_ok hp h
      cases hrun : allocatePage p with
      | error e q =>
          rw [hrun] at halloc
          simp only [bind_error hrun]
          exact halloc
      | ok first r =>
          rw [hrun] at halloc
          obtain ⟨rest, halloc⟩ := halloc
          have hne : payload.drop n ≠ [] := by
            intro hnil
            have := congrArg List.length hnil
            rw [List.length_drop, List.length_nil] at this
            omega
          have hchain := writeOverflowChain_spec ((payload.drop n).length + 1) halloc.grows.failAt
            halloc.freelist halloc.ne_zero halloc.le halloc.not_free hne (Nat.lt_succ_self _)
          rw [halloc.grows.geometry] at hchain
          cases hres : writeOverflowChain p.1.geometry.usableSize
              ((payload.drop n).length + 1) first
              (payload.drop n) r with
          | error e q =>
              rw [hres] at hchain
              simp only [bind_ok hrun, bind_error hres]
              exact hchain
          | ok u q =>
              rw [hres] at hchain
              obtain ⟨chain, ⟨rest', hsp⟩, hlinked, hfilled⟩ := hchain
              simp only [bind_ok hrun, bind_ok hres]
              refine ⟨n, some first, first :: chain, rfl, rfl, ?_⟩
              refine .of_stored ⟨⟨rest', ?_⟩, hlinked, ?_⟩ hlt.le (by omega)
              · exact .of_allocated halloc (Changes.refl halloc.grows.failAt) hsp
              · rw [halloc.grows.geometry] at hfilled
                exact hfilled

/-! ## Cells -/

section Content

variable {page payload : Bytes} {off usable maxLocal n : Nat} {overflow : Option UInt32}

theorem slicePage_content (h : StandsAt (payload.take n ++ pointerBytes overflow) page off)
    (hle : off + (payload.take n ++ pointerBytes overflow).length ≤ page.length)
    (hn : n ≤ payload.length) : slicePage page off n = .ok (payload.take n) := by
  have hlen : (payload.take n).length = n := by simp [hn]
  have := h.left.slicePage_self (by rw [List.length_append] at hle; omega)
  rwa [hlen] at this

theorem overflowPointer_content (h : StandsAt (payload.take n ++ pointerBytes overflow) page off)
    (hle : off + (payload.take n ++ pointerBytes overflow).length ≤ page.length)
    (hn : n ≤ payload.length) : overflowPointer page (off + n) overflow.isSome = .ok overflow := by
  have hlen : (payload.take n).length = n := by simp [hn]
  cases overflow with
  | none => rfl
  | some first =>
      have hright := h.right
      rw [hlen] at hright
      rw [List.length_append, hlen] at hle
      have hslice := hright.slicePage_self (by omega)
      simp only [pointerBytes, Option.elim_some, length_be32] at hslice
      simp [overflowPointer, hslice]

theorem length_content (hlen : localPayloadLen payload.length usable
    maxLocal = (n, overflow.isSome))
    (hn : n ≤ payload.length) :
    (payload.take n ++ pointerBytes overflow).length = spilledLen payload.length usable
        maxLocal := by
  simp only [spilledLen, hlen]
  cases overflow with
  | none => simp [pointerBytes, hn]
  | some first => simp [pointerBytes, hn]

end Content

theorem minLocal_le_tableLeafMaxLocal (h : 480 ≤ usable) : minLocal usable ≤ usable - 35 := by
  rw [minLocal]
  omega

theorem minLocal_le_indexMaxLocal (usable : Nat) : minLocal usable ≤ indexMaxLocal usable := by
  rw [minLocal, indexMaxLocal]
  omega

theorem indexMaxLocal_le (usable : Nat) : indexMaxLocal usable ≤ usable := by
  rw [indexMaxLocal]
  omega

theorem toNat_ofNat_length (h : payload.length < 2 ^ 64) :
    (UInt64.ofNat payload.length).toNat = payload.length := by
  rw [UInt64.toNat_ofNat']
  exact Nat.mod_eq_of_lt h

section Measure

variable {page payload : Bytes} {off usable n : Nat} {overflow : Option UInt32} {rowid : Int64}

def rowBytes (rowid : Int64) (payload : Bytes) (n : Nat) (overflow : Option UInt32) : Bytes :=
  writeVarint (UInt64.ofNat payload.length) ++ writeVarint rowid.toUInt64 ++
    (payload.take n ++ pointerBytes overflow)

def keyBytes (payload : Bytes) (n : Nat) (overflow : Option UInt32) : Bytes :=
  writeVarint (UInt64.ofNat payload.length) ++ (payload.take n ++ pointerBytes overflow)

theorem rowBytes_reads (hsmall : payload.length < 2 ^ 64) (hn : n ≤ payload.length)
    (hlen : localPayloadLen payload.length usable (usable - 35) = (n, overflow.isSome))
    (h : StandsAt (rowBytes rowid payload n overflow) page off) :
    parseTableLeafCell page off usable = .ok ⟨payload.length, rowid, payload.take n, overflow⟩ ∧
      cellOnPageSize page off usable = .ok (rowBytes rowid payload n overflow).length ∧
      readPayloadSize page off =
        .ok (payload.length, (writeVarint (UInt64.ofNat payload.length)).length) := by
  rw [rowBytes] at h ⊢
  set size := writeVarint (UInt64.ofNat payload.length) with hsize
  set id := writeVarint rowid.toUInt64 with hid
  have hpos : 0 < size.length := by
    rw [hsize, length_writeVarint]
    exact varintLen_pos _
  have hle := h.length_le (by simp only [List.length_append]; omega)
  have hcontent := h.right
  have hsizeAt : ∀ outside missing,
      readVarintAt page off outside missing = .ok (payload.length, size.length) := by
    intro outside missing
    rw [h.left.left.readVarintAt_self, toNat_ofNat_length hsmall]
  have hidAt : ∀ missing, readRowidAt page (off + size.length) missing = .ok (rowid, id.length) :=
    fun missing => h.left.right.readRowidAt_self
  rw [List.length_append, ← Nat.add_assoc] at hcontent
  rw [List.length_append, List.length_append] at hle ⊢
  refine ⟨?_, ?_, hsizeAt _ _⟩
  · have hslice := slicePage_content hcontent (by omega) hn
    have hpointer := overflowPointer_content hcontent (by omega) hn
    simp [parseTableLeafCell, hsizeAt, hidAt, tableLeafMaxLocal, hlen, hslice, hpointer]
  · rw [length_content hlen hn]
    simp only [cellOnPageSize, rowidVarint, hsizeAt, hidAt, Result.ok_bind, tableLeafMaxLocal]
    rw [if_neg (by omega)]
    rfl

theorem cellTotalSize_eq (husable : 480 ≤ usable) {n1 : Nat}
    (hsize : readPayloadSize page off = .ok (payload.length, n1)) :
    cellTotalSize page off n1 usable = cellOnPageSize page off usable := by
  have hsize' : readVarintAt page off "cell offset" "table leaf payload-size varint" =
      .ok (payload.length, n1) := hsize
  have hspill : (localPayloadLen payload.length usable (usable - 35)).1 < payload.length ↔
      (localPayloadLen payload.length usable (usable - 35)).2 = true := by
    constructor
    · intro hlt
      by_contra hwhole
      have := localPayloadLen_whole (Bool.not_eq_true _ ▸ hwhole)
      omega
    · exact fun h => (localPayloadLen_spills (minLocal_le_tableLeafMaxLocal husable) h).1
  have hpointer := if_congr hspill (rfl : (4 : Nat) = 4) (rfl : (0 : Nat) = 0)
  simp only [cellTotalSize, cellOnPageSize, hsize, hsize', Result.ok_bind, spilledLen,
    tableLeafMaxLocal, hpointer, Nat.add_assoc]
  rfl

theorem keyBytes_reads (hsmall : payload.length < 2 ^ 64) (hn : n ≤ payload.length)
    (hlen : localPayloadLen payload.length usable (indexMaxLocal usable) = (n, overflow.isSome))
    (h : StandsAt (keyBytes payload n overflow) page off) :
    parseIndexLeafCell page off usable = .ok ⟨payload.length, payload.take n, overflow⟩ ∧
      indexLeafCellOnPageSize page off usable = .ok (keyBytes payload n overflow).length ∧
      indexCellOnPageSize page off usable = (keyBytes payload n overflow).length := by
  rw [keyBytes] at h ⊢
  set size := writeVarint (UInt64.ofNat payload.length) with hsize
  have hpos : 0 < size.length := by
    rw [hsize, length_writeVarint]
    exact varintLen_pos _
  have hle := h.length_le (by simp only [List.length_append]; omega)
  have hcontent := h.right
  have hsizeAt : ∀ outside missing,
      readVarintAt page off outside missing = .ok (payload.length, size.length) := by
    intro outside missing
    rw [h.left.readVarintAt_self, toNat_ofNat_length hsmall]
  rw [List.length_append] at hle ⊢
  refine ⟨?_, ?_, ?_⟩
  · have hslice := slicePage_content hcontent (by omega) hn
    have hpointer := overflowPointer_content hcontent (by omega) hn
    simp [parseIndexLeafCell, hsizeAt, hlen, hslice, hpointer]
  · rw [length_content hlen hn]
    simp only [indexLeafCellOnPageSize, hsizeAt, Result.ok_bind]
    rfl
  · rw [length_content hlen hn]
    obtain ⟨rest, hrest⟩ := h.left
    simp only [indexCellOnPageSize, hrest, hsize, readVarint_writeVarint_append,
      Option.elim_some, toNat_ofNat_length hsmall]

end Measure

/-! ## Round trips -/

/--
A cell of a table is read back as a row, wherever its bytes stand: its overflow
pages are the pages of `chain`, and every way to measure it gives its length.
-/
structure ReadsAsRow (q : PagerState × World DbFile) (cell : Bytes) (rowid : Int64)
    (payload : Bytes) (chain : List UInt32) : Prop where
  nodup : chain.Nodup
  parsed : ∃ c : TableLeafCell, c.rowid = rowid ∧
    (assemblePayload q.1.geometry.usableSize c).eval (pageSeen q.1 q.2.disk) = .ok payload ∧
    Linked (pageSeen q.1 q.2.disk) (c.overflowPage.getD 0) chain ∧
    Filled (pageSeen q.1 q.2.disk) q.1.geometry.usableSize chain
      (payload.drop c.localPayload.length) ∧
    ∀ page off, StandsAt cell page off →
      parseTableLeafCell page off q.1.geometry.usableSize = .ok c
  onPageSize : ∀ page off, StandsAt cell page off →
    cellOnPageSize page off q.1.geometry.usableSize = .ok cell.length
  totalSize : ∀ page off, StandsAt cell page off →
    ∃ n1, readPayloadSize page off = .ok (payload.length, n1) ∧
      cellTotalSize page off n1 q.1.geometry.usableSize = .ok cell.length

structure ReadsAsKey (q : PagerState × World DbFile) (cell payload : Bytes) (chain : List UInt32) :
    Prop where
  nodup : chain.Nodup
  parsed : ∃ c : IndexLeafCell,
    (assembleIndexPayload q.1.geometry.usableSize c).eval (pageSeen q.1 q.2.disk) = .ok payload ∧
    Linked (pageSeen q.1 q.2.disk) (c.overflowPage.getD 0) chain ∧
    Filled (pageSeen q.1 q.2.disk) q.1.geometry.usableSize chain
      (payload.drop c.localPayload.length) ∧
    ∀ page off, StandsAt cell page off →
      parseIndexLeafCell page off q.1.geometry.usableSize = .ok c
  onPageSize : ∀ page off, StandsAt cell page off →
    indexLeafCellOnPageSize page off q.1.geometry.usableSize = .ok cell.length ∧
      indexCellOnPageSize page off q.1.geometry.usableSize = cell.length

section RoundTrip

variable {p q : PagerState × World DbFile} {trunks : List (UInt32 × List UInt32)}
  {payload : Bytes} {n : Nat} {overflow : Option UInt32} {chain : List UInt32}

theorem SpilledAs.readsAsRow (h : SpilledAs p q trunks payload n overflow chain) {rowid : Int64}
    (hlen : localPayloadLen payload.length p.1.geometry.usableSize
      (p.1.geometry.usableSize - 35) = (n, overflow.isSome)) :
    ReadsAsRow q (rowBytes rowid payload n overflow) rowid payload chain := by
  obtain ⟨⟨rest, hsp⟩, hlinked, hfilled⟩ := h.stored
  have husable := p.1.geometry.le_usable
  have hg := hsp.grows.geometry
  have htake : (payload.take n).length = n := by simp [h.le]
  have hreads : ∀ page off, StandsAt (rowBytes rowid payload n overflow) page off → _ :=
    fun page off hat => rowBytes_reads h.small h.le hlen hat
  refine ⟨hsp.nodup, ⟨⟨payload.length, rowid, payload.take n, overflow⟩, rfl, ?_, hlinked, ?_, ?_⟩,
    ?_, ?_⟩
  · rw [hg]
    exact assemble_filled (by omega) hlinked hfilled h.le
  · rw [hg, htake]
    exact hfilled
  · rw [hg]
    exact fun page off hat => (hreads page off hat).1
  · rw [hg]
    exact fun page off hat => (hreads page off hat).2.1
  · rw [hg]
    intro page off hat
    obtain ⟨-, hon, hsize⟩ := hreads page off hat
    exact ⟨_, hsize, (cellTotalSize_eq husable hsize).trans hon⟩

theorem SpilledAs.readsAsKey (h : SpilledAs p q trunks payload n overflow chain)
    (hlen : localPayloadLen payload.length p.1.geometry.usableSize
      (indexMaxLocal p.1.geometry.usableSize) = (n, overflow.isSome)) :
    ReadsAsKey q (keyBytes payload n overflow) payload chain := by
  obtain ⟨⟨rest, hsp⟩, hlinked, hfilled⟩ := h.stored
  have husable := p.1.geometry.le_usable
  have hg := hsp.grows.geometry
  have htake : (payload.take n).length = n := by simp [h.le]
  have hreads : ∀ page off, StandsAt (keyBytes payload n overflow) page off → _ :=
    fun page off hat => keyBytes_reads h.small h.le hlen hat
  refine ⟨hsp.nodup, ⟨⟨payload.length, payload.take n, overflow⟩, ?_, hlinked, ?_, ?_⟩, ?_⟩
  · rw [hg]
    exact assemble_filled (by omega) hlinked hfilled h.le
  · rw [hg, htake]
    exact hfilled
  · rw [hg]
    exact fun page off hat => (hreads page off hat).1
  · rw [hg]
    exact fun page off hat => (hreads page off hat).2

/--
Whatever the payload, a cell is read back as what it was built from, unless the
page numbers run out.
-/
theorem buildLeafCell_reads_back (hp : p.2.failAt = none) (h : Freelist p trunks) (rowid : Int64)
    (payload : Bytes) :
    (match buildTableLeafCell rowid payload p.1.geometry.usableSize p with
      | .ok cell q => ∃ chain, (∃ rest, Spilled p q trunks rest ∅ chain) ∧
          ReadsAsRow q cell rowid payload chain
      | .error e q => Exhausted e q) ∧
    (match buildIndexLeafCell payload p.1.geometry.usableSize p with
      | .ok cell q => ∃ chain, (∃ rest, Spilled p q trunks rest ∅ chain) ∧
          ReadsAsKey q cell payload chain
      | .error e q => Exhausted e q) := by
  have husable := p.1.geometry.le_usable
  constructor
  · have hspec := spillPayload_spec hp h payload (minLocal_le_tableLeafMaxLocal husable)
      (Nat.sub_le _ _)
    rw [buildTableLeafCell, buildTableLeafCellWithHost]
    cases hrun : spillPayload payload p.1.geometry.usableSize (p.1.geometry.usableSize - 35) p with
    | error e q =>
        rw [hrun] at hspec
        rw [bind_error hrun]
        exact hspec
    | ok content q =>
        rw [hrun] at hspec
        obtain ⟨n, overflow, chain, hlen, rfl, hsp⟩ := hspec
        rw [bind_ok hrun]
        exact ⟨chain, hsp.stored.spilled, hsp.readsAsRow hlen⟩
  · have hspec := spillPayload_spec hp h payload (minLocal_le_indexMaxLocal _) (indexMaxLocal_le _)
    rw [buildIndexLeafCell, buildIndexLeafCellWithHost]
    cases hrun : spillPayload payload p.1.geometry.usableSize
        (indexMaxLocal p.1.geometry.usableSize) p with
    | error e q =>
        rw [hrun] at hspec
        rw [bind_error hrun]
        exact hspec
    | ok content q =>
        rw [hrun] at hspec
        obtain ⟨n, overflow, chain, hlen, rfl, hsp⟩ := hspec
        rw [bind_ok hrun]
        exact ⟨chain, hsp.stored.spilled, hsp.readsAsKey hlen⟩

end RoundTrip

theorem freelist_freshPager : Freelist freshPager [] where
  chain := rfl
  count := by decide
  nodup := List.nodup_nil
  inFile := by simp

/-- A payload that fills an overflow page of 512 bytes and begins another one. -/
def longPayload : Bytes := List.replicate 1000 5

set_option maxRecDepth 10000 in
theorem buildLeafCell_reads_back_longPayload :
    ∃ cell q, buildTableLeafCell (-7) longPayload freshPager.1.geometry.usableSize freshPager =
        .ok cell q ∧
      ∃ chain, ReadsAsRow q cell (-7) longPayload chain := by
  have hok : endsWith (buildTableLeafCell (-7) longPayload freshPager.1.geometry.usableSize)
      freshPager (fun _ _ => true) = true := by
    decide
  obtain ⟨cell, q, hrun, -⟩ := exists_of_endsWith _ _ _ hok
  have hfail : freshPager.2.failAt = none := rfl
  have h := And.left (buildLeafCell_reads_back hfail freelist_freshPager (-7) longPayload)
  rw [hrun] at h
  obtain ⟨chain, -, hreads⟩ := h
  exact ⟨cell, q, hrun, chain, hreads⟩

end Rustqlite.Btree
