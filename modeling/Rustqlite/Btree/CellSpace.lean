import Rustqlite.Btree.Overflow
import Rustqlite.Pager.Replacing

/-!
# Space for a cell

A payload that spills takes a number of pages that its length gives.  When there
are that many to allocate the cell is built, and nothing in use is touched.
-/

namespace Rustqlite.Btree

open Foundation Format Pager FileM

/-- How many pages a chain for `n` bytes takes. -/
def chainPages (usable n : Nat) : Nat := if n = 0 then 0 else (n - 1) / (usable - 4) + 1

variable {usable n : Nat} {chain : List UInt32} {tail : Bytes}

theorem chainPages_step (husable : 4 < usable) (hn : n ≠ 0) :
    chainPages usable n = chainPages usable (n - (usable - 4)) + 1 := by
  have hpos : 0 < usable - 4 := by omega
  by_cases hle : n ≤ usable - 4
  · rw [chainPages, chainPages, if_neg hn, if_pos (by omega), Nat.div_eq_of_lt (by omega)]
  · rw [chainPages, chainPages, if_neg hn, if_neg (by omega)]
    have hdiv : n - 1 = n - (usable - 4) - 1 + (usable - 4) := by omega
    rw [hdiv, Nat.add_div_right _ hpos]

theorem Filled.length_eq {view : UInt32 → Result Bytes} (husable : 4 < usable)
    (h : Filled view usable chain tail) : chain.length = chainPages usable tail.length := by
  induction chain generalizing tail with
  | nil =>
      obtain rfl : tail = [] := h
      rfl
  | cons pgno chain ih =>
      obtain ⟨hne, -, -, hrest⟩ := h
      have hpos : tail.length ≠ 0 := fun hzero => hne (List.length_eq_zero_iff.mp hzero)
      rw [chainPages_step husable hpos, List.length_cons, ih hrest, List.length_drop]

section Spill

variable {p q : PagerState × World DbFile} {trunks rest : List (UInt32 × List UInt32)}

variable {curr : UInt32}

theorem writeChainPage_ok (h : SoundStore p trunks) (hin : InUse p trunks [curr]) (next : UInt32)
    {chunk : Bytes} (hchunk : 4 + chunk.length ≤ p.1.pageSize) :
    ∃ q, tryResult (writePage curr (overflowPageBytes p.1.pageSize next chunk)) p =
        .ok (.ok ()) q ∧ Replaced p q trunks trunks [curr] [curr] ∧
      ∃ page, pageSeen q.1 q.2.disk curr = .ok page ∧ readBe32 page = next ∧
        slice page 4 chunk.length = chunk := by
  obtain ⟨q, hwrite, hrep, hseen⟩ := h.writePage hin (length_overflowPageBytes next hchunk)
  exact ⟨q, tryResult_ok hwrite, hrep, _, hseen, readBe32_overflowPageBytes hchunk,
    slice_overflowPageBytes hchunk⟩

theorem writeOverflowChain_replaced (left : Nat) (h : SoundStore p trunks)
    (hin : InUse p trunks [curr]) (hne : tail ≠ []) (hleft : tail.length < left) :
    match writeOverflowChain p.1.geometry.usableSize left curr tail p with
    | .ok _ q => ∃ rest chain, Replaced p q trunks rest [curr] (curr :: chain) ∧
        Linked (pageSeen q.1 q.2.disk) curr (curr :: chain) ∧
        Filled (pageSeen q.1 q.2.disk) p.1.geometry.usableSize (curr :: chain) tail
    | .error _ _ => ¬ Spare p.1 trunks (chainPages p.1.geometry.usableSize tail.length - 1) := by
  induction left generalizing p trunks curr tail with
  | zero => omega
  | succ left ih =>
      have husable := p.1.geometry.le_usable
      have hsize : p.1.geometry.usableSize ≤ p.1.pageSize := p.1.geometry.usable_le
      have hpos : 0 < tail.length := List.length_pos_iff.mpr hne
      have h0 : curr ≠ 0 := (hin.inFile curr (by simp)).1
      set usable := p.1.geometry.usableSize with husableEq
      have hchunk : 4 + (tail.take (usable - 4)).length ≤ p.1.pageSize := by
        rw [List.length_take]
        omega
      cases hlast : (tail.drop (usable - 4)).isEmpty with
      | true =>
          obtain ⟨q, hwrite, hrep, page, hpage, hnext, hdata⟩ :=
            writeChainPage_ok h hin 0 hchunk
          rw [writeOverflowChain_last hchunk hlast hwrite]
          exact ⟨trunks, [], hrep, ⟨rfl, h0, page, hpage, hnext⟩,
            ⟨hne, by simp, ⟨page, hpage, hdata⟩, List.isEmpty_iff.mp hlast⟩⟩
      | false =>
          have hrest : tail.drop (usable - 4) ≠ [] := by
            intro hnil
            rw [hnil] at hlast
            cases hlast
          have hlong := List.length_pos_iff.mpr hrest
          rw [List.length_drop] at hlong
          have hpages : chainPages usable tail.length - 1 =
              chainPages usable (tail.drop (usable - 4)).length - 1 + 1 := by
            rw [chainPages_step (by omega) (by omega), List.length_drop,
              chainPages_step (n := tail.length - (usable - 4)) (by omega) (by omega)]
            omega
          have halloc := h.allocatePage
          cases hrun : allocatePage p with
          | error e q =>
              rw [writeOverflowChain_refused hlast hrun]
              intro hspare
              rw [hpages] at hspare
              obtain ⟨_, _, hok⟩ := (allocatePage_ok_iff h).mpr hspare.canAllocate
              rw [hrun] at hok
              cases hok
          | ok next r =>
              rw [hrun] at halloc
              obtain ⟨-, -, rest, hnew⟩ := halloc
              have hboth : Replaced p r trunks rest [curr] [next, curr] :=
                hnew.widen hin
              obtain ⟨w, hwrite, hrep, page, hpage, hnext, hdata⟩ :=
                writeChainPage_ok hboth.sound (hboth.inUse.single (x := curr) (by simp)) next
                  (by rw [hboth.grows.pageSize]; exact hchunk)
              have hw := hboth.trans (hrep.rewrites hboth.inUse (y := curr) (by simp)).replaced
              have hgw : w.1.geometry = p.1.geometry := hw.grows.geometry
              have hin' : InUse w rest ([next] ++ [curr]) := hw.inUse
              have hih := ih hw.sound hin'.left hrest (by rw [List.length_drop]; omega)
              have hstep := writeOverflowChain_step left hchunk hlast hrun
                hboth.grows.pageSize hwrite
              rw [hgw, ← husableEq, ← hstep] at hih
              cases hres : writeOverflowChain usable (left + 1) curr tail p with
              | error e q =>
                  rw [hres] at hih
                  rw [hpages]
                  intro hspare
                  have hleft' := hw.spare (chainPages usable (tail.drop (usable - 4)).length
                      - 1 + 1)
                    hspare
                  exact hih (hleft'.mono (by simp only [List.length_cons, List.length_nil]; omega))
              | ok u q =>
                  rw [hres] at hih
                  obtain ⟨rest', chain, hchain, hlinked, hfilled⟩ := hih
                  have hseen : pageSeen q.1 q.2.disk curr = .ok page :=
                    (hchain.view hin' curr (by simp)).trans hpage
                  refine ⟨rest', next :: chain, ?_, ⟨rfl, h0, page, hseen, hnext ▸ hlinked⟩,
                    ⟨hne, fun _ => by omega, ⟨page, hseen, hdata⟩, hfilled⟩⟩
                  have hall := hw.trans (hchain.widen hin')
                  exact hall.perm (.refl _) (List.perm_append_singleton curr (next :: chain)).symm

/-! ## Cells -/

def cellLength (usable : Nat) (rowid : Int64) (payload : Bytes) : Nat :=
  varintLen (UInt64.ofNat payload.length) + varintLen rowid.toUInt64 +
    spilledLen payload.length usable (usable - 35)

def spilledPages (usable : Nat) (payload : Bytes) : Nat :=
  let (n, spills) := localPayloadLen payload.length usable (usable - 35)
  if spills then chainPages usable (payload.length - n) else 0

structure BuiltRow (q : PagerState × World DbFile) (rowid : Int64) (payload cell : Bytes)
    (row : StoredRow) : Prop where
  bytes_eq : row.bytes = cell
  row_eq : row.row = (rowid, payload)
  length : row.bytes.length = cellLength q.1.geometry.usableSize rowid payload
  chain : row.chain.length = spilledPages q.1.geometry.usableSize payload
  valid : row.Valid q.1.geometry.usableSize (pageSeen q.1 q.2.disk)

theorem builtRow_rowBytes {overflow : Option UInt32} {payload : Bytes} (rowid : Int64)
    (husable : q.1.geometry.usableSize = usable)
    (hlen : localPayloadLen payload.length usable (usable - 35) = (n, overflow.isSome))
    (hlinked : Linked (pageSeen q.1 q.2.disk) (overflow.getD 0) chain)
    (hfilled : Filled (pageSeen q.1 q.2.disk) usable chain (payload.drop n))
    (hn : n ≤ payload.length) (hsmall : payload.length < 2 ^ 64)
    (hchain : chain.length = if overflow.isSome then chainPages usable (payload.length - n)
        else 0) :
    BuiltRow q rowid payload (rowBytes rowid payload n overflow)
      ⟨rowBytes rowid payload n overflow, (rowid, payload), chain⟩ := by
  subst husable
  have hle := q.1.geometry.le_usable
  obtain ⟨hparse, hsize, -⟩ := rowBytes_reads hsmall hn hlen
    (show StandsAt (rowBytes rowid payload n overflow) (rowBytes rowid payload n overflow) 0 from
      ⟨[], by simp⟩)
  refine ⟨rfl, rfl, ?_, ?_, hsize, _, hparse, rfl, hlinked, ?_⟩
  · rw [cellLength, ← length_content hlen hn, rowBytes, List.length_append, List.length_append,
      length_writeVarint, length_writeVarint]
  · simp only [spilledPages, hlen, hchain]
  · exact assemble_filled (by omega) hlinked hfilled hn

theorem buildTableLeafCell_spec (h : SoundStore p trunks) (rowid : Int64) (payload : Bytes)
    (hostPgno : Option UInt32) :
    match buildTableLeafCellWithHost rowid payload p.1.geometry.usableSize hostPgno p with
    | .ok cell q => ∃ rest row, BuiltRow q rowid payload cell row ∧
        Replaced p q trunks rest [] row.chain
    | .error _ _ => ¬ Spare p.1 trunks (spilledPages p.1.geometry.usableSize payload) := by
  have husable := p.1.geometry.le_usable
  have hsize : p.1.geometry.usableSize ≤ 2 ^ 16 :=
    p.1.geometry.usable_le.trans p.1.geometry.pageSize.size_le
  have hmin := minLocal_le_tableLeafMaxLocal husable
  rw [buildTableLeafCellWithHost, spillPayload, spilledPages]
  generalize hlen : localPayloadLen payload.length p.1.geometry.usableSize
    (p.1.geometry.usableSize - 35) = l
  obtain ⟨n, spills⟩ := l
  cases spills with
  | false =>
      obtain ⟨hn, hfits⟩ := localPayloadLen_whole (congrArg Prod.snd hlen)
      rw [hlen] at hn
      dsimp only at hn
      subst hn
      refine ⟨trunks, ⟨rowBytes rowid payload payload.length none, (rowid, payload), []⟩, ?_,
        (h.quiet ⟨⟨p.1.cache, p.1.txn, rfl⟩, h.failAt, fun _ => rfl⟩)⟩
      have hlinked : Linked (pageSeen p.1 p.2.disk) ((none : Option UInt32).getD 0) [] := rfl
      have hbuilt := builtRow_rowBytes rowid rfl hlen hlinked
        (by simp [Filled]) (Nat.le_refl _) (by omega) rfl
      simpa [rowBytes, pointerBytes] using hbuilt
  | true =>
      obtain ⟨hlt, hn⟩ := localPayloadLen_spills hmin (congrArg Prod.snd hlen)
      rw [hlen] at hlt hn
      dsimp only at hlt hn ⊢
      rw [if_pos rfl]
      have hne : payload.drop n ≠ [] := by
        intro hnil
        have := congrArg List.length hnil
        rw [List.length_drop, List.length_nil] at this
        omega
      have hpages : chainPages p.1.geometry.usableSize (payload.length - n) =
          chainPages p.1.geometry.usableSize (payload.drop n).length - 1 + 1 := by
        rw [List.length_drop, chainPages_step (by omega) (by omega), Nat.add_sub_cancel]
      have halloc := h.allocatePage
      cases hrun : allocatePage p with
      | error e q =>
          simp only [bind_assoc, bind_error hrun]
          intro hspare
          rw [if_pos trivial, hpages] at hspare
          obtain ⟨_, _, hok⟩ := (allocatePage_ok_iff h).mpr hspare.canAllocate
          rw [hrun] at hok
          cases hok
      | ok first r =>
          rw [hrun] at halloc
          obtain ⟨-, -, rest, hnew⟩ := halloc
          have hwritten := writeOverflowChain_replaced ((payload.drop n).length + 1) hnew.sound
            hnew.inUse hne (Nat.lt_succ_self _)
          rw [hnew.grows.geometry] at hwritten
          cases hres : writeOverflowChain p.1.geometry.usableSize
              ((payload.drop n).length + 1) first
              (payload.drop n) r with
          | error e q =>
              rw [hres] at hwritten
              simp only [bind_assoc, bind_ok hrun, bind_error hres]
              intro hspare
              rw [if_pos trivial, hpages] at hspare
              have hleft := hnew.spare (chainPages p.1.geometry.usableSize
                (payload.drop n).length - 1 + 1) hspare
              exact hwritten (hleft.mono (by simp only [List.length_cons, List.length_nil]; omega))
          | ok u q =>
              rw [hres] at hwritten
              obtain ⟨rest', chain, hchain, hlinked, hfilled⟩ := hwritten
              simp only [bind_assoc, bind_ok hrun, bind_ok hres, pure_bind]
              have hall := hnew.trans hchain
              have htail := hfilled.length_le
              have hcount := Nat.mul_le_mul (length_le_of_nodup hchain.inUse.nodup)
                ((Nat.sub_le _ 4).trans hsize)
              rw [List.length_drop] at htail
              refine ⟨rest', ⟨rowBytes rowid payload n (some first), (rowid, payload),
                first :: chain⟩, ?_, hall⟩
              have hlinked' : Linked (pageSeen q.1 q.2.disk) ((some first).getD 0)
                  (first :: chain) :=
                hlinked
              have hbuilt := builtRow_rowBytes rowid
                (congrArg Geometry.usableSize hall.grows.geometry) hlen hlinked' hfilled hlt.le
                    (by omega) (by
                  rw [hfilled.length_eq (by omega), List.length_drop]
                  rfl)
              exact hbuilt

end Spill

end Rustqlite.Btree
