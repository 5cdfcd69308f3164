import Rustqlite.Btree.PageCells

/-!
# Pages in their buffers

The source builds a page in the buffer that holds it, so what a routine has
written stays there when a later step fails.  Every routine here leaves what the
functions on pages say: an insert that is refused has written nothing, and a
page whose cells do not fit has lost its old ones.
-/

namespace Rustqlite.Btree

open Foundation

/-! ## The buffer -/

abbrev BufferM := EStateM Error Bytes

/-- `copy_from_slice` into the part of the buffer that starts at `off`. -/
def put (off : Nat) (src : Bytes) : BufferM Unit := fun page =>
  if page.length < off + src.length then .error (.panic "range end index out of range") page
  else .ok () (splice page off src)

def copyWithin (start stop dest : Nat) : BufferM Unit := fun page =>
  put dest (slice page start (stop - start)) page

def clearFrom (base : Nat) : BufferM Unit :=
  modify fun page => page.take base ++ List.replicate (page.length - base) 0

def ofResult {α : Type} : Result α → BufferM α
  | .ok a => pure a
  | .error e => throw e

namespace InPlace

def insertCell (types : List PageType) (headerSize : Nat) (wrongPage pastEnd : String)
    (base idx : Nat) (cell : Bytes) : BufferM Unit := do
  let page ← get
  if types.all (fun t => page.getD base 0 != t.code) then throw (.corrupt wrongPage)
  else
    let numCells := (readBe16 (page.drop (base + 3))).toNat
    if numCells < idx then throw (.corrupt pastEnd)
    else
      let contentStart := readContentStart (readBe16 (page.drop (base + 5)))
      let ptrAt (i : Nat) : Nat := base + headerSize + i * 2
      if contentStart < ptrAt numCells + cell.length + 2 then throw pageFullError
      else
        let newStart := contentStart - cell.length
        put newStart cell
        copyWithin (ptrAt idx) (ptrAt numCells) (ptrAt (idx + 1))
        put (ptrAt idx) (be16 (UInt16.ofNat newStart))
        put (base + 3) (be16 (UInt16.ofNat (numCells + 1)))
        put (base + 5) (be16 (storedContentStart newStart))

def insertLeafCell : Nat → Nat → Bytes → BufferM Unit :=
  insertCell [.leafTable, .leafIndex] 8
    "insert_leaf_cell: not a leaf-table or leaf-index page"
    "insert_leaf_cell: index past cell count"

def insertInteriorCell : Nat → Nat → Bytes → BufferM Unit :=
  insertCell [.interiorTable, .interiorIndex] 12
    "insert_interior_cell: not an interior-table or interior-index page"
    "insert_interior_cell: index past cell count"

def layOutCells (pageSize : Nat) : List Bytes → Result (List Nat × Nat)
  | [] => .ok ([], pageSize)
  | cell :: cells => do
      let (offsets, start) ← layOutCells pageSize cells
      if start < cell.length then .error (.panic "attempt to subtract with overflow")
      else .ok ((start - cell.length) :: offsets, start - cell.length)

/-- The loop that copies the cells, the first of them behind the pointer at `ptrAt`. -/
def placeCells (ptrAt : Nat) : List Bytes → List Nat → BufferM Unit
  | cell :: cells, off :: offsets => do
      put off cell
      put ptrAt (be16 (UInt16.ofNat off))
      placeCells (ptrAt + 2) cells offsets
  | _, _ => pure ()

def fillPage (base : Nat) (pageType : PageType) (rightMost : Option UInt32) (cells : List Bytes)
    (offsets : List Nat) (contentStart : Nat) : BufferM Unit :=
  if contentStart < base + pageType.headerSize + cells.length * 2 then throw pageFullError
  else do
    placeCells (base + pageType.headerSize) cells offsets
    put (base + 5) (be16 (storedContentStart contentStart))
    put (base + 7) [0]
    match rightMost with
    | none => pure ()
    | some rm => put (base + 8) (be32 rm)

def writePageCells (base : Nat) (pageType : PageType) (rightMost : Option UInt32)
    (cells : List Bytes) : BufferM Unit := do
  let pageSize := (← get).length
  clearFrom base
  put base [pageType.code]
  put (base + 1) (be16 0)
  put (base + 3) (be16 (UInt16.ofNat cells.length))
  let laid ← ofResult (layOutCells pageSize cells)
  fillPage base pageType rightMost cells laid.1 laid.2

end InPlace

/-! ## The buffer holds the page that is built -/

variable {off base : Nat} {src page : Bytes} {f : Unit → BufferM Unit}

theorem put_ok (h : off + src.length ≤ page.length) :
    put off src page = .ok () (splice page off src) := if_neg (by omega)

theorem put_bind_ok (h : off + src.length ≤ page.length) :
    (put off src >>= f) page = f () (splice page off src) := by
  change EStateM.bind (put off src) f page = _
  rw [EStateM.bind, put_ok h]

theorem copyWithin_bind_ok {start stop dest : Nat}
    (h : dest + (slice page start (stop - start)).length ≤ page.length) :
    (copyWithin start stop dest >>= f) page =
      f () (splice page dest (slice page start (stop - start))) := by
  change EStateM.bind (copyWithin start stop dest) f page = _
  rw [EStateM.bind, copyWithin, put_ok h]

theorem get_bind (f : Bytes → BufferM Unit) (page : Bytes) :
    ((get : BufferM Bytes) >>= f) page = f page page := rfl

theorem throw_run (e : Error) (page : Bytes) : (throw e : BufferM Unit) page = .error e page := rfl

/-- What the buffer of `page` holds behind an operation that writes nothing when it fails. -/
def leaves (page : Bytes) : Result Bytes → EStateM.Result Error Bytes Unit
  | .ok page' => .ok () page'
  | .error e => .error e page

theorem insertCell_inPlace (types : List PageType) {headerSize : Nat} (hsize : 8 ≤ headerSize)
    (wrongPage pastEnd : String) (base idx : Nat) (cell page : Bytes) :
    InPlace.insertCell types headerSize wrongPage pastEnd base idx cell page =
      leaves page (insertCell types headerSize wrongPage pastEnd page base idx cell) := by
  rw [InPlace.insertCell, get_bind, insertCell]
  by_cases htype : (types.all fun t => page.getD base 0 != t.code) = true
  · rw [if_pos htype, if_pos htype, leaves, throw_run]
  rw [if_neg htype, if_neg htype]
  dsimp only
  set numCells := (readBe16 (page.drop (base + 3))).toNat with hnum
  set start := readContentStart (readBe16 (page.drop (base + 5))) with hstart
  by_cases hidx : numCells < idx
  · rw [if_pos hidx, if_pos hidx, leaves, throw_run]
  rw [if_neg hidx, if_neg hidx]
  by_cases hfull : start < base + headerSize + numCells * 2 + cell.length + 2
  · rw [if_pos hfull, if_pos hfull, leaves, throw_run]
  rw [if_neg hfull, if_neg hfull]
  by_cases hshort : page.length < start
  · have hout : page.length < start - cell.length + cell.length := by omega
    rw [if_pos hshort, leaves]
    change EStateM.bind (put (start - cell.length) cell) _ page = _
    rw [EStateM.bind, put, if_pos hout]
  -- the pointers and the header are in front of the cell
  rw [if_neg hshort, leaves]
  set p₁ := splice page (start - cell.length) cell with h₁
  have hl₁ : p₁.length = page.length := length_splice (by omega)
  set shifted := slice p₁ (base + headerSize + idx * 2) (2 * (numCells - idx)) with hshifted
  have hls : shifted.length = 2 * (numCells - idx) := by
    rw [hshifted, length_slice, hl₁]
    omega
  set p₂ := splice p₁ (base + headerSize + (idx + 1) * 2) shifted with h₂
  have hl₂ : p₂.length = page.length := (length_splice (by omega)).trans hl₁
  set p₃ := splice p₂ (base + headerSize + idx * 2)
    (be16 (UInt16.ofNat (start - cell.length))) with h₃
  have hl₃ : p₃.length = page.length := (length_splice (by rw [length_be16]; omega)).trans hl₂
  set p₄ := splice p₃ (base + 3) (be16 (UInt16.ofNat (numCells + 1))) with h₄
  have hl₄ : p₄.length = page.length := (length_splice (by rw [length_be16]; omega)).trans hl₃
  have hmoved : base + headerSize + numCells * 2 - (base + headerSize + idx * 2) =
      2 * (numCells - idx) := by omega
  rw [put_bind_ok (by omega), copyWithin_bind_ok (by rw [hmoved, ← h₁, ← hshifted]; omega), hmoved,
    ← h₁, ← hshifted, ← h₂, put_bind_ok (by rw [length_be16]; omega), ← h₃,
    put_bind_ok (by rw [length_be16]; omega), ← h₄, put_ok (by rw [length_be16]; omega)]

/-! ## The loops of `write_page_cells` -/

theorem layOutCells_eq (pageSize : Nat) (cells : List Bytes) :
    InPlace.layOutCells pageSize cells =
      if pageSize < cells.flatten.length then .error (.panic "attempt to subtract with overflow")
      else .ok (cellOffsets pageSize cells, pageSize - cells.flatten.length) := by
  induction cells with
  | nil => simp [InPlace.layOutCells, cellOffsets]
  | cons cell cells ih =>
      have hlen : (cell :: cells).flatten.length = cell.length + cells.flatten.length := by simp
      rw [InPlace.layOutCells, ih, hlen]
      by_cases hrest : pageSize < cells.flatten.length
      · rw [if_pos hrest, if_pos (by omega)]
        rfl
      rw [if_neg hrest]
      change (if pageSize - cells.flatten.length < cell.length then _ else _) = _
      by_cases hcell : pageSize < cell.length + cells.flatten.length
      · rw [if_pos (by omega), if_pos hcell]
      · have hsub : pageSize - cells.flatten.length - cell.length =
            pageSize - (cell.length + cells.flatten.length) := by omega
        rw [if_neg (by omega), if_neg hcell, cellOffsets, hsub, hlen]

/--
The second loop fills the cleared space behind `front` with pointers, and the
last with cells.
-/
theorem placeCells_run (gap stop : Nat) (cells : List Bytes) (front done : Bytes)
    (hstop : stop = front.length + cells.length * 2 + gap + done.length + cells.flatten.length) :
    InPlace.placeCells front.length cells (cellOffsets stop cells)
        (front ++ List.replicate (cells.length * 2) 0 ++ List.replicate gap 0 ++ done ++
          List.replicate cells.flatten.length 0) =
      .ok () (front ++ ((cellOffsets stop cells).flatMap fun off => be16 (UInt16.ofNat off)) ++
        List.replicate gap 0 ++ done ++ cells.flatten) := by
  induction cells generalizing front done with
  | nil =>
      simp only [InPlace.placeCells, cellOffsets, List.length_nil, Nat.zero_mul,
        List.replicate_zero, List.flatten_nil, List.flatMap_nil]
      rfl
  | cons cell cells ih =>
      have hflat : (cell :: cells).flatten.length = cell.length + cells.flatten.length := by simp
      have hcount : (cell :: cells).length * 2 = 2 + cells.length * 2 := by
        rw [List.length_cons]
        omega
      rw [hflat, hcount] at hstop ⊢
      set off := stop - (cell.length + cells.flatten.length) with hoff
      set zeros : Bytes := List.replicate gap 0 with hzeros
      set slots : Bytes := List.replicate (cells.length * 2) 0 with hslots
      set room : Bytes := List.replicate cells.flatten.length 0 with hroom
      have hgap : zeros.length = gap := List.length_replicate
      have hslotslen : slots.length = cells.length * 2 := List.length_replicate
      have hroomlen : room.length = cells.flatten.length := List.length_replicate
      have hoffsets : cellOffsets stop (cell :: cells) = off :: cellOffsets stop cells := by
        rw [cellOffsets, hflat]
      -- the cell is copied
      have hpage : front ++ List.replicate (2 + cells.length * 2) 0 ++ zeros ++ done ++
          List.replicate (cell.length + cells.flatten.length) 0 =
          (front ++ [0, 0] ++ slots ++ zeros ++ done) ++ List.replicate cell.length 0 ++ room := by
        rw [List.replicate_add, List.replicate_add]
        simp [hslots, hroom, List.replicate_succ]
      have hlead : (front ++ [0, 0] ++ slots ++ zeros ++ done).length = off := by
        simp only [List.length_append, List.length_cons, List.length_nil, hgap, hslotslen]
        omega
      have hcopy := splice_append (front ++ [0, 0] ++ slots ++ zeros ++ done) room
        (List.replicate cell.length 0) cell List.length_replicate
      rw [hlead] at hcopy
      -- and its pointer
      have hpoint := splice_append front (slots ++ zeros ++ done ++ cell ++ room) [0, 0]
        (be16 (UInt16.ofNat off)) (length_be16 _).symm
      have hassoc : front ++ [0, 0] ++ slots ++ zeros ++ done ++ cell ++ room =
          front ++ [0, 0] ++ (slots ++ zeros ++ done ++ cell ++ room) := by
        simp only [List.append_assoc]
      have hrest := ih (front ++ be16 (UInt16.ofNat off)) (done ++ cell) (by
        rw [List.length_append, List.length_append, length_be16]
        omega)
      rw [hoffsets, hpage, InPlace.placeCells, put_bind_ok, hcopy, put_bind_ok, hassoc, hpoint]
      · rw [List.length_append, length_be16] at hrest
        have hnext : front ++ be16 (UInt16.ofNat off) ++ (slots ++ zeros ++ done ++ cell ++ room) =
            front ++ be16 (UInt16.ofNat off) ++ slots ++ zeros ++ (done ++ cell) ++ room := by
          simp only [List.append_assoc]
        rw [hnext, hrest]
        simp only [List.flatMap_cons, List.flatten_cons, List.append_assoc]
      · simp only [List.length_append, List.length_cons, List.length_nil, length_be16]
        omega
      · rw [List.length_append, List.length_append, hlead, List.length_replicate]
        omega

theorem put_bind_append {front old back new : Bytes} (hoff : front.length = off)
    (hlen : old.length = new.length) :
    (put off new >>= f) (front ++ old ++ back) = f () (front ++ new ++ back) := by
  rw [← hoff, put_bind_ok, splice_append _ _ _ _ hlen]
  simp only [List.length_append]
  omega

def headed (page : Bytes) (base : Nat) (pageType : PageType) (count : Nat) : Bytes :=
  page.take base ++ [pageType.code] ++ be16 0 ++ be16 (UInt16.ofNat count) ++
    List.replicate (page.length - base - 5) 0

theorem fillPage_run {pageType : PageType} {cells : List Bytes} (rightMost : Option UInt32)
    (hpage : base + 12 ≤ page.length) (hsize : cells.flatten.length ≤ page.length) :
    InPlace.fillPage base pageType rightMost cells (cellOffsets page.length cells)
        (page.length - cells.flatten.length) (headed page base pageType cells.length) =
      leaves (headed page base pageType cells.length)
        (writePageCells page base pageType rightMost cells) := by
  have htake : (page.take base).length = base := by
    rw [List.length_take]
    omega
  set start := page.length - cells.flatten.length with hstart
  have hfits : ¬page.length < cells.flatten.length := by omega
  rw [InPlace.fillPage.eq_def, writePageCells, if_neg hfits]
  dsimp only
  by_cases hfull : start < base + pageType.headerSize + cells.length * 2
  · rw [if_pos hfull]
    rw [← hstart, if_pos hfull]
    rfl
  rw [← hstart, if_neg hfull, if_neg hfull]
  set child : Bytes := if pageType.isLeaf then [] else [0, 0, 0, 0] with hchild
  set gap := start - (base + pageType.headerSize + cells.length * 2) with hgap
  set pointers := (cellOffsets page.length cells).flatMap fun off => be16 (UInt16.ofNat off)
    with hpointers
  set front := page.take base ++ [pageType.code] ++ be16 0 ++ be16 (UInt16.ofNat cells.length)
    with hfront
  have hfrontlen : front.length = base + 5 := by
    simp only [hfront, List.length_append, htake, List.length_cons, List.length_nil, length_be16]
  have hheader : pageType.headerSize = 8 + child.length := by
    rw [PageType.headerSize, hchild]
    split_ifs <;> rfl
  have hzero : child = List.replicate child.length 0 := by
    rw [hchild]
    split_ifs <;> rfl
  -- the cleared part, piece by piece
  have hheaded : headed page base pageType cells.length =
      (front ++ [0, 0] ++ [0] ++ child) ++ List.replicate (cells.length * 2) 0 ++
        List.replicate gap 0 ++ [] ++ List.replicate cells.flatten.length 0 := by
    rw [headed, ← hfront, hzero, show page.length - base - 5 = 2 + (1 + (child.length +
      (cells.length * 2 + (gap + cells.flatten.length)))) by omega]
    simp only [List.replicate_add, List.append_assoc, List.append_nil]
    rfl
  have hplace := placeCells_run gap page.length cells (front ++ [0, 0] ++ [0] ++ child) []
    (by
      simp only [List.length_append, List.length_cons, List.length_nil, hfrontlen]
      omega)
  have hat : (front ++ [0, 0] ++ [0] ++ child).length = base + pageType.headerSize := by
    simp only [List.length_append, List.length_cons, List.length_nil, hfrontlen]
    omega
  rw [hat, ← hheaded, ← hpointers] at hplace
  change EStateM.bind _ _ _ = _
  rw [EStateM.bind, hplace]
  dsimp only
  have hcontent : front ++ [0, 0] ++ [0] ++ child ++ pointers ++ List.replicate gap 0 ++ [] ++
      cells.flatten =
      front ++ [0, 0] ++ ([0] ++ (child ++ pointers ++ List.replicate gap 0 ++ cells.flatten)) := by
    simp only [List.append_assoc, List.nil_append]
  have hlaid : front ++ be16 (storedContentStart start) ++ [0] ++
      (child ++ pointers ++ List.replicate gap 0 ++ cells.flatten) =
      front ++ be16 (storedContentStart start) ++ [0] ++ child ++ pointers ++
        List.replicate gap 0 ++ cells.flatten := by
    simp only [List.append_assoc]
  rw [hcontent, put_bind_append hfrontlen (by rw [length_be16]; rfl), ← List.append_assoc _ [0],
    put_bind_append (by rw [List.length_append, hfrontlen, length_be16]) (by rfl), hlaid]
  cases rightMost with
  | none => rfl
  | some rm =>
      have hlen : (front ++ be16 (storedContentStart start) ++ [0] ++ child ++ pointers ++
          List.replicate gap 0 ++ cells.flatten).length = page.length := by
        have hpointerslen : pointers.length = cells.length * 2 := by
          rw [hpointers, List.length_flatMap]
          simp
        simp only [List.length_append, List.length_cons, List.length_nil, hfrontlen, length_be16,
          List.length_replicate, hpointerslen]
        omega
      exact put_ok (by rw [length_be32, hlen]; omega)

theorem writePageCells_inPlace (hpage : base + 12 ≤ page.length) (pageType : PageType)
    (rightMost : Option UInt32) (cells : List Bytes) :
    InPlace.writePageCells base pageType rightMost cells page =
      leaves (headed page base pageType cells.length)
        (writePageCells page base pageType rightMost cells) := by
  have htake : (page.take base).length = base := by
    rw [List.length_take]
    omega
  obtain ⟨n, hn⟩ : ∃ n, page.length - base = n + 5 := ⟨page.length - base - 5, by omega⟩
  set back : Bytes := List.replicate n 0 with hback
  have hcleared : page.take base ++ List.replicate (page.length - base) 0 =
      page.take base ++ [0] ++ ([0, 0] ++ ([0, 0] ++ back)) := by
    rw [hn, Nat.add_comm, List.replicate_add]
    simp [hback, List.replicate_succ]
  have hheaded : headed page base pageType cells.length =
      page.take base ++ [pageType.code] ++ be16 0 ++ be16 (UInt16.ofNat cells.length) ++ back := by
    rw [headed, hn, Nat.add_sub_cancel]
  have hstart : InPlace.writePageCells base pageType rightMost cells page = (do
      put base [pageType.code]
      put (base + 1) (be16 0)
      put (base + 3) (be16 (UInt16.ofNat cells.length))
      let laid ← ofResult (InPlace.layOutCells page.length cells)
      InPlace.fillPage base pageType rightMost cells laid.1 laid.2 : BufferM Unit)
        (page.take base ++ List.replicate (page.length - base) 0) := rfl
  rw [hstart, hcleared, put_bind_append htake (by rfl), ← List.append_assoc _ [0, 0],
    put_bind_append (by simp [htake]) (by rw [length_be16]; rfl), ← List.append_assoc _ [0, 0],
    put_bind_append (by simp [htake]) (by rw [length_be16]; rfl), ← hheaded, layOutCells_eq]
  by_cases hlong : page.length < cells.flatten.length
  · rw [if_pos hlong, writePageCells, if_pos hlong]
    rfl
  · rw [if_neg hlong]
    exact fillPage_run rightMost hpage (by omega)

end Rustqlite.Btree
