import Rustqlite.Types.Error
import Rustqlite.Foundation.Bytes

/-!
# B-tree pages

A header of 8 or 12 bytes, an array of two-byte cell pointers that grows upward,
and a content area that grows downward from the end of the page.  On page 1 the
header follows the 100 bytes of the database header.
-/

namespace Rustqlite.Btree

open Foundation

inductive PageType where
  | interiorIndex
  | interiorTable
  | leafIndex
  | leafTable
  deriving DecidableEq

namespace PageType

def code : PageType → UInt8
  | interiorIndex => 0x02
  | interiorTable => 0x05
  | leafIndex => 0x0a
  | leafTable => 0x0d

def hexByte (b : UInt8) : String :=
  String.ofList ['0', 'x', Nat.digitChar (b.toNat / 16), Nat.digitChar (b.toNat % 16)]

def fromByte (b : UInt8) : Result PageType :=
  if b = 0x02 then .ok interiorIndex
  else if b = 0x05 then .ok interiorTable
  else if b = 0x0a then .ok leafIndex
  else if b = 0x0d then .ok leafTable
  else .error (.corrupt ("invalid b-tree page type " ++ hexByte b))

def isLeaf : PageType → Bool
  | leafIndex | leafTable => true
  | interiorIndex | interiorTable => false

def headerSize (t : PageType) : Nat := if t.isLeaf then 8 else 12

/-- The name that `{:?}` prints. -/
def debug : PageType → String
  | interiorIndex => "InteriorIndex"
  | interiorTable => "InteriorTable"
  | leafIndex => "LeafIndex"
  | leafTable => "LeafTable"

@[simp] theorem fromByte_code (t : PageType) : fromByte t.code = .ok t := by
  cases t <;> rfl

end PageType

structure PageHeader where
  pageType : PageType
  firstFreeblock : UInt16
  numCells : Nat
  /-- A stored 0 stands for 65536. -/
  cellContentStart : Nat
  fragmentedFreeBytes : UInt8
  rightMostPointer : Option UInt32
  headerSize : Nat
  baseOffset : Nat
  deriving DecidableEq

def btreeHeaderOffset (pgno : UInt32) : Nat := if pgno = 1 then 100 else 0

def storedContentStart (n : Nat) : UInt16 := if n = 65536 then 0 else UInt16.ofNat n

def readContentStart (raw : UInt16) : Nat := if raw = 0 then 65536 else raw.toNat

namespace PageHeader

def parse (page : Bytes) (base : Nat) : Result PageHeader :=
  if page.length < base + 8 then .error (.corrupt "page too small for a b-tree header")
  else
    match PageType.fromByte (page.getD base 0) with
    | .error e => .error e
    | .ok pageType =>
        if pageType.isLeaf = false ∧ page.length < base + 12 then
          .error (.corrupt "interior page too small for a 12-byte header")
        else
          .ok {
            pageType := pageType
            firstFreeblock := readBe16 (page.drop (base + 1))
            numCells := (readBe16 (page.drop (base + 3))).toNat
            cellContentStart := readContentStart (readBe16 (page.drop (base + 5)))
            fragmentedFreeBytes := page.getD (base + 7) 0
            rightMostPointer :=
              if pageType.isLeaf then none else some (readBe32 (page.drop (base + 8)))
            headerSize := pageType.headerSize
            baseOffset := base }

def cellPointer (hdr : PageHeader) (page : Bytes) (i : Nat) : Result Nat :=
  let ptrOff := hdr.baseOffset + hdr.headerSize + i * 2
  if page.length < ptrOff + 2 then .error (.corrupt "cell pointer array out of range")
  else .ok (readBe16 (page.drop ptrOff)).toNat

end PageHeader

/-! ## Writing -/

/-- The caller tells this error by its text. -/
def pageFullError : Error := .msg "btree page is full"

def isPageFull (e : Error) : Bool := decide ("page is full".toList <:+: e.message.toList)

def initEmptyLeaf (page : Bytes) (base : Nat) : Bytes :=
  page.take base ++ [PageType.leafTable.code] ++ be16 0 ++ be16 0 ++
    be16 (storedContentStart page.length) ++ [0] ++ List.replicate (page.length - base - 8) 0

def initEmptyIndexLeaf (page : Bytes) (base : Nat) : Bytes :=
  page.take base ++ [PageType.leafIndex.code] ++ be16 0 ++ be16 0 ++
    be16 (storedContentStart page.length) ++ [0] ++ List.replicate (page.length - base - 8) 0

def initInterior (t : PageType) (page : Bytes) (base : Nat) (rightMost : UInt32) : Bytes :=
  page.take base ++ [t.code] ++ be16 0 ++ be16 0 ++ be16 (storedContentStart page.length) ++ [0] ++
    be32 rightMost ++ List.replicate (page.length - base - 12) 0

def initEmptyInterior : Bytes → Nat → UInt32 → Bytes := initInterior .interiorTable

def initEmptyInteriorIndex : Bytes → Nat → UInt32 → Bytes := initInterior .interiorIndex

/--
Insert a cell at index `idx`: its bytes go in front of the content area, and the
pointers from `idx` on move up by one slot.
-/
def insertCell (types : List PageType) (headerSize : Nat) (wrongPage pastEnd : String)
    (page : Bytes) (base idx : Nat) (cell : Bytes) : Result Bytes :=
  if types.all (fun t => page.getD base 0 != t.code) then .error (.corrupt wrongPage)
  else
    let numCells := (readBe16 (page.drop (base + 3))).toNat
    if numCells < idx then .error (.corrupt pastEnd)
    else
      let contentStart := readContentStart (readBe16 (page.drop (base + 5)))
      let ptrAt (i : Nat) : Nat := base + headerSize + i * 2
      if contentStart < ptrAt numCells + cell.length + 2 then .error pageFullError
      else
        let newStart := contentStart - cell.length
        if page.length < contentStart then .error (.panic "range end index out of range")
        else
          let page := splice page newStart cell
          let shifted := slice page (ptrAt idx) (2 * (numCells - idx))
          let page := splice page (ptrAt (idx + 1)) shifted
          let page := splice page (ptrAt idx) (be16 (UInt16.ofNat newStart))
          let page := splice page (base + 3) (be16 (UInt16.ofNat (numCells + 1)))
          .ok (splice page (base + 5) (be16 (storedContentStart newStart)))

def insertLeafCell : Bytes → Nat → Nat → Bytes → Result Bytes :=
  insertCell [.leafTable, .leafIndex] 8
    "insert_leaf_cell: not a leaf-table or leaf-index page"
    "insert_leaf_cell: index past cell count"

def insertInteriorCell : Bytes → Nat → Nat → Bytes → Result Bytes :=
  insertCell [.interiorTable, .interiorIndex] 12
    "insert_interior_cell: not an interior-table or interior-index page"
    "insert_interior_cell: index past cell count"

def cellOffsets (stop : Nat) : List Bytes → List Nat
  | [] => []
  | cell :: cells => (stop - (cell :: cells).flatten.length) :: cellOffsets stop cells

/-- Lay out `cells` on an empty page; what is in front of `base` stays. -/
def writePageCells (page : Bytes) (base : Nat) (pageType : PageType) (rightMost : Option UInt32)
    (cells : List Bytes) : Result Bytes :=
  let size := cells.flatten.length
  if page.length < size then .error (.panic "attempt to subtract with overflow")
  else
    let contentStart := page.length - size
    let ptrArrayEnd := base + pageType.headerSize + cells.length * 2
    if contentStart < ptrArrayEnd then .error pageFullError
    else
      let pointers := (cellOffsets page.length cells).flatMap fun off => be16 (UInt16.ofNat off)
      let child : Bytes := if pageType.isLeaf then [] else [0, 0, 0, 0]
      let laid := page.take base ++ [pageType.code] ++ be16 0 ++
        be16 (UInt16.ofNat cells.length) ++ be16 (storedContentStart contentStart) ++ [0] ++
        child ++ pointers ++ List.replicate (contentStart - ptrArrayEnd) 0 ++ cells.flatten
      -- the pointer is written last, whatever the type: on a leaf it lands in the pointer array
      .ok (match rightMost with
        | none => laid
        | some rm => splice laid (base + 8) (be32 rm))

end Rustqlite.Btree
