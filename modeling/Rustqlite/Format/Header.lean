import Rustqlite.Format.SerialType

/-!
# The database header

The first 100 bytes of page 1.  Page size and reserved space are checked when a
header is parsed, so a header carries the proof that they are acceptable.
-/

namespace Rustqlite.Format

open Foundation

def isValidPageSize (n : Nat) : Bool :=
  512 ≤ n && n ≤ 65536 && n == 2 ^ n.log2

theorem isValidPageSize_512 : isValidPageSize 512 = true := by decide

structure PageSize where
  size : Nat
  valid : isValidPageSize size = true
  deriving DecidableEq

namespace PageSize

theorem exists_pow (ps : PageSize) : ∃ k, 9 ≤ k ∧ k ≤ 16 ∧ ps.size = 2 ^ k := by
  have h := ps.valid
  simp only [isValidPageSize, Bool.and_eq_true, decide_eq_true_eq, beq_iff_eq] at h
  obtain ⟨⟨hlo, hhi⟩, hpow⟩ := h
  refine ⟨ps.size.log2, ?_, ?_, hpow⟩
  · exact (Nat.le_log2 (by omega)).mpr (by omega)
  · exact Nat.lt_succ_iff.mp ((Nat.log2_lt (by omega)).mpr (by omega))

theorem le_size (ps : PageSize) : 512 ≤ ps.size := by
  obtain ⟨k, hk, -, h⟩ := ps.exists_pow
  rw [h]
  exact Nat.pow_le_pow_right (show 0 < 2 by omega) hk

theorem size_le (ps : PageSize) : ps.size ≤ 65536 := by
  obtain ⟨k, -, hk, h⟩ := ps.exists_pow
  rw [h]
  exact Nat.pow_le_pow_right (show 0 < 2 by omega) hk

end PageSize

structure DbHeader where
  pageSize : PageSize
  writeVersion : UInt8
  readVersion : UInt8
  reservedSpace : UInt8
  fileChangeCounter : UInt32
  dbSizePages : UInt32
  firstFreelistTrunk : UInt32
  freelistCount : UInt32
  schemaCookie : UInt32
  schemaFormat : UInt32
  defaultCacheSize : UInt32
  largestRootPage : UInt32
  textEncoding : TextEncoding
  userVersion : UInt32
  incrementalVacuum : UInt32
  applicationId : UInt32
  versionValidFor : UInt32
  sqliteVersionNumber : UInt32
  /-- Pages keep at least 480 bytes beside the reserved space. -/
  usable : 480 + reservedSpace.toNat ≤ pageSize.size
  deriving DecidableEq

/-- `SQLite format 3` and a zero byte. -/
def headerMagic : Bytes :=
  [0x53, 0x51, 0x4c, 0x69, 0x74, 0x65, 0x20, 0x66, 0x6f, 0x72, 0x6d, 0x61, 0x74, 0x20, 0x33, 0x00]

namespace TextEncoding

def fromCode (code : UInt32) : TextEncoding :=
  if code = 2 then .utf16le else if code = 3 then .utf16be else .utf8

def code : TextEncoding → UInt32
  | .utf8 => 1
  | .utf16le => 2
  | .utf16be => 3

theorem fromCode_code (e : TextEncoding) : fromCode e.code = e := by
  cases e <;> rfl

end TextEncoding

namespace DbHeader

def usableSize (h : DbHeader) : Nat := h.pageSize.size - h.reservedSpace.toNat

def decodePageSize (raw : UInt16) : Nat := if raw = 1 then 65536 else raw.toNat

def encodePageSize (n : Nat) : UInt16 := if n = 65536 then 1 else UInt16.ofNat n

def parse (bytes : Bytes) : Result DbHeader :=
  if bytes.length < 100 then
    .error (.notADb "file is shorter than the 100-byte header")
  else if slice bytes 0 16 ≠ headerMagic then
    .error (.notADb "file is not a database (bad header magic)")
  else
    let pageSize := decodePageSize (readBe16 (bytes.drop 16))
    if hsize : isValidPageSize pageSize = true then
      let reservedSpace := bytes.getD 20 0
      if hused : 480 + reservedSpace.toNat ≤ pageSize then
        let readVersion := bytes.getD 19 0
        if 2 < readVersion then
          .error (.notADb s!"unsupported file format read version {readVersion}")
        else
          let word (off : Nat) : UInt32 := readBe32 (bytes.drop off)
          .ok {
            pageSize := ⟨pageSize, hsize⟩
            writeVersion := bytes.getD 18 0
            readVersion := readVersion
            reservedSpace := reservedSpace
            fileChangeCounter := word 24
            dbSizePages := word 28
            firstFreelistTrunk := word 32
            freelistCount := word 36
            schemaCookie := word 40
            schemaFormat := word 44
            defaultCacheSize := word 48
            largestRootPage := word 52
            textEncoding := .fromCode (word 56)
            userVersion := word 60
            incrementalVacuum := word 64
            applicationId := word 68
            versionValidFor := word 92
            sqliteVersionNumber := word 96
            usable := hused }
      else .error (.notADb "usable page size is below the 480-byte minimum")
    else .error (.corrupt s!"invalid page size {pageSize}")

def serialize (h : DbHeader) : Bytes :=
  headerMagic ++ be16 (encodePageSize h.pageSize.size) ++
    [h.writeVersion, h.readVersion, h.reservedSpace, 64, 32, 32] ++
    be32 h.fileChangeCounter ++ be32 h.dbSizePages ++ be32 h.firstFreelistTrunk ++
    be32 h.freelistCount ++ be32 h.schemaCookie ++ be32 h.schemaFormat ++
    be32 h.defaultCacheSize ++ be32 h.largestRootPage ++ be32 h.textEncoding.code ++
    be32 h.userVersion ++ be32 h.incrementalVacuum ++ be32 h.applicationId ++
    List.replicate 20 0 ++ be32 h.versionValidFor ++ be32 h.sqliteVersionNumber

@[simp] theorem length_serialize (h : DbHeader) : h.serialize.length = 100 := by
  simp [serialize, headerMagic]

theorem decode_encode_pageSize (ps : PageSize) :
    decodePageSize (encodePageSize ps.size) = ps.size := by
  obtain ⟨k, hlo, hhi, hsize⟩ := ps.exists_pow
  rw [hsize]
  interval_cases k <;> decide

theorem parse_serialize_append (h : DbHeader) (hread : h.readVersion ≤ 2) (rest : Bytes) :
    parse (h.serialize ++ rest) = .ok h := by
  have hlen : ¬ (h.serialize ++ rest).length < 100 := by simp
  have hmagic : slice (h.serialize ++ rest) 0 16 = headerMagic := by
    simp [slice, serialize, headerMagic]
  have hpage : readBe16 ((h.serialize ++ rest).drop 16) = encodePageSize h.pageSize.size := by
    simp [serialize, headerMagic]
  have hbytes : ∀ i : Nat, i < 4 → (h.serialize ++ rest).getD (18 + i) 0 =
      [h.writeVersion, h.readVersion, h.reservedSpace, 64].getD i 0 := by
    intro i hi
    simp only [serialize, List.append_assoc, List.getD_eq_getElem?_getD]
    rw [List.getElem?_append_right (by simp [headerMagic]; omega),
      List.getElem?_append_right (by simp [headerMagic]; omega),
      List.getElem?_append_left (by simp [headerMagic]; omega)]
    interval_cases i <;> simp [headerMagic]
  have h18 := hbytes 0 (by omega)
  have h19 := hbytes 1 (by omega)
  have h20 := hbytes 2 (by omega)
  simp only [Nat.add_zero, Nat.reduceAdd, List.getD_cons_zero, List.getD_cons_succ] at h18 h19 h20
  have hversion : ¬ 2 < h.readVersion := UInt8.not_lt.mpr hread
  unfold parse
  simp only [if_neg hlen, hmagic, ne_eq, not_true_eq_false, if_false, hpage, decode_encode_pageSize,
    h.pageSize.valid, h18, h19, h20, h.usable, hversion, dif_pos]
  simp [serialize, headerMagic, List.drop_append, TextEncoding.fromCode_code]

end DbHeader

end Rustqlite.Format
