import Rustqlite.Format.Header

/-!
# The write-ahead log format

A 32-byte header followed by frames.  A frame is a 24-byte header and the bytes
of one page.  Salts tie a frame to the header of its generation, and a running
checksum ties it to all frames before it.
-/

namespace Rustqlite.Format

open Foundation

def walMagicBe : UInt32 := 0x377f0683

def walFormatVersion : UInt32 := 3007000

def walHeaderSize : Nat := 32

def walFrameHeaderSize : Nat := 24

abbrev Cksum := UInt32 × UInt32

structure WalHeader where
  magic : UInt32
  formatVersion : UInt32
  pageSize : UInt32
  checkpointSeq : UInt32
  salt1 : UInt32
  salt2 : UInt32
  checksum1 : UInt32
  checksum2 : UInt32
  deriving DecidableEq

structure WalFrameHeader where
  pageNumber : UInt32
  /-- Pages of the database after the commit; zero but on a commit frame. -/
  commitSize : UInt32
  salt1 : UInt32
  salt2 : UInt32
  checksum1 : UInt32
  checksum2 : UInt32
  deriving DecidableEq

/-- A 32-bit word in the byte order of the checksum. -/
def readU32 (bytes : Bytes) (bigEndian : Bool) : UInt32 :=
  if bigEndian then readBe32 bytes else readBe32 bytes.reverse

def walChecksum (bigEndian : Bool) : Bytes → Cksum → Cksum
  | a0 :: a1 :: a2 :: a3 :: b0 :: b1 :: b2 :: b3 :: rest, (s0, s1) =>
      let s0 := s0 + readU32 [a0, a1, a2, a3] bigEndian + s1
      let s1 := s1 + readU32 [b0, b1, b2, b3] bigEndian + s0
      walChecksum bigEndian rest (s0, s1)
  | _, s => s

namespace WalHeader

def decode (buf : Bytes) : Result WalHeader :=
  if buf.length < walHeaderSize then .error (.msg "WAL header is too short")
  else
    let word (off : Nat) : UInt32 := readBe32 (buf.drop off)
    .ok {
      magic := word 0
      formatVersion := word 4
      pageSize := word 8
      checkpointSeq := word 12
      salt1 := word 16
      salt2 := word 20
      checksum1 := word 24
      checksum2 := word 28 }

def encodeFields (h : WalHeader) : Bytes :=
  be32 h.magic ++ be32 h.formatVersion ++ be32 h.pageSize ++ be32 h.checkpointSeq ++
    be32 h.salt1 ++ be32 h.salt2

def encode (h : WalHeader) : Bytes := h.encodeFields ++ be32 h.checksum1 ++ be32 h.checksum2

def checksumBigEndian (h : WalHeader) : Bool := h.magic == walMagicBe

/-- Fill in the checksum over the first 24 bytes. -/
def stamp (h : WalHeader) : WalHeader :=
  let (c0, c1) := walChecksum h.checksumBigEndian h.encodeFields (0, 0)
  { h with checksum1 := c0, checksum2 := c1 }

def checksum (h : WalHeader) : Cksum := (h.checksum1, h.checksum2)

def salts (h : WalHeader) : UInt32 × UInt32 := (h.salt1, h.salt2)

section

variable (h : WalHeader)

include h

@[simp] theorem length_encodeFields : h.encodeFields.length = 24 := by
  simp [encodeFields]

@[simp] theorem length_encode : h.encode.length = 32 := by
  simp [encode]

theorem decode_encode_append (rest : Bytes) : decode (h.encode ++ rest) = .ok h := by
  have hlen : ¬ (h.encode ++ rest).length < walHeaderSize := by
    simp [walHeaderSize]
  rw [decode, if_neg hlen]
  simp [encode, encodeFields, List.append_assoc, List.drop_append]

@[simp] theorem take_encode_append (rest : Bytes) :
    (h.encode ++ rest).take 24 = h.encodeFields := by
  simp [encode, List.append_assoc]

@[simp] theorem encodeFields_stamp : h.stamp.encodeFields = h.encodeFields := rfl

@[simp] theorem checksumBigEndian_stamp :
    h.stamp.checksumBigEndian = h.checksumBigEndian := rfl

@[simp] theorem salts_stamp : h.stamp.salts = h.salts := rfl

@[simp] theorem pageSize_stamp : h.stamp.pageSize = h.pageSize := rfl

end

end WalHeader

namespace WalFrameHeader

def decode (buf : Bytes) : Result WalFrameHeader :=
  if buf.length < walFrameHeaderSize then .error (.msg "WAL frame header is too short")
  else
    let word (off : Nat) : UInt32 := readBe32 (buf.drop off)
    .ok {
      pageNumber := word 0
      commitSize := word 4
      salt1 := word 8
      salt2 := word 12
      checksum1 := word 16
      checksum2 := word 20 }

def encode (h : WalFrameHeader) : Bytes :=
  be32 h.pageNumber ++ be32 h.commitSize ++ be32 h.salt1 ++ be32 h.salt2 ++
    be32 h.checksum1 ++ be32 h.checksum2

@[simp] theorem length_encode (h : WalFrameHeader) : h.encode.length = 24 := by
  simp [encode]

theorem decode_encode (h : WalFrameHeader) : decode h.encode = .ok h := by
  have hlen : ¬ h.encode.length < walFrameHeaderSize := by
    simp [walFrameHeaderSize]
  rw [decode, if_neg hlen]
  simp [encode, List.append_assoc, List.drop_append]

end WalFrameHeader

end Rustqlite.Format
