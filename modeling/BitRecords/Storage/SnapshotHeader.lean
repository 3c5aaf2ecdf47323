import BitRecords.Bits.Bytes
import BitRecords.Storage.Snapshot

/-!
# Snapshot headers

A header describes a snapshot in 40 bytes: eight bytes that tell it from other
data, then fingerprint, capacity and row stride as 64-bit numbers, and the
numbers of segments and lists as 32-bit numbers, all little-endian.

The number that stands for a fingerprint is up to the caller.
-/

namespace BitRecords

structure SnapshotHeader where
  fingerprint : UInt64
  capacity : UInt64
  rowStride : UInt64
  segments : UInt32
  lists : UInt32
deriving DecidableEq, Inhabited

namespace SnapshotHeader

/-- The number of bytes of a header. -/
def size : Nat := 40

/-- The first bytes of every header: the characters `SSTORE01`. -/
def magic : List UInt8 := [0x53, 0x53, 0x54, 0x4F, 0x52, 0x45, 0x30, 0x31]

def toBytes (h : SnapshotHeader) : List UInt8 :=
  magic ++ toLittleEndian 8 h.fingerprint.toNat ++ toLittleEndian 8 h.capacity.toNat ++
    toLittleEndian 8 h.rowStride.toNat ++ toLittleEndian 4 h.segments.toNat ++
    toLittleEndian 4 h.lists.toNat

/-- The number in `count` bytes from `start` on. -/
def numberAt (bytes : List UInt8) (start count : Nat) : Nat :=
  ofLittleEndian ((bytes.drop start).take count)

/-- Reads the header that the bytes start with. -/
def ofBytes (bytes : List UInt8) : Except Error SnapshotHeader :=
  if bytes.length < size then .error (.headerTooShort bytes.length)
  else if bytes.take 8 ≠ magic then .error .headerMagic
  else .ok {
    fingerprint := UInt64.ofNat (numberAt bytes 8 8)
    capacity := UInt64.ofNat (numberAt bytes 16 8)
    rowStride := UInt64.ofNat (numberAt bytes 24 8)
    segments := UInt32.ofNat (numberAt bytes 32 4)
    lists := UInt32.ofNat (numberAt bytes 36 4) }

/-- Writes the header over the first bytes of a buffer that has room for it. -/
def writeTo (h : SnapshotHeader) (bytes : List UInt8) : Except Error (List UInt8) :=
  if bytes.length < size then .error (.headerTooShort bytes.length)
  else .ok (h.toBytes ++ bytes.drop size)

end SnapshotHeader

/-- The header of a snapshot. The numbers of segments and lists are cut to 32 bits. -/
def Snapshot.header (number : Fingerprint → UInt64) (s : Snapshot) : SnapshotHeader where
  fingerprint := number s.fingerprint
  capacity := s.capacity
  rowStride := s.rowStride
  segments := UInt32.ofNat s.segments.length
  lists := UInt32.ofNat s.lists.length

end BitRecords
