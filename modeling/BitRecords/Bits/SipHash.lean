import BitRecords.Bits.Bytes

/-!
# SipHash

The variant with one round for each word and three at the end, under the key zero.
-/

namespace BitRecords

structure Sip where
  v0 : UInt64
  v1 : UInt64
  v2 : UInt64
  v3 : UInt64

namespace Sip

def rotate (x n : UInt64) : UInt64 := x <<< n ||| x >>> (64 - n)

def round (s : Sip) : Sip :=
  let v0 := s.v0 + s.v1
  let v1 := rotate s.v1 13 ^^^ v0
  let v2 := s.v2 + s.v3
  let v3 := rotate s.v3 16 ^^^ v2
  let v0 := rotate v0 32 + v3
  let v2 := v2 + v1
  ⟨v0, rotate v1 17 ^^^ v2, rotate v2 32, rotate v3 21 ^^^ v0⟩

end Sip

end BitRecords
