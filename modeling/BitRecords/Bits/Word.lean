/-!
# Words of 64 bits

The low bits of a word are what a slot of that width can hold. A width of 64 or
more keeps the whole word.
-/

namespace BitRecords

/-- The word whose low `width` bits are set. -/
def lowMask (width : Nat) : UInt64 :=
  if 64 ≤ width then 0xFFFFFFFFFFFFFFFF else (1 <<< UInt64.ofNat width) - 1

/-- Replaces the low `width` bits of `word` by those of `bits`. -/
def overlayLow (word : UInt64) (width : Nat) (bits : UInt64) : UInt64 :=
  (word &&& ~~~lowMask width) ||| (bits &&& lowMask width)

/-- Reads the low `width` bits, at most 64, as a two's complement number. -/
def signExtend (width : Nat) (bits : UInt64) : Int64 :=
  let shift := UInt64.ofNat (64 - width)
  (bits <<< shift).toInt64 >>> shift.toInt64

end BitRecords
