import BitRecords.Error

/-!
# Layout strategies

A strategy says how many bits a slot takes that holds a payload of some width,
and to what stride the extent of a struct is rounded. The packed strategy adds
nothing. The aligned ones round everything up to a boundary, so that with 64-bit
words no field has to straddle two of them.
-/

namespace BitRecords

/-- A slot strategy. A layout refuses a slot below its width and a stride below
its extent, but nothing is assumed of the two functions. -/
structure Strategy where
  name : String
  slotBits : Nat → UInt64
  roundStride : UInt64 → UInt64

/-- The boundaries that slots and strides can be aligned to. -/
inductive Alignment where
  | bits8
  | bits16
  | bits32
  | bits64
deriving DecidableEq, Inhabited

namespace Alignment

def bits : Alignment → UInt64
  | bits8 => 8
  | bits16 => 16
  | bits32 => 32
  | bits64 => 64

/-- Accepts the powers of two from 8 to 64. -/
def ofBits (bits : UInt64) : Except Error Alignment :=
  if bits = 8 then .ok bits8
  else if bits = 16 then .ok bits16
  else if bits = 32 then .ok bits32
  else if bits = 64 then .ok bits64
  else .error (.compilation "" (.alignment bits))

/-- The next multiple of the boundary, modulo the word range. -/
def roundUp (a : Alignment) (bits : UInt64) : UInt64 :=
  (bits / a.bits + if bits % a.bits = 0 then 0 else 1) * a.bits

end Alignment

namespace Strategy

/-- Slots as wide as their payload, and strides as long as their extent. -/
def packed : Strategy where
  name := "packed"
  slotBits width := UInt64.ofNat width
  roundStride extent := extent

/-- Slots and strides that end on a boundary. -/
def aligned (a : Alignment) : Strategy where
  name := s!"aligned{a.bits.toNat}"
  slotBits width := a.roundUp (UInt64.ofNat width)
  roundStride := a.roundUp

end Strategy

end BitRecords
