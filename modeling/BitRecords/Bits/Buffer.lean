import BitRecords.Bits.Word

/-!
# Bit buffers

A bit buffer is a run of bits in 64-bit words. Bit `p` of the buffer is bit
`p % 64` of word `p / 64`. A value of up to 64 bits may straddle two words. Bits
at and past the size are zero, so that cutting a buffer and growing it again
brings nothing back.

Reading outside the words gives zeros, and writing there does nothing.
-/

namespace BitRecords

structure BitBuffer where
  words : Array UInt64
  size : UInt64
deriving DecidableEq, Inhabited

namespace BitBuffer

/-- The number of words that hold so many bits. -/
def wordCount (bits : UInt64) : Nat := (bits.toNat + 63) / 64

def zeroed (size : UInt64) : BitBuffer :=
  ⟨Array.replicate (wordCount size) 0, size⟩

def word (b : BitBuffer) (i : Nat) : UInt64 := b.words.getD i 0

/-- Replaces the bits of a word that are set in `mask`. -/
def setMasked (b : BitBuffer) (i : Nat) (mask bits : UInt64) : BitBuffer :=
  { b with words := b.words.modify i fun word => (word &&& ~~~mask) ||| (bits &&& mask) }

@[simp] theorem size_zeroed (size : UInt64) : (zeroed size).size = size := rfl

@[simp] theorem size_setMasked (b : BitBuffer) (i : Nat) (mask bits : UInt64) :
    (b.setMasked i mask bits).size = b.size := rfl

@[simp] theorem size_words_setMasked (b : BitBuffer) (i : Nat) (mask bits : UInt64) :
    (b.setMasked i mask bits).words.size = b.words.size := by
  simp [setMasked]

/-- Reads `width` bits, at most 64, from `offset` on. -/
def get (b : BitBuffer) (offset : UInt64) (width : Nat) : UInt64 :=
  if width = 0 then 0
  else
    let i := (offset / 64).toNat
    let shift := offset % 64
    let taken := 64 - shift.toNat
    let low := b.word i >>> shift
    let bits := if taken < width then low ||| b.word (i + 1) <<< UInt64.ofNat taken else low
    bits &&& lowMask width

/-- Writes the low `width` bits of a word, at most 64, from `offset` on. -/
def set (b : BitBuffer) (offset : UInt64) (width : Nat) (bits : UInt64) : BitBuffer :=
  if width = 0 then b
  else
    let bits := bits &&& lowMask width
    let i := (offset / 64).toNat
    let shift := offset % 64
    let taken := 64 - shift.toNat
    let b := b.setMasked i (lowMask (min width taken) <<< shift) (bits <<< shift)
    if taken < width then
      b.setMasked (i + 1) (lowMask (width - taken)) (bits >>> UInt64.ofNat taken)
    else b

@[simp] theorem size_set (b : BitBuffer) (offset : UInt64) (width : Nat) (bits : UInt64) :
    (b.set offset width bits).size = b.size := by
  unfold set
  split
  · rfl
  · dsimp only
    split <;> rfl

@[simp] theorem size_words_set (b : BitBuffer) (offset : UInt64) (width : Nat) (bits : UInt64) :
    (b.set offset width bits).words.size = b.words.size := by
  unfold set
  split
  · rfl
  · dsimp only
    split <;> simp

/-- Zeroes `count` bits from `offset` on, up to 64 at a time. -/
def clearRange (b : BitBuffer) (offset : UInt64) (count : Nat) : BitBuffer :=
  if count ≤ 64 then b.set offset count 0
  else (b.set offset 64 0).clearRange (offset + 64) (count - 64)

/-- Grows the buffer by zeros, or cuts it off. -/
def resize (b : BitBuffer) (size : UInt64) : BitBuffer :=
  let b := if size < b.size then b.clearRange size (b.size.toNat - size.toNat) else b
  let count := wordCount size
  ⟨b.words.take count ++ Array.replicate (count - b.words.size) 0, size⟩

@[simp] theorem size_resize (b : BitBuffer) (size : UInt64) : (b.resize size).size = size := rfl

end BitBuffer

end BitRecords
