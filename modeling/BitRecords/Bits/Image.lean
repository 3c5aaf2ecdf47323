import BitRecords.Bits.Buffer
import BitRecords.Bits.Bytes

/-!
# Images of bit buffers

The image of a bit buffer is its words as little-endian bytes, so bit `p` of the
buffer is bit `p % 8` of byte `p / 8`. An image is read back for a given size. It
has to have the words for that size, and no bit may be set past the size.
-/

namespace BitRecords

/-- Why bytes are no image of a buffer of the given size. -/
inductive ImageFault where
  /-- The bytes are no whole number of words. -/
  | ragged (bytes : Nat)
  | wordCount (size : UInt64) (needed found : Nat)
  /-- A bit is set past the size. -/
  | tail
deriving DecidableEq

def ImageFault.text : ImageFault → String
  | ragged bytes => s!"failed to read bit buffer: {bytes} bytes are no whole number of words"
  | wordCount size needed found =>
    s!"bit buffer of {size.toNat} bits needs {needed} words, got {found}"
  | tail => "bit buffer has data past its length"

namespace BitBuffer

def toBytes (b : BitBuffer) : List UInt8 :=
  b.words.toList.flatMap fun word => toLittleEndian 8 word.toNat

/-- The words that the first `8 * count` bytes stand for. -/
def wordsOfBytes : (count : Nat) → List UInt8 → List UInt64
  | 0, _ => []
  | count + 1, bytes =>
    UInt64.ofNat (ofLittleEndian (bytes.take 8)) :: wordsOfBytes count (bytes.drop 8)

/-- Reads the image of a buffer of the given size. -/
def ofBytes (bytes : List UInt8) (size : UInt64) : Except ImageFault BitBuffer :=
  let words := wordsOfBytes (bytes.length / 8) bytes
  let tail := size.toNat % 64
  if bytes.length % 8 ≠ 0 then .error (.ragged bytes.length)
  else if words.length ≠ wordCount size then
    .error (.wordCount size (wordCount size) words.length)
  else if tail ≠ 0 ∧ words.getLastD 0 &&& ~~~lowMask tail ≠ 0 then .error .tail
  else .ok ⟨words.toArray, size⟩

end BitBuffer

end BitRecords
