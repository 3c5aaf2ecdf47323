/-!
# Little-endian bytes

A number as a fixed count of bytes, the least significant first.
-/

namespace BitRecords

/-- The low `count` bytes of a number. -/
def toLittleEndian : (count : Nat) → Nat → List UInt8
  | 0, _ => []
  | count + 1, v => UInt8.ofNat v :: toLittleEndian count (v / 256)

/-- The number that bytes stand for. -/
def ofLittleEndian : List UInt8 → Nat
  | [] => 0
  | b :: rest => b.toNat + 256 * ofLittleEndian rest

@[simp] theorem length_toLittleEndian (count v : Nat) :
    (toLittleEndian count v).length = count := by
  induction count generalizing v with
  | zero => rfl
  | succ count ih => simp [toLittleEndian, ih]

/-- Bytes are the only ones of their count that stand for their number. -/
theorem toLittleEndian_ofLittleEndian (bytes : List UInt8) :
    toLittleEndian bytes.length (ofLittleEndian bytes) = bytes := by
  induction bytes with
  | nil => rfl
  | cons b rest ih =>
    have hb : b.toNat < 256 := b.toNat_lt
    have low : UInt8.ofNat (b.toNat + 256 * ofLittleEndian rest) = b := by
      apply UInt8.toNat.inj
      rw [UInt8.toNat_ofNat']
      omega
    have high : (b.toNat + 256 * ofLittleEndian rest) / 256 = ofLittleEndian rest := by omega
    simp only [List.length_cons, ofLittleEndian, toLittleEndian, low, high, ih]

end BitRecords
