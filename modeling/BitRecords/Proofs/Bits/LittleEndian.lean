import Mathlib.Data.Nat.Bitwise
import BitRecords.Bits.Bytes

/-!
# Numbers as little-endian bytes

Byte `i` of a number is its digit at `256 ^ i`. Taking a number apart and putting it together
again keeps what fits into the bytes.
-/

namespace BitRecords

theorem ofLittleEndian_lt (bytes : List UInt8) : ofLittleEndian bytes < 256 ^ bytes.length := by
  induction bytes with
  | nil => exact Nat.one_pos
  | cons b rest ih =>
    have small : b.toNat < 256 := b.toNat_lt
    rw [ofLittleEndian, List.length_cons, Nat.pow_succ]
    omega

/-- The bytes of a number stand for its remainder. -/
theorem ofLittleEndian_toLittleEndian (count v : Nat) :
    ofLittleEndian (toLittleEndian count v) = v % 256 ^ count := by
  induction count generalizing v with
  | zero => exact (Nat.mod_one v).symm
  | succ count ih =>
    have digit : (UInt8.ofNat v).toNat = v % 256 := UInt8.toNat_ofNat'
    rw [toLittleEndian, ofLittleEndian, ih, digit, Nat.pow_succ', Nat.mod_mul]

/-- Numbers that fit into their bytes are the same when the bytes are. -/
theorem toLittleEndian_inj {count a b : Nat} (small : a < 256 ^ count) (small' : b < 256 ^ count)
    (same : toLittleEndian count a = toLittleEndian count b) : a = b := by
  calc a = ofLittleEndian (toLittleEndian count a) := by
        rw [ofLittleEndian_toLittleEndian, Nat.mod_eq_of_lt small]
    _ = ofLittleEndian (toLittleEndian count b) := by rw [same]
    _ = b := by rw [ofLittleEndian_toLittleEndian, Nat.mod_eq_of_lt small']

theorem getElem?_toLittleEndian {count i : Nat} (inside : i < count) (v : Nat) :
    (toLittleEndian count v)[i]? = some (UInt8.ofNat (v / 256 ^ i)) := by
  induction count generalizing i v with
  | zero => exact absurd inside (Nat.not_lt_zero i)
  | succ count ih =>
    cases i with
    | zero => simp [toLittleEndian]
    | succ i =>
      rw [toLittleEndian, List.getElem?_cons_succ, ih (Nat.lt_of_succ_lt_succ inside),
        Nat.div_div_eq_div_mul, Nat.pow_succ']

end BitRecords
