import Mathlib.Data.Nat.Bitwise
import BitRecords.Bits.Word

/-!
# Single bits of words

A word is the function that tells its bits. Masks, shifts and overlays are
described by what they do to each bit, and two words with the same bits are
equal. Proofs about slots never look into the word arithmetic again.
-/

namespace BitRecords

/-- Bit `i` of a word, the least significant first. Past the word all bits are
zero. -/
def bitOf (word : UInt64) (i : Nat) : Bool := word.toBitVec.getLsbD i

theorem eq_of_bitOf {a b : UInt64} (same : ∀ i, i < 64 → bitOf a i = bitOf b i) : a = b :=
  UInt64.toBitVec_inj.mp (BitVec.eq_of_getLsbD_eq same)

theorem bitOf_of_le (word : UInt64) {i : Nat} (high : 64 ≤ i) : bitOf word i = false :=
  BitVec.getLsbD_of_ge _ _ high

theorem bitOf_eq_testBit (word : UInt64) (i : Nat) : bitOf word i = word.toNat.testBit i := rfl

@[simp] theorem bitOf_zero (i : Nat) : bitOf 0 i = false := by
  simp [bitOf]

@[simp] theorem bitOf_and (a b : UInt64) (i : Nat) :
    bitOf (a &&& b) i = (bitOf a i && bitOf b i) := by
  simp [bitOf]

@[simp] theorem bitOf_or (a b : UInt64) (i : Nat) :
    bitOf (a ||| b) i = (bitOf a i || bitOf b i) := by
  simp [bitOf]

@[simp] theorem bitOf_not (a : UInt64) (i : Nat) :
    bitOf (~~~a) i = (decide (i < 64) && !bitOf a i) := by
  simp [bitOf]

theorem bitOf_shiftLeft (a amount : UInt64) (small : amount.toNat < 64) (i : Nat) :
    bitOf (a <<< amount) i =
      (decide (i < 64) && !decide (i < amount.toNat) && bitOf a (i - amount.toNat)) := by
  have same : amount.toNat % 64 = amount.toNat := Nat.mod_eq_of_lt small
  simp [bitOf, same]

theorem bitOf_shiftRight (a amount : UInt64) (small : amount.toNat < 64) (i : Nat) :
    bitOf (a >>> amount) i = bitOf a (amount.toNat + i) := by
  have same : amount.toNat % 64 = amount.toNat := Nat.mod_eq_of_lt small
  simp [bitOf, same]

theorem toNat_lowMask (width : Nat) : (lowMask width).toNat = 2 ^ min width 64 - 1 := by
  unfold lowMask
  split
  · next wide => simp [Nat.min_eq_right wide]
  · next narrow =>
    have small : width < 64 := Nat.lt_of_not_le narrow
    have amount : (UInt64.ofNat width).toNat % 64 = width := by
      simp [UInt64.toNat_ofNat']
      omega
    have power : (1 : UInt64) <<< UInt64.ofNat width = UInt64.ofNat (2 ^ width) := by
      apply UInt64.toNat.inj
      rw [UInt64.toNat_shiftLeft, amount, UInt64.toNat_ofNat', UInt64.toNat_one, Nat.one_shiftLeft]
    have below : 2 ^ width < 2 ^ 64 := Nat.pow_lt_pow_right (by omega) small
    have positive : 0 < 2 ^ width := Nat.two_pow_pos width
    have value : (UInt64.ofNat (2 ^ width)).toNat = 2 ^ width := UInt64.toNat_ofNat_of_lt' below
    rw [power, UInt64.toNat_sub_of_le _ _ (by rw [UInt64.le_iff_toNat_le, value]; exact positive),
      value, Nat.min_eq_left (Nat.le_of_lt small)]
    rfl

/-- A mask of a width has the bits below the width. -/
@[simp] theorem bitOf_lowMask (width i : Nat) :
    bitOf (lowMask width) i = (decide (i < width) && decide (i < 64)) := by
  rw [bitOf_eq_testBit, toNat_lowMask, Nat.testBit_two_pow_sub_one, ← Bool.decide_and,
    decide_eq_decide]
  exact Nat.lt_min

/-- The low bits of a word are its remainder by a power of two. -/
theorem toNat_and_lowMask (word : UInt64) {width : Nat} (fits : width ≤ 64) :
    (word &&& lowMask width).toNat = word.toNat % 2 ^ width := by
  rw [UInt64.toNat_and, toNat_lowMask, Nat.min_eq_left fits, Nat.and_two_pow_sub_one_eq_mod]

/-- A number below a power of two is not changed by the mask. -/
theorem and_lowMask_of_lt {word : UInt64} {width : Nat} (small : word.toNat < 2 ^ width) :
    word &&& lowMask width = word := by
  apply eq_of_bitOf
  intro i bound
  rw [bitOf_and, bitOf_lowMask, decide_eq_true bound, Bool.and_true]
  by_cases low : i < width
  · simp [low]
  · have zero : bitOf word i = false := by
      rw [bitOf_eq_testBit]
      exact Nat.testBit_eq_false_of_lt
        (small.trans_le (Nat.pow_le_pow_right (by omega) (Nat.le_of_not_lt low)))
    simp [zero]

/-- An overlay takes the low bits from the new word and keeps the others. -/
@[simp] theorem bitOf_overlayLow (word bits : UInt64) (width i : Nat) :
    bitOf (overlayLow word width bits) i =
      if i < width then bitOf bits i else bitOf word i := by
  by_cases bound : i < 64
  · by_cases low : i < width <;> simp [overlayLow, bound, low]
  · have high : 64 ≤ i := Nat.le_of_not_lt bound
    simp [bitOf_of_le _ high]

end BitRecords
