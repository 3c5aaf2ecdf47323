import BitRecords.Proofs.Bits.Canonical

/-!
# Guarded access to bits

A guarded function does what the function of the same name does, and has no result
when it would access more than 64 bits at once or a bit that is not inside the buffer.
Changing the size of a buffer accesses no such bit.
-/

namespace BitRecords.Guarded

/-- Reads `width` bits from `offset` on. -/
def get (b : BitBuffer) (offset : UInt64) (width : Nat) : Option UInt64 :=
  if width ≤ 64 ∧ offset.toNat + width ≤ b.size.toNat then some (b.get offset width) else none

/-- Writes the low `width` bits of a word from `offset` on. -/
def set (b : BitBuffer) (offset : UInt64) (width : Nat) (bits : UInt64) : Option BitBuffer :=
  if width ≤ 64 ∧ offset.toNat + width ≤ b.size.toNat then some (b.set offset width bits) else none

/-- Zeroes `count` bits from `offset` on, up to 64 at a time. -/
def clearRange (b : BitBuffer) (offset : UInt64) (count : Nat) : Option BitBuffer :=
  if count ≤ 64 then set b offset count 0
  else do
    let b ← set b offset 64 0
    clearRange b (offset + 64) (count - 64)
termination_by count

/-- Grows the buffer by zeros, or cuts it off. -/
def resizeBuffer (b : BitBuffer) (size : UInt64) : Option BitBuffer := do
  let b ← if size < b.size then clearRange b size (b.size.toNat - size.toNat) else some b
  let count := BitBuffer.wordCount size
  return ⟨b.words.take count ++ Array.replicate (count - b.words.size) 0, size⟩

variable {b : BitBuffer} {offset : UInt64} {width count : Nat}

theorem get_eq (narrow : width ≤ 64) (inside : offset.toNat + width ≤ b.size.toNat) :
    get b offset width = some (b.get offset width) :=
  if_pos ⟨narrow, inside⟩

theorem set_eq (narrow : width ≤ 64) (inside : offset.toNat + width ≤ b.size.toNat)
    (bits : UInt64) : set b offset width bits = some (b.set offset width bits) :=
  if_pos ⟨narrow, inside⟩

theorem clearRange_eq (inside : offset.toNat + count ≤ b.size.toNat) :
    clearRange b offset count = some (b.clearRange offset count) := by
  induction b, offset, count using BitBuffer.clearRange.induct with
  | case1 b offset count small =>
    rw [clearRange, BitBuffer.clearRange, if_pos small, if_pos small, set_eq small inside]
  | case2 b offset count large ih =>
    have bound : b.size.toNat < UInt64.size := b.size.toNat_lt_size
    have next : (offset + 64).toNat = offset.toNat + 64 := by
      rw [UInt64.toNat_add]
      exact Nat.mod_eq_of_lt (by simp only [UInt64.size] at bound; simp; omega)
    rw [clearRange, BitBuffer.clearRange, if_neg large, if_neg large,
      set_eq (Nat.le_refl 64) (by omega)]
    exact ih (by rw [next, BitBuffer.size_set]; omega)

/-- A buffer that is cut off is cleared from its new end to its old one. -/
theorem resizeBuffer_eq (b : BitBuffer) (size : UInt64) :
    resizeBuffer b size = some (b.resize size) := by
  unfold resizeBuffer BitBuffer.resize
  by_cases shorter : size < b.size
  · have order := UInt64.lt_iff_toNat_lt.mp shorter
    rw [if_pos shorter, if_pos shorter, clearRange_eq (by omega)]
    rfl
  · rw [if_neg shorter, if_neg shorter]
    rfl

end BitRecords.Guarded
