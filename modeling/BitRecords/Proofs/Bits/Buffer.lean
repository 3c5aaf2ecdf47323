import BitRecords.Bits.Buffer
import BitRecords.Proofs.Bits.Word

/-!
# Bit buffers as sequences of bits

A buffer is the function that tells its bits: bit `p` is bit `p % 64` of word
`p / 64`, and past the words all bits are zero. Reading a range gives the number
that its bits form. Writing a range changes the bits of the range and no other
bit, whether or not it straddles two words.
-/

namespace BitRecords.BitBuffer

/-- Bit `p` of a buffer. -/
def bit (b : BitBuffer) (p : Nat) : Bool := bitOf (b.word (p / 64)) (p % 64)

theorem bit_word (b : BitBuffer) (i : Nat) {j : Nat} (bound : j < 64) :
    b.bit (64 * i + j) = bitOf (b.word i) j := by
  rw [bit, Nat.mul_add_div (by decide), Nat.div_eq_of_lt bound, Nat.add_zero, Nat.mul_add_mod,
    Nat.mod_eq_of_lt bound]

theorem word_of_le {b : BitBuffer} {i : Nat} (past : b.words.size ≤ i) : b.word i = 0 := by
  simp [word, Array.getD, Nat.not_lt.mpr past]

theorem getElem?_words {b : BitBuffer} {i : Nat} (within : i < b.words.size) :
    b.words[i]? = some (b.word i) := by
  simp [word, Array.getD, within]

theorem bit_of_le {b : BitBuffer} {p : Nat} (past : 64 * b.words.size ≤ p) : b.bit p = false := by
  rw [bit, word_of_le (by omega), bitOf_zero]

/-- The second word of a range is shifted by what the first one takes of it. -/
theorem toNat_taken (offset : UInt64) :
    (UInt64.ofNat (64 - offset.toNat % 64)).toNat = 64 - offset.toNat % 64 :=
  UInt64.toNat_ofNat_of_lt' (by simp only [UInt64.size]; omega)

/-- Reading a range gives the number formed by its bits. -/
theorem bitOf_get (b : BitBuffer) (offset : UInt64) {width : Nat} (fits : width ≤ 64) (i : Nat) :
    bitOf (b.get offset width) i = (decide (i < width) && b.bit (offset.toNat + i)) := by
  unfold get
  split
  · next empty => simp [empty]
  · have index : (offset / 64).toNat = offset.toNat / 64 := by simp
    have shift : (offset % 64).toNat = offset.toNat % 64 := by simp
    have shiftSmall : (offset % 64).toNat < 64 := by omega
    simp only [index, shift]
    by_cases outside : width ≤ i
    · simp [Nat.not_lt.mpr outside]
    · have inside : i < width := Nat.lt_of_not_le outside
      rw [bitOf_and, bitOf_lowMask, decide_eq_true inside,
        decide_eq_true (show i < 64 by omega), Bool.true_and, Bool.true_and, Bool.and_true]
      by_cases first : offset.toNat % 64 + i < 64
      · -- The bit is in the first word, and the second word is shifted past it.
        have position : (offset.toNat + i) / 64 = offset.toNat / 64 := by omega
        have remainder : (offset.toNat + i) % 64 = offset.toNat % 64 + i := by omega
        rw [bit, position, remainder]
        split
        · next straddles =>
          have amount := toNat_taken offset
          rw [bitOf_or, bitOf_shiftRight _ _ shiftSmall, shift,
            bitOf_shiftLeft _ _ (by omega), amount,
            decide_eq_true (show i < 64 - offset.toNat % 64 by omega)]
          simp
        · rw [bitOf_shiftRight _ _ shiftSmall, shift]
      · have straddles : 64 - offset.toNat % 64 < width := by omega
        have position : (offset.toNat + i) / 64 = offset.toNat / 64 + 1 := by omega
        have remainder : (offset.toNat + i) % 64 = i - (64 - offset.toNat % 64) := by omega
        have amount := toNat_taken offset
        rw [if_pos straddles, bitOf_or, bitOf_shiftRight _ _ shiftSmall, shift,
          bitOf_of_le _ (by omega), bitOf_shiftLeft _ _ (by omega), amount, bit, position,
          remainder, decide_eq_true (show i < 64 by omega),
          decide_eq_false (show ¬ i < 64 - offset.toNat % 64 by omega)]
        simp

theorem word_setMasked (b : BitBuffer) (i j : Nat) (mask bits : UInt64) :
    (b.setMasked i mask bits).word j =
      if i = j ∧ j < b.words.size then (b.word j &&& ~~~mask) ||| (bits &&& mask)
      else b.word j := by
  simp only [word, setMasked, Array.getD_eq_getD_getElem?, Array.getElem?_modify]
  by_cases here : i = j
  · subst here
    by_cases within : i < b.words.size <;> simp [within]
  · simp [here]

/-- A masked write changes the masked bits of one word. -/
theorem bit_setMasked (b : BitBuffer) {i : Nat} (within : i < b.words.size) (mask bits : UInt64)
    (p : Nat) :
    (b.setMasked i mask bits).bit p =
      if p / 64 = i ∧ bitOf mask (p % 64) = true then bitOf bits (p % 64) else b.bit p := by
  rw [bit, word_setMasked]
  by_cases here : p / 64 = i
  · subst here
    have small : p % 64 < 64 := Nat.mod_lt _ (by decide)
    by_cases masked : bitOf mask (p % 64) = true <;> simp [bit, within, masked, small]
  · rw [if_neg (fun h => here h.1.symm), if_neg (fun h => here h.1), bit]

/-- The part of a write that falls into the first word. -/
theorem bit_setFirst (b : BitBuffer) (offset : UInt64) {width : Nat} (bits : UInt64)
    (within : offset.toNat / 64 < b.words.size) (fits : width ≤ 64 - offset.toNat % 64) (p : Nat) :
    (b.setMasked (offset.toNat / 64) (lowMask width <<< (offset % 64))
      (bits <<< (offset % 64))).bit p =
      if offset.toNat ≤ p ∧ p < offset.toNat + width then bitOf bits (p - offset.toNat)
      else b.bit p := by
  have shift : (offset % 64).toNat = offset.toNat % 64 := by simp
  have small : (offset % 64).toNat < 64 := by omega
  rw [bit_setMasked b within, bitOf_shiftLeft _ _ small, bitOf_shiftLeft _ _ small,
    bitOf_lowMask, shift]
  by_cases inside : offset.toNat ≤ p ∧ p < offset.toNat + width
  · have position : p % 64 - offset.toNat % 64 = p - offset.toNat := by omega
    rw [if_pos inside, position, if_pos ⟨by omega, by simp; omega⟩,
      decide_eq_true (show p % 64 < 64 by omega),
      decide_eq_false (show ¬ p % 64 < offset.toNat % 64 by omega)]
    simp
  · rw [if_neg inside, if_neg]
    rintro ⟨here, masked⟩
    simp at masked
    omega

/-- The part of a write that falls into the second word. -/
theorem bit_setSecond (b : BitBuffer) (offset : UInt64) {width : Nat} (bits : UInt64)
    (within : offset.toNat / 64 + 1 < b.words.size) (fits : width ≤ 64)
    (straddles : 64 - offset.toNat % 64 < width) (p : Nat) :
    (b.setMasked (offset.toNat / 64 + 1) (lowMask (width - (64 - offset.toNat % 64)))
        (bits >>> UInt64.ofNat (64 - offset.toNat % 64))).bit p =
      if offset.toNat + (64 - offset.toNat % 64) ≤ p ∧ p < offset.toNat + width then
        bitOf bits (p - offset.toNat)
      else b.bit p := by
  have amount := toNat_taken offset
  rw [bit_setMasked b within, bitOf_shiftRight _ _ (by omega), amount, bitOf_lowMask]
  by_cases inside : offset.toNat + (64 - offset.toNat % 64) ≤ p ∧ p < offset.toNat + width
  · have position : 64 - offset.toNat % 64 + p % 64 = p - offset.toNat := by omega
    rw [if_pos inside, position, if_pos ⟨by omega, by simp; omega⟩]
  · rw [if_neg inside, if_neg]
    rintro ⟨here, masked⟩
    simp at masked
    omega

/-- Writing a range makes its bits those of the value and changes no other bit. -/
theorem bit_set (b : BitBuffer) (offset : UInt64) {width : Nat} (bits : UInt64) (fits : width ≤ 64)
    (within : offset.toNat + width ≤ 64 * b.words.size) (p : Nat) :
    (b.set offset width bits).bit p =
      if offset.toNat ≤ p ∧ p < offset.toNat + width then bitOf bits (p - offset.toNat)
      else b.bit p := by
  unfold set
  split
  · next empty => rw [if_neg (by omega)]
  · have index : (offset / 64).toNat = offset.toNat / 64 := by simp
    have shift : (offset % 64).toNat = offset.toNat % 64 := by simp
    have low (q : Nat) (bound : q < width) : bitOf (bits &&& lowMask width) q = bitOf bits q := by
      simp [bound, show q < 64 by omega]
    simp only [index, shift]
    split
    · next straddles =>
      rw [bit_setSecond _ _ _ (by simp; omega) fits straddles, Nat.min_eq_right (by omega),
        bit_setFirst _ _ _ (by omega) (by omega)]
      by_cases inside : offset.toNat ≤ p ∧ p < offset.toNat + width
      · rw [if_pos inside, low _ (by omega)]
        by_cases first : p < offset.toNat + (64 - offset.toNat % 64)
        · rw [if_neg (by omega), if_pos ⟨inside.1, first⟩]
        · rw [if_pos ⟨by omega, inside.2⟩]
      · rw [if_neg inside, if_neg (by omega), if_neg (by omega)]
    · next whole =>
      rw [Nat.min_eq_left (by omega), bit_setFirst _ _ _ (by omega) (by omega)]
      by_cases inside : offset.toNat ≤ p ∧ p < offset.toNat + width
      · rw [if_pos inside, if_pos inside, low _ (by omega)]
      · rw [if_neg inside, if_neg inside]

end BitRecords.BitBuffer
