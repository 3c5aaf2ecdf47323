import BitRecords.Proofs.Bits.Buffer

/-!
# Access to ranges of bits

A buffer whose words reach its size is an array of bits. A read inside the size gives the number
that the bits of the range form, and a write makes them those of a number and changes no other
bit, so it does not affect reads of other ranges. Neither touches a word that is not there or
shifts a word by its size or more.

A checked function does what the function of the same name does, and has no result when it would
access a word that the buffer does not have, or shift a word by 64 or more.
-/

namespace BitRecords

namespace Checked

def shiftLeft (word amount : UInt64) : Option UInt64 :=
  if amount.toNat < 64 then some (word <<< amount) else none

def shiftRight (word amount : UInt64) : Option UInt64 :=
  if amount.toNat < 64 then some (word >>> amount) else none

/-- Replaces the bits of a word that are set in `mask`. -/
def setMasked (b : BitBuffer) (i : Nat) (mask bits : UInt64) : Option BitBuffer :=
  if i < b.words.size then some (b.setMasked i mask bits) else none

/-- Reads `width` bits, at most 64, from `offset` on. -/
def get (b : BitBuffer) (offset : UInt64) (width : Nat) : Option UInt64 :=
  if width = 0 then some 0
  else do
    let i := (offset / 64).toNat
    let shift := offset % 64
    let taken := 64 - shift.toNat
    let low ← shiftRight (← b.words[i]?) shift
    if taken < width then
      let high ← shiftLeft (← b.words[i + 1]?) (UInt64.ofNat taken)
      return (low ||| high) &&& lowMask width
    else return low &&& lowMask width

/-- Writes the low `width` bits of a word, at most 64, from `offset` on. -/
def set (b : BitBuffer) (offset : UInt64) (width : Nat) (bits : UInt64) : Option BitBuffer :=
  if width = 0 then some b
  else do
    let bits := bits &&& lowMask width
    let i := (offset / 64).toNat
    let shift := offset % 64
    let taken := 64 - shift.toNat
    let b ← setMasked b i (← shiftLeft (lowMask (min width taken)) shift) (← shiftLeft bits shift)
    if taken < width then
      setMasked b (i + 1) (lowMask (width - taken)) (← shiftRight bits (UInt64.ofNat taken))
    else return b

variable {b : BitBuffer} {offset : UInt64} {width : Nat}

theorem shiftLeft_eq {amount : UInt64} (small : amount.toNat < 64) (word : UInt64) :
    shiftLeft word amount = some (word <<< amount) :=
  if_pos small

theorem shiftRight_eq {amount : UInt64} (small : amount.toNat < 64) (word : UInt64) :
    shiftRight word amount = some (word >>> amount) :=
  if_pos small

theorem setMasked_eq {i : Nat} (within : i < b.words.size) (mask bits : UInt64) :
    setMasked b i mask bits = some (b.setMasked i mask bits) :=
  if_pos within

/-- A range that reaches into a second word starts inside the first one. -/
theorem taken_lt (offset : UInt64) {width : Nat} (fits : width ≤ 64)
    (straddles : 64 - offset.toNat % 64 < width) :
    (UInt64.ofNat (64 - offset.toNat % 64)).toNat < 64 := by
  rw [BitBuffer.toNat_taken]
  omega

/-- A read inside the words is checked. -/
theorem get_eq (fits : width ≤ 64) (within : offset.toNat + width ≤ 64 * b.words.size) :
    get b offset width = some (b.get offset width) := by
  unfold get BitBuffer.get
  split
  · rfl
  · have index : (offset / 64).toNat = offset.toNat / 64 := by simp
    have shift : (offset % 64).toNat = offset.toNat % 64 := by simp
    have first : b.words[offset.toNat / 64]? = some (b.word (offset.toNat / 64)) :=
      BitBuffer.getElem?_words (by omega)
    simp only [index, shift, first, shiftRight_eq (show (offset % 64).toNat < 64 by omega),
      Option.bind_eq_bind, Option.bind_some]
    split
    · next straddles =>
      simp only [BitBuffer.getElem?_words (show offset.toNat / 64 + 1 < b.words.size by omega),
        shiftLeft_eq (taken_lt offset fits straddles), Option.bind_some, Option.pure_def]
    · rfl

/-- A write inside the words is checked. -/
theorem set_eq (fits : width ≤ 64) (within : offset.toNat + width ≤ 64 * b.words.size)
    (bits : UInt64) : set b offset width bits = some (b.set offset width bits) := by
  unfold set BitBuffer.set
  split
  · rfl
  · have index : (offset / 64).toNat = offset.toNat / 64 := by simp
    have shift : (offset % 64).toNat = offset.toNat % 64 := by simp
    simp only [index, shift, shiftLeft_eq (show (offset % 64).toNat < 64 by omega),
      setMasked_eq (show offset.toNat / 64 < b.words.size by omega), Option.bind_eq_bind,
      Option.bind_some]
    split
    · next straddles =>
      simp only [shiftRight_eq (taken_lt offset fits straddles), Option.bind_some]
      exact setMasked_eq (by rw [BitBuffer.size_words_setMasked]; omega) _ _
    · rfl

end Checked

namespace BitBuffer

variable {b : BitBuffer} {offset offset' : UInt64} {width width' : Nat}

/-- A read gives the number that the bits of the range form, the least significant first. -/
theorem toNat_get (b : BitBuffer) (offset : UInt64) (fits : width ≤ 64) :
    (b.get offset width).toNat = Nat.ofBits fun i : Fin width => b.bit (offset.toNat + i) := by
  refine Nat.eq_of_testBit_eq fun i => ?_
  rw [← bitOf_eq_testBit, bitOf_get b offset fits, Nat.testBit_ofBits]
  by_cases inside : i < width <;> simp [inside]

/-- A read after a write of the same range gives the low bits of what was written. -/
theorem get_set (fits : width ≤ 64) (within : offset.toNat + width ≤ 64 * b.words.size)
    (bits : UInt64) : (b.set offset width bits).get offset width = bits &&& lowMask width := by
  refine eq_of_bitOf fun i bound => ?_
  rw [bitOf_get _ _ fits, bit_set b offset bits fits within, bitOf_and, bitOf_lowMask]
  by_cases inside : i < width
  · rw [if_pos ⟨Nat.le_add_right _ _, by omega⟩, Nat.add_sub_cancel_left]
    simp [inside, bound]
  · simp [inside]

/-- A read of other bits than those written gives what it gave before. -/
theorem get_set_apart (fits : width ≤ 64) (within : offset.toNat + width ≤ 64 * b.words.size)
    (fits' : width' ≤ 64) (apart : ∀ p, offset'.toNat ≤ p → p < offset'.toNat + width' →
      ¬ (offset.toNat ≤ p ∧ p < offset.toNat + width)) (bits : UInt64) :
    (b.set offset width bits).get offset' width' = b.get offset' width' := by
  refine eq_of_bitOf fun i _ => ?_
  rw [bitOf_get _ _ fits', bitOf_get _ _ fits', bit_set b offset bits fits within]
  by_cases inside : i < width'
  · rw [if_neg (apart _ (Nat.le_add_right _ _) (by omega))]
  · simp [inside]

/-- A read and a write of a range are those of an array of bits. -/
structure ActsOnBits (b : BitBuffer) (offset : UInt64) (width : Nat) (value : UInt64) : Prop where
  checked : Checked.get b offset width = some (b.get offset width) ∧
    Checked.set b offset width value = some (b.set offset width value)
  reads : (b.get offset width).toNat = Nat.ofBits fun i : Fin width => b.bit (offset.toNat + i)
  /-- No other bit changes, inside the size or past it. -/
  writes : ∀ p, (b.set offset width value).bit p =
    if offset.toNat ≤ p ∧ p < offset.toNat + width then value.toNat.testBit (p - offset.toNat)
    else b.bit p
  sizes : (b.set offset width value).size = b.size ∧
    (b.set offset width value).words.size = b.words.size
  again : ((b.set offset width value).get offset width).toNat = value.toNat % 2 ^ width
  apart : ∀ (offset' : UInt64) (width' : Nat), width' ≤ 64 →
    offset'.toNat + width' ≤ b.size.toNat →
    (∀ p, offset'.toNat ≤ p → p < offset'.toNat + width' →
      ¬ (offset.toNat ≤ p ∧ p < offset.toNat + width)) →
    (b.set offset width value).get offset' width' = b.get offset' width'

/-- Every range of up to 64 bits inside the size is read and written so. The words of a buffer
reach its size, as those of every canonical buffer do. -/
theorem actsOnBits_of_inside (reach : b.size.toNat ≤ 64 * b.words.size) (fits : width ≤ 64)
    (inside : offset.toNat + width ≤ b.size.toNat) (value : UInt64) :
    b.ActsOnBits offset width value := by
  have within := inside.trans reach
  exact
    { checked := ⟨Checked.get_eq fits within, Checked.set_eq fits within value⟩
      reads := toNat_get b offset fits
      writes := bit_set b offset value fits within
      sizes := ⟨size_set b offset width value, size_words_set b offset width value⟩
      again := by rw [get_set fits within, toNat_and_lowMask value fits]
      apart := fun offset' width' fits' _ apart => get_set_apart fits within fits' apart value }

/-- A word is written across the border of two words. The bits before it and after it stay. -/
theorem actsOnBits_of_inside_straddling :
    let b : BitBuffer := ⟨#[0xFFFFFFFFFFFFFFFF, 0xFFFFFFFFFFFFFFFF, 3], 130⟩
    b.size.toNat ≤ 64 * b.words.size ∧ 64 ≤ 64 ∧ (60 : UInt64).toNat + 64 ≤ b.size.toNat ∧
    b.ActsOnBits 60 64 0x0123456789ABCDEF ∧
    (b.set 60 64 0x0123456789ABCDEF).words =
      #[0xFFFFFFFFFFFFFFFF, 0xF0123456789ABCDE, 3] := by
  intro b
  have acts : b.ActsOnBits 60 64 0x0123456789ABCDEF :=
    actsOnBits_of_inside (by decide) (by decide) (by decide) _
  exact ⟨by decide, by decide, by decide, acts, by decide +kernel⟩

end BitBuffer

end BitRecords
