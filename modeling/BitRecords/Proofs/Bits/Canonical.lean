import BitRecords.Bits.Image
import BitRecords.Proofs.Bits.Buffer
import BitRecords.Proofs.Bits.LittleEndian

/-!
# Canonical bit buffers

A buffer is canonical when it has the words for its size and no bit is set past
its size. Every operation keeps buffers canonical, so a buffer that is cut off
and grown again has zeros where it was cut, and the image of a buffer is read
back as the same words.
-/

namespace BitRecords.BitBuffer

/-- The buffer has the words for its size, and no bit is set past its size. -/
structure Canonical (b : BitBuffer) : Prop where
  words : b.words.size = wordCount b.size
  tail : ∀ p, b.size.toNat ≤ p → b.bit p = false

theorem Canonical.size_le {b : BitBuffer} (canonical : b.Canonical) :
    b.size.toNat ≤ 64 * b.words.size := by
  rw [canonical.words, wordCount]
  omega

@[simp] theorem bit_zeroed (size : UInt64) (p : Nat) : (zeroed size).bit p = false := by
  simp [bit, word, zeroed, Array.getD_eq_getD_getElem?, Array.getElem?_replicate]
  split <;> simp

theorem canonical_zeroed (size : UInt64) : (zeroed size).Canonical :=
  ⟨by simp [zeroed], fun p _ => bit_zeroed size p⟩

theorem Canonical.set {b : BitBuffer} (canonical : b.Canonical) (offset : UInt64) {width : Nat}
    (bits : UInt64) (fits : width ≤ 64) (within : offset.toNat + width ≤ b.size.toNat) :
    (b.set offset width bits).Canonical := by
  refine ⟨by simpa using canonical.words, ?_⟩
  intro p past
  rw [size_set] at past
  rw [bit_set b offset bits fits (within.trans canonical.size_le), if_neg (by omega)]
  exact canonical.tail p past

@[simp] theorem size_clearRange (b : BitBuffer) (offset : UInt64) (count : Nat) :
    (b.clearRange offset count).size = b.size := by
  induction b, offset, count using clearRange.induct with
  | case1 b offset count small =>
    rw [clearRange, if_pos small, size_set]
  | case2 b offset count large ih =>
    rw [clearRange, if_neg large, ih, size_set]

@[simp] theorem size_words_clearRange (b : BitBuffer) (offset : UInt64) (count : Nat) :
    (b.clearRange offset count).words.size = b.words.size := by
  induction b, offset, count using clearRange.induct with
  | case1 b offset count small =>
    rw [clearRange, if_pos small, size_words_set]
  | case2 b offset count large ih =>
    rw [clearRange, if_neg large, ih, size_words_set]

/-- Clearing a range makes its bits zero and changes no other bit. -/
theorem bit_clearRange (b : BitBuffer) (offset : UInt64) (count : Nat)
    (within : offset.toNat + count ≤ 64 * b.words.size)
    (noWrap : offset.toNat + count < UInt64.size) (p : Nat) :
    (b.clearRange offset count).bit p =
      if offset.toNat ≤ p ∧ p < offset.toNat + count then false else b.bit p := by
  induction b, offset, count using clearRange.induct with
  | case1 b offset count small =>
    rw [clearRange, if_pos small, bit_set b offset 0 small within, bitOf_zero]
  | case2 b offset count large ih =>
    have next : (offset + 64).toNat = offset.toNat + 64 := by
      simp only [UInt64.size] at noWrap
      simp only [UInt64.toNat_add, UInt64.reduceToNat]
      omega
    rw [clearRange, if_neg large, ih (by rw [next, size_words_set]; omega) (by rw [next]; omega),
      bit_set b offset 0 (Nat.le_refl 64) (by omega), next, bitOf_zero]
    by_cases later : offset.toNat + 64 ≤ p ∧ p < offset.toNat + 64 + (count - 64)
    · rw [if_pos later, if_pos (by omega)]
    · rw [if_neg later]
      by_cases first : offset.toNat ≤ p ∧ p < offset.toNat + 64
      · rw [if_pos first, if_pos (by omega)]
      · rw [if_neg first, if_neg (by omega)]

theorem Canonical.bit_clearRange {b : BitBuffer} (canonical : b.Canonical) {offset : UInt64}
    {count : Nat} (inside : offset.toNat + count ≤ b.size.toNat) (p : Nat) :
    (b.clearRange offset count).bit p =
      if offset.toNat ≤ p ∧ p < offset.toNat + count then false else b.bit p :=
  BitBuffer.bit_clearRange b offset count (inside.trans canonical.size_le)
    (inside.trans_lt b.size.toNat_lt_size) p

theorem Canonical.clearRange {b : BitBuffer} (canonical : b.Canonical) {offset : UInt64}
    {count : Nat} (inside : offset.toNat + count ≤ b.size.toNat) :
    (b.clearRange offset count).Canonical := by
  refine ⟨by simpa using canonical.words, fun p past => ?_⟩
  rw [size_clearRange] at past
  rw [canonical.bit_clearRange inside, if_neg (by omega)]
  exact canonical.tail p past

theorem word_resizeWords (words : Array UInt64) (count i : Nat) :
    (words.take count ++ Array.replicate (count - words.size) 0).getD i 0 =
      if i < count then words.getD i 0 else 0 := by
  simp only [Array.getD_eq_getD_getElem?, Array.getElem?_append, Array.take_eq_extract,
    Array.size_extract, Array.getElem?_extract, Array.getElem?_replicate, Nat.zero_add,
    Nat.sub_zero]
  by_cases kept : i < count
  · by_cases old : i < words.size
    · have inside : i < min count words.size := by omega
      simp [kept, old, inside]
    · have outside : ¬ i < min count words.size := by omega
      have appended : i - min count words.size < count - words.size := by omega
      simp [kept, old, outside, appended]
  · have past : ¬ i < min count words.size := by omega
    have nothing : ¬ i - min count words.size < count - words.size := by omega
    simp [kept, past, nothing]

/-- Resizing keeps the bits below both sizes. All other bits are zero. -/
theorem bit_resize {b : BitBuffer} (canonical : b.Canonical) (size : UInt64) (p : Nat) :
    (b.resize size).bit p = if p < size.toNat then b.bit p else false := by
  have sizes : b.size.toNat ≤ 64 * b.words.size := canonical.size_le
  have bound : b.size.toNat < UInt64.size := b.size.toNat_lt
  -- Cutting off clears the rest of the last word before the words after it are dropped.
  have cleared (q : Nat) :
      (if size < b.size then b.clearRange size (b.size.toNat - size.toNat) else b).bit q =
        if size.toNat ≤ q then (if size < b.size then false else b.bit q) else b.bit q := by
    split
    · next smaller =>
      rw [UInt64.lt_iff_toNat_lt] at smaller
      rw [bit_clearRange _ _ _ (by omega) (by omega)]
      by_cases past : b.size.toNat ≤ q
      · rw [if_neg (by omega), canonical.tail q past, if_pos (by omega)]
      · by_cases cut : size.toNat ≤ q
        · rw [if_pos ⟨cut, by omega⟩, if_pos cut]
        · rw [if_neg (by omega), if_neg cut]
    · simp
  have words : (b.resize size).bit p =
      if p / 64 < wordCount size then
        (if size < b.size then b.clearRange size (b.size.toNat - size.toNat) else b).bit p
      else false := by
    simp only [bit, word, resize]
    rw [word_resizeWords]
    split <;> simp
  rw [words, cleared, wordCount]
  by_cases kept : p < size.toNat
  · rw [if_pos (by omega), if_neg (by omega), if_pos kept]
  · rw [if_neg kept, if_pos (Nat.le_of_not_lt kept)]
    by_cases smaller : size < b.size
    · simp [smaller]
    · have grown : b.size.toNat ≤ p := by
        rw [UInt64.lt_iff_toNat_lt] at smaller
        omega
      simp [canonical.tail p grown, smaller]

theorem Canonical.resize {b : BitBuffer} (canonical : b.Canonical) (size : UInt64) :
    (b.resize size).Canonical := by
  constructor
  · simp only [BitBuffer.resize, Array.size_append, Array.take_eq_extract, Array.size_extract,
      Array.size_replicate]
    omega
  · intro p past
    rw [bit_resize canonical, if_neg]
    rw [size_resize] at past
    omega

theorem wordsOfBytes_flatMap (words : List UInt64) :
    wordsOfBytes words.length (words.flatMap fun word => toLittleEndian 8 word.toNat) = words := by
  induction words with
  | nil => rfl
  | cons word rest ih =>
    have length : (toLittleEndian 8 word.toNat).length = 8 := length_toLittleEndian _ _
    have bytes : ofLittleEndian (toLittleEndian 8 word.toNat) = word.toNat := by
      rw [ofLittleEndian_toLittleEndian]
      exact Nat.mod_eq_of_lt word.toNat_lt
    rw [List.flatMap_cons, List.length_cons, wordsOfBytes, List.take_left' length,
      List.drop_left' length, ih, bytes, UInt64.ofNat_toNat]

theorem length_toBytes (b : BitBuffer) : b.toBytes.length = 8 * b.words.size := by
  simp [toBytes, List.length_flatMap, List.map_const', Nat.mul_comm]

/-- Only the last word reaches past the size, so no bit is set there exactly when the high bits
of the last word are clear. -/
theorem tail_iff {b : BitBuffer} (words : b.words.size = wordCount b.size) :
    (∀ p, b.size.toNat ≤ p → b.bit p = false) ↔ (b.size.toNat % 64 ≠ 0 →
      b.words.toList.getLastD 0 &&& ~~~lowMask (b.size.toNat % 64) = 0) := by
  have last : b.words.toList.getLastD 0 = b.word (b.words.size - 1) := by
    simp [BitBuffer.word, Array.getD_eq_getD_getElem?, List.getLastD_eq_getLast?,
      List.getLast?_eq_getElem?]
  rw [wordCount] at words
  rw [last]
  constructor
  · intro tail rest
    refine eq_of_bitOf fun i bound => ?_
    rw [bitOf_and, bitOf_not, bitOf_lowMask, bitOf_zero]
    by_cases low : i < b.size.toNat % 64
    · simp [low, bound]
    · have clear := tail (64 * (b.words.size - 1) + i) (by omega)
      rw [bit_word b _ bound] at clear
      rw [clear, Bool.false_and]
  · intro clear p past
    by_cases within : p / 64 < b.words.size
    · have here : p / 64 = b.words.size - 1 := by omega
      have high : bitOf (b.word (b.words.size - 1) &&& ~~~lowMask (b.size.toNat % 64)) (p % 64) =
          false := by
        rw [clear (by omega), bitOf_zero]
      rw [bitOf_and, bitOf_not, bitOf_lowMask, decide_eq_true (Nat.mod_lt p (by decide)),
        decide_eq_false (by omega)] at high
      simpa [bit, here] using high
    · exact bit_of_le (by omega)

/-- What is accepted as an image holds the words of the buffer, and the high bits of the last
one are clear. -/
theorem words_ofBytes {bytes : List UInt8} {size : UInt64} {b : BitBuffer}
    (accepted : ofBytes bytes size = .ok b) :
    b.size = size ∧ b.words.toList = wordsOfBytes (bytes.length / 8) bytes ∧
    b.words.size = wordCount b.size ∧ (b.size.toNat % 64 ≠ 0 →
      b.words.toList.getLastD 0 &&& ~~~lowMask (b.size.toNat % 64) = 0) := by
  unfold ofBytes at accepted
  simp only at accepted
  split at accepted
  · cases accepted
  · split at accepted
    · cases accepted
    · next counted =>
      split at accepted
      · cases accepted
      · next tail =>
        cases accepted
        exact ⟨rfl, rfl, Decidable.not_not.mp counted,
          fun rest => Decidable.not_not.mp (not_and.mp tail rest)⟩

/-- An image that is accepted for a size gives a canonical buffer of that size. -/
theorem canonical_ofBytes {bytes : List UInt8} {size : UInt64} {b : BitBuffer}
    (accepted : ofBytes bytes size = .ok b) : b.size = size ∧ b.Canonical := by
  obtain ⟨size, -, words, last⟩ := words_ofBytes accepted
  exact ⟨size, words, (tail_iff words).mpr last⟩

theorem wordsOfBytes_toBytes (b : BitBuffer) :
    wordsOfBytes (b.toBytes.length / 8) b.toBytes = b.words.toList := by
  rw [length_toBytes, Nat.mul_div_cancel_left _ (by decide)]
  exact wordsOfBytes_flatMap b.words.toList

/-- The image of a buffer is read back as the words of the buffer. -/
theorem words_ofBytes_toBytes {b image : BitBuffer} {size : UInt64}
    (accepted : ofBytes b.toBytes size = .ok image) : image.words = b.words := by
  obtain ⟨-, words, -, -⟩ := words_ofBytes accepted
  rw [wordsOfBytes_toBytes] at words
  exact Array.toList_inj.mp words

/-- A canonical buffer is read back from its image. -/
theorem ofBytes_toBytes {b : BitBuffer} (canonical : b.Canonical) :
    ofBytes b.toBytes b.size = .ok b := by
  unfold ofBytes
  simp only [wordsOfBytes_toBytes]
  rw [if_neg, if_neg, if_neg]
  · rintro ⟨rest, set⟩
    exact set ((tail_iff canonical.words).mp canonical.tail rest)
  · simpa using canonical.words
  · simp [length_toBytes]

end BitRecords.BitBuffer
