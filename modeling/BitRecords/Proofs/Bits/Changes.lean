import Mathlib.Logic.Relation
import BitRecords.Proofs.Bits.Access
import BitRecords.Proofs.Bits.Canonical

/-!
# Changes of bit buffers

Buffers start as zeros and are written, cleared and resized. However long the changes go on, a
buffer has the words for its size and no bit past it, so a buffer that was cut off and grown
again has zeros there. Two buffers of one size therefore have the same image exactly when they
hold the same bits.
-/

namespace BitRecords.BitBuffer

variable {b : BitBuffer}

/-- One change of a buffer inside its size. -/
inductive Step (b : BitBuffer) : BitBuffer → Prop where
  | set {offset : UInt64} {width : Nat} (bits : UInt64) : width ≤ 64 →
      offset.toNat + width ≤ b.size.toNat → Step b (b.set offset width bits)
  | clearRange {offset : UInt64} {count : Nat} : offset.toNat + count ≤ b.size.toNat →
      Step b (b.clearRange offset count)
  | resize (size : UInt64) : Step b (b.resize size)

/-- Zeros after any number of changes. -/
def Obtained (b : BitBuffer) : Prop := ∃ size, Relation.ReflTransGen Step (zeroed size) b

theorem Step.canonical {b' : BitBuffer} (step : Step b b') (canonical : b.Canonical) :
    b'.Canonical := by
  cases step with
  | set bits fits inside => exact canonical.set _ bits fits inside
  | clearRange inside => exact canonical.clearRange inside
  | resize size => exact canonical.resize size

theorem Obtained.canonical (obtained : b.Obtained) : b.Canonical := by
  obtain ⟨size, steps⟩ := obtained
  induction steps with
  | refl => exact canonical_zeroed size
  | tail _ step before => exact step.canonical before

/-- The loop writes zeros from `place` up to `stop`, a word's width at a time, and ends after so
many rounds. It would not go on after a write outside the words. -/
inductive Clears (stop : UInt64) : Nat → BitBuffer → UInt64 → BitBuffer → Prop where
  | done {b : BitBuffer} {place : UInt64} : ¬ place < stop → Clears stop 0 b place b
  | round {rounds : Nat} {b cleared result : BitBuffer} {place : UInt64} : place < stop →
      Checked.set b place (min (stop - place).toNat 64) 0 = some cleared →
      Clears stop rounds cleared (place + UInt64.ofNat (min (stop - place).toNat 64)) result →
      Clears stop (rounds + 1) b place result

theorem Clears.unique {stop place : UInt64} {rounds rounds' : Nat} {result result' : BitBuffer}
    (clears : Clears stop rounds b place result) (clears' : Clears stop rounds' b place result') :
    rounds = rounds' ∧ result = result' := by
  induction clears generalizing rounds' with
  | done ended =>
    cases clears' with
    | done => exact ⟨rfl, rfl⟩
    | round more => exact absurd more ended
  | round more write _ ih =>
    cases clears' with
    | done ended => exact absurd more ended
    | round _ write' rest =>
      cases write.symm.trans write'
      obtain ⟨rfl, rfl⟩ := ih rest
      exact ⟨rfl, rfl⟩

/-- A round of the loop inside the words. -/
theorem Clears.of_round {stop place next : UInt64} {rounds width : Nat} {result : BitBuffer}
    (more : place < stop) (most : width = min (stop - place).toNat 64)
    (step : next.toNat = place.toNat + width)
    (within : place.toNat + width ≤ 64 * b.words.size)
    (rest : Clears stop rounds (b.set place width 0) next result) :
    Clears stop (rounds + 1) b place result := by
  have fits : width ≤ 64 := most ▸ Nat.min_le_right _ _
  have here : next = place + UInt64.ofNat width := by
    have bound : place.toNat + width < 2 ^ 64 := step ▸ next.toNat_lt
    apply UInt64.toNat.inj
    rw [UInt64.toNat_add, UInt64.toNat_ofNat_of_lt' (by simp only [UInt64.size]; omega), step,
      Nat.mod_eq_of_lt bound]
  subst most
  exact .round more (Checked.set_eq fits within 0) (here ▸ rest)

/-- The loop ends with the range cleared. -/
theorem clears_clearRange (b : BitBuffer) {stop place : UInt64} {count : Nat}
    (reach : stop.toNat = place.toNat + count) (within : stop.toNat ≤ 64 * b.words.size) :
    Clears stop ((count + 63) / 64) b place (b.clearRange place count) := by
  have left (place : UInt64) (count : Nat) (reach : stop.toNat = place.toNat + count) :
      (stop - place).toNat = count := by
    rw [UInt64.toNat_sub_of_le _ _ (UInt64.le_iff_toNat_le.mpr (by omega)), reach,
      Nat.add_sub_cancel_left]
  induction b, place, count using clearRange.induct with
  | case1 b place count small =>
    -- The last round may be narrower than a word. Where nothing is left there is none.
    rw [clearRange, if_pos small]
    rcases Nat.eq_zero_or_pos count with rfl | some
    · exact .done (by rw [UInt64.lt_iff_toNat_lt]; omega)
    · have once : (count + 63) / 64 = 0 + 1 := by omega
      rw [once]
      refine .of_round (by rw [UInt64.lt_iff_toNat_lt]; omega) ?_ reach (by omega)
        (.done (by rw [UInt64.lt_iff_toNat_lt]; omega))
      rw [left place count reach, Nat.min_eq_left small]
  | case2 b place count large ih =>
    have bound : stop.toNat < 2 ^ 64 := stop.toNat_lt
    have next : (place + 64).toNat = place.toNat + 64 := by
      rw [UInt64.toNat_add]
      exact Nat.mod_eq_of_lt (by simp; omega)
    have again : (count + 63) / 64 = (count - 64 + 63) / 64 + 1 := by omega
    rw [clearRange, if_neg large, again]
    refine .of_round (by rw [UInt64.lt_iff_toNat_lt]; omega) ?_ next (by omega)
      (ih (by rw [next]; omega) (by rwa [size_words_set]))
    rw [left place count reach, Nat.min_eq_right (by omega)]

/-- An element of parts that have one length each is an element of one of the parts. -/
theorem getElem?_flatMap_of_length {α β : Type} {f : α → List β} {length i : Nat}
    (each : ∀ a, (f a).length = length) (inside : i < length) (parts : List α) (k : Nat) :
    (parts.flatMap f)[length * k + i]? = parts[k]?.bind fun a => (f a)[i]? := by
  induction parts generalizing k with
  | nil => simp
  | cons a rest ih =>
    cases k with
    | zero =>
      rw [List.flatMap_cons, Nat.mul_zero, Nat.zero_add,
        List.getElem?_append_left (by rw [each]; exact inside)]
      rfl
    | succ k =>
      have position : length * (k + 1) + i - (f a).length = length * k + i := by
        rw [each, Nat.mul_succ]
        omega
      rw [List.flatMap_cons, List.getElem?_append_right (by rw [each, Nat.mul_succ]; omega),
        position, ih, List.getElem?_cons_succ]

/-- Bit `i % 8` of byte `i / 8` of a number is its bit `i`. -/
theorem testBit_digit (v k : Nat) {i : Nat} (inside : i < 8) :
    (UInt8.ofNat (v / 256 ^ k)).toNat.testBit i = v.testBit (8 * k + i) := by
  have power : 256 ^ k = 2 ^ (8 * k) := (Nat.pow_mul 2 8 k).symm
  rw [UInt8.toNat_ofNat', Nat.testBit_mod_two_pow, decide_eq_true inside, Bool.true_and, power,
    Nat.testBit_div_two_pow, Nat.add_comm]

/-- The bits of an image are those of the buffer. -/
theorem testBit_toBytes (b : BitBuffer) (p : Nat) :
    (b.toBytes.getD (p / 8) 0).toNat.testBit (p % 8) = b.bit p := by
  -- The bytes of a word stand together, and so the word of the bit is the word of its byte.
  have place : p / 8 = 8 * (p / 64) + p % 64 / 8 := by omega
  have inside : p % 64 / 8 < 8 := by omega
  rw [List.getD_eq_getElem?_getD, toBytes, place,
    getElem?_flatMap_of_length (fun _ => length_toLittleEndian 8 _) inside, Array.getElem?_toList]
  by_cases within : p / 64 < b.words.size
  · have bit : 8 * (p % 64 / 8) + p % 8 = p % 64 := by omega
    rw [getElem?_words within, Option.bind_some, getElem?_toLittleEndian inside, Option.getD_some,
      testBit_digit _ _ (Nat.mod_lt p (by decide)), bit]
    rfl
  · rw [Array.getElem?_eq_none (Nat.le_of_not_lt within), bit_of_le (by omega)]
    simp

theorem eq_of_bit {a b : BitBuffer} (size : a.size = b.size) (words : a.words.size = b.words.size)
    (same : ∀ p, a.bit p = b.bit p) : a = b := by
  have each : a.words = b.words := by
    refine Array.ext words fun i here there => ?_
    have word : a.word i = b.word i := by
      refine eq_of_bitOf fun j bound => ?_
      rw [← bit_word a i bound, same, bit_word b i bound]
    have left := getElem?_words here
    rw [word, ← getElem?_words there, Array.getElem?_eq_getElem here,
      Array.getElem?_eq_getElem there] at left
    exact Option.some.inj left
  cases a
  cases b
  cases size
  cases each
  rfl

/-- Canonical buffers of one size have the same image when they have the same bits. -/
theorem toBytes_eq_iff {a b : BitBuffer} (canonical : a.Canonical) (canonical' : b.Canonical)
    (size : a.size = b.size) :
    a.toBytes = b.toBytes ↔ ∀ p, p < b.size.toNat → a.bit p = b.bit p := by
  constructor
  · intro same p _
    rw [← testBit_toBytes a, same, testBit_toBytes]
  · intro same
    have equal : a = b := by
      refine eq_of_bit size (by rw [canonical.words, canonical'.words, size]) fun p => ?_
      by_cases inside : p < b.size.toNat
      · exact same p inside
      · rw [canonical.tail p (by rw [size]; omega), canonical'.tail p (by omega)]
    rw [equal]

/-- A buffer has the words for its size and zeros past it, and the next change of it does to
each bit what it should. -/
structure Orderly (b : BitBuffer) : Prop where
  words : b.words.size = (b.size.toNat + 63) / 64
  tail : ∀ p, b.size.toNat ≤ p → b.bit p = false
  resizes : ∀ size : UInt64, (b.resize size).size = size ∧ ∀ p, p < size.toNat →
    (b.resize size).bit p = if p < min b.size.toNat size.toNat then b.bit p else false
  clears : ∀ (offset : UInt64) (count : Nat), offset.toNat + count ≤ b.size.toNat →
    (b.clearRange offset count).size = b.size ∧ ∀ p, (b.clearRange offset count).bit p =
      if offset.toNat ≤ p ∧ p < offset.toNat + count then false else b.bit p
  /-- The loop ends, always in the same way. -/
  ends : ∀ (offset : UInt64) (count : Nat), offset.toNat + count ≤ b.size.toNat →
    ∀ rounds result, Clears (offset + UInt64.ofNat count) rounds b offset result ↔
      rounds = (count + 63) / 64 ∧ result = b.clearRange offset count
  image : b.toBytes.length = 8 * ((b.size.toNat + 63) / 64) ∧
    ∀ p, b.bit p = (b.toBytes.getD (p / 8) 0).toNat.testBit (p % 8)
  back : ofBytes b.toBytes b.size = .ok b
  same : ∀ c : BitBuffer, c.Obtained → c.size = b.size →
    (c.toBytes = b.toBytes ↔ ∀ p, p < b.size.toNat → c.bit p = b.bit p)

/-- Whatever changes were made to zeros, the buffer is orderly. -/
theorem orderly_of_obtained (obtained : b.Obtained) : b.Orderly where
  words := obtained.canonical.words
  tail := obtained.canonical.tail
  resizes size := by
    refine ⟨size_resize b size, fun p inside => ?_⟩
    rw [bit_resize obtained.canonical, if_pos inside]
    by_cases old : p < b.size.toNat
    · rw [if_pos (by omega)]
    · rw [if_neg (by omega), obtained.canonical.tail p (by omega)]
  clears offset count inside :=
    ⟨size_clearRange b offset count, obtained.canonical.bit_clearRange inside⟩
  ends offset count inside rounds result := by
    have bound : b.size.toNat < 2 ^ 64 := b.size.toNat_lt
    have stop : (offset + UInt64.ofNat count).toNat = offset.toNat + count := by
      rw [UInt64.toNat_add, UInt64.toNat_ofNat_of_lt' (by simp only [UInt64.size]; omega)]
      exact Nat.mod_eq_of_lt (by omega)
    have ends := clears_clearRange b stop (stop ▸ inside.trans obtained.canonical.size_le)
    constructor
    · exact fun clears => clears.unique ends
    · rintro ⟨rfl, rfl⟩
      exact ends
  image := by
    rw [length_toBytes, obtained.canonical.words]
    exact ⟨rfl, fun p => (testBit_toBytes b p).symm⟩
  back := ofBytes_toBytes obtained.canonical
  same c other size := toBytes_eq_iff other.canonical obtained.canonical size

/-- Bits that were set, cut off in the middle of a word and grown again. -/
def regrown : BitBuffer := (((zeroed 100).set 70 20 0xFFFFF).resize 75).resize 100

/-- The bits below the cut are still set, and those past it are zero. -/
theorem orderly_of_obtained_regrown : regrown.Obtained ∧ regrown.Orderly ∧
    regrown.get 70 5 = 0x1F ∧ regrown.get 75 15 = 0 ∧ regrown.toBytes.length = 16 := by
  have obtained : regrown.Obtained :=
    ⟨100, ((Relation.ReflTransGen.single (.set 0xFFFFF (by decide) (by decide))).tail
      (.resize 75)).tail (.resize 100)⟩
  have orderly := orderly_of_obtained obtained
  exact ⟨obtained, orderly, by decide +kernel, by decide +kernel, orderly.image.1⟩

end BitRecords.BitBuffer
