import BitRecords.FieldType
import BitRecords.Proofs.Bits.Word

/-!
# Encoding and decoding are inverse

What a field type accepts it writes into the low bits of its width, and reads
back as the same value. Conversely every pattern of the low bits is the encoding
of exactly one value, so two words that decode to the same value agree on those
bits. An object is left out: its slot number is not known from the value.
-/

namespace BitRecords

/-- Sign extension by two shifts is the sign extension of the low bits. -/
theorem toBitVec_signExtend {width : Nat} (positive : 1 ≤ width) (fits : width ≤ 64)
    (bits : UInt64) :
    (signExtend width bits).toBitVec = (bits.toBitVec.setWidth width).signExtend 64 := by
  have amount : (UInt64.ofNat (64 - width)).toNat = 64 - width :=
    UInt64.toNat_ofNat_of_lt' (by simp only [UInt64.size]; omega)
  have left : (UInt64.ofNat (64 - width)).toBitVec = BitVec.ofNat 64 (64 - width) := rfl
  have right : ((UInt64.ofNat (64 - width)).toInt64.toBitVec.smod 64).toNat = 64 - width := by
    rw [UInt64.toBitVec_toInt64, left]
    have cases : ∀ n < 64, ((BitVec.ofNat 64 n).smod 64).toNat = n := by decide +kernel
    exact cases _ (by omega)
  apply BitVec.eq_of_getLsbD_eq
  intro i bound
  rw [signExtend, Int64.toBitVec_shiftRight, BitVec.sshiftRight_eq', right,
    UInt64.toBitVec_toInt64, BitVec.getLsbD_sshiftRight, BitVec.getLsbD_signExtend]
  have shifted (j : Nat) : (bits <<< UInt64.ofNat (64 - width)).toBitVec.getLsbD j =
      (decide (j < 64) && !decide (j < 64 - width) && bitOf bits (j - (64 - width))) := by
    have bit := bitOf_shiftLeft bits (UInt64.ofNat (64 - width)) (by omega) j
    rwa [amount] at bit
  have sign : (bits <<< UInt64.ofNat (64 - width)).toBitVec.msb =
      (bits.toBitVec.setWidth width).msb := by
    rw [BitVec.msb_eq_getLsbD_last, BitVec.msb_eq_getLsbD_last, shifted]
    have position : 64 - 1 - (64 - width) = width - 1 := by omega
    simp [position, bitOf, show ¬ 63 < 64 - width by omega, show width - 1 < width by omega]
  rw [sign, shifted]
  by_cases low : i < width
  · have position : 64 - width + i - (64 - width) = i := by omega
    have inside : ¬ 64 ≤ i := by omega
    have past : ¬ 64 - width + i < 64 - width := by omega
    simp [low, bound, inside, past, position, bitOf, show 64 - width + i < 64 by omega]
  · simp [low, bound, show ¬ 64 - width + i < 64 by omega]

/-- The low bits of a number in range give the number back. -/
theorem signExtend_and_lowMask (width : Nat) (positive : 1 ≤ width) (fits : width ≤ 64) {v : Int64}
    (above : -(2 ^ (width - 1) : Nat) ≤ v.toInt) (below : v.toInt < (2 ^ (width - 1) : Nat)) :
    signExtend width (v.toUInt64 &&& lowMask width) = v := by
  have power : 2 ^ width = 2 * 2 ^ (width - 1) := by
    rw [← Nat.pow_succ', Nat.succ_eq_add_one, Nat.sub_add_cancel positive]
  have low :
      (v.toUInt64 &&& lowMask width).toBitVec.setWidth width = v.toBitVec.setWidth width := by
    apply BitVec.eq_of_getLsbD_eq
    intro i bound
    have bit := bitOf_and v.toUInt64 (lowMask width) i
    rw [bitOf_lowMask, decide_eq_true bound, decide_eq_true (show i < 64 by omega)] at bit
    simpa [BitVec.getLsbD_setWidth, bound, bitOf] using bit
  apply Int64.toBitVec.inj
  rw [toBitVec_signExtend positive fits, low]
  apply BitVec.eq_of_toInt_eq
  rw [BitVec.toInt_signExtend_of_le fits, BitVec.toInt_setWidth]
  have value : (v.toBitVec.toNat : Int).bmod (2 ^ width) = v.toInt.bmod (2 ^ width) := by
    rw [← Int64.toInt_toBitVec, BitVec.toInt_eq_toNat_bmod]
    exact (Int.bmod_bmod_of_dvd (Nat.pow_dvd_pow 2 fits)).symm
  rw [value]
  exact Int.bmod_eq_of_le (by omega) (by omega)

theorem toInt_signExtend_bounds (width : Nat) (positive : 1 ≤ width) (fits : width ≤ 64)
    (bits : UInt64) :
    -(2 ^ (width - 1) : Nat) ≤ (signExtend width bits).toInt ∧
      (signExtend width bits).toInt < (2 ^ (width - 1) : Nat) := by
  have value : (signExtend width bits).toInt = (bits.toBitVec.setWidth width).toInt := by
    rw [← Int64.toInt_toBitVec, toBitVec_signExtend positive fits,
      BitVec.toInt_signExtend_of_le fits]
  rw [value]
  push_cast
  exact ⟨BitVec.le_toInt _, BitVec.toInt_lt⟩

theorem toUInt64_signExtend_and_lowMask (width : Nat) (positive : 1 ≤ width) (fits : width ≤ 64)
    (bits : UInt64) :
    (signExtend width bits).toUInt64 &&& lowMask width = bits &&& lowMask width := by
  apply eq_of_bitOf
  intro i bound
  rw [bitOf_and, bitOf_and, bitOf_lowMask]
  by_cases low : i < width
  · have bit : bitOf (signExtend width bits).toUInt64 i = bitOf bits i := by
      rw [bitOf, Int64.toBitVec_toUInt64, toBitVec_signExtend positive fits,
        BitVec.getLsbD_signExtend]
      simp [low, bound, bitOf]
    rw [bit]
  · simp [low]

namespace FieldType

theorem width_le_of_admissible {t : FieldType} (admissible : t.Admissible) : t.width ≤ 64 := by
  cases t with
  | unsigned width => exact admissible.2.trans (by decide)
  | bool | int8 | int16 | int32 | int64 | float32 | float64 | object => decide

theorem width_pos_of_admissible {t : FieldType} (admissible : t.Admissible) : 0 < t.width := by
  cases t with
  | unsigned width => exact admissible.1
  | bool | int8 | int16 | int32 | int64 | float32 | float64 | object => decide

theorem decode_encodeSigned {width : Nat} (positive : 1 ≤ width) (fits : width ≤ 64) {v : Int64}
    {bits : UInt64} (encoded : encodeSigned width v = .ok bits) :
    signExtend width (bits &&& lowMask width) = v ∧ bits.toNat < 2 ^ width := by
  unfold encodeSigned at encoded
  simp only [Nat.one_shiftLeft] at encoded
  split at encoded
  · next range =>
    cases encoded
    have again : v.toUInt64 &&& lowMask width &&& lowMask width = v.toUInt64 &&& lowMask width := by
      rw [UInt64.and_assoc, UInt64.and_self]
    constructor
    · rw [again]
      exact signExtend_and_lowMask width positive fits range.1 range.2
    · rw [toNat_and_lowMask _ fits]
      exact Nat.mod_lt _ (Nat.two_pow_pos width)
  · cases encoded

theorem encodeSigned_signExtend (width : Nat) (positive : 1 ≤ width) (fits : width ≤ 64)
    (bits : UInt64) :
    encodeSigned width (signExtend width bits) = .ok (bits &&& lowMask width) := by
  unfold encodeSigned
  simp only [Nat.one_shiftLeft]
  rw [if_pos (toInt_signExtend_bounds width positive fits bits),
    toUInt64_signExtend_and_lowMask width positive fits]

theorem decode_encodeUnsigned {width : Nat} (fits : width ≤ 63) {v : Int64} {bits : UInt64}
    (encoded : encodeUnsigned width v = .ok bits) :
    (bits &&& lowMask width).toInt64 = v ∧ bits.toNat < 2 ^ width := by
  unfold encodeUnsigned at encoded
  split at encoded
  · cases encoded
  · next range =>
    cases encoded
    have below : v.toUInt64.toNat ≤ (lowMask width).toNat :=
      UInt64.le_iff_toNat_le.mp (UInt64.not_lt.mp fun h => range (.inr h))
    have positive : 0 < 2 ^ width := Nat.two_pow_pos width
    rw [toNat_lowMask, Nat.min_eq_left (by omega)] at below
    have small : v.toUInt64.toNat < 2 ^ width := by omega
    exact ⟨by rw [and_lowMask_of_lt small, Int64.toInt64_toUInt64], small⟩

theorem encodeUnsigned_toInt64 {width : Nat} (fits : width ≤ 63) (bits : UInt64) :
    encodeUnsigned width (bits &&& lowMask width).toInt64 = .ok (bits &&& lowMask width) := by
  have value : (bits &&& lowMask width).toNat < 2 ^ width := by
    rw [toNat_and_lowMask _ (by omega)]
    exact Nat.mod_lt _ (Nat.two_pow_pos width)
  have small : 2 ^ width ≤ 2 ^ 63 := Nat.pow_le_pow_right (by decide) fits
  have sign : ¬ (bits &&& lowMask width).toInt64.toInt < 0 := by
    rw [← Int64.toInt_toBitVec, UInt64.toBitVec_toInt64, BitVec.toInt_eq_toNat_of_lt]
    · exact Int.not_lt.mpr (Int.natCast_nonneg _)
    · rw [UInt64.toNat_toBitVec]
      omega
  have bound : ¬ lowMask width < (bits &&& lowMask width).toInt64.toUInt64 := by
    rw [UInt64.toUInt64_toInt64, UInt64.lt_iff_toNat_lt, toNat_lowMask, Nat.min_eq_left (by omega)]
    omega
  rw [encodeUnsigned, if_neg (not_or.mpr ⟨sign, bound⟩), UInt64.toUInt64_toInt64]

/-- What is encoded fits the width, and decoding gives the value back. -/
theorem decode_encode {t : FieldType} (admissible : t.Admissible) {v : Value} {bits : UInt64}
    (encoded : t.encode v = .ok bits) :
    bits.toNat < 2 ^ t.width ∧ (t ≠ .object → t.decode bits = v) := by
  cases t with
  | bool =>
    cases v with
    | bool b =>
      cases encoded
      cases b <;> exact ⟨by decide, fun _ => by decide⟩
    | int | float | double | object => cases encoded
  | int8 | int16 | int32 =>
    cases v with
    | int v =>
      obtain ⟨value, small⟩ := decode_encodeSigned (by decide) (by decide) encoded
      exact ⟨small, fun _ => congrArg Value.int value⟩
    | bool | float | double | object => cases encoded
  | int64 =>
    cases v with
    | int v =>
      cases encoded
      refine ⟨v.toUInt64.toNat_lt, fun _ => congrArg Value.int ?_⟩
      have below : v.toInt < 2 ^ 63 := v.toInt_lt
      have above : -2 ^ 63 ≤ v.toInt := v.le_toInt
      exact signExtend_and_lowMask 64 (by decide) (by decide) (by simpa using above)
        (by simpa using below)
    | bool | float | double | object => cases encoded
  | unsigned width =>
    cases v with
    | int v =>
      obtain ⟨value, small⟩ := decode_encodeUnsigned admissible.2 encoded
      exact ⟨small, fun _ => congrArg Value.int value⟩
    | bool | float | double | object => cases encoded
  | float32 =>
    cases v with
    | float v =>
      cases encoded
      have small : v.toUInt64.toNat < 2 ^ 32 := by
        rw [UInt32.toNat_toUInt64]
        exact v.toNat_lt
      refine ⟨small, fun _ => congrArg Value.float ?_⟩
      rw [show width .float32 = 32 from rfl, and_lowMask_of_lt small]
      exact UInt32.toUInt32_toUInt64 v
    | bool | int | double | object => cases encoded
  | float64 =>
    cases v with
    | double v =>
      cases encoded
      refine ⟨bits.toNat_lt, fun _ => congrArg Value.double ?_⟩
      rw [show width .float64 = 64 from rfl, and_lowMask_of_lt bits.toNat_lt]
    | bool | int | float | object => cases encoded
  | object =>
    cases v with
    | object o =>
      cases encoded
      exact ⟨by decide, fun plain => absurd rfl plain⟩
    | bool | int | float | double => cases encoded

/-- Decoding looks at the low bits only. -/
theorem decode_and_lowMask (t : FieldType) (word : UInt64) :
    t.decode (word &&& lowMask t.width) = t.decode word := by
  unfold decode
  rw [UInt64.and_assoc, UInt64.and_self]

/-- Every word is the encoding of what it decodes to, as far as the width goes. -/
theorem encode_decode {t : FieldType} (admissible : t.Admissible) (plain : t ≠ .object)
    (word : UInt64) : t.encode (t.decode word) = .ok (word &&& lowMask t.width) := by
  have again (width : Nat) : word &&& lowMask width &&& lowMask width = word &&& lowMask width := by
    rw [UInt64.and_assoc, UInt64.and_self]
  cases t with
  | bool =>
    change Except.ok (if (word &&& lowMask 1) != 0 then 1 else 0) = Except.ok (word &&& lowMask 1)
    have value : (word &&& lowMask 1).toNat < 2 := by
      rw [toNat_and_lowMask _ (by decide)]
      exact Nat.mod_lt _ (by decide)
    by_cases zero : word &&& lowMask 1 = 0
    · simp [zero]
    · have one : word &&& lowMask 1 = 1 := by
        apply UInt64.toNat.inj
        have positive : (word &&& lowMask 1).toNat ≠ 0 := fun h => zero (UInt64.toNat.inj h)
        rw [UInt64.toNat_one]
        omega
      rw [one]
      rfl
  | int8 | int16 | int32 =>
    simp only [encode, decode, width]
    rw [encodeSigned_signExtend _ (by decide) (by decide), again]
  | int64 =>
    have value := toUInt64_signExtend_and_lowMask 64 (by decide) (by decide)
      (word &&& lowMask 64)
    rw [and_lowMask_of_lt (signExtend 64 (word &&& lowMask 64)).toUInt64.toNat_lt, again] at value
    exact congrArg Except.ok value
  | unsigned width =>
    exact encodeUnsigned_toInt64 admissible.2 word
  | float32 =>
    change Except.ok (word &&& lowMask 32).toUInt32.toUInt64 = Except.ok (word &&& lowMask 32)
    congr 1
    apply UInt64.toNat.inj
    have value : (word &&& lowMask 32).toNat < 2 ^ 32 := by
      rw [toNat_and_lowMask _ (by decide)]
      exact Nat.mod_lt _ (by decide)
    rw [UInt32.toNat_toUInt64, UInt64.toNat_toUInt32, Nat.mod_eq_of_lt value]
  | float64 => rfl
  | object => exact absurd rfl plain

/-- Words that decode to the same value agree on the low bits. -/
theorem decode_inj {t : FieldType} (admissible : t.Admissible) (plain : t ≠ .object)
    {a b : UInt64} (same : t.decode a = t.decode b) :
    a &&& lowMask t.width = b &&& lowMask t.width := by
  have left := encode_decode admissible plain a
  rw [same, encode_decode admissible plain b] at left
  exact (Except.ok.inj left).symm

/-- The integer is one of those that two's complement writes in the width. -/
def FitsSigned (width : Nat) (v : Int64) : Prop :=
  -(2 ^ (width - 1) : Nat) ≤ v.toInt ∧ v.toInt < (2 ^ (width - 1) : Nat)

/-- The integer is one of those that plain binary writes in the width. -/
def FitsUnsigned (width : Nat) (v : Int64) : Prop := 0 ≤ v.toInt ∧ v.toInt < (2 ^ width : Nat)

/-- The value is of the type: of its kind, and in its range if it is an integer. -/
def Holds : FieldType → Value → Prop
  | bool, .bool _ | float32, .float _ | float64, .double _ | object, .object _ => True
  | int8, .int v => FitsSigned 8 v
  | int16, .int v => FitsSigned 16 v
  | int32, .int v => FitsSigned 32 v
  | int64, .int v => FitsSigned 64 v
  | unsigned width, .int v => FitsUnsigned width v
  | _, _ => False

theorem isOk_encodeSigned (width : Nat) (v : Int64) :
    (∃ bits, encodeSigned width v = .ok bits) ↔ FitsSigned width v := by
  unfold encodeSigned FitsSigned
  simp only [Nat.one_shiftLeft]
  split
  · next range => exact iff_of_true ⟨_, rfl⟩ range
  · next outside => exact iff_of_false (by simp) outside

/-- Non-negative integers are the same as words. -/
theorem toInt_eq_toNat_toUInt64 {v : Int64} (natural : 0 ≤ v.toInt) :
    v.toInt = v.toUInt64.toNat := by
  have bound : v.toInt < 2 ^ 63 := v.toInt_lt
  have value : v.toInt = if 2 * v.toUInt64.toNat < 2 ^ 64 then (v.toUInt64.toNat : Int)
      else v.toUInt64.toNat - (2 ^ 64 : Nat) := BitVec.toInt_eq_toNat_cond v.toBitVec
  have small := v.toUInt64.toNat_lt
  split at value <;> omega

theorem isOk_encodeUnsigned {width : Nat} (fits : width ≤ 63) (v : Int64) :
    (∃ bits, encodeUnsigned width v = .ok bits) ↔ FitsUnsigned width v := by
  have mask : (lowMask width).toNat = 2 ^ width - 1 := by
    rw [toNat_lowMask, Nat.min_eq_left (by omega)]
  have positive : 0 < 2 ^ width := Nat.two_pow_pos width
  have range : ¬ (v.toInt < 0 ∨ lowMask width < v.toUInt64) ↔ FitsUnsigned width v := by
    rw [not_or, Int.not_lt, UInt64.lt_iff_toNat_lt, mask, FitsUnsigned]
    refine and_congr_right fun natural => ?_
    rw [toInt_eq_toNat_toUInt64 natural]
    omega
  unfold encodeUnsigned
  split
  · next outside => exact iff_of_false (by simp) fun fits => range.mpr fits outside
  · next inside => exact iff_of_true ⟨_, rfl⟩ (range.mp inside)

theorem fitsSigned_word (v : Int64) : FitsSigned 64 v :=
  ⟨v.le_toInt, v.toInt_lt⟩

/-- A type accepts its values and no others. -/
theorem isOk_encode {t : FieldType} (admissible : t.Admissible) (v : Value) :
    (∃ bits, t.encode v = .ok bits) ↔ t.Holds v := by
  cases t with
  | int8 | int16 | int32 =>
    cases v with
    | int v => exact isOk_encodeSigned _ v
    | bool | float | double | object => simp [encode, Holds]
  | int64 =>
    cases v with
    | int v => exact ⟨fun _ => fitsSigned_word v, fun _ => ⟨_, rfl⟩⟩
    | bool | float | double | object => simp [encode, Holds]
  | unsigned width =>
    cases v with
    | int v => exact isOk_encodeUnsigned admissible.2 v
    | bool | float | double | object => simp [encode, Holds]
  | bool | float32 | float64 | object => cases v <;> simp [encode, Holds]

/-- Encoding and decoding are inverse between the values of the type and the patterns of its
low bits. -/
structure Codes (t : FieldType) : Prop where
  accepts : ∀ v, (∃ bits, t.encode v = .ok bits) ↔ t.Holds v
  back : ∀ v bits, t.encode v = .ok bits → bits.toNat < 2 ^ t.width ∧ t.decode bits = v
  low : ∀ word word' : UInt64, word.toNat % 2 ^ t.width = word'.toNat % 2 ^ t.width →
    t.decode word = t.decode word'
  total : ∀ word, ∃ bits, t.encode (t.decode word) = .ok bits ∧
    bits.toNat = word.toNat % 2 ^ t.width
  /-- The low bits of any word, and so of any region, are the encoding of one value. -/
  unique : ∀ word : UInt64, ∃! v, ∃ bits, t.encode v = .ok bits ∧
    bits.toNat = word.toNat % 2 ^ t.width

theorem decode_eq_of_mod {t : FieldType} (admissible : t.Admissible) {word word' : UInt64}
    (same : word.toNat % 2 ^ t.width = word'.toNat % 2 ^ t.width) :
    t.decode word = t.decode word' := by
  have fits := width_le_of_admissible admissible
  have low : word &&& lowMask t.width = word' &&& lowMask t.width := by
    apply UInt64.toNat.inj
    rw [toNat_and_lowMask _ fits, toNat_and_lowMask _ fits, same]
  rw [← decode_and_lowMask, low, decode_and_lowMask]

theorem encode_decode_mod {t : FieldType} (admissible : t.Admissible) (plain : t ≠ .object)
    (word : UInt64) :
    ∃ bits, t.encode (t.decode word) = .ok bits ∧ bits.toNat = word.toNat % 2 ^ t.width :=
  ⟨_, encode_decode admissible plain word,
    toNat_and_lowMask word (width_le_of_admissible admissible)⟩

/-- Every type that a schema admits codes its values exactly, except for objects. -/
theorem codes_of_admissible {t : FieldType} (admissible : t.Admissible) (plain : t ≠ .object) :
    t.Codes where
  accepts := isOk_encode admissible
  back v bits encoded := by
    obtain ⟨small, value⟩ := decode_encode admissible encoded
    exact ⟨small, value plain⟩
  low word word' := decode_eq_of_mod admissible
  total := encode_decode_mod admissible plain
  unique word := by
    refine ⟨t.decode word, encode_decode_mod admissible plain word, ?_⟩
    rintro v ⟨bits, encoded, pattern⟩
    obtain ⟨small, value⟩ := decode_encode admissible encoded
    calc v = t.decode bits := (value plain).symm
      _ = t.decode word := decode_eq_of_mod admissible (by rw [pattern, Nat.mod_mod])

/-- The widest unsigned field takes the largest integer and no negative one, and reads any
word as one of its integers. -/
theorem codes_of_admissible_unsigned : (unsigned 63).Admissible ∧ unsigned 63 ≠ object ∧
    (unsigned 63).Codes ∧ (unsigned 63).Holds (.int 0x7FFFFFFFFFFFFFFF) ∧
    ¬ (unsigned 63).Holds (.int (-1)) ∧
    (unsigned 63).decode 0xFFFFFFFFFFFFFFFF = .int 0x7FFFFFFFFFFFFFFF := by
  have codes : (unsigned 63).Codes := codes_of_admissible (by decide) (by decide)
  refine ⟨by decide, by decide, codes, (codes.accepts _).mp ⟨0x7FFFFFFFFFFFFFFF, by rfl⟩, ?_,
    by rfl⟩
  intro holds
  exact absurd holds.1 (by decide)

end FieldType

end BitRecords
