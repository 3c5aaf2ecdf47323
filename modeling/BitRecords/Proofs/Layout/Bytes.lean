import BitRecords.Layout.Digest
import BitRecords.Proofs.Bits.LittleEndian
import BitRecords.Proofs.FieldType

/-!
# Reading fed bytes

What is fed to the hash is read from the front. A text ends at the byte that no text
has, and numbers, options and types have as many bytes as their first ones tell. So
the beginnings of equal runs of bytes are the same values, if these fit their bytes.
-/

namespace BitRecords

variable {x y : List UInt8}

/-- A byte of a character is the character itself, or it is none and not the greatest byte. -/
theorem mem_utf8EncodeChar {c : Char} {b : UInt8} (member : b ∈ String.utf8EncodeChar c) :
    b.toNat = c.toNat ∧ b.toNat < 128 ∨ 128 ≤ b.toNat ∧ b.toNat < 248 := by
  have value : c.toNat = c.val.toNat := rfl
  unfold String.utf8EncodeChar at member
  dsimp only at member
  split at member
  · obtain rfl := List.mem_singleton.mp member
    left
    rw [UInt8.toNat_ofNat']
    omega
  · right
    split at member
    · simp only [List.mem_cons, List.not_mem_nil, or_false] at member
      rcases member with rfl | rfl <;> rw [UInt8.toNat_ofNat'] <;> omega
    · split at member
      · simp only [List.mem_cons, List.not_mem_nil, or_false] at member
        rcases member with rfl | rfl | rfl <;> rw [UInt8.toNat_ofNat'] <;> omega
      · simp only [List.mem_cons, List.not_mem_nil, or_false] at member
        rcases member with rfl | rfl | rfl | rfl <;> rw [UInt8.toNat_ofNat'] <;> omega

theorem utf8Bytes_eq (text : String) :
    utf8Bytes text = text.toList.flatMap String.utf8EncodeChar := by
  rw [utf8Bytes, String.toUTF8, ← String.utf8Encode_toList, List.utf8Encode,
    List.toList_data_toByteArray]

theorem utf8Bytes_inj {a b : String} (same : utf8Bytes a = utf8Bytes b) : a = b :=
  String.toByteArray_inj.mp (ByteArray.ext (Array.toList_inj.mp same))

theorem utf8Bytes_append (a b : String) : utf8Bytes (a ++ b) = utf8Bytes a ++ utf8Bytes b := by
  rw [utf8Bytes_eq, utf8Bytes_eq, utf8Bytes_eq, String.toList_append, List.flatMap_append]

/-- No text has the byte that is fed after it. -/
theorem end_not_mem (text : String) : 0xFF ∉ utf8Bytes text := by
  rw [utf8Bytes_eq, List.mem_flatMap]
  rintro ⟨c, -, member⟩
  have byte : (0xFF : UInt8).toNat = 255 := rfl
  have := mem_utf8EncodeChar member
  omega

/-- The byte of a dot stands for a dot. -/
theorem dot_mem_utf8Bytes {text : String} : 0x2E ∈ utf8Bytes text ↔ '.' ∈ text.toList := by
  rw [utf8Bytes_eq, List.mem_flatMap]
  constructor
  · rintro ⟨c, inside, member⟩
    have byte : (0x2E : UInt8).toNat = '.'.toNat := rfl
    have dot : '.'.toNat = 46 := rfl
    have value : c.toNat = '.'.toNat := by
      have := mem_utf8EncodeChar member
      omega
    rwa [Char.toNat_inj.mp value] at inside
  · intro inside
    exact ⟨'.', inside, List.mem_singleton_self _⟩

theorem utf8Bytes_dot : utf8Bytes "." = [0x2E] := by
  rw [utf8Bytes_eq]
  rfl

@[simp] theorem length_wordBytes (n : Nat) : (wordBytes n).length = 8 := length_toLittleEndian 8 n

@[simp] theorem length_halfBytes (n : Nat) : (halfBytes n).length = 4 := length_toLittleEndian 4 n

/-- What stands before a byte for the first time can be told from what stands after it. -/
theorem append_cons_inj_of_not_mem {α : Type} {e : α} {a b x y : List α} (first : e ∉ a)
    (first' : e ∉ b) (same : a ++ e :: x = b ++ e :: y) : a = b ∧ x = y := by
  rcases List.append_eq_append_iff.mp same with ⟨c, rfl, tail⟩ | ⟨c, rfl, tail⟩
  · cases c with
    | nil => exact ⟨(List.append_nil a).symm, (List.cons.inj tail).2⟩
    | cons d c =>
      obtain ⟨rfl, -⟩ := List.cons.inj tail
      exact absurd (List.mem_append_right a List.mem_cons_self) first'
  · cases c with
    | nil => exact ⟨List.append_nil b, (List.cons.inj tail).2.symm⟩
    | cons d c =>
      obtain ⟨rfl, -⟩ := List.cons.inj tail
      exact absurd (List.mem_append_right b List.mem_cons_self) first

theorem textBytes_append_inj {a b : String} (same : textBytes a ++ x = textBytes b ++ y) :
    a = b ∧ x = y := by
  rw [textBytes, textBytes, List.append_assoc, List.append_assoc] at same
  obtain ⟨text, rest⟩ := append_cons_inj_of_not_mem (end_not_mem a) (end_not_mem b) same
  exact ⟨utf8Bytes_inj text, rest⟩

theorem wordBytes_append_inj {a b : Nat} (small : a < UInt64.size) (small' : b < UInt64.size)
    (same : wordBytes a ++ x = wordBytes b ++ y) : a = b ∧ x = y := by
  obtain ⟨number, rest⟩ := List.append_inj same (by simp)
  exact ⟨toLittleEndian_inj small small' number, rest⟩

theorem word_append_inj {a b : UInt64} (same : wordBytes a.toNat ++ x = wordBytes b.toNat ++ y) :
    a = b ∧ x = y := by
  obtain ⟨number, rest⟩ := wordBytes_append_inj (UInt64.toNat_lt_size a) (UInt64.toNat_lt_size b) same
  exact ⟨UInt64.toNat_inj.mp number, rest⟩

theorem optionBytes_append_inj {α : Type} {bytes : α → List UInt8} {o o' : Option α}
    (inj : ∀ a b, o = some a → o' = some b → bytes a ++ x = bytes b ++ y → a = b ∧ x = y)
    (same : optionBytes bytes o ++ x = optionBytes bytes o' ++ y) : o = o' ∧ x = y := by
  cases o with
  | none =>
    cases o' with
    | none => exact ⟨rfl, (wordBytes_append_inj (by decide) (by decide) same).2⟩
    | some b =>
      rw [optionBytes, optionBytes, List.append_assoc] at same
      exact absurd (wordBytes_append_inj (by decide) (by decide) same).1 (by decide)
  | some a =>
    cases o' with
    | none =>
      rw [optionBytes, optionBytes, List.append_assoc] at same
      exact absurd (wordBytes_append_inj (by decide) (by decide) same).1 (by decide)
    | some b =>
      rw [optionBytes, optionBytes, List.append_assoc, List.append_assoc] at same
      obtain ⟨rfl, rest⟩ := inj a b rfl rfl (wordBytes_append_inj (by decide) (by decide) same).2
      exact ⟨rfl, rest⟩

/-- Member numbers are fed as half words. Whether there is one is told in any case. -/
theorem tagBytes_append_inj {tag tag' : Option Nat}
    (same : optionBytes halfBytes tag ++ x = optionBytes halfBytes tag' ++ y) :
    tag.isSome = tag'.isSome ∧ x = y := by
  cases tag with
  | none =>
    cases tag' with
    | none => exact ⟨rfl, (wordBytes_append_inj (by decide) (by decide) same).2⟩
    | some n =>
      rw [optionBytes, optionBytes, List.append_assoc] at same
      exact absurd (wordBytes_append_inj (by decide) (by decide) same).1 (by decide)
  | some n =>
    cases tag' with
    | none =>
      rw [optionBytes, optionBytes, List.append_assoc] at same
      exact absurd (wordBytes_append_inj (by decide) (by decide) same).1 (by decide)
    | some n' =>
      rw [optionBytes, optionBytes, List.append_assoc, List.append_assoc] at same
      have rest := (wordBytes_append_inj (by decide) (by decide) same).2
      exact ⟨rfl, (List.append_inj rest (by simp)).2⟩

theorem Flags.bytes_append_inj {flags flags' : Flags}
    (same : flags.bytes ++ x = flags'.bytes ++ y) : flags = flags' ∧ x = y := by
  have bool {a b : Bool} (same : a.toUInt8 = b.toUInt8) : a = b := by
    cases a <;> cases b <;> first | rfl | cases same
  obtain ⟨list, optional, union⟩ := flags
  obtain ⟨list', optional', union'⟩ := flags'
  simp only [Flags.bytes, List.cons_append, List.nil_append, List.cons.injEq] at same
  obtain ⟨isList, isOptional, isUnion, rest⟩ := same
  exact ⟨by rw [bool isList, bool isOptional, bool isUnion], rest⟩

theorem FieldType.index_lt (t : FieldType) : t.index < 9 := by
  cases t <;> simp only [index] <;> decide

theorem FieldType.bytes_append_inj {t t' : FieldType} (admissible : t.Admissible)
    (admissible' : t'.Admissible) (same : t.bytes ++ x = t'.bytes ++ y) : t = t' ∧ x = y := by
  have small (t : FieldType) : t.index < UInt64.size :=
    Nat.lt_trans t.index_lt (by decide)
  rw [bytes, bytes, List.append_assoc, List.append_assoc] at same
  obtain ⟨index, same⟩ := wordBytes_append_inj (small t) (small t') same
  cases t with
  | unsigned width =>
    cases t' with
    | unsigned width' =>
      obtain ⟨byte, same⟩ := List.cons.inj same
      have lower : width < 256 := Nat.lt_of_le_of_lt admissible.2 (by decide)
      have lower' : width' < 256 := Nat.lt_of_le_of_lt admissible'.2 (by decide)
      have value := congrArg UInt8.toNat byte
      rw [UInt8.toNat_ofNat_of_lt' lower, UInt8.toNat_ofNat_of_lt' lower'] at value
      exact ⟨by rw [value], same⟩
    | bool | int8 | int16 | int32 | int64 | float32 | float64 | object => cases index
  | bool | int8 | int16 | int32 | int64 | float32 | float64 | object =>
    cases t' <;> first | exact ⟨rfl, same⟩ | cases index

theorem Slot.bytes_append_inj {slot slot' : Slot} (small : slot.segment < UInt64.size)
    (small' : slot'.segment < UInt64.size) (same : slot.bytes ++ x = slot'.bytes ++ y) :
    slot = slot' ∧ x = y := by
  rw [Slot.bytes, Slot.bytes, List.append_assoc, List.append_assoc] at same
  obtain ⟨segment, same⟩ := wordBytes_append_inj small small' same
  obtain ⟨offset, same⟩ := word_append_inj same
  refine ⟨?_, same⟩
  cases slot
  cases slot'
  congr

/-- The numbers of the mark fit their bytes, and its flags tell whether it has those of a
union. -/
structure StructMark.Narrow (m : StructMark) : Prop where
  segment : m.segment < UInt64.size
  presence : ∀ slot, m.presence = some slot → slot.segment < UInt64.size
  union : ∀ u, m.union = some u → u.width ≤ 64 ∧ u.tag.segment < UInt64.size
  told : m.union.isSome = (m.flags.union && !m.flags.list)

theorem UnionMark.bytes_append_inj {u u' : UnionMark} (width : u.width ≤ 64)
    (width' : u'.width ≤ 64) (small : u.tag.segment < UInt64.size)
    (small' : u'.tag.segment < UInt64.size) (same : u.bytes ++ x = u'.bytes ++ y) :
    u = u' ∧ x = y := by
  have half {width : Nat} (bound : width ≤ 64) : width < 256 ^ 4 :=
    Nat.lt_of_le_of_lt bound (by decide)
  simp only [UnionMark.bytes, List.append_assoc] at same
  obtain ⟨offset, same⟩ := word_append_inj same
  obtain ⟨number, same⟩ := List.append_inj same (by simp)
  have region := toLittleEndian_inj (half width) (half width') number
  obtain ⟨tag, same⟩ := Slot.bytes_append_inj small small' same
  refine ⟨?_, same⟩
  cases u
  cases u'
  congr

theorem StructMark.bytes_append_inj {m m' : StructMark} (narrow : m.Narrow) (narrow' : m'.Narrow)
    (same : m.bytes ++ x = m'.bytes ++ y) : m = m' ∧ x = y := by
  simp only [StructMark.bytes, StructMark.placeBytes, List.append_assoc] at same
  obtain ⟨path, same⟩ := textBytes_append_inj same
  obtain ⟨flags, same⟩ := Flags.bytes_append_inj same
  obtain ⟨segment, same⟩ := wordBytes_append_inj narrow.segment narrow'.segment same
  obtain ⟨offset, same⟩ := word_append_inj same
  obtain ⟨stride, same⟩ := word_append_inj same
  obtain ⟨presence, same⟩ := optionBytes_append_inj (fun a b here here' =>
    Slot.bytes_append_inj (narrow.presence a here) (narrow'.presence b here')) same
  have told : m.union.isSome = m'.union.isSome := by
    rw [narrow.told, narrow'.told, flags]
  have union : m.union = m'.union ∧ x = y := by
    cases here : m.union with
    | none =>
      rw [here] at told same
      rw [Option.isNone_iff_eq_none.mp (Option.isSome_eq_false_iff.mp told.symm)] at same ⊢
      exact ⟨rfl, same⟩
    | some u =>
      rw [here] at told same
      obtain ⟨u', here'⟩ := Option.isSome_iff_exists.mp told.symm
      rw [here'] at same ⊢
      obtain ⟨width, small⟩ := narrow.union u here
      obtain ⟨width', small'⟩ := narrow'.union u' here'
      obtain ⟨unions, same⟩ := UnionMark.bytes_append_inj width width' small small' same
      exact ⟨congrArg some unions, same⟩
  refine ⟨?_, union.2⟩
  replace union := union.1
  cases m
  cases m'
  congr

/-- The type and the segment of the field fit their bytes. -/
structure FieldMark.Narrow (m : FieldMark) : Prop where
  type : m.type.Admissible
  segment : m.segment < UInt64.size

/-- The marks are the same but for the paths and for the numbers of union members. -/
structure FieldMark.SamePlace (m m' : FieldMark) : Prop where
  type : m.type = m'.type
  segment : m.segment = m'.segment
  offset : m.offset = m'.offset
  member : m.tag.isSome = m'.tag.isSome

theorem FieldMark.placeBytes_append_inj {m m' : FieldMark} (narrow : m.Narrow)
    (narrow' : m'.Narrow) (same : m.placeBytes ++ x = m'.placeBytes ++ y) :
    m.SamePlace m' ∧ x = y := by
  simp only [FieldMark.placeBytes, List.append_assoc] at same
  obtain ⟨type, same⟩ := FieldType.bytes_append_inj narrow.type narrow'.type same
  obtain ⟨segment, same⟩ := wordBytes_append_inj narrow.segment narrow'.segment same
  obtain ⟨offset, same⟩ := word_append_inj same
  obtain ⟨member, same⟩ := tagBytes_append_inj same
  exact ⟨⟨type, segment, offset, member⟩, same⟩

end BitRecords
