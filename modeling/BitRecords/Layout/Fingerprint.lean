import BitRecords.Schema

/-!
# Fingerprints of layouts

A fingerprint is the content of a layout that decides where the bits of a field
are: paths, flags, types, segments, offsets and strides, and the fingerprints of
the element layouts of its lists. Layouts with the same fingerprint can stand in
for each other, so a handle or a snapshot names the layout it belongs to by its
fingerprint. The name of the root is no part of it.
-/

namespace BitRecords

/-- The position of a segment in its layout. -/
abbrev SegmentId := Nat

/-- A bit position in one row of a segment. -/
structure Slot where
  segment : SegmentId
  offset : UInt64
deriving DecidableEq, Inhabited

/-- Where the region of a union and its tag are. -/
structure UnionMark where
  offset : UInt64
  width : Nat
  tag : Slot
deriving DecidableEq

/-- What a fingerprint holds of a struct. -/
structure StructMark where
  path : String
  flags : Flags
  segment : SegmentId
  offset : UInt64
  stride : UInt64
  presence : Option Slot
  union : Option UnionMark
deriving DecidableEq

/-- What a fingerprint holds of a field. -/
structure FieldMark where
  path : String
  type : FieldType
  segment : SegmentId
  offset : UInt64
  tag : Option Nat
deriving DecidableEq

/-- The identity of a layout. The element layouts of its list structs follow in
the order of those structs. -/
structure Fingerprint where
  strategy : String
  structs : List StructMark
  fields : List FieldMark
  strides : List UInt64
  elements : List Fingerprint
deriving Inhabited

namespace Fingerprint

mutual

def decEqFingerprint : (a b : Fingerprint) → Decidable (a = b)
  | ⟨strategy, structs, fields, strides, elements⟩,
    ⟨strategy', structs', fields', strides', elements'⟩ =>
    match decEqFingerprints elements elements' with
    | isTrue h =>
      decidable_of_iff
        (strategy = strategy' ∧ structs = structs' ∧ fields = fields' ∧ strides = strides')
        (by simp [h])
    | isFalse h => isFalse (by simp [h])

def decEqFingerprints : (a b : List Fingerprint) → Decidable (a = b)
  | [], [] => isTrue rfl
  | [], _ :: _ => isFalse (by simp)
  | _ :: _, [] => isFalse (by simp)
  | a :: as, b :: bs =>
    match decEqFingerprint a b, decEqFingerprints as bs with
    | isTrue h, isTrue h' => isTrue (by rw [h, h'])
    | isFalse h, _ => isFalse (by simp [h])
    | _, isFalse h => isFalse (by simp [h])

end

instance : DecidableEq Fingerprint := decEqFingerprint

end Fingerprint

end BitRecords
