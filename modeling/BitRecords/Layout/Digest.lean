import BitRecords.Bits.Bytes
import BitRecords.Layout

/-!
# Digests of layouts

The fingerprint of a layout is passed on as a word: the digest of a run of bytes
that is fed to a hash. A text is fed with a byte after it that no text has, numbers
are fed in little-endian order, and there are neither lengths nor separators. The
digest of the elements of a list is fed with the list. Which hash it is does not
matter here.
-/

namespace BitRecords

def utf8Bytes (text : String) : List UInt8 := text.toUTF8.data.toList

/-- A text with the byte after it. -/
def textBytes (text : String) : List UInt8 := utf8Bytes text ++ [0xFF]

def wordBytes (n : Nat) : List UInt8 := toLittleEndian 8 n

def halfBytes (n : Nat) : List UInt8 := toLittleEndian 4 n

/-- A word tells whether there is a value. -/
def optionBytes {α : Type} (bytes : α → List UInt8) : Option α → List UInt8
  | none => wordBytes 0
  | some a => wordBytes 1 ++ bytes a

def Flags.bytes (flags : Flags) : List UInt8 :=
  [flags.list.toUInt8, flags.optional.toUInt8, flags.union.toUInt8]

namespace FieldType

/-- The position of the type in the list of all types. -/
def index : FieldType → Nat
  | bool => 0
  | int8 => 1
  | int16 => 2
  | int32 => 3
  | int64 => 4
  | unsigned _ => 5
  | float32 => 6
  | float64 => 7
  | object => 8

/-- The width of a type that is declared with one. -/
def widthBytes : FieldType → List UInt8
  | unsigned width => [UInt8.ofNat width]
  | _ => []

def bytes (type : FieldType) : List UInt8 := wordBytes type.index ++ type.widthBytes

end FieldType

def Slot.bytes (slot : Slot) : List UInt8 := wordBytes slot.segment ++ wordBytes slot.offset.toNat

def UnionMark.bytes (u : UnionMark) : List UInt8 :=
  wordBytes u.offset.toNat ++ (halfBytes u.width ++ u.tag.bytes)

/-- What is fed of a struct after its path. -/
def StructMark.placeBytes (m : StructMark) : List UInt8 :=
  m.flags.bytes ++ (wordBytes m.segment ++ (wordBytes m.offset.toNat ++
    (wordBytes m.stride.toNat ++ (optionBytes Slot.bytes m.presence ++
      m.union.elim [] UnionMark.bytes))))

def StructMark.bytes (m : StructMark) : List UInt8 := textBytes m.path ++ m.placeBytes

/-- What is fed of a field after its path. -/
def FieldMark.placeBytes (m : FieldMark) : List UInt8 :=
  m.type.bytes ++ (wordBytes m.segment ++ (wordBytes m.offset.toNat ++
    optionBytes halfBytes m.tag))

def FieldMark.bytes (m : FieldMark) : List UInt8 := textBytes m.path ++ m.placeBytes

namespace Layout

def fieldBytes (fields : List FieldLayout) : List UInt8 := fields.flatMap (·.mark.bytes)

def strideBytes (segments : List Segment) : List UInt8 :=
  segments.flatMap fun g => wordBytes g.stride.toNat

mutual

/-- The bytes that the layout is the digest of. -/
def feed (hash : List UInt8 → UInt64) : Layout → List UInt8
  | { strategy, structs, fields, segments } =>
    textBytes strategy ++ (structBytes hash structs ++ (fieldBytes fields ++ strideBytes segments))

def structBytes (hash : List UInt8 → UInt64) : List StructLayout → List UInt8
  | [] => []
  | s@⟨_, _, _, _, _, _, _, _, _, _, _, _, _, none⟩ :: rest =>
    s.mark.bytes ++ structBytes hash rest
  | s@⟨_, _, _, _, _, _, _, _, _, _, _, _, _, some element⟩ :: rest =>
    s.mark.bytes ++ (wordBytes (hash (element.feed hash)).toNat ++ structBytes hash rest)

end

def digest (hash : List UInt8 → UInt64) (l : Layout) : UInt64 := hash (l.feed hash)

end Layout

end BitRecords
