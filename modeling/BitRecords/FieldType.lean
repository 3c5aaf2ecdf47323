import BitRecords.Bits.Word
import BitRecords.Value

/-!
# Field types

A field type fixes how many bits a field takes and how its values are written
into them. Integers are two's complement or plain binary, floating-point values
are their bit patterns, and an object is the number of its slot in an object
table, with zero for no object.

Decoding is total over the width: every bit pattern stands for some value, which
is what makes it safe to read one union member through another.
-/

namespace BitRecords

inductive FieldType where
  | bool
  | int8
  | int16
  | int32
  | int64
  | unsigned (width : Nat)
  | float32
  | float64
  | object
deriving DecidableEq, Inhabited

/-- The bits of the slot number that stands for an object. -/
def objectSlotBits : Nat := 32

/-- Why a value cannot be stored in a field. -/
inductive Misfit where
  /-- The value is of another kind. -/
  | kind (k : Value.Kind)
  /-- The integer does not fit the width. -/
  | range (v : Int64) (width : Nat)
deriving DecidableEq

def Misfit.text : Misfit → String
  | kind k => k.name
  | range v width => s!"{v.toInt} (out of range for {width} bits)"

namespace FieldType

def width : FieldType → Nat
  | bool => 1
  | int8 => 8
  | int16 => 16
  | int32 | float32 => 32
  | int64 | float64 => 64
  | unsigned width => width
  | object => objectSlotBits

def isObject : FieldType → Bool
  | object => true
  | _ => false

def name : FieldType → String
  | bool => "bool"
  | int8 => "int8"
  | int16 => "int16"
  | int32 => "int32"
  | int64 => "int64"
  | unsigned width => s!"unsigned{width}"
  | float32 => "float32"
  | float64 => "float64"
  | object => "object"

/-- Whether a schema may declare the type: a plain binary field has 1 to 63
bits, so that each of its values is a non-negative 64-bit integer. -/
def Admissible : FieldType → Prop
  | unsigned width => 1 ≤ width ∧ width ≤ 63
  | _ => True

instance : (t : FieldType) → Decidable t.Admissible
  | unsigned width => inferInstanceAs (Decidable (1 ≤ width ∧ width ≤ 63))
  | bool | int8 | int16 | int32 | int64 | float32 | float64 | object => isTrue trivial

/-- Writes an integer in two's complement, if it fits. -/
def encodeSigned (width : Nat) (v : Int64) : Except Misfit UInt64 :=
  let limit : Nat := 1 <<< (width - 1)
  if -(limit : Int) ≤ v.toInt ∧ v.toInt < (limit : Int) then
    .ok (v.toUInt64 &&& lowMask width)
  else .error (.range v width)

/-- Writes an integer in plain binary, if it fits. -/
def encodeUnsigned (width : Nat) (v : Int64) : Except Misfit UInt64 :=
  if v.toInt < 0 ∨ lowMask width < v.toUInt64 then .error (.range v width)
  else .ok v.toUInt64

/-- Writes a value into the low bits of a word. An object is written as zero,
since its slot number is not known before a table holds it. -/
def encode : FieldType → Value → Except Misfit UInt64
  | bool, .bool b => .ok (if b then 1 else 0)
  | int8, .int v => encodeSigned 8 v
  | int16, .int v => encodeSigned 16 v
  | int32, .int v => encodeSigned 32 v
  | int64, .int v => .ok v.toUInt64
  | unsigned width, .int v => encodeUnsigned width v
  | float32, .float bits => .ok bits.toUInt64
  | float64, .double bits => .ok bits
  | object, .object _ => .ok 0
  | _, v => .error (.kind v.kind)

/-- Reads the low bits of a word. An object is read as its slot number, which
only an object table can turn into the object. -/
def decode (t : FieldType) (word : UInt64) : Value :=
  let bits := word &&& lowMask t.width
  match t with
  | bool => .bool (bits != 0)
  | int8 | int16 | int32 | int64 => .int (signExtend t.width bits)
  | unsigned _ | object => .int bits.toInt64
  | float32 => .float bits.toUInt32
  | float64 => .double bits

/-- The value of a field that was never written. -/
def defaultValue : FieldType → Value
  | object => .object none
  | t => t.decode 0

end FieldType

end BitRecords
