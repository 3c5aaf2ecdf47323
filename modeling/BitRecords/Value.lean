import BitRecords.Decimal.Binary

/-!
# Values

A value is what a read returns and a write accepts. Integers of every width
travel as one 64-bit kind, and the field's type decides which of them fit.
Floating-point values are their bit patterns, and objects are known only by
their identity, so equality of values is what change detection needs: a NaN
equals itself, the two zeros differ, and two objects are equal when they are the
same object.
-/

namespace BitRecords

/-- An object, known only by its identity. -/
structure ObjectRef where
  identity : String
deriving DecidableEq, Inhabited

inductive Value where
  | bool (b : Bool)
  | int (v : Int64)
  | float (bits : UInt32)
  | double (bits : UInt64)
  | object (ref : Option ObjectRef)
deriving DecidableEq, Inhabited

namespace Value

/-- The kinds of values. -/
inductive Kind where
  | bool
  | int
  | float
  | double
  | object
deriving DecidableEq, Inhabited

def Kind.name : Kind → String
  | bool => "bool"
  | int => "int"
  | float => "float32"
  | double => "float64"
  | object => "object"

def kind : Value → Kind
  | bool _ => .bool
  | int _ => .int
  | float _ => .float
  | double _ => .double
  | object _ => .object

def asBool? : Value → Option Bool
  | bool b => some b
  | _ => none

def asInt? : Value → Option Int64
  | int v => some v
  | _ => none

/-- The bit pattern of a single-precision value. -/
def asFloat? : Value → Option UInt32
  | float bits => some bits
  | _ => none

/-- The bit pattern of a double-precision value. -/
def asDouble? : Value → Option UInt64
  | double bits => some bits
  | _ => none

/-- The object that is present in the value. -/
def asObject? : Value → Option ObjectRef
  | object ref => ref
  | _ => none

/-- The value's kind and content as text. An object that is present has no text
of its own, since only its identity is known. -/
def describe? : Value → Option String
  | bool true => some "Bool(true)"
  | bool false => some "Bool(false)"
  | int v => some s!"Int({v.toInt})"
  | float bits => some s!"Float({(BinaryFormat.single.number bits.toNat).text})"
  | double bits => some s!"Double({(BinaryFormat.double.number bits.toNat).text})"
  | object none => some "Object(None)"
  | object (some _) => none

end Value

end BitRecords
