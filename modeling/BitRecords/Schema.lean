import BitRecords.FieldType

/-!
# Schemas

A schema describes a record: a tree of structs, each with ordered fields and
ordered child structs. Flags say how often a struct occurs. A list occurs any
number of times, an optional at most once, and the fields of a union share one
region of which one field at a time is selected.

A schema knows nothing of offsets or storage. Fields and structs are named by
dotted paths from the root, which is itself the empty path.
-/

namespace BitRecords

structure Flags where
  list : Bool := false
  optional : Bool := false
  union : Bool := false
deriving DecidableEq, Inhabited

/-- A field as it is declared. -/
structure Field where
  name : String
  type : FieldType
deriving DecidableEq, Inhabited

/-- A struct with its fields and child structs, in order of declaration. -/
structure Schema where
  name : String
  fields : List Field := []
  children : List Schema := []
  flags : Flags := {}
deriving Inhabited

/-- The dotted path of `name` below the struct at `parent`. -/
def joinPath (parent name : String) : String :=
  if parent.isEmpty then name else parent ++ "." ++ name

namespace Schema

mutual

def decEqSchema : (a b : Schema) → Decidable (a = b)
  | ⟨name, fields, children, flags⟩, ⟨name', fields', children', flags'⟩ =>
    match decEqSchemas children children' with
    | isTrue h =>
      decidable_of_iff (name = name' ∧ fields = fields' ∧ flags = flags') (by simp [h])
    | isFalse h => isFalse (by simp [h])

def decEqSchemas : (a b : List Schema) → Decidable (a = b)
  | [], [] => isTrue rfl
  | [], _ :: _ => isFalse (by simp)
  | _ :: _, [] => isFalse (by simp)
  | a :: as, b :: bs =>
    match decEqSchema a b, decEqSchemas as bs with
    | isTrue h, isTrue h' => isTrue (by rw [h, h'])
    | isFalse h, _ => isFalse (by simp [h])
    | _, isFalse h => isFalse (by simp [h])

end

instance : DecidableEq Schema := decEqSchema

def isList (s : Schema) : Bool := s.flags.list

def isOptional (s : Schema) : Bool := s.flags.optional

def isUnion (s : Schema) : Bool := s.flags.union

/-- The field of that name in the struct itself. -/
def field? (s : Schema) (name : String) : Option Field :=
  s.fields.find? (·.name == name)

/-- The child struct of that name. -/
def child? (s : Schema) (name : String) : Option Schema :=
  s.children.find? (·.name == name)

mutual

/-- The number of fields in the struct and all structs below it, those of list
elements included. -/
def totalFieldCount : Schema → Nat
  | { fields, children, .. } => fields.length + totalFieldCounts children

/-- The number of fields in all structs of a list and below them. -/
def totalFieldCounts : List Schema → Nat
  | [] => 0
  | child :: rest => child.totalFieldCount + totalFieldCounts rest

end

/-- Marks the struct as one that may be absent. -/
def asOptional (s : Schema) : Schema :=
  { s with flags := { s.flags with optional := true } }

/-- Marks the struct as one that occurs any number of times. -/
def asList (s : Schema) : Schema :=
  { s with flags := { s.flags with list := true } }

end Schema

end BitRecords
