import BitRecords.Error

/-!
# Building schemas

A struct is checked when it is built and when its flags or name change, each
time one level deep: its children were built before it. Names are not empty and
hold no dot, so that a dotted path names one field or struct; fields and
children share one namespace; and a union has a field and no object field, so
that its region can be read through each of its members.
-/

namespace BitRecords.Schema

/-- Refuses a name that a dotted path could not hold. -/
def checkName (path name : String) : Except Error Unit :=
  if name.isEmpty then .error (.schema path .emptyName)
  else if name.toList.contains '.' then .error (.schema path .dottedName)
  else .ok ()

/-- Refuses a width that a plain binary field cannot have. -/
def checkType (path : String) : FieldType → Except Error Unit
  | .unsigned width =>
    if (FieldType.unsigned width).Admissible then .ok ()
    else .error (.schema path (.unsignedWidth width))
  | _ => .ok ()

/-- Checks the fields of the struct `owner` in order, where the names in `seen`
are taken. Returns all names that are taken afterwards. -/
def checkFields (owner : String) (seen : List String) : List Field → Except Error (List String)
  | [] => .ok seen
  | f :: rest => do
    let path := owner ++ "." ++ f.name
    checkName path f.name
    checkType path f.type
    if seen.contains f.name then throw (.schema path .duplicateField)
    checkFields owner (f.name :: seen) rest

/-- Checks that the child structs of `owner` have names of their own. -/
def checkChildren (owner : String) (seen : List String) : List Schema → Except Error Unit
  | [] => .ok ()
  | child :: rest =>
    if seen.contains child.name then
      .error (.schema (owner ++ "." ++ child.name) .duplicateStruct)
    else checkChildren owner (child.name :: seen) rest

/-- Refuses a union without a field, or with an object field. -/
def checkUnion (s : Schema) : Except Error Unit :=
  if !s.flags.union then .ok ()
  else if s.fields.isEmpty then .error (.schema s.name .emptyUnion)
  else
    match s.fields.find? (·.type.isObject) with
    | some f => .error (.schema (s.name ++ "." ++ f.name) .objectInUnion)
    | none => .ok ()

/-- Builds a struct from its parts. The first fault in the order name, fields,
children, union is reported. -/
def build (name : String) (fields : List Field) (children : List Schema) (flags : Flags) :
    Except Error Schema := do
  checkName name name
  let seen ← checkFields name [] fields
  checkChildren name seen children
  let s : Schema := { name, fields, children, flags }
  s.checkUnion
  return s

/-- The same struct under another name. -/
def renamed (s : Schema) (name : String) : Except Error Schema := do
  checkName name name
  return { s with name }

/-- The same struct with other flags. -/
def withFlags (s : Schema) (flags : Flags) : Except Error Schema := do
  let s := { s with flags }
  s.checkUnion
  return s

/-- Lets the struct's fields share one region. -/
def asUnion (s : Schema) : Except Error Schema :=
  s.withFlags { s.flags with union := true }

/-- Refuses a root that may be absent or occur several times. -/
def checkRoot (s : Schema) : Except Error Unit :=
  if s.flags.list || s.flags.optional then .error (.schema s.name .flaggedRoot) else .ok ()

end BitRecords.Schema
