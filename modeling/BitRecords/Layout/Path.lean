import BitRecords.Error
import BitRecords.Layout

/-!
# Finding structs and fields by path

A dotted path names a struct or field of the layout, or of the element layout of
a list on the way: what follows the path of a list struct and a dot is a path in
its element layout, where the empty path is the element itself. A handle is the
result of such a search. It names the layout by its fingerprint, so it works with
every layout that has the same one and is refused by all others.
-/

namespace BitRecords

/-- A field of the layouts with a fingerprint. -/
structure FieldHandle where
  layout : Fingerprint
  id : FieldId
  type : FieldType
deriving DecidableEq

/-- A struct of the layouts with a fingerprint. -/
structure StructHandle where
  layout : Fingerprint
  id : StructId
  flags : Flags
deriving DecidableEq

namespace Layout

/-- What a path names. -/
inductive Target where
  | field (f : FieldLayout)
  | struct (s : StructLayout)

/-- The struct or field at a path of the layout itself. -/
def target? (l : Layout) (path : String) : Option Target :=
  match l.structs.find? (·.path == path) with
  | some s => some (.struct s)
  | none => (l.fields.find? (·.path == path)).map .field

/-- The element layout of the list struct at a path of the layout itself. -/
def elementAt? (l : Layout) (path : String) : Option Layout :=
  match l.target? path with
  | some (.struct s) => s.element
  | _ => none

/-- Splits a path, of which `read` holds the characters before `rest` in reverse,
after the shortest prefix that names a list struct and is followed by a dot. -/
def splitAtList? (l : Layout) (read : List Char) :
    (rest : List Char) → Option (Layout × List Char)
  | [] => none
  | c :: rest =>
    match if c = '.' then l.elementAt? (String.ofList read.reverse) else none with
    | some element => some (element, rest)
    | none => l.splitAtList? (c :: read) rest

theorem length_lt_of_splitAtList? {l : Layout} {read rest after : List Char} {element : Layout}
    (h : l.splitAtList? read rest = some (element, after)) : after.length < rest.length := by
  induction rest generalizing read with
  | nil => simp [splitAtList?] at h
  | cons c rest ih =>
    rw [splitAtList?] at h
    split at h
    · cases h
      exact Nat.lt_succ_self _
    · exact Nat.lt_succ_of_lt (ih h)

/-- The struct or field at a path of the layout, or of the element layout of a
list on the way, and the layout that it belongs to. -/
def resolve? (l : Layout) (path : List Char) : Option (Layout × Target) :=
  match l.target? (String.ofList path) with
  | some target => some (l, target)
  | none =>
    match h : l.splitAtList? [] path with
    | some (element, rest) =>
      have := length_lt_of_splitAtList? h
      element.resolve? rest
    | none => none
termination_by path.length

/-- The handle of the layout's own field. -/
def handleOf (l : Layout) (f : FieldLayout) : FieldHandle :=
  ⟨l.fingerprint, f.id, f.type⟩

def fieldHandle (l : Layout) (path : String) : Except Error FieldHandle :=
  match l.resolve? path.toList with
  | some (owner, .field f) => .ok (owner.handleOf f)
  | some (_, .struct _) => .error (.mismatch path .field .struct)
  | none => .error (.unknown (.path path))

/-- A field handle, if the field has the expected type. -/
def fieldHandleOfType (l : Layout) (path : String) (expected : FieldType) :
    Except Error FieldHandle := do
  let handle ← l.fieldHandle path
  if handle.type = expected then return handle
  else throw (.mismatch path (.fieldType expected) (.fieldType handle.type))

/-- The empty path names the root. -/
def structHandle (l : Layout) (path : String) : Except Error StructHandle :=
  match l.resolve? path.toList with
  | some (owner, .struct s) => .ok ⟨owner.fingerprint, s.id, s.flags⟩
  | some (_, .field _) => .error (.mismatch path .struct .field)
  | none => .error (.unknown (.path path))

/-- The field that a handle of this layout names. -/
def fieldOf (l : Layout) (handle : FieldHandle) : Except Error FieldLayout :=
  if handle.layout ≠ l.fingerprint then
    .error (.unknown (.foreignField handle.id handle.layout))
  else
    match l.field? handle.id with
    | some f => .ok f
    | none => .error (.unknown (.field handle.id))

/-- The struct that a handle of this layout names. -/
def structOf (l : Layout) (handle : StructHandle) : Except Error StructLayout :=
  if handle.layout ≠ l.fingerprint then
    .error (.unknown (.foreignStruct handle.id handle.layout))
  else
    match l.struct? handle.id with
    | some s => .ok s
    | none => .error (.unknown (.struct handle.id))

end Layout

end BitRecords
