import BitRecords.Table

/-!
# Listening to a table

A listener is registered on a field or struct of the table's own layout. The
elements of a list are rows of other tables, so a list struct cannot be listened
to here.
-/

namespace BitRecords.Table

/-- Refuses a list struct. -/
def checkListenable (s : StructLayout) : Except Error Unit :=
  if s.isList then .error (.mismatch s.path .fieldOrSingleStruct .list) else .ok ()

def register (t : Table) (target : ListenTarget) (label : String) : Nat × Table :=
  let (id, listeners) := t.listeners.register target label
  (id, { t with listeners })

/-- Registers a listener at a path of the layout itself. Returns its id. -/
def listen (t : Table) (path label : String) : Except Error (Nat × Table) := do
  match t.layout.target? path with
  | some (.field f) => return t.register (.field f.id) label
  | some (.struct s) =>
    checkListenable s
    return t.register (.struct s.id) label
  | none => throw (.unknown (.path path))

def listenField (t : Table) (handle : FieldHandle) (label : String) :
    Except Error (Nat × Table) := do
  let f ← t.layout.fieldOf handle
  return t.register (.field f.id) label

def listenStruct (t : Table) (handle : StructHandle) (label : String) :
    Except Error (Nat × Table) := do
  let s ← t.layout.structOf handle
  checkListenable s
  return t.register (.struct s.id) label

/-- Removes a listener. Says whether the id was registered. -/
def unlisten (t : Table) (id : Nat) : Bool × Table :=
  let (found, listeners) := t.listeners.unregister id
  (found, { t with listeners })

end BitRecords.Table
