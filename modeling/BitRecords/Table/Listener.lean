import BitRecords.Layout.Path

/-!
# Changes and listeners

A change is the net difference that a commit made to one field of one row. A
listener waits for the changes of one field, or of all fields inside a struct.
It is known by an id, which its registry never gives again, and by a label for
those who are told of the change.
-/

namespace BitRecords

structure Change where
  field : FieldHandle
  path : String
  row : UInt64
  old : Value
  new : Value
deriving DecidableEq

inductive ListenTarget where
  | field (id : FieldId)
  | struct (id : StructId)
deriving DecidableEq, Inhabited

structure Listener where
  id : Nat
  target : ListenTarget
  label : String
deriving DecidableEq, Inhabited

/-- A listener that is told of a change. -/
structure Notice where
  listener : Nat
  label : String
  change : Change
deriving DecidableEq

def ListenTarget.matches (l : Layout) (field : FieldId) : ListenTarget → Bool
  | .field id => id == field
  | .struct id => l.isWithin field id

/-- Listeners in the order of their registration. `lastId` is the last id given. -/
structure ListenerRegistry where
  lastId : Nat := 0
  listeners : List Listener := []
deriving DecidableEq, Inhabited

namespace ListenerRegistry

/-- Adds a listener. Returns its id. -/
def register (r : ListenerRegistry) (target : ListenTarget) (label : String) :
    Nat × ListenerRegistry :=
  let id := r.lastId + 1
  (id, { lastId := id, listeners := r.listeners ++ [⟨id, target, label⟩] })

/-- Removes the listener with that id. Says whether there was one. -/
def unregister (r : ListenerRegistry) (id : Nat) : Bool × ListenerRegistry :=
  let kept := r.listeners.filter (·.id != id)
  (kept.length != r.listeners.length, { r with listeners := kept })

/-- The notices of some changes: for each change in order, the listeners whose
target it is or lies in, in the order of their registration. -/
def notices (r : ListenerRegistry) (l : Layout) (changes : List Change) : List Notice :=
  changes.flatMap fun change =>
    (r.listeners.filter (·.target.matches l change.field.id)).map fun listener =>
      ⟨listener.id, listener.label, change⟩

end ListenerRegistry

end BitRecords
