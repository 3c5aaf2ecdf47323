import BitRecords.Table

/-!
# Staging operations on a table

A staged operation belongs to the row that was selected when it was staged. It
changes no buffer: it waits in the log for a commit or a rollback.
-/

namespace BitRecords.Table

/-- Stages a write to the selected row. Writing a union member selects it, and
writing inside an optional struct makes the struct present. -/
def write (t : Table) (handle : FieldHandle) (value : Value) : Except Error Table := do
  let row ← t.selected
  let f ← t.layout.fieldOf handle
  match f.type.encode value with
  | .error reason => throw (.mismatch f.path (.fieldType f.type) (.misfit reason))
  | .ok bits =>
    let chain := ((t.layout.struct? f.owner).map (·.chain)).getD []
    let member := f.tag.map fun tag => (f.owner, tag)
    return { t with
      pending := t.pending.stageWrite f.id row f.width bits value member chain
      activeUnion := if f.tag.isSome then some f.owner else t.activeUnion }

/-- Stages a tag of a union in a row. -/
def stageSelect (t : Table) (union : StructId) (row : UInt64) (tag : Nat) : Table :=
  let chain := ((t.layout.struct? union).map (·.chain)).getD []
  { t with pending := t.pending.stageSelect union row tag chain }

/-- Stages the selection of a union member in the selected row. The bits of the
region stay. -/
def selectMember (t : Table) (handle : FieldHandle) : Except Error Table := do
  let row ← t.selected
  let f ← t.layout.fieldOf handle
  match f.tag with
  | none => throw (.mismatch f.path .unionMember .field)
  | some tag => return { t.stageSelect f.owner row tag with activeUnion := some f.owner }

/-- The union that `clear` acts on: the one written or selected last, or else
the root if it is a union. -/
def clearTarget? (t : Table) : Option StructId :=
  match t.activeUnion with
  | some id => some id
  | none => ((t.layout.struct? 0).bind (·.union)).map fun _ => 0

/-- Stages the selection of no member in the selected row, for the union that was
written or selected last. -/
def clear (t : Table) : Except Error Table := do
  let row ← t.selected
  match t.clearTarget? with
  | none => throw (.unselectedUnion t.layout.rootName row)
  | some union => return t.stageSelect union row 0

/-- Stages the selection of no member of a union in the selected row. -/
def clearUnion (t : Table) (handle : StructHandle) : Except Error Table := do
  let row ← t.selected
  let s ← t.layout.structOf handle
  if s.union.isSome then return t.stageSelect s.id row 0
  else throw (.mismatch s.path .unionStruct .struct)

/-- Drops all pending operations. The remembered union is again the one of the
last commit. -/
def rollback (t : Table) : Table :=
  if t.pending.isEmpty then t
  else { t with pending := .empty, activeUnion := t.committedUnion }

end BitRecords.Table
