import BitRecords.Table.Read

/-!
# Committing a table

A commit checks every pending operation before it touches a buffer, so it
applies all of them or none. Its changes are the fields whose committed content
differs afterwards, in the order in which they were first written. Listeners are
told of them when all buffers are up to date.
-/

namespace BitRecords

/-- What a commit did. -/
structure CommitResult where
  changes : List Change := []
  notices : List Notice := []

/-- The changes of one field, in any row. -/
def CommitResult.changesOf (r : CommitResult) (handle : FieldHandle) : List Change :=
  r.changes.filter (·.field = handle)

namespace Table

/-- Refuses a slot that reaches past the stride of its segment. -/
def checkExtent (t : Table) (path : String) (slot : Slot) (width : Nat) : Except Error Unit :=
  let stride := t.layout.stride slot.segment
  if stride < slot.offset + UInt64.ofNat width then
    .error (.compilation path (.slotOutsideStride slot.offset width stride))
  else .ok ()

/-- Refuses an operation on a row that is gone, or on a slot outside its segment. -/
def checkOp (t : Table) (op : PendingOp) : Except Error Unit := do
  if t.capacity ≤ op.row then throw (.index op.row t.capacity)
  match op with
  | .write field .. =>
    match t.layout.field? field with
    | some f => t.checkExtent f.path f.place f.width
    | none => throw (.unknown (.field field))
  | .select union .. =>
    match t.layout.struct? union with
    | some { path, union := some u, .. } => t.checkExtent path u.tag u.tagWidth
    | _ => return ()

/-- Whether the operation writes an object field. -/
def writesObject (t : Table) : PendingOp → Bool
  | .write field .. => ((t.layout.field? field).map (·.type.isObject)).getD false
  | .select .. => false

/-- Checks all pending operations in order, and then that the object table has
slots for all objects that might need one. -/
def checkPending (t : Table) : Except Error Unit := do
  t.pending.ops.toList.forM t.checkOp
  let writes := t.pending.ops.toList.countP t.writesObject
  if ObjectTable.maxSlots < t.objects.slots.size + writes then
    throw (.compilation "" .objectsExhausted)

/-- Sets the presence bits of optional structs in a row. -/
def markPresent (t : Table) (chain : List StructId) (row : UInt64) : Table :=
  chain.foldl (fun t id =>
    match t.layout.presence? id with
    | some slot => t.setBits slot row 1 1
    | none => t) t

/-- Sets the tag of a union in a row. -/
def setTag (t : Table) (u : UnionRegion) (row : UInt64) (tag : Nat) : Table :=
  t.setBits u.tag row u.tagWidth (UInt64.ofNat tag)

/-- Writes a value with its encoding into a field. The object that was there is
released before a new one gets a slot, which may then be the same one. -/
def setContent (t : Table) (f : FieldLayout) (row : UInt64) (bits : UInt64) (value : Value) :
    Table :=
  if f.type.isObject then
    let objects := t.objects.release (t.getBits f.place row f.width).toNat
    let (slot, objects) := match value with
      | .object (some o) => objects.insert o
      | _ => (0, objects)
    { t with objects }.setBits f.place row f.width (UInt64.ofNat slot)
  else t.setBits f.place row f.width bits

/-- Applies an operation to the buffers. -/
def apply (t : Table) : PendingOp → Table
  | .write field row _ bits value =>
    match t.layout.field? field with
    | none => t
    | some f =>
      match t.layout.struct? f.owner with
      | none => t
      | some owner =>
        let t := t.markPresent owner.chain row
        let t := match owner.union, f.tag with
          | some u, some tag => t.setTag u row tag
          | _, _ => t
        t.setContent f row bits value
  | .select union row tag =>
    match t.layout.struct? union with
    | none => t
    | some s =>
      let t := t.markPresent s.chain row
      match s.union with
      | some u => t.setTag u row tag
      | none => t

/-- The cells that operations write, each once, in the order of the first write. -/
def writtenCells (ops : List PendingOp) : List Cell :=
  (ops.foldl (fun cells op =>
    match op with
    | .write field row .. =>
      if cells.contains ⟨field, row⟩ then cells else ⟨field, row⟩ :: cells
    | .select .. => cells) []).reverse

/-- The change of a cell from one table to another, if its content differs. -/
def change? (before after : Table) (cell : Cell) : Option Change :=
  match after.layout.field? cell.id with
  | none => none
  | some f =>
    let old := before.content f cell.row
    let new := after.content f cell.row
    if old = new then none
    else some { field := after.layout.handleOf f, path := f.path, row := cell.row, old, new }

/-- The table after all pending operations, without a check. -/
def applyPending (t : Table) : Table :=
  t.pending.ops.foldl apply { t with pending := .empty, committedUnion := t.activeUnion }

/-- Applies all pending operations in issue order. Without any, nothing happens. -/
def commit (t : Table) : Except Error (CommitResult × Table) := do
  if t.pending.isEmpty then return ({}, t)
  t.checkPending
  let after := t.applyPending
  let changes := (writtenCells t.pending.ops.toList).filterMap (t.change? after)
  return ({ changes, notices := after.listeners.notices after.layout changes }, after)

end Table

end BitRecords
