import BitRecords.Table

/-!
# Reading a table

A read sees the committed rows, or the rows as a commit would leave them. It
fails for a field inside an optional struct that is absent, and for a member of
a union of which no member is selected. Any member of a union may be read once
one is selected: it reads the low bits of the shared region.
-/

namespace BitRecords

/-- Which state a read sees. -/
inductive View where
  | committed
  /-- The committed state with the pending operations on top. -/
  | staged
deriving DecidableEq, Inhabited

namespace Table

/-- Whether the struct's own presence bit is set in a row. -/
def presenceBit (t : Table) (id : StructId) (row : UInt64) : Bool :=
  match t.layout.presence? id with
  | some slot => t.getBits slot row 1 == 1
  | none => true

/-- Whether the optional struct is present in a row, apart from those around it. -/
def hasOptional (t : Table) (view : View) (id : StructId) (row : UInt64) : Bool :=
  t.presenceBit id row || (view == .staged && t.pending.isPresent id row)

/-- The outermost optional struct around `s`, or `s` itself, that is absent. -/
def firstAbsent? (t : Table) (view : View) (s : StructLayout) (row : UInt64) :
    Option StructId :=
  s.chain.find? fun id => !t.hasOptional view id row

/-- The committed tag of a union. -/
def committedTag (t : Table) (u : UnionRegion) (row : UInt64) : Nat :=
  (t.getBits u.tag row u.tagWidth).toNat

/-- The tag of a union. -/
def tag (t : Table) (view : View) (id : StructId) (u : UnionRegion) (row : UInt64) : Nat :=
  match view with
  | .committed => t.committedTag u row
  | .staged => (t.pending.tag? id row).getD (t.committedTag u row)

/-- The bits of a union's region. -/
def region (t : Table) (view : View) (s : StructLayout) (u : UnionRegion) (row : UInt64) :
    UInt64 :=
  let bits := t.getBits (u.place s.segment) row u.width
  match view with
  | .committed => bits
  | .staged => t.pending.overlayUnion s.id row bits

/-- The committed content of a field, whether or not a read would be allowed. -/
def content (t : Table) (f : FieldLayout) (row : UInt64) : Value :=
  let bits := t.getBits f.place row f.width
  match f.type with
  | .object => .object (t.objects.get? bits.toNat)
  | type => type.decode bits

/-- Reads a field of a row. -/
def readAt (t : Table) (view : View) (f : FieldLayout) (row : UInt64) : Except Error Value :=
  match t.layout.struct? f.owner with
  | none => .error (.unknown (.struct f.owner))
  | some owner =>
    match (t.firstAbsent? view owner row).bind t.layout.struct? with
    | some absent => .error (.absentChild absent.path row)
    | none =>
      match owner.union with
      | some u =>
        if t.tag view owner.id u row = 0 then .error (.unselectedUnion owner.path row)
        else .ok (f.type.decode (t.region view owner u row))
      | none =>
        match view with
        | .committed => .ok (t.content f row)
        | .staged => .ok ((t.pending.latestValue? f.id row).getD (t.content f row))

/-- Reads a field of the selected row. -/
def read (t : Table) (view : View) (handle : FieldHandle) : Except Error Value := do
  let row ← t.selected
  let f ← t.layout.fieldOf handle
  t.readAt view f row

/-- Whether an optional struct and all optional structs around it are present in
the selected row, pending operations included. -/
def isPresent (t : Table) (handle : StructHandle) : Except Error Bool := do
  let row ← t.selected
  let s ← t.layout.structOf handle
  if s.flags.optional && !s.isList then return (t.firstAbsent? .staged s row).isNone
  else throw (.mismatch s.path .optionalStruct .struct)

/-- The selected member of a union in the selected row, pending operations
included. -/
def activeMember (t : Table) (handle : StructHandle) : Except Error (Option FieldHandle) := do
  let row ← t.selected
  let s ← t.layout.structOf handle
  match s.union with
  | none => throw (.mismatch s.path .unionStruct .struct)
  | some u =>
    let tag := t.tag .staged s.id u row
    if tag = 0 then return none
    else return (u.members[tag - 1]?.bind t.layout.field?).map t.layout.handleOf

end Table

end BitRecords
