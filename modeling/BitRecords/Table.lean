import BitRecords.Bits.Buffer
import BitRecords.Layout.Path
import BitRecords.Table.Listener
import BitRecords.Table.ObjectTable
import BitRecords.Table.PendingLog

/-!
# Tables

A table holds `capacity` rows of a layout. Each segment of the layout is a bit
buffer, in which row `i` starts at bit `i * stride`. Row operations act on the
selected row, the cursor. Writes are staged in a log until they are committed.

A table also remembers the union that was written or selected last, both now and
as of the last commit.
-/

namespace BitRecords

structure Table where
  layout : Layout
  capacity : UInt64
  growable : Bool
  segments : Array BitBuffer
  objects : ObjectTable := {}
  cursor : Option UInt64 := none
  pending : PendingLog := .empty
  listeners : ListenerRegistry := {}
  activeUnion : Option StructId := none
  committedUnion : Option StructId := none

namespace Layout

/-- The bits that `capacity` rows of the given stride take. -/
def segmentBits (l : Layout) (capacity stride : UInt64) : Except Error UInt64 :=
  if capacity.toNat * stride.toNat < UInt64.size then .ok (capacity * stride)
  else .error (.compilation l.rootName (.capacityTooLarge capacity stride))

/-- The presence bit of a struct. Only an optional struct has one. -/
def presence? (l : Layout) (id : StructId) : Option Slot := (l.struct? id).bind (·.presence)

end Layout

def FieldLayout.place (f : FieldLayout) : Slot := ⟨f.segment, f.offset⟩

/-- The place of the region of a union that lies in the given segment. -/
def UnionRegion.place (u : UnionRegion) (segment : SegmentId) : Slot := ⟨segment, u.offset⟩

namespace Table

/-- A table of empty rows. -/
def allocate (layout : Layout) (capacity : UInt64) (growable : Bool) : Except Error Table := do
  let segments ← layout.segments.mapM fun s => do
    return BitBuffer.zeroed (← layout.segmentBits capacity s.stride)
  return { layout, capacity, growable, segments := segments.toArray }

/-- The first bit of a slot in a row, counted from the start of the segment. -/
def address (t : Table) (slot : Slot) (row : UInt64) : UInt64 :=
  row * t.layout.stride slot.segment + slot.offset

def getBits (t : Table) (slot : Slot) (row : UInt64) (width : Nat) : UInt64 :=
  match t.segments[slot.segment]? with
  | some buffer => buffer.get (t.address slot row) width
  | none => 0

def setBits (t : Table) (slot : Slot) (row : UInt64) (width : Nat) (bits : UInt64) : Table :=
  let address := t.address slot row
  { t with segments := t.segments.modify slot.segment fun buffer => buffer.set address width bits }

/-- Moves the cursor to a row. -/
def select (t : Table) (row : UInt64) : Except Error Table :=
  if row < t.capacity then .ok { t with cursor := some row }
  else .error (.index row t.capacity)

/-- The selected row. -/
def selected (t : Table) : Except Error UInt64 :=
  match t.cursor with
  | none => .error .noSelection
  | some row => if row < t.capacity then .ok row else .error (.index row t.capacity)

def hasPending (t : Table) : Bool := !t.pending.isEmpty

end Table

end BitRecords
