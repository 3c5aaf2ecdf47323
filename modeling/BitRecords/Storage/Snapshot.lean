import BitRecords.Storage

/-!
# Snapshots

A snapshot is a copy of the committed state of a storage: the bytes of its
segments, the slots of its object table and the snapshots of its lists, in the
order of their cells. Pending operations, cursors and listeners are left out. A
snapshot can be restored against the layout it was taken from and against every
layout with the same fingerprint.
-/

namespace BitRecords

structure Snapshot where
  fingerprint : Fingerprint
  capacity : UInt64
  rowStride : UInt64
  growable : Bool
  segments : List (List UInt8)
  objects : List (Option ObjectRef)
  lists : List (Cell × Snapshot)
deriving Inhabited

namespace Snapshot

/-- The number of objects that the snapshot holds. -/
def liveObjects (s : Snapshot) : Nat := s.objects.countP Option.isSome

/-- The snapshot of the list kept under a cell. -/
def list? (s : Snapshot) (cell : Cell) : Option Snapshot := cell.search s.lists

end Snapshot

namespace Storage

mutual

def snapshot : Storage → Snapshot
  | { table, lists } =>
    { fingerprint := table.layout.fingerprint
      capacity := table.capacity
      rowStride := table.layout.rowStride
      growable := table.growable
      segments := table.segments.toList.map BitBuffer.toBytes
      objects := table.objects.slots.toList
      lists := snapshotLists lists }

def snapshotLists : List (Cell × Storage) → List (Cell × Snapshot)
  | [] => []
  | (cell, list) :: rest => (cell, list.snapshot) :: snapshotLists rest

end

end Storage

namespace Snapshot

/-- Reads back the buffers of the segments. -/
def restoreSegments (capacity : UInt64) :
    List (List UInt8) → List Segment → Except Error (List BitBuffer)
  | bytes :: images, segment :: segments => do
    if UInt64.size ≤ capacity.toNat * segment.stride.toNat then throw .snapshotTooLarge
    match BitBuffer.ofBytes bytes (capacity * segment.stride) with
    | .error fault => throw (.image fault)
    | .ok buffer => return buffer :: (← restoreSegments capacity images segments)
  | _, _ => .ok []

mutual

/-- Rebuilds a storage of the given layout. -/
def restore (layout : Layout) : Snapshot → Except Error Storage
  | { fingerprint, capacity, rowStride, growable, segments, objects, lists } => do
    if fingerprint ≠ layout.fingerprint ∨ rowStride ≠ layout.rowStride ∨
        segments.length ≠ layout.segments.length then
      throw (.compilation layout.rootName (.snapshotMismatch fingerprint layout.fingerprint))
    let buffers ← restoreSegments capacity segments layout.segments
    let lists ← restoreLists layout capacity lists
    let table : Table :=
      { layout, capacity, growable, segments := buffers.toArray
        objects := .ofSlots objects.toArray }
    return { table, lists }

/-- Rebuilds the lists of a storage of the given layout and capacity. -/
def restoreLists (layout : Layout) (capacity : UInt64) :
    List (Cell × Snapshot) → Except Error (List (Cell × Storage))
  | [] => .ok []
  | (cell, list) :: rest => do
    if capacity ≤ cell.row then throw (.snapshotListRow cell.row capacity)
    match (layout.struct? cell.id).bind (·.element) with
    | none => throw (.compilation layout.rootName (.snapshotListUnknown cell.id))
    | some element =>
      let storage ← list.restore element
      return (cell, storage) :: (← restoreLists layout capacity rest)

end

end Snapshot

end BitRecords
