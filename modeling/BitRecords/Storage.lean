import BitRecords.Table

/-!
# Storages

A storage is a table together with the lists that its rows have. Each list is a
storage of its own, with its own cursor, log and listeners, and is kept under the
list struct and the row it belongs to, in the order of these.

Changes of a list's length are applied at once and are no part of any log. They
go through the segments one by one and end at the first segment that would
overflow, so an error may leave segments behind that were already changed: such
an operation returns the storage along with the error. Only lists change their
length.
-/

namespace BitRecords

structure Storage where
  table : Table
  lists : List (Cell × Storage) := []

namespace Storage

/-- A storage of empty rows without lists. -/
def allocate (layout : Layout) (capacity : UInt64) (growable : Bool) : Except Error Storage := do
  return { table := ← Table.allocate layout capacity growable }

/-- A root storage. Its capacity has to be given and is fixed. -/
def create (layout : Layout) (capacity : Option UInt64) : Except Error Storage :=
  match capacity with
  | none => .error .capacityUnset
  | some capacity => allocate layout capacity false

/-- The list kept under a cell. -/
def list? (s : Storage) (cell : Cell) : Option Storage := s.lists.lookup cell

/-- Inserts a list into lists that are in the order of their cells, in the place
of one that is kept under the same cell. -/
def insertList (cell : Cell) (list : Storage) : List (Cell × Storage) → List (Cell × Storage)
  | [] => [(cell, list)]
  | entry :: rest =>
    match compare cell entry.1 with
    | .lt => (cell, list) :: entry :: rest
    | .eq => (cell, list) :: rest
    | .gt => entry :: insertList cell list rest

/-- Keeps a list under a cell. -/
def setList (s : Storage) (cell : Cell) (list : Storage) : Storage :=
  { s with lists := insertList cell list s.lists }

theorem lookup_cons (cell other : Cell) (list : Storage) (lists : List (Cell × Storage)) :
    ((cell, list) :: lists).lookup other =
      if other = cell then some list else lists.lookup other := by
  change (match other == cell with
    | true => some list
    | false => lists.lookup other) = _
  by_cases h : other = cell
  · rw [if_pos h, beq_iff_eq.2 h]
  · rw [if_neg h, beq_eq_false_iff_ne.2 h]

theorem lookup_insertList (cell other : Cell) (list : Storage) (lists : List (Cell × Storage)) :
    (insertList cell list lists).lookup other =
      if other = cell then some list else lists.lookup other := by
  induction lists with
  | nil => exact lookup_cons cell other list []
  | cons entry rest ih =>
    obtain ⟨key, value⟩ := entry
    rw [insertList]
    split
    · exact lookup_cons cell other list _
    · next same =>
      obtain rfl : cell = key := Std.LawfulEqOrd.eq_of_compare same
      rw [lookup_cons, lookup_cons]
      split <;> rfl
    · next above =>
      have differs : cell ≠ key := by
        rintro rfl
        simp at above
      rw [lookup_cons, lookup_cons, ih]
      by_cases h : other = cell
      · simp [h, differs]
      · simp [h]

/-- Keeping a list under a cell changes what is kept there and nothing else. -/
@[simp] theorem list?_setList (s : Storage) (cell other : Cell) (list : Storage) :
    (s.setList cell list).list? other = if other = cell then some list else s.list? other :=
  lookup_insertList cell other list s.lists

/-- The cell of a list struct in the selected row, and the layout of the list's
elements. -/
def listCell (s : Storage) (handle : StructHandle) : Except Error (Cell × Layout) := do
  let row ← s.table.selected
  let struct ← s.table.layout.structOf handle
  match struct.element with
  | some element => return (⟨struct.id, row⟩, element)
  | none => throw (.mismatch struct.path .listStruct .struct)

/-- The list of the selected row, with the cell it is kept under. -/
def list (s : Storage) (handle : StructHandle) : Except Error (Cell × Storage) := do
  let (cell, _) ← s.listCell handle
  match s.list? cell with
  | some list => return (cell, list)
  | none =>
    let path := ((s.table.layout.struct? cell.id).map (·.path)).getD ""
    throw (.listNotCreated path cell.row)

/-- The length of the list of the selected row. -/
def listLength (s : Storage) (handle : StructHandle) : Except Error UInt64 := do
  return (← s.list handle).2.table.capacity

/-- Changes the buffers of the segments to `length` rows, each by `change`, up to
the first segment that would overflow. -/
def sizeSegments (layout : Layout) (length : UInt64) (change : BitBuffer → UInt64 → BitBuffer) :
    List Segment → List BitBuffer → Except Error Unit × List BitBuffer
  | segment :: segments, buffer :: buffers =>
    match layout.segmentBits length segment.stride with
    | .error e => (.error e, buffer :: buffers)
    | .ok bits =>
      let (result, buffers) := sizeSegments layout length change segments buffers
      (result, change buffer bits :: buffers)
  | _, buffers => (.ok (), buffers)

/-- Releases the objects in a field of the `count` rows from `row` on. -/
def releaseField (t : Table) (f : FieldLayout) : (count : Nat) → (row : UInt64) → Table
  | 0, _ => t
  | count + 1, row =>
    let slot := (t.getBits f.place row f.width).toNat
    releaseField { t with objects := t.objects.release slot } f count (row + 1)

/-- Releases the objects and drops the lists of all rows from `first` on. -/
def releaseRows (s : Storage) (first : UInt64) : Storage :=
  let count := s.table.capacity.toNat - first.toNat
  let fields := s.table.layout.fields.filter (·.type.isObject)
  { table := fields.foldl (fun t f => releaseField t f count first) s.table
    lists := s.lists.filter (·.1.row < first) }

/-- Changes the length of a list. New rows are empty; rows that are cut off
release their objects and lists, and a cursor among them is dropped. -/
def resize (s : Storage) (length : UInt64) : Except Error Unit × Storage :=
  if !s.table.growable then (.error (.index length s.table.capacity), s)
  else
    let s := if length < s.table.capacity then s.releaseRows length else s
    let t := s.table
    let (result, segments) :=
      sizeSegments t.layout length BitBuffer.resize t.layout.segments t.segments.toList
    let t := { t with segments := segments.toArray }
    match result with
    | .error e => (.error e, { s with table := t })
    | .ok () =>
      let cursor := t.cursor.filter (· < length)
      (.ok (), { s with table := { t with capacity := length, cursor } })

/-- Appends an empty row to a list and selects it. Returns its number. Rows that cannot be
counted are an overflow. -/
def push (s : Storage) : Except Error UInt64 × Storage :=
  let row := s.table.capacity
  if !s.table.growable then (.error (.index row row), s)
  else if row + 1 = 0 then (.error .overflow, s)
  else
    match s.resize (row + 1) with
    | (.error e, s) => (.error e, s)
    | (.ok (), s) => (.ok row, { s with table := { s.table with cursor := some row } })

/-- Makes all rows of a storage empty ones, `length` of them. Listeners and their
ids stay, and everything else starts anew. -/
def reset (s : Storage) (length : UInt64) : Except Error Unit × Storage :=
  let t := s.table
  let (result, segments) :=
    sizeSegments t.layout length (fun _ bits => .zeroed bits) t.layout.segments t.segments.toList
  let segments := segments.toArray
  match result with
  | .error e => (.error e, { s with table := { t with segments } })
  | .ok () =>
    (.ok (),
      { table :=
          { layout := t.layout, capacity := length, growable := t.growable, segments
            listeners := t.listeners }
        lists := [] })

/-- Creates the list of the selected row with `length` empty elements, or resets
the one that is there. Returns the cell it is kept under. -/
def createOrClearList (s : Storage) (handle : StructHandle) (length : UInt64) :
    Except Error Cell × Storage :=
  match s.listCell handle with
  | .error e => (.error e, s)
  | .ok (cell, element) =>
    match s.list? cell with
    | some list =>
      let (result, list) := list.reset length
      (result.map fun _ => cell, s.setList cell list)
    | none =>
      match allocate element length true with
      | .error e => (.error e, s)
      | .ok list => (.ok cell, s.setList cell list)

end Storage

end BitRecords
