import BitRecords.Proofs.Layout.Ancestors
import BitRecords.Proofs.Table.Replay
import BitRecords.Storage.Run

/-!
# Histories

A history tells what was done to a storage without any bits: the operations that
are staged, and those that were committed to the rows there are, both in issue
order. An operation belongs to the row that was selected when it was staged. Rows
that are cut off lose their operations, so a row that comes into existence again
has none.

What the rows hold is read off the operations that were committed to them.
-/

namespace BitRecords

structure History where
  capacity : UInt64
  cursor : Option UInt64 := none
  staged : List PendingOp := []
  committed : List PendingOp := []
  /-- The union that was written or selected last. -/
  activeUnion : Option StructId := none
  /-- The same as of the last commit. -/
  committedUnion : Option StructId := none

namespace History

/-- Stages an operation on the selected row. -/
def stage (h : History) (op : UInt64 → PendingOp) : History :=
  match h.cursor with
  | none => h
  | some row => { h with staged := h.staged ++ [op row] }

/-- The union that `clear` acts on. -/
def clearTarget? (h : History) (l : Layout) : Option StructId :=
  match h.activeUnion with
  | some id => some id
  | none => ((l.struct? 0).bind (·.union)).map fun _ => 0

def resize (h : History) (length : UInt64) : History :=
  { h with
    capacity := length
    cursor := h.cursor.filter (· < length)
    committed := h.committed.filter (·.row < length) }

/-- The history after a call that succeeds. -/
def after (l : Layout) (h : History) : Call → History
  | .select row => { h with cursor := some row }
  | .write handle value =>
    match l.field? handle.id with
    | none => h
    | some f =>
      { h.stage fun row => .write f.id row f.width (f.type.bitsOf value) value with
        activeUnion := if f.tag.isSome then some f.owner else h.activeUnion }
  | .selectMember handle =>
    match (l.field? handle.id).bind fun f => f.tag.map fun tag => (f.owner, tag) with
    | none => h
    | some (union, tag) =>
      { h.stage fun row => .select union row tag with activeUnion := some union }
  | .clear =>
    match h.clearTarget? l with
    | none => h
    | some union => h.stage fun row => .select union row 0
  | .clearUnion handle => h.stage fun row => .select handle.id row 0
  | .commit =>
    if h.staged.isEmpty then h
    else
      { h with
        committed := h.committed ++ h.staged
        staged := []
        committedUnion := h.activeUnion }
  | .rollback =>
    if h.staged.isEmpty then h else { h with staged := [], activeUnion := h.committedUnion }
  | .resize length => h.resize length
  | .push => { h.resize (h.capacity + 1) with cursor := some h.capacity }
  | .reset length => { capacity := length }
  | .listen .. | .listenField .. | .listenStruct .. | .unlisten .. => h
  | .createOrClearList .. | .inList .. => h

end History

/-- The call changes the number of rows. -/
def Call.SetsLength : Call → Prop
  | .resize _ | .push | .reset _ => True
  | _ => False

/-- The storages that there can be of a layout, with their histories: a new storage,
be it a root or a list, has none, and calls are recorded. Changes of the length are
to succeed, and any other call may fail. What becomes of its lists does not matter. -/
inductive Recorded (l : Layout) : Storage → History → Prop where
  | new {capacity : UInt64} {growable : Bool} {s : Storage} :
      Storage.allocate l capacity growable = .ok s → Recorded l s { capacity }
  | done {s after : Storage} {h : History} {call : Call} : Recorded l s h →
      s.perform call = (.ok (), after) → Recorded l after (h.after l call)
  | failed {s after : Storage} {h : History} {call : Call} {e : Error} : Recorded l s h →
      s.perform call = (.error e, after) → ¬ call.SetsLength → Recorded l after h
  | lists {s : Storage} {h : History} (lists : List (Cell × Storage)) : Recorded l s h →
      Recorded l { s with lists } h

theorem Recorded.next {l : Layout} {s : Storage} {h : History} (recorded : Recorded l s h)
    (call : Call) (ok : (s.perform call).1 = .ok ()) :
    Recorded l (s.perform call).2 (h.after l call) := by
  refine recorded.done ?_
  rw [← ok]

/-- Whether the operation is on the struct or on one below it. -/
def PendingOp.isUnder (l : Layout) (id : StructId) (op : PendingOp) : Bool :=
  ((op.target? l).map l.ancestors).any (·.contains id)

namespace History

open Contents

variable (l : Layout) (h : History)

/-- The operations that were committed to a row since it came into existence. -/
def ops (row : UInt64) : List PendingOp := h.committed.filter (·.row = row)

/-- What each row holds: the replay of its operations. -/
def contents : Contents where
  present cell := ((blank l).replay l (h.ops cell.row)).present cell
  tag cell := ((blank l).replay l (h.ops cell.row)).tag cell
  region cell := ((blank l).replay l (h.ops cell.row)).region cell
  value cell := ((blank l).replay l (h.ops cell.row)).value cell

/-- The value that was written to a field last, or its default. -/
def lastValue (f : FieldLayout) (row : UInt64) : Value :=
  ((h.ops row).filterMap (·.valueAt? ⟨f.id, row⟩)).getLast?.getD f.type.defaultValue

/-- The tag that a union was given last, or zero. -/
def lastTag (union : StructId) (row : UInt64) : Nat :=
  ((h.ops row).filterMap (·.tagAt? l ⟨union, row⟩)).getLast?.getD 0

/-- The region of a union: zero with the bits of each write to a member laid over
it, in issue order. -/
def region (union : StructId) (row : UInt64) : UInt64 :=
  ((h.ops row).filterMap (·.bitsAt? l ⟨union, row⟩)).foldl overlayBits 0

/-- The outermost optional struct above a struct without an operation under it. -/
def firstAbsent? (id : StructId) (row : UInt64) : Option StructId :=
  (l.optionalsAbove id).find? fun o => !(h.ops row).any (·.isUnder l o)

def pathOf (id : StructId) : String := ((l.struct? id).map (·.path)).getD ""

/-- What a committed read of a field gives. -/
def read (f : FieldLayout) (row : UInt64) : Except Error Value :=
  match h.firstAbsent? l f.owner row with
  | some absent => .error (.absentChild (pathOf l absent) row)
  | none =>
    if f.tag.isNone then .ok (h.lastValue f row)
    else if h.lastTag l f.owner row = 0 then .error (.unselectedUnion (pathOf l f.owner) row)
    else .ok (f.type.decode (h.region l f.owner row))

end History

end BitRecords
