import BitRecords.Storage
import BitRecords.Table.Commit
import BitRecords.Table.Listen
import BitRecords.Table.Stage

/-!
# Runs of calls

The calls that can change a storage, as data, so that one can speak of all runs
of them. Calls go to the storage or to the list of its selected row. A call
that fails leaves the storage as it was, unless it changes the length of a list.
-/

namespace BitRecords

/-- A call on a storage. -/
inductive Call where
  | select (row : UInt64)
  | write (field : FieldHandle) (value : Value)
  | selectMember (member : FieldHandle)
  | clear
  | clearUnion (union : StructHandle)
  | commit
  | rollback
  | listen (path label : String)
  | listenField (field : FieldHandle) (label : String)
  | listenStruct (struct : StructHandle) (label : String)
  | unlisten (id : Nat)
  | resize (length : UInt64)
  | push
  /-- What happens to a list that its parent creates again. -/
  | reset (length : UInt64)
  | createOrClearList (struct : StructHandle) (length : UInt64)
  /-- A call on the list of the selected row. -/
  | inList (struct : StructHandle) (call : Call)

namespace Storage

/-- Takes the outcome of a call on the table. -/
def onTable (s : Storage) : Except Error Table → Except Error Unit × Storage
  | .ok table => (.ok (), { s with table })
  | .error e => (.error e, s)

/-- Whether a call succeeds, and the storage after it. -/
def perform (s : Storage) : Call → Except Error Unit × Storage
  | .select row => s.onTable (s.table.select row)
  | .write field value => s.onTable (s.table.write field value)
  | .selectMember member => s.onTable (s.table.selectMember member)
  | .clear => s.onTable s.table.clear
  | .clearUnion union => s.onTable (s.table.clearUnion union)
  | .commit => s.onTable (s.table.commit.map (·.2))
  | .rollback => s.onTable (.ok s.table.rollback)
  | .listen path label => s.onTable ((s.table.listen path label).map (·.2))
  | .listenField field label => s.onTable ((s.table.listenField field label).map (·.2))
  | .listenStruct struct label => s.onTable ((s.table.listenStruct struct label).map (·.2))
  | .unlisten id => s.onTable (.ok (s.table.unlisten id).2)
  | .resize length => s.resize length
  | .push =>
    let (result, s) := s.push
    (result.map fun _ => (), s)
  | .reset length => s.reset length
  | .createOrClearList struct length =>
    let (result, s) := s.createOrClearList struct length
    (result.map fun _ => (), s)
  | .inList struct call =>
    match s.list struct with
    | .error e => (.error e, s)
    | .ok (cell, list) =>
      let (result, list) := list.perform call
      (result, s.setList cell list)

/-- The storage after calls, one after the other, whether or not they succeed. -/
def run (s : Storage) (calls : List Call) : Storage :=
  calls.foldl (fun s call => (s.perform call).2) s

end Storage

end BitRecords
