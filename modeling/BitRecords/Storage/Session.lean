import BitRecords.Storage.Run
import BitRecords.Storage.Snapshot
import BitRecords.Table.Read

/-!
# Sessions

What can be asked of a storage, and what it answers to questions and to calls.
Questions change nothing. Like calls, they go to the storage or to the list of its
selected row. Buffers and slots of the object table are no part of any answer.
-/

namespace BitRecords

/-- A question to a storage. -/
inductive Query where
  | status
  | read (view : View) (field : FieldHandle)
  | isPresent (struct : StructHandle)
  | activeMember (union : StructHandle)
  | listLength (struct : StructHandle)
  | field (path : String)
  | fieldOfType (path : String) (type : FieldType)
  | struct (path : String)
  /-- A question to the list of the selected row. -/
  | inList (struct : StructHandle) (query : Query)

/-- The sizes and counts of a storage. `live` are the objects that its object
table counts, and `held` those that a snapshot has. -/
structure Status where
  layout : Fingerprint
  capacity : UInt64
  growable : Bool
  cursor : Option UInt64
  pending : Nat
  listeners : Nat
  slots : Nat
  live : Nat
  held : Nat
  lists : List Cell

/-- What a storage answers when it does not fail. -/
inductive Reply where
  | done
  | status (status : Status)
  | value (value : Value)
  | truth (holds : Bool)
  | member (field : Option FieldHandle)
  | length (length : UInt64)
  | row (row : UInt64)
  | field (handle : FieldHandle)
  | struct (handle : StructHandle)
  | listener (id : Nat)
  | committed (result : CommitResult)

/-- A step of a session. -/
inductive Request where
  | ask (query : Query)
  | tell (call : Call)

namespace Storage

def status (s : Storage) : Status where
  layout := s.table.layout.fingerprint
  capacity := s.table.capacity
  growable := s.table.growable
  cursor := s.table.cursor
  pending := s.table.pending.size
  listeners := s.table.listeners.listeners.length
  slots := s.table.objects.slots.size
  live := s.table.objects.live
  held := s.snapshot.liveObjects
  lists := s.lists.map (·.1)

/-- The answer to a question. -/
def query (s : Storage) : Query → Except Error Reply
  | .status => .ok (.status s.status)
  | .read view field => (s.table.read view field).map .value
  | .isPresent struct => (s.table.isPresent struct).map .truth
  | .activeMember union => (s.table.activeMember union).map .member
  | .listLength struct => (s.listLength struct).map .length
  | .field path => (s.table.layout.fieldHandle path).map .field
  | .fieldOfType path type => (s.table.layout.fieldHandleOfType path type).map .field
  | .struct path => (s.table.layout.structHandle path).map .struct
  | .inList struct query => do
    let (_, list) ← s.list struct
    list.query query

/-- The answer to a call. -/
def answer (s : Storage) : Call → Except Error Reply
  | .commit => s.table.commit.map (.committed ·.1)
  | .listen path label => (s.table.listen path label).map (.listener ·.1)
  | .listenField field label => (s.table.listenField field label).map (.listener ·.1)
  | .listenStruct struct label => (s.table.listenStruct struct label).map (.listener ·.1)
  | .unlisten id => .ok (.truth (s.table.unlisten id).1)
  | .push => s.push.1.map .row
  | .inList struct call => do
    let (_, list) ← s.list struct
    list.answer call
  | call => (s.perform call).1.map fun _ => .done

/-- The lists that a call goes through, from this storage on. -/
def callee (s : Storage) : Call → List Cell
  | .inList struct call =>
    match s.list struct with
    | .ok (cell, list) => cell :: list.callee call
    | .error _ => []
  | _ => []

/-- The notices that a call gives, in order, each with the list whose listener gets it. -/
def notified (s : Storage) (call : Call) : List (List Cell × Notice) :=
  match s.answer call with
  | .ok (.committed result) => result.notices.map fun notice => (s.callee call, notice)
  | _ => []

/-- The answers to requests, one after the other, whether or not they succeed. -/
def answers (s : Storage) : List Request → List (Except Error Reply)
  | [] => []
  | .ask query :: rest => s.query query :: s.answers rest
  | .tell call :: rest => s.answer call :: (s.perform call).2.answers rest

/-- The storage after requests. -/
def afterwards (s : Storage) : List Request → Storage
  | [] => s
  | .ask _ :: rest => s.afterwards rest
  | .tell call :: rest => (s.perform call).2.afterwards rest

/-- A call is answered without an error exactly when it succeeds. -/
theorem map_answer (s : Storage) (call : Call) :
    (s.answer call).map (fun _ => ()) = (s.perform call).1 := by
  have table {α : Type} (outcome : Except Error (α × Table)) (reply : α → Reply) :
      (outcome.map (reply ·.1)).map (fun _ => ()) = (s.onTable (outcome.map (·.2))).1 := by
    cases outcome <;> rfl
  have plain (outcome : Except Error Unit) :
      (outcome.map fun _ => Reply.done).map (fun _ => ()) = outcome := by
    cases outcome <;> rfl
  induction call generalizing s with
  | commit => exact table _ _
  | listen path label => exact table _ _
  | listenField field label => exact table _ _
  | listenStruct struct label => exact table _ _
  | unlisten id => rfl
  | push =>
    rw [answer, perform]
    obtain ⟨result, after⟩ := s.push
    cases result <;> rfl
  | inList struct call ih =>
    rw [answer, perform]
    cases s.list struct with
    | error e => rfl
    | ok place => exact ih place.2 (fun outcome reply => by cases outcome <;> rfl)
  | select | write | selectMember | clear | clearUnion | rollback | resize | reset
  | createOrClearList => exact plain _

end Storage

end BitRecords
