import BitRecords.FieldType
import BitRecords.Table.Cell
import Std.Data.TreeSet

/-!
# Pending logs

The operations that are staged on a table, in issue order, with the indexes that
answer what a read would see now without a scan of the log: the last write of a
field, the last tag of a union, the writes of its members, and the optional
structs that the operations make present.
-/

namespace BitRecords

inductive PendingOp where
  /-- A value with its encoding. An object is encoded when it gets its slot. -/
  | write (field : Nat) (row : UInt64) (width : Nat) (bits : UInt64) (value : Value)
  /-- The selection of a union member, or of none for tag zero. -/
  | select (union : Nat) (row : UInt64) (tag : Nat)
deriving DecidableEq, Inhabited

def PendingOp.row : PendingOp → UInt64
  | write _ row .. => row
  | select _ row _ => row

/-- The log and its indexes. Positions point into `ops`. -/
structure PendingLog where
  ops : Array PendingOp := #[]
  latest : Std.TreeMap Cell Nat := ∅
  tags : Std.TreeMap Cell Nat := ∅
  unionWrites : Std.TreeMap Cell (Array Nat) := ∅
  present : Std.TreeSet Cell := ∅

namespace PendingLog

def empty : PendingLog := {}

def isEmpty (log : PendingLog) : Bool := log.ops.isEmpty

def size (log : PendingLog) : Nat := log.ops.size

/-- The optional structs with those that an operation in the row makes present. -/
def markPresent (present : Std.TreeSet Cell) (chain : List Nat) (row : UInt64) :
    Std.TreeSet Cell :=
  chain.foldl (fun present opt => present.insert ⟨opt, row⟩) present

/-- Stages a write. `member` is the union that the field belongs to with the
field's tag, and `chain` the optional structs that the write makes present. -/
def stageWrite (log : PendingLog) (field : Nat) (row : UInt64) (width : Nat) (bits : UInt64)
    (value : Value) (member : Option (Nat × Nat)) (chain : List Nat) : PendingLog :=
  let position := log.ops.size
  let log := { log with
    ops := log.ops.push (.write field row width bits value)
    latest := log.latest.insert ⟨field, row⟩ position
    present := markPresent log.present chain row }
  match member with
  | none => log
  | some (union, tag) =>
    let writes := log.unionWrites.getD ⟨union, row⟩ #[]
    { log with
      tags := log.tags.insert ⟨union, row⟩ tag
      unionWrites := log.unionWrites.insert ⟨union, row⟩ (writes.push position) }

/-- Stages the selection of a union member without a write. -/
def stageSelect (log : PendingLog) (union : Nat) (row : UInt64) (tag : Nat)
    (chain : List Nat) : PendingLog :=
  { log with
    ops := log.ops.push (.select union row tag)
    tags := log.tags.insert ⟨union, row⟩ tag
    present := markPresent log.present chain row }

/-- The value of the last write of the field in the row. -/
def latestValue? (log : PendingLog) (field : Nat) (row : UInt64) : Option Value :=
  match log.latest[Cell.mk field row]? with
  | none => none
  | some position =>
    match log.ops[position]? with
    | some (.write _ _ _ _ value) => some value
    | _ => none

/-- The last tag of the union in the row. -/
def tag? (log : PendingLog) (union : Nat) (row : UInt64) : Option Nat :=
  log.tags[Cell.mk union row]?

/-- Whether an operation makes the optional struct present in the row. -/
def isPresent (log : PendingLog) (opt : Nat) (row : UInt64) : Bool :=
  log.present.contains ⟨opt, row⟩

/-- Lays the write at a position of the log over the low bits of a region. -/
def overlayAt (log : PendingLog) (position : Nat) (region : UInt64) : UInt64 :=
  match log.ops[position]? with
  | some (.write _ _ width bits _) => overlayLow region width bits
  | _ => region

/-- Lays the writes of the union's members in the row over the bits of its
region, in issue order. -/
def overlayUnion (log : PendingLog) (union : Nat) (row : UInt64) (region : UInt64) : UInt64 :=
  match log.unionWrites[Cell.mk union row]? with
  | none => region
  | some positions =>
    positions.foldl (fun region position => log.overlayAt position region) region

end PendingLog

end BitRecords
