import Mathlib.Logic.Function.Basic
import BitRecords.Table.Read

/-!
# Contents of rows

Contents say what rows hold without any bits: which optional structs are present,
the tags and regions of unions, and the values of all other fields. An operation
changes them as its documentation says, and reading them needs no buffers. Tables
are compared with contents.
-/

namespace BitRecords

/-- What the cells of rows hold. The cells of optional structs tell presence,
those of unions have a tag and a region, and those of fields a value. -/
structure Contents where
  present : Cell → Bool
  tag : Cell → Nat
  region : Cell → UInt64
  value : Cell → Value

namespace Layout

/-- The optional structs that an operation on the struct makes present. -/
def chainOf (l : Layout) (id : StructId) : List StructId :=
  ((l.struct? id).map (·.chain)).getD []

end Layout

namespace Contents

/-- Rows to which nothing has been written. -/
def blank (l : Layout) : Contents where
  present _ := false
  tag _ := 0
  region _ := 0
  value cell := ((l.field? cell.id).map (·.type.defaultValue)).getD default

/-- The contents of the rows below a number, with blank rows from there on. -/
def keep (c : Contents) (l : Layout) (rows : UInt64) : Contents where
  present cell := if cell.row < rows then c.present cell else (blank l).present cell
  tag cell := if cell.row < rows then c.tag cell else (blank l).tag cell
  region cell := if cell.row < rows then c.region cell else (blank l).region cell
  value cell := if cell.row < rows then c.value cell else (blank l).value cell

/-- Makes an optional struct present. -/
def setPresent (c : Contents) (cell : Cell) : Contents :=
  { c with present := Function.update c.present cell true }

/-- Makes optional structs present in a row. -/
def mark (c : Contents) (chain : List StructId) (row : UInt64) : Contents :=
  chain.foldl (fun c id => c.setPresent ⟨id, row⟩) c

/-- Sets the tag of a union. -/
def setTag (c : Contents) (cell : Cell) (tag : Nat) : Contents :=
  { c with tag := Function.update c.tag cell tag }

/-- Lays bits over the low bits of a region. -/
def overlay (c : Contents) (cell : Cell) (width : Nat) (bits : UInt64) : Contents :=
  { c with region := Function.update c.region cell (overlayLow (c.region cell) width bits) }

def setValue (c : Contents) (cell : Cell) (value : Value) : Contents :=
  { c with value := Function.update c.value cell value }

section Fields

variable (c : Contents) (cell other : Cell) (tag width : Nat) (bits : UInt64) (value : Value)

@[simp] theorem present_setPresent :
    (c.setPresent cell).present other = if other = cell then true else c.present other :=
  Function.update_apply _ _ _ _

@[simp] theorem tag_setPresent : (c.setPresent cell).tag = c.tag := rfl

@[simp] theorem region_setPresent : (c.setPresent cell).region = c.region := rfl

@[simp] theorem value_setPresent : (c.setPresent cell).value = c.value := rfl

@[simp] theorem tag_setTag :
    (c.setTag cell tag).tag other = if other = cell then tag else c.tag other :=
  Function.update_apply _ _ _ _

@[simp] theorem present_setTag : (c.setTag cell tag).present = c.present := rfl

@[simp] theorem region_setTag : (c.setTag cell tag).region = c.region := rfl

@[simp] theorem value_setTag : (c.setTag cell tag).value = c.value := rfl

@[simp] theorem region_overlay : (c.overlay cell width bits).region other =
    if other = cell then overlayLow (c.region cell) width bits else c.region other :=
  Function.update_apply _ _ _ _

@[simp] theorem present_overlay : (c.overlay cell width bits).present = c.present := rfl

@[simp] theorem tag_overlay : (c.overlay cell width bits).tag = c.tag := rfl

@[simp] theorem value_overlay : (c.overlay cell width bits).value = c.value := rfl

@[simp] theorem value_setValue :
    (c.setValue cell value).value other = if other = cell then value else c.value other :=
  Function.update_apply _ _ _ _

@[simp] theorem present_setValue : (c.setValue cell value).present = c.present := rfl

@[simp] theorem tag_setValue : (c.setValue cell value).tag = c.tag := rfl

@[simp] theorem region_setValue : (c.setValue cell value).region = c.region := rfl

end Fields

/-- The contents after an operation. -/
def apply (l : Layout) (c : Contents) : PendingOp → Contents
  | .write field row width bits value =>
    match l.field? field with
    | none => c
    | some f =>
      let c := c.mark (l.chainOf f.owner) row
      match f.tag with
      | some tag => (c.setTag ⟨f.owner, row⟩ tag).overlay ⟨f.owner, row⟩ width bits
      | none => c.setValue ⟨field, row⟩ value
  | .select union row tag => (c.mark (l.chainOf union) row).setTag ⟨union, row⟩ tag

/-- The contents after operations, one after the other. -/
def replay (l : Layout) (c : Contents) (ops : List PendingOp) : Contents :=
  ops.foldl (apply l) c

/-- The outermost optional struct around `s`, or `s` itself, that is absent. -/
def firstAbsent? (c : Contents) (s : StructLayout) (row : UInt64) : Option StructId :=
  s.chain.find? fun id => !c.present ⟨id, row⟩

/-- Reads a field of a row. -/
def readAt (c : Contents) (l : Layout) (f : FieldLayout) (row : UInt64) : Except Error Value :=
  match l.struct? f.owner with
  | none => .error (.unknown (.struct f.owner))
  | some owner =>
    match (c.firstAbsent? owner row).bind l.struct? with
    | some absent => .error (.absentChild absent.path row)
    | none =>
      match owner.union with
      | some _ =>
        if c.tag ⟨owner.id, row⟩ = 0 then .error (.unselectedUnion owner.path row)
        else .ok (f.type.decode (c.region ⟨owner.id, row⟩))
      | none => .ok (c.value ⟨f.id, row⟩)

variable (c : Contents) (l : Layout)

theorem mark_cons (id : StructId) (chain : List StructId) (row : UInt64) :
    c.mark (id :: chain) row = (c.setPresent ⟨id, row⟩).mark chain row := rfl

@[simp] theorem tag_mark (chain : List StructId) (row : UInt64) :
    (c.mark chain row).tag = c.tag := by
  induction chain generalizing c with
  | nil => rfl
  | cons id rest ih => rw [mark_cons, ih, tag_setPresent]

@[simp] theorem region_mark (chain : List StructId) (row : UInt64) :
    (c.mark chain row).region = c.region := by
  induction chain generalizing c with
  | nil => rfl
  | cons id rest ih => rw [mark_cons, ih, region_setPresent]

@[simp] theorem value_mark (chain : List StructId) (row : UInt64) :
    (c.mark chain row).value = c.value := by
  induction chain generalizing c with
  | nil => rfl
  | cons id rest ih => rw [mark_cons, ih, value_setPresent]

@[simp] theorem present_mark (chain : List StructId) (row : UInt64) (cell : Cell) :
    (c.mark chain row).present cell =
      (c.present cell || decide (cell.row = row ∧ cell.id ∈ chain)) := by
  induction chain generalizing c with
  | nil => simp [mark]
  | cons id rest ih =>
    rw [mark_cons, ih, present_setPresent]
    obtain ⟨id', row'⟩ := cell
    by_cases ids : id' = id
    · by_cases rows : row' = row <;> simp [ids, rows]
    · simp [ids]

theorem apply_member {l : Layout} {field : FieldId} {f : FieldLayout} {tag : Nat}
    (found : l.field? field = some f) (isMember : f.tag = some tag) (row : UInt64) (width : Nat)
    (bits : UInt64) (value : Value) :
    c.apply l (.write field row width bits value) =
      ((c.mark (l.chainOf f.owner) row).setTag ⟨f.owner, row⟩ tag).overlay ⟨f.owner, row⟩ width
        bits := by
  simp only [apply, found, isMember]

theorem apply_plain {l : Layout} {field : FieldId} {f : FieldLayout}
    (found : l.field? field = some f) (plain : f.tag = none) (row : UInt64) (width : Nat)
    (bits : UInt64) (value : Value) :
    c.apply l (.write field row width bits value) =
      (c.mark (l.chainOf f.owner) row).setValue ⟨field, row⟩ value := by
  simp only [apply, found, plain]

theorem replay_append (first second : List PendingOp) :
    c.replay l (first ++ second) = (c.replay l first).replay l second :=
  List.foldl_append

theorem replay_concat (ops : List PendingOp) (op : PendingOp) :
    c.replay l (ops ++ [op]) = (c.replay l ops).apply l op := by
  rw [replay_append]
  rfl

end Contents

end BitRecords
