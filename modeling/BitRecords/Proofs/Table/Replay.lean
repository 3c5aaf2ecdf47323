import Mathlib.Data.List.Induction
import BitRecords.Proofs.Table.Lay

/-!
# What a replay gives

The contents after a replay can be told from the operations alone: the last value
of a field, the last tag of a union, the bits of a region with all its writes laid
over it in order, and the optional structs that some operation was under. Only the
operations of a row matter for what the row holds.
-/

namespace BitRecords

namespace PendingOp

/-- The struct whose field the operation writes, or the union it selects a member
of. -/
def target? (l : Layout) : PendingOp → Option StructId
  | write field .. => (l.field? field).map (·.owner)
  | select union .. => some union

/-- The value that the operation gives a field. -/
def valueAt? (cell : Cell) : PendingOp → Option Value
  | write field row _ _ value => if cell = ⟨field, row⟩ then some value else none
  | select .. => none

/-- The tag that the operation gives a union. -/
def tagAt? (l : Layout) (cell : Cell) : PendingOp → Option Nat
  | write field row .. =>
    (l.field? field).bind fun f => if cell = ⟨f.owner, row⟩ then f.tag else none
  | select union row tag => if cell = ⟨union, row⟩ then some tag else none

/-- The width and the bits that the operation lays over the region of a union. -/
def bitsAt? (l : Layout) (cell : Cell) : PendingOp → Option (Nat × UInt64)
  | write field row width bits _ =>
    (l.field? field).bind fun f =>
      if f.tag.isSome ∧ cell = ⟨f.owner, row⟩ then some (width, bits) else none
  | select .. => none

/-- Whether the operation makes the optional struct of a row present. -/
def marks (l : Layout) (cell : Cell) (op : PendingOp) : Bool :=
  cell.row == op.row && ((op.target? l).map l.chainOf).any (·.contains cell.id)

variable {l : Layout} {cell : Cell} {op : PendingOp}

theorem row_of_valueAt? (some : (op.valueAt? cell).isSome) : op.row = cell.row := by
  cases op with
  | select => cases some
  | write field row width bits value =>
    by_cases same : cell = ⟨field, row⟩
    · rw [same]
      rfl
    · simp [valueAt?, same] at some

theorem row_of_tagAt? (some : (op.tagAt? l cell).isSome) : op.row = cell.row := by
  cases op with
  | select union row tag =>
    by_cases same : cell = ⟨union, row⟩
    · rw [same]
      rfl
    · simp [tagAt?, same] at some
  | write field row width bits value =>
    cases found : l.field? field with
    | none => simp [tagAt?, found] at some
    | some f =>
      by_cases same : cell = ⟨f.owner, row⟩
      · rw [same]
        rfl
      · simp [tagAt?, found, same] at some

theorem row_of_bitsAt? (some : (op.bitsAt? l cell).isSome) : op.row = cell.row := by
  cases op with
  | select => cases some
  | write field row width bits value =>
    cases found : l.field? field with
    | none => simp [bitsAt?, found] at some
    | some f =>
      by_cases same : cell = ⟨f.owner, row⟩
      · rw [same]
        rfl
      · simp [bitsAt?, found, same] at some

theorem row_of_marks (marks : op.marks l cell = true) : op.row = cell.row := by
  simp only [PendingOp.marks, Bool.and_eq_true, beq_iff_eq] at marks
  exact marks.1.symm

end PendingOp

namespace Contents

variable {l : Layout} {c : Contents} {cell : Cell} {op : PendingOp}

theorem value_apply (single : Single l cell) :
    (c.apply l op).value cell = (op.valueAt? cell).getD (c.value cell) := by
  obtain ⟨f, field, plain⟩ := single
  cases op with
  | select => simp [apply, PendingOp.valueAt?]
  | write field' row width bits value =>
    by_cases same : cell = ⟨field', row⟩
    · rw [same] at field
      simp [apply_plain _ field plain, PendingOp.valueAt?, same]
    · cases found : l.field? field' with
      | none => simp [apply, found, PendingOp.valueAt?, same]
      | some f' =>
        cases isMember : f'.tag with
        | none => simp [apply_plain _ found isMember, PendingOp.valueAt?, same]
        | some tag => simp [apply_member _ found isMember, PendingOp.valueAt?, same]

theorem tag_apply : (c.apply l op).tag cell = (op.tagAt? l cell).getD (c.tag cell) := by
  cases op with
  | select union row tag =>
    by_cases same : cell = ⟨union, row⟩ <;> simp [apply, PendingOp.tagAt?, same]
  | write field row width bits value =>
    cases found : l.field? field with
    | none => simp [apply, found, PendingOp.tagAt?]
    | some f =>
      cases isMember : f.tag with
      | none => simp [apply_plain _ found isMember, PendingOp.tagAt?, found, isMember]
      | some tag =>
        by_cases same : cell = ⟨f.owner, row⟩ <;>
          simp [apply_member _ found isMember, PendingOp.tagAt?, found, isMember, same]

/-- Lays bits over the low bits of a region, if there are any. -/
def overlayBits (region : UInt64) (bits : Nat × UInt64) : UInt64 := overlayLow region bits.1 bits.2

theorem region_apply : (c.apply l op).region cell =
    (op.bitsAt? l cell).elim (c.region cell) (overlayBits (c.region cell)) := by
  cases op with
  | select => simp [apply, PendingOp.bitsAt?]
  | write field row width bits value =>
    cases found : l.field? field with
    | none => simp [apply, found, PendingOp.bitsAt?]
    | some f =>
      cases isMember : f.tag with
      | none => simp [apply_plain _ found isMember, PendingOp.bitsAt?, found, isMember]
      | some tag =>
        by_cases same : cell = ⟨f.owner, row⟩ <;>
          simp [apply_member _ found isMember, PendingOp.bitsAt?, found, isMember, same,
            overlayBits]

theorem present_apply : (c.apply l op).present cell = (c.present cell || op.marks l cell) := by
  rw [Bool.eq_iff_iff]
  cases op with
  | select union row tag =>
    simp [apply, PendingOp.marks, PendingOp.target?, PendingOp.row]
  | write field row width bits value =>
    cases found : l.field? field with
    | none => simp [apply, found, PendingOp.marks, PendingOp.target?]
    | some f =>
      cases isMember : f.tag with
      | none => simp [apply_plain _ found isMember, PendingOp.marks, PendingOp.target?,
          PendingOp.row, found]
      | some tag => simp [apply_member _ found isMember, PendingOp.marks, PendingOp.target?,
          PendingOp.row, found]

variable {ops : List PendingOp}

theorem value_replay_eq (single : Single l cell) : (c.replay l ops).value cell =
    (ops.filterMap (·.valueAt? cell)).getLast?.getD (c.value cell) := by
  induction ops using List.reverseRecOn with
  | nil => rfl
  | append_singleton ops op ih =>
    rw [replay_concat, value_apply single, ih]
    cases value : op.valueAt? cell <;> simp [value]

theorem tag_replay_eq : (c.replay l ops).tag cell =
    (ops.filterMap (·.tagAt? l cell)).getLast?.getD (c.tag cell) := by
  induction ops using List.reverseRecOn with
  | nil => rfl
  | append_singleton ops op ih =>
    rw [replay_concat, tag_apply, ih]
    cases tag : op.tagAt? l cell <;> simp [tag]

theorem region_replay_eq : (c.replay l ops).region cell =
    (ops.filterMap (·.bitsAt? l cell)).foldl overlayBits (c.region cell) := by
  induction ops using List.reverseRecOn with
  | nil => rfl
  | append_singleton ops op ih =>
    rw [replay_concat, region_apply, ih]
    cases bits : op.bitsAt? l cell <;> simp [bits]

theorem present_replay_eq : (c.replay l ops).present cell =
    (c.present cell || ops.any (·.marks l cell)) := by
  induction ops using List.reverseRecOn with
  | nil => simp [replay]
  | append_singleton ops op ih =>
    rw [replay_concat, present_apply, ih]
    simp [Bool.or_assoc]

/-- The contents of a row agree. -/
structure AgreeAt (l : Layout) (row : UInt64) (a b : Contents) : Prop where
  present : ∀ id, a.present ⟨id, row⟩ = b.present ⟨id, row⟩
  tag : ∀ id, a.tag ⟨id, row⟩ = b.tag ⟨id, row⟩
  region : ∀ id, a.region ⟨id, row⟩ = b.region ⟨id, row⟩
  value : ∀ id, Single l ⟨id, row⟩ → a.value ⟨id, row⟩ = b.value ⟨id, row⟩

theorem filterMap_filter_of_row {β : Type} {g : PendingOp → Option β} {p : PendingOp → Bool}
    (kept : ∀ op ∈ ops, (g op).isSome → p op = true) :
    (ops.filter p).filterMap g = ops.filterMap g := by
  rw [List.filterMap_filter]
  refine List.filterMap_congr fun op member => ?_
  cases some : g op with
  | none => simp
  | some b => simp [kept op member (by rw [some]; rfl)]

/-- Operations on other rows do not matter. -/
theorem replay_filter {row : UInt64} {p : PendingOp → Bool}
    (kept : ∀ op ∈ ops, op.row = row → p op = true) :
    AgreeAt l row (c.replay l (ops.filter p)) (c.replay l ops) where
  present id := by
    rw [present_replay_eq, present_replay_eq, List.any_filter]
    congr 1
    rw [Bool.eq_iff_iff]
    simp only [List.any_eq_true, Bool.and_eq_true]
    constructor
    · rintro ⟨op, member, -, marks⟩
      exact ⟨op, member, marks⟩
    · rintro ⟨op, member, marks⟩
      exact ⟨op, member, kept op member (PendingOp.row_of_marks marks), marks⟩
  tag id := by
    rw [tag_replay_eq, tag_replay_eq, filterMap_filter_of_row]
    exact fun op member some => kept op member (PendingOp.row_of_tagAt? some)
  region id := by
    rw [region_replay_eq, region_replay_eq, filterMap_filter_of_row]
    exact fun op member some => kept op member (PendingOp.row_of_bitsAt? some)
  value id single := by
    rw [value_replay_eq single, value_replay_eq single, filterMap_filter_of_row]
    exact fun op member some => kept op member (PendingOp.row_of_valueAt? some)

end Contents

end BitRecords
