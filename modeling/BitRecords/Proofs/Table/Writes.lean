import Mathlib.Data.List.Induction
import BitRecords.Proofs.Table.Contents
import BitRecords.Proofs.Bits.Word
import BitRecords.Table.Commit

/-!
# What operations write

The cells that operations write are listed in the order of their first writes.
A replay leaves the value of every other cell as it was, and the bits of a region
that no write to a union member covers.
-/

namespace BitRecords

/-- Whether the operation writes the field of a row. -/
def PendingOp.writes (op : PendingOp) (cell : Cell) : Bool :=
  match op with
  | .write field row .. => decide (cell = ⟨field, row⟩)
  | .select .. => false

theorem PendingOp.row_of_writes (op : PendingOp) {cell : Cell} (writes : op.writes cell = true) :
    op.row = cell.row := by
  cases op with
  | write => rw [of_decide_eq_true writes, PendingOp.row]
  | select => cases writes

/-- The operation writes a member of the union, and the bit of the region is among
the bits of the member. -/
def PendingOp.Covers (l : Layout) (op : PendingOp) (cell : Cell) (p : Nat) : Prop :=
  match op with
  | .write field row width .. =>
    ∃ f, l.field? field = some f ∧ f.tag.isSome ∧ cell = ⟨f.owner, row⟩ ∧ p < width
  | .select .. => False

/-- The position of the first write of a cell. -/
def firstWrite (ops : List PendingOp) (cell : Cell) : Nat := ops.findIdx (·.writes cell)

namespace Table

theorem writtenCells_concat_write (ops : List PendingOp) (field : FieldId) (row : UInt64)
    (width : Nat) (bits : UInt64) (value : Value) :
    writtenCells (ops ++ [.write field row width bits value]) =
      if ⟨field, row⟩ ∈ writtenCells ops then writtenCells ops
      else writtenCells ops ++ [⟨field, row⟩] := by
  simp only [writtenCells, List.foldl_append, List.foldl_cons, List.foldl_nil,
    List.contains_iff_mem, List.mem_reverse]
  split
  · rfl
  · exact List.reverse_cons

theorem writtenCells_concat_select (ops : List PendingOp) (union : StructId) (row : UInt64)
    (tag : Nat) : writtenCells (ops ++ [.select union row tag]) = writtenCells ops := by
  simp only [writtenCells, List.foldl_append, List.foldl_cons, List.foldl_nil]

theorem mem_writtenCells {ops : List PendingOp} {cell : Cell} :
    cell ∈ writtenCells ops ↔ ∃ op ∈ ops, op.writes cell = true := by
  induction ops using List.reverseRecOn with
  | nil => simp [writtenCells]
  | append_singleton ops op ih =>
    simp only [List.mem_append, List.mem_singleton, or_and_right, exists_or, exists_eq_left, ← ih]
    cases op with
    | write field row width bits value =>
      rw [writtenCells_concat_write]
      by_cases seen : (⟨field, row⟩ : Cell) ∈ writtenCells ops
      · rw [if_pos seen]
        refine ⟨.inl, fun either => either.elim id fun writes => ?_⟩
        rw [of_decide_eq_true writes]
        exact seen
      · simp [if_neg seen, PendingOp.writes]
    | select union row tag => simp [writtenCells_concat_select, PendingOp.writes]

theorem firstWrite_append {ops : List PendingOp} (more : List PendingOp) {cell : Cell}
    (written : ∃ op ∈ ops, op.writes cell = true) :
    firstWrite (ops ++ more) cell = firstWrite ops cell ∧ firstWrite ops cell < ops.length := by
  have inside : firstWrite ops cell < ops.length := List.findIdx_lt_length.mpr written
  refine ⟨?_, inside⟩
  unfold firstWrite
  rw [List.findIdx_append]
  exact if_pos inside

/-- The cells are in the order of their first writes. -/
theorem pairwise_writtenCells (ops : List PendingOp) :
    (writtenCells ops).Pairwise fun a b => firstWrite ops a < firstWrite ops b := by
  induction ops using List.reverseRecOn with
  | nil => exact .nil
  | append_singleton ops op ih =>
    have kept : (writtenCells ops).Pairwise fun a b =>
        firstWrite (ops ++ [op]) a < firstWrite (ops ++ [op]) b := by
      refine ih.imp_of_mem fun {a b} inA inB order => ?_
      rw [(firstWrite_append [op] (mem_writtenCells.mp inA)).1,
        (firstWrite_append [op] (mem_writtenCells.mp inB)).1]
      exact order
    cases op with
    | select union row tag =>
      rw [writtenCells_concat_select]
      exact kept
    | write field row width bits value =>
      rw [writtenCells_concat_write]
      split
      · exact kept
      · next fresh =>
        refine List.pairwise_append.mpr ⟨kept, List.pairwise_singleton _ _, fun a inA b inB => ?_⟩
        obtain rfl := List.mem_singleton.mp inB
        obtain ⟨same, inside⟩ :=
          firstWrite_append [.write field row width bits value] (mem_writtenCells.mp inA)
        have late :
            ops.length ≤ firstWrite (ops ++ [.write field row width bits value]) ⟨field, row⟩ := by
          rw [firstWrite, List.findIdx_append, if_neg]
          · exact Nat.le_add_left _ _
          · rw [List.findIdx_lt_length, ← mem_writtenCells]
            exact fresh
        rw [same]
        exact Nat.lt_of_lt_of_le inside late

end Table

namespace Contents

variable {l : Layout} {c : Contents} {ops : List PendingOp} {cell : Cell}

/-- A value that no operation writes stays. -/
theorem value_replay (unwritten : ∀ op ∈ ops, op.writes cell = false) :
    (c.replay l ops).value cell = c.value cell := by
  induction ops generalizing c with
  | nil => rfl
  | cons op rest ih =>
    obtain ⟨first, others⟩ := List.forall_mem_cons.mp unwritten
    refine (ih others).trans ?_
    cases op with
    | select union row tag => simp [apply]
    | write field row width bits value =>
      have other : cell ≠ ⟨field, row⟩ := of_decide_eq_false first
      cases found : l.field? field with
      | none => simp [apply, found]
      | some f =>
        cases isMember : f.tag with
        | none => simp [apply_plain _ found isMember, other]
        | some tag => simp [apply_member _ found isMember]

/-- A bit of a region that no operation covers stays. -/
theorem bitOf_region_replay {p : Nat} (uncovered : ∀ op ∈ ops, ¬ op.Covers l cell p) :
    bitOf ((c.replay l ops).region cell) p = bitOf (c.region cell) p := by
  induction ops generalizing c with
  | nil => rfl
  | cons op rest ih =>
    obtain ⟨first, others⟩ := List.forall_mem_cons.mp uncovered
    refine (ih others).trans ?_
    cases op with
    | select union row tag => simp [apply]
    | write field row width bits value =>
      cases found : l.field? field with
      | none => simp [apply, found]
      | some f =>
        cases isMember : f.tag with
        | none => simp [apply_plain _ found isMember]
        | some tag =>
          rw [apply_member _ found isMember, region_overlay]
          by_cases same : cell = ⟨f.owner, row⟩
          · have high : ¬ p < width := fun low =>
              first ⟨f, found, by simp [isMember], same, low⟩
            simp [same, high]
          · simp [same]

end Contents

end BitRecords
