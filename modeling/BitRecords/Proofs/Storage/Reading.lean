import BitRecords.Proofs.Storage.History
import BitRecords.Proofs.Table.Views

/-!
# Reading what a history says

The contents of a row are the replay of its operations. Reading them comes to what
the history says about the field: the value that was written last, the region with
all writes to members laid over it, or an error that tells which optional struct
has no operation under it.
-/

namespace BitRecords.History

open Contents Layout

variable {l : Layout} {h : History} {op : PendingOp} {row : UInt64}

theorem row_of_mem_ops (member : op ∈ h.ops row) : op.row = row :=
  of_decide_eq_true (List.mem_filter.mp member).2

theorem value_contents {f : FieldLayout} (sound : l.Sound) {id : FieldId}
    (field : l.field? id = some f) (plain : f.tag = none) :
    (h.contents l).value ⟨f.id, row⟩ = h.lastValue f row := by
  have number := sound.field?_id field
  rw [← number] at field
  have single : Single l ⟨f.id, row⟩ := ⟨f, field, plain⟩
  have default : (blank l).value ⟨f.id, row⟩ = f.type.defaultValue := by simp [blank, field]
  rw [contents, value_replay_eq single, default, lastValue]

theorem tag_contents (union : StructId) : (h.contents l).tag ⟨union, row⟩ = h.lastTag l union row :=
  tag_replay_eq

theorem region_contents (union : StructId) :
    (h.contents l).region ⟨union, row⟩ = h.region l union row :=
  region_replay_eq

/-- An operation makes the optional structs present that it is under. -/
theorem marks_eq_isUnder (sound : l.Sound) {o : StructId} (optional : l.isOptional o = true)
    (here : op.row = row) : op.marks l ⟨o, row⟩ = op.isUnder l o := by
  rw [PendingOp.marks, PendingOp.isUnder, here, beq_self_eq_true, Bool.true_and]
  cases op.target? l with
  | none => rfl
  | some target =>
    rw [Option.map_some, Option.map_some, Option.any_some, Option.any_some, Bool.eq_iff_iff,
      List.contains_iff_mem, List.contains_iff_mem, chainOf, sound.chainOf_eq, mem_optionalsAbove]
    exact and_iff_left optional

/-- An optional struct is present if there is an operation under it. -/
theorem present_contents (sound : l.Sound) {o : StructId} (optional : l.isOptional o = true) :
    (h.contents l).present ⟨o, row⟩ = (h.ops row).any (·.isUnder l o) := by
  rw [contents, present_replay_eq, blank, Bool.false_or, Bool.eq_iff_iff]
  simp only [List.any_eq_true]
  refine exists_congr fun op => and_congr_right fun member => ?_
  rw [marks_eq_isUnder sound optional (row_of_mem_ops member)]

theorem firstAbsent?_contents (sound : l.Sound) {id : StructId} {s : StructLayout}
    (struct : l.struct? id = some s) :
    (h.contents l).firstAbsent? s row = h.firstAbsent? l id row := by
  rw [Contents.firstAbsent?, firstAbsent?, sound.chain_eq struct]
  refine List.find?_congr fun o member => ?_
  rw [present_contents sound (mem_optionalsAbove.mp member).2]

/-- An absent struct exists. -/
theorem struct?_of_firstAbsent? {id absent : StructId}
    (found : h.firstAbsent? l id row = some absent) : ∃ s, l.struct? absent = some s := by
  have optional := (mem_optionalsAbove.mp (List.mem_of_find?_eq_some found)).2
  cases struct : l.struct? absent with
  | some s => exact ⟨s, rfl⟩
  | none => simp [isOptional, struct] at optional

/-- Reading a field of the contents gives what the history says. -/
theorem readAt_contents (sound : l.Sound) {id : FieldId} {f : FieldLayout}
    (field : l.field? id = some f) : (h.contents l).readAt l f row = h.read l f row := by
  obtain ⟨owner, struct, number, -⟩ := sound.owner field
  have path : owner.path = pathOf l f.owner := by simp [pathOf, struct]
  unfold Contents.readAt History.read
  rw [struct]
  dsimp only
  rw [firstAbsent?_contents sound struct]
  cases found : h.firstAbsent? l f.owner row with
  | some absent =>
    obtain ⟨s, missing⟩ := struct?_of_firstAbsent? found
    simp [missing, pathOf]
  | none =>
    have plain := sound.plain_of_union field struct
    rw [Option.bind_none]
    dsimp only
    cases union : owner.union with
    | none =>
      have plain := plain.mp union
      rw [plain, value_contents sound field plain]
      rfl
    | some u =>
      have isMember : ¬ f.tag.isNone := by
        rw [Option.isNone_iff_eq_none, ← plain, union]
        exact nofun
      rw [if_neg isMember, number, path, tag_contents, region_contents]

end BitRecords.History
