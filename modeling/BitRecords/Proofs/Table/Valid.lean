import BitRecords.Proofs.Table.Commit
import BitRecords.Proofs.Table.Log
import BitRecords.Table.Listen
import BitRecords.Table.Stage

/-!
# Valid tables

A valid table is intact, its log answers for its operations, and the unions that
it remembers are unions. Staging, commits and rollbacks keep tables valid. What a
call does when it succeeds is stated first.
-/

namespace BitRecords.Table

open Layout

variable {t t' : Table}

theorem selected_eq_ok {row : UInt64} :
    t.selected = .ok row ↔ t.cursor = some row ∧ row < t.capacity := by
  unfold selected
  cases t.cursor with
  | none => simp
  | some cursor =>
    dsimp only
    split
    · next inside =>
      simp only [Except.ok.injEq, Option.some.injEq]
      constructor
      · rintro rfl
        exact ⟨rfl, inside⟩
      · exact fun both => both.1
    · next outside =>
      simp only [reduceCtorEq, Option.some.injEq, false_iff]
      rintro ⟨rfl, inside⟩
      exact outside inside

theorem fieldOf_eq_ok {l : Layout} {handle : FieldHandle} {f : FieldLayout} :
    l.fieldOf handle = .ok f ↔ handle.layout = l.fingerprint ∧ l.field? handle.id = some f := by
  unfold Layout.fieldOf
  split
  · next foreign => simp [foreign]
  · next own =>
    rw [not_not] at own
    cases l.field? handle.id with
    | none => simp
    | some g => simp [own]

theorem structOf_eq_ok {l : Layout} {handle : StructHandle} {s : StructLayout} :
    l.structOf handle = .ok s ↔ handle.layout = l.fingerprint ∧ l.struct? handle.id = some s := by
  unfold Layout.structOf
  split
  · next foreign => simp [foreign]
  · next own =>
    rw [not_not] at own
    cases l.struct? handle.id with
    | none => simp
    | some g => simp [own]

theorem select_eq_ok {row : UInt64} :
    t.select row = .ok t' ↔ row < t.capacity ∧ t' = { t with cursor := some row } := by
  unfold select
  split
  · next inside => simp [inside, eq_comm]
  · next outside => simp [outside]

/-- The table after a write of `f` in a row is staged. -/
def staged (t : Table) (f : FieldLayout) (row bits : UInt64) (value : Value) : Table :=
  { t with
    pending := t.pending.stageWrite f.id row f.width bits value
      (f.tag.map fun tag => (f.owner, tag)) (t.layout.chainOf f.owner)
    activeUnion := if f.tag.isSome then some f.owner else t.activeUnion }

theorem write_eq_ok {handle : FieldHandle} {value : Value} :
    t.write handle value = .ok t' ↔ ∃ row f bits, t.selected = .ok row ∧
      t.layout.fieldOf handle = .ok f ∧ f.type.encode value = .ok bits ∧
      t' = t.staged f row bits value := by
  unfold write
  simp only [bind_eq_ok]
  constructor
  · rintro ⟨row, selected, f, found, ok⟩
    split at ok
    · cases ok
    · next bits encoded =>
      exact ⟨row, f, bits, selected, found, encoded, (pure_eq_ok.mp ok).symm⟩
  · rintro ⟨row, f, bits, selected, found, encoded, rfl⟩
    refine ⟨row, selected, f, found, ?_⟩
    rw [encoded]
    rfl

theorem selectMember_eq_ok {handle : FieldHandle} :
    t.selectMember handle = .ok t' ↔ ∃ row f tag, t.selected = .ok row ∧
      t.layout.fieldOf handle = .ok f ∧ f.tag = some tag ∧
      t' = { t.stageSelect f.owner row tag with activeUnion := some f.owner } := by
  unfold selectMember
  simp only [bind_eq_ok]
  constructor
  · rintro ⟨row, selected, f, found, ok⟩
    split at ok
    · cases ok
    · next tag member =>
      exact ⟨row, f, tag, selected, found, member, (pure_eq_ok.mp ok).symm⟩
  · rintro ⟨row, f, tag, selected, found, member, rfl⟩
    refine ⟨row, selected, f, found, ?_⟩
    rw [member]
    rfl

theorem clear_eq_ok :
    t.clear = .ok t' ↔ ∃ row union, t.selected = .ok row ∧ t.clearTarget? = some union ∧
      t' = t.stageSelect union row 0 := by
  unfold clear
  simp only [bind_eq_ok]
  constructor
  · rintro ⟨row, selected, ok⟩
    split at ok
    · cases ok
    · next union target =>
      exact ⟨row, union, selected, target, (pure_eq_ok.mp ok).symm⟩
  · rintro ⟨row, union, selected, target, rfl⟩
    refine ⟨row, selected, ?_⟩
    rw [target]
    rfl

theorem clearUnion_eq_ok {handle : StructHandle} :
    t.clearUnion handle = .ok t' ↔ ∃ row s, t.selected = .ok row ∧
      t.layout.structOf handle = .ok s ∧ s.union.isSome ∧ t' = t.stageSelect s.id row 0 := by
  unfold clearUnion
  simp only [bind_eq_ok]
  constructor
  · rintro ⟨row, selected, s, found, ok⟩
    split at ok
    · next isUnion =>
      exact ⟨row, s, selected, found, isUnion, (pure_eq_ok.mp ok).symm⟩
    · cases ok
  · rintro ⟨row, s, selected, found, isUnion, rfl⟩
    refine ⟨row, selected, s, found, ?_⟩
    rw [if_pos isUnion]
    rfl

/-- A table whose rows, log and remembered unions are in order. -/
structure Valid (t : Table) : Prop where
  intact : t.Intact
  answers : t.pending.Answers t.layout
  active : ∀ id, t.activeUnion = some id → t.layout.IsUnion id
  remembered : ∀ id, t.committedUnion = some id → t.layout.IsUnion id
  elements : t.layout.Throughout SoundTyped

namespace Valid

theorem sound (valid : t.Valid) : t.layout.Sound := valid.intact.stored.good.sound

/-- Cursors and listeners do not matter. -/
theorem congr (valid : t.Valid) (rows : SameRows t t') (pending : t'.pending = t.pending)
    (active : t'.activeUnion = t.activeUnion) (remembered : t'.committedUnion = t.committedUnion) :
    t'.Valid where
  intact := valid.intact.same rows
  answers := by
    rw [pending, rows.layout]
    exact valid.answers
  active := by
    rw [active, rows.layout]
    exact valid.active
  remembered := by
    rw [remembered, rows.layout]
    exact valid.remembered
  elements := by
    rw [rows.layout]
    exact valid.elements

theorem select {row : UInt64} (valid : t.Valid) (ok : t.select row = .ok t') : t'.Valid := by
  obtain ⟨-, rfl⟩ := select_eq_ok.mp ok
  exact valid.congr ⟨rfl, rfl, rfl, rfl⟩ rfl rfl rfl

theorem staged (valid : t.Valid) {f : FieldLayout} (field : t.layout.field? f.id = some f)
    {bits : UInt64} {value : Value} (encoded : f.type.encode value = .ok bits) (row : UInt64) :
    (t.staged f row bits value).Valid where
  intact := valid.intact.same ⟨rfl, rfl, rfl, rfl⟩
  answers := valid.answers.stageWrite field encoded
  active id active := by
    simp only [Table.staged] at active
    cases isMember : f.tag with
    | none =>
      rw [isMember] at active
      exact valid.active id active
    | some tag =>
      rw [isMember] at active
      cases active
      obtain ⟨s, u, struct, union, -⟩ := valid.sound.member field isMember
      exact ⟨s, u, struct, union⟩
  remembered := valid.remembered
  elements := valid.elements

theorem write {handle : FieldHandle} {value : Value} (valid : t.Valid)
    (ok : t.write handle value = .ok t') : t'.Valid := by
  obtain ⟨row, f, bits, -, found, encoded, rfl⟩ := write_eq_ok.mp ok
  obtain ⟨-, field⟩ := fieldOf_eq_ok.mp found
  rw [← valid.sound.field?_id field] at field
  exact valid.staged field encoded row

theorem stageSelect (valid : t.Valid) {id : StructId} {s : StructLayout} {u : UnionRegion}
    {tag : Nat} (struct : t.layout.struct? id = some s) (union : s.union = some u)
    (bound : tag ≤ u.members.length) (row : UInt64) : (t.stageSelect id row tag).Valid where
  intact := valid.intact.same ⟨rfl, rfl, rfl, rfl⟩
  answers := valid.answers.stageSelect struct union bound
  active := valid.active
  remembered := valid.remembered
  elements := valid.elements

theorem selectMember {handle : FieldHandle} (valid : t.Valid)
    (ok : t.selectMember handle = .ok t') : t'.Valid := by
  obtain ⟨row, f, tag, -, found, isMember, rfl⟩ := selectMember_eq_ok.mp ok
  obtain ⟨-, field⟩ := fieldOf_eq_ok.mp found
  obtain ⟨s, u, struct, union, -, -, -, -, bound⟩ := valid.sound.member field isMember
  have selected := valid.stageSelect struct union bound row
  exact
    { selected with
      intact := selected.intact.same ⟨rfl, rfl, rfl, rfl⟩
      active := fun id active => by
        cases active
        exact ⟨s, u, struct, union⟩ }

/-- `clear` acts on a union. -/
theorem isUnion_of_clearTarget? (valid : t.Valid) {id : StructId}
    (target : t.clearTarget? = some id) : t.layout.IsUnion id := by
  unfold clearTarget? at target
  split at target
  · next active =>
    cases target
    exact valid.active _ active
  · obtain ⟨u, union, same⟩ := Option.map_eq_some_iff.mp target
    cases same
    obtain ⟨s, struct, union⟩ := Option.bind_eq_some_iff.mp union
    exact ⟨s, u, struct, union⟩

theorem clear (valid : t.Valid) (ok : t.clear = .ok t') : t'.Valid := by
  obtain ⟨row, id, -, target, rfl⟩ := clear_eq_ok.mp ok
  obtain ⟨s, u, struct, union⟩ := valid.isUnion_of_clearTarget? target
  exact valid.stageSelect struct union (Nat.zero_le _) row

theorem clearUnion {handle : StructHandle} (valid : t.Valid)
    (ok : t.clearUnion handle = .ok t') : t'.Valid := by
  obtain ⟨row, s, -, found, isUnion, rfl⟩ := clearUnion_eq_ok.mp ok
  obtain ⟨-, struct⟩ := structOf_eq_ok.mp found
  obtain ⟨u, union⟩ := Option.isSome_iff_exists.mp isUnion
  rw [valid.sound.struct?_id struct]
  exact valid.stageSelect struct union (Nat.zero_le _) row

theorem rollback (valid : t.Valid) : t.rollback.Valid := by
  unfold Table.rollback
  split
  · exact valid
  · exact ⟨valid.intact.same ⟨rfl, rfl, rfl, rfl⟩, .empty, valid.remembered,
      valid.remembered, valid.elements⟩

/-- Only buffers and objects are changed by a commit, apart from the log that is
emptied and the union that is remembered. -/
theorem sameApart_applyPending (t : Table) :
    SameApart { t with pending := .empty, committedUnion := t.activeUnion } t.applyPending := by
  rw [applyPending_eq]
  exact sameApart_applyAll _ _

theorem applyPending (valid : t.Valid) (checked : t.checkPending = .ok ()) :
    t.applyPending.Valid := by
  obtain ⟨layout, -, intact, -⟩ :=
    applyPending_spec valid.intact (shows_contents t) valid.answers.admits checked
  have same := sameApart_applyPending t
  have pending : t.applyPending.pending = .empty := by rw [same]
  have active : t.applyPending.activeUnion = t.activeUnion := by rw [same]
  have remembered : t.applyPending.committedUnion = t.activeUnion := by rw [same]
  refine ⟨intact, ?_, ?_, ?_, ?_⟩
  · rw [pending]
    exact .empty
  · rw [active, layout]
    exact valid.active
  · rw [remembered, layout]
    exact valid.active
  · rw [layout]
    exact valid.elements

theorem commit {result : CommitResult} (valid : t.Valid) (ok : t.commit = .ok (result, t')) :
    t'.Valid := by
  cases commits_of_ok ok with
  | idle => exact valid
  | applied _ checked => exact valid.applyPending checked

end Valid

theorem layout_applyPending (t : Table) : t.applyPending.layout = t.layout := by
  rw [Valid.sameApart_applyPending t]

theorem listeners_applyPending (t : Table) : t.applyPending.listeners = t.listeners := by
  rw [Valid.sameApart_applyPending t]

end BitRecords.Table
