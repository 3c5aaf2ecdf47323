import BitRecords.Proofs.Storage.Reachable

/-!
# Reading one's own writes

What a read sees before a commit, with the pending operations on top of the
buffers, is what every read sees after it. Both see the contents that a replay of
the log gives: before the commit the indexes of the log answer for the replay, and
afterwards the buffers hold its result.
-/

namespace BitRecords

namespace Table

variable {t t' : Table} {c c' : Contents}

/-- A commit replays the log and leaves it empty. -/
theorem commit_spec {result : CommitResult} (valid : t.Valid) (shows : t.Shows c)
    (ok : t.commit = .ok (result, t')) :
    t'.layout = t.layout ∧ t'.capacity = t.capacity ∧ t'.pending.ops = #[] ∧
      t'.Shows (c.replay t.layout t.pending.ops.toList) := by
  cases commits_of_ok ok with
  | idle none =>
    refine ⟨rfl, rfl, none, ?_⟩
    rw [none]
    exact shows
  | applied some checked =>
    obtain ⟨layout, capacity, -, shows⟩ :=
      applyPending_spec valid.intact shows valid.answers.admits checked
    refine ⟨layout, capacity, ?_, shows⟩
    rw [Valid.sameApart_applyPending t]
    rfl

/-- With an empty log the staged view is the committed one. -/
theorem Valid.sees_of_idle (valid : t.Valid) (shows : t.Shows c) (idle : t.pending.ops = #[]) :
    t.Sees .staged c := by
  have sees := shows.sees_staged valid.answers valid.sound
  rw [idle] at sees
  exact sees

section Select

variable {row : UInt64} (ok : t.select row = .ok t')
include ok

theorem read_select (view : View) (handle : FieldHandle) :
    t'.read view handle = (t.layout.fieldOf handle).bind fun f => t.readAt view f row := by
  obtain ⟨here, rfl⟩ := select_eq_ok.mp ok
  have selected : ({ t with cursor := some row } : Table).selected = .ok row :=
    selected_eq_ok.mpr ⟨rfl, here⟩
  rw [read, selected]
  rfl

theorem isPresent_select (handle : StructHandle) :
    t'.isPresent handle = (t.layout.structOf handle).bind fun s =>
      if s.flags.optional && !s.isList then .ok (t.firstAbsent? .staged s row).isNone
      else .error (.mismatch s.path .optionalStruct .struct) := by
  obtain ⟨here, rfl⟩ := select_eq_ok.mp ok
  have selected : ({ t with cursor := some row } : Table).selected = .ok row :=
    selected_eq_ok.mpr ⟨rfl, here⟩
  rw [isPresent, selected]
  rfl

theorem activeMember_select (handle : StructHandle) :
    t'.activeMember handle = (t.layout.structOf handle).bind fun s =>
      match s.union with
      | none => .error (.mismatch s.path .unionStruct .struct)
      | some u =>
        if t.tag .staged s.id u row = 0 then .ok none
        else .ok ((u.members[t.tag .staged s.id u row - 1]?.bind t.layout.field?).map
          t.layout.handleOf) := by
  obtain ⟨here, rfl⟩ := select_eq_ok.mp ok
  have selected : ({ t with cursor := some row } : Table).selected = .ok row :=
    selected_eq_ok.mpr ⟨rfl, here⟩
  rw [activeMember, selected]
  rfl

end Select

variable {view view' : View} {row : UInt64} {before after : Table}

/-- Reads agree if those of the contents do that the tables see. -/
theorem read_congr_of_readAt (sound : t.layout.Sound) (layout : t'.layout = t.layout)
    (capacity : t'.capacity = t.capacity) (sees : t.Sees view c) (sees' : t'.Sees view' c')
    (selected : t.select row = .ok before) (selected' : t'.select row = .ok after)
    {handle : FieldHandle} (same : ∀ f, t.layout.fieldOf handle = .ok f →
      c'.readAt t.layout f row = c.readAt t.layout f row) :
    after.read view' handle = before.read view handle := by
  obtain ⟨here, -⟩ := select_eq_ok.mp selected
  rw [read_select selected, read_select selected', layout]
  cases found : t.layout.fieldOf handle with
  | error e => rfl
  | ok f =>
    obtain ⟨-, field⟩ := fieldOf_eq_ok.mp found
    change t'.readAt view' f row = t.readAt view f row
    rw [sees.readAt sound here field,
      sees'.readAt (layout ▸ sound) (capacity ▸ here) (layout ▸ field), layout, same f found]

/-- Optional structs are present in both tables if they are in the contents. -/
theorem isPresent_congr_of_firstAbsent? (sound : t.layout.Sound) (layout : t'.layout = t.layout)
    (capacity : t'.capacity = t.capacity) (sees : t.Sees .staged c) (sees' : t'.Sees .staged c')
    (selected : t.select row = .ok before) (selected' : t'.select row = .ok after)
    {handle : StructHandle} (same : ∀ s, t.layout.structOf handle = .ok s →
      c'.firstAbsent? s row = c.firstAbsent? s row) :
    after.isPresent handle = before.isPresent handle := by
  obtain ⟨here, -⟩ := select_eq_ok.mp selected
  rw [isPresent_select selected, isPresent_select selected', layout]
  cases found : t.layout.structOf handle with
  | error e => rfl
  | ok s =>
    obtain ⟨-, struct⟩ := structOf_eq_ok.mp found
    have absent : t'.firstAbsent? .staged s row = t.firstAbsent? .staged s row := by
      rw [sees.firstAbsent? sound here struct,
        sees'.firstAbsent? (layout ▸ sound) (capacity ▸ here) (layout ▸ struct), same s found]
    simp only [Except.bind, absent]

/-- Unions have the same member selected if they have the same tag in the contents. -/
theorem activeMember_congr_of_tag (sound : t.layout.Sound) (layout : t'.layout = t.layout)
    (capacity : t'.capacity = t.capacity) (sees : t.Sees .staged c) (sees' : t'.Sees .staged c')
    (selected : t.select row = .ok before) (selected' : t'.select row = .ok after)
    {handle : StructHandle} (same : c'.tag ⟨handle.id, row⟩ = c.tag ⟨handle.id, row⟩) :
    after.activeMember handle = before.activeMember handle := by
  obtain ⟨here, -⟩ := select_eq_ok.mp selected
  rw [activeMember_select selected, activeMember_select selected', layout]
  cases found : t.layout.structOf handle with
  | error e => rfl
  | ok s =>
    obtain ⟨-, struct⟩ := structOf_eq_ok.mp found
    cases union : s.union with
    | none => simp only [Except.bind, union]
    | some u =>
      have number := sound.struct?_id struct
      have tags : t'.tag .staged s.id u row = t.tag .staged s.id u row := by
        rw [number, sees.tag handle.id row here s u struct union,
          sees'.tag handle.id row (capacity ▸ here) s u (layout ▸ struct) union, same]
      simp only [Except.bind, union, tags]

/-- Reads of tables that see the same contents agree. -/
theorem read_congr (sound : t.layout.Sound) (layout : t'.layout = t.layout)
    (capacity : t'.capacity = t.capacity) (sees : t.Sees view c) (sees' : t'.Sees view' c)
    (selected : t.select row = .ok before) (selected' : t'.select row = .ok after)
    (handle : FieldHandle) : after.read view' handle = before.read view handle :=
  read_congr_of_readAt sound layout capacity sees sees' selected selected' fun _ _ => rfl

theorem isPresent_congr (sound : t.layout.Sound) (layout : t'.layout = t.layout)
    (capacity : t'.capacity = t.capacity) (sees : t.Sees .staged c) (sees' : t'.Sees .staged c)
    (selected : t.select row = .ok before) (selected' : t'.select row = .ok after)
    (handle : StructHandle) : after.isPresent handle = before.isPresent handle :=
  isPresent_congr_of_firstAbsent? sound layout capacity sees sees' selected selected' fun _ _ => rfl

theorem activeMember_congr (sound : t.layout.Sound) (layout : t'.layout = t.layout)
    (capacity : t'.capacity = t.capacity) (sees : t.Sees .staged c) (sees' : t'.Sees .staged c)
    (selected : t.select row = .ok before) (selected' : t'.select row = .ok after)
    (handle : StructHandle) : after.activeMember handle = before.activeMember handle :=
  activeMember_congr_of_tag sound layout capacity sees sees' selected selected' rfl

end Table

namespace Storage

open Table

/-- Both reads of the second table answer what the first one answers with its
pending operations on top, errors included. So do optional structs and unions. -/
structure AnswersAs (after before : Table) : Prop where
  read : ∀ handle, after.read .staged handle = before.read .staged handle
  readCommitted : ∀ handle, after.read .committed handle = before.read .staged handle
  isPresent : ∀ handle, after.isPresent handle = before.isPresent handle
  activeMember : ∀ handle, after.activeMember handle = before.activeMember handle

/-- Each row answers after a commit as it did before. -/
theorem commit_agrees {s : Storage} (reachable : s.Reachable) {result : CommitResult} {t : Table}
    (ok : s.table.commit = .ok (result, t)) {row : UInt64} (here : row < s.table.capacity) :
    ∃ before after, s.table.select row = .ok before ∧ t.select row = .ok after ∧
      AnswersAs after before := by
  have valid := reachable.valid.here
  obtain ⟨layout, capacity, idle, shows⟩ := commit_spec valid (shows_contents s.table) ok
  have sees := (shows_contents s.table).sees_staged valid.answers valid.sound
  have sees' := (valid.commit ok).sees_of_idle shows idle
  have selected : s.table.select row = .ok { s.table with cursor := some row } :=
    select_eq_ok.mpr ⟨here, rfl⟩
  have selected' : t.select row = .ok { t with cursor := some row } :=
    select_eq_ok.mpr ⟨capacity ▸ here, rfl⟩
  refine ⟨_, _, selected, selected', ?_, ?_, ?_, ?_⟩
  · exact read_congr valid.sound layout capacity sees sees' selected selected'
  · exact read_congr valid.sound layout capacity sees shows.sees selected selected'
  · exact isPresent_congr valid.sound layout capacity sees sees' selected selected'
  · exact activeMember_congr valid.sound layout capacity sees sees' selected selected'

theorem commit_agrees_priced : ∃ result t, priced.Reachable ∧
    priced.table.commit = .ok (result, t) ∧ 1 < priced.table.capacity ∧
    ∃ before after, priced.table.select 1 = .ok before ∧ t.select 1 = .ok after ∧
      AnswersAs after before :=
  ⟨_, _, priced_reachable, rfl, by decide, commit_agrees priced_reachable rfl (by decide)⟩

end Storage

end BitRecords
