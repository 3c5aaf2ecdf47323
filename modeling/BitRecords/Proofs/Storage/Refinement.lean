import BitRecords.Proofs.Storage.Agreement
import BitRecords.Proofs.Storage.Reading

/-!
# Storages refine their histories

After any run of calls the rows of a storage hold what its history says: the replay
of the operations that were committed to each of them since it came into existence.
Each call is matched by the history, so this holds by induction on the run.
-/

namespace BitRecords

open Contents

namespace Contents.AgreeAt

variable {l : Layout} {row : UInt64} {a b c : Contents}

theorem trans (first : AgreeAt l row a b) (second : AgreeAt l row b c) : AgreeAt l row a c where
  present id := (first.present id).trans (second.present id)
  tag id := (first.tag id).trans (second.tag id)
  region id := (first.region id).trans (second.region id)
  value id single := (first.value id single).trans (second.value id single)

theorem symm (agree : AgreeAt l row a b) : AgreeAt l row b a where
  present id := (agree.present id).symm
  tag id := (agree.tag id).symm
  region id := (agree.region id).symm
  value id single := (agree.value id single).symm

theorem keep_of_lt (c : Contents) {rows : UInt64} (old : row < rows) :
    AgreeAt l row (c.keep l rows) c where
  present _ := if_pos old
  tag _ := if_pos old
  region _ := if_pos old
  value _ _ := if_pos old

theorem keep_of_le (c : Contents) {rows : UInt64} (past : rows ≤ row) :
    AgreeAt l row (c.keep l rows) (blank l) where
  present _ := if_neg (UInt64.not_lt.mpr past)
  tag _ := if_neg (UInt64.not_lt.mpr past)
  region _ := if_neg (UInt64.not_lt.mpr past)
  value _ _ := if_neg (UInt64.not_lt.mpr past)

end Contents.AgreeAt

/-- A row without operations is left as it was. -/
theorem Contents.replay_other {l : Layout} {c : Contents} {ops : List PendingOp} {row : UInt64}
    (others : ∀ op ∈ ops, op.row ≠ row) : AgreeAt l row (c.replay l ops) c := by
  have none : AgreeAt l row (c.replay l (ops.filter fun _ => false)) (c.replay l ops) :=
    replay_filter fun op member same => absurd same (others op member)
  rw [List.filter_false] at none
  exact none.symm

namespace Table

variable {l : Layout} {t t' : Table} {h : History}

theorem Shows.congr {c c' : Contents} (shows : t.Shows c)
    (agree : ∀ row, row < t.capacity → AgreeAt t.layout row c' c) : t.Shows c' where
  present id row here slot presence := by
    rw [(agree row here).present]
    exact shows.present id row here slot presence
  tag id row here s u struct union := by
    rw [(agree row here).tag]
    exact shows.tag id row here s u struct union
  region id row here s u struct union := by
    rw [(agree row here).region]
    exact shows.region id row here s u struct union
  value id row here f field plain := by
    rw [(agree row here).value id ⟨f, field, plain⟩]
    exact shows.value id row here f field plain

/-- The table is what the history says. -/
structure Tracks (l : Layout) (t : Table) (h : History) : Prop where
  layout : t.layout = l
  valid : t.Valid
  capacity : t.capacity = h.capacity
  cursor : t.cursor = h.cursor
  staged : t.pending.ops.toList = h.staged
  activeUnion : t.activeUnion = h.activeUnion
  committedUnion : t.committedUnion = h.committedUnion
  rows : ∀ op ∈ h.committed, op.row < h.capacity
  shows : t.Shows ((blank l).replay l h.committed)

namespace Tracks

theorem fresh {length : UInt64} (layout : t.layout = l) (valid : t.Valid)
    (shows : t.Shows (blank l)) (capacity : t.capacity = length) (cursor : t.cursor = none)
    (pending : t.pending = .empty) (active : t.activeUnion = none)
    (remembered : t.committedUnion = none) : t.Tracks l { capacity := length } where
  layout := layout
  valid := valid
  capacity := capacity
  cursor := cursor
  staged := by
    rw [pending]
    rfl
  activeUnion := active
  committedUnion := remembered
  rows _ none := nomatch none
  shows := shows

/-- What does not touch rows, log or unions is not recorded. -/
theorem congr (tracks : t.Tracks l h) (valid : t'.Valid) (rows : SameRows t t')
    (pending : t'.pending = t.pending) (active : t'.activeUnion = t.activeUnion)
    (remembered : t'.committedUnion = t.committedUnion) {cursor : Option UInt64}
    (selected : t'.cursor = cursor) : t'.Tracks l { h with cursor } where
  layout := rows.layout.trans tracks.layout
  valid := valid
  capacity := rows.capacity.trans tracks.capacity
  cursor := selected
  staged := by
    rw [pending]
    exact tracks.staged
  activeUnion := active.trans tracks.activeUnion
  committedUnion := remembered.trans tracks.committedUnion
  rows := tracks.rows
  shows := tracks.shows.same rows

/-- An operation on the selected row is staged. -/
theorem stage (tracks : t.Tracks l h) {row : UInt64} (selected : t.selected = .ok row)
    (valid : t'.Valid) (rows : SameRows t t') (cursor : t'.cursor = t.cursor)
    {op : UInt64 → PendingOp} (pushed : t'.pending.ops = t.pending.ops.push (op row))
    (remembered : t'.committedUnion = t.committedUnion) {active : Option StructId}
    (union : t'.activeUnion = active) :
    t'.Tracks l { h.stage op with activeUnion := active } := by
  have here : h.cursor = some row := tracks.cursor.symm.trans (selected_eq_ok.mp selected).1
  have staged : h.stage op = { h with staged := h.staged ++ [op row] } := by
    rw [History.stage, here]
  rw [staged]
  exact
    { layout := rows.layout.trans tracks.layout
      valid := valid
      capacity := rows.capacity.trans tracks.capacity
      cursor := cursor.trans tracks.cursor
      staged := by rw [pushed, Array.toList_push, tracks.staged]
      activeUnion := union
      committedUnion := remembered.trans tracks.committedUnion
      rows := tracks.rows
      shows := tracks.shows.same rows }

theorem activeUnion_stage (h : History) (op : UInt64 → PendingOp) :
    { h.stage op with activeUnion := h.activeUnion } = h.stage op := by
  unfold History.stage
  split <;> rfl

theorem write {handle : FieldHandle} {value : Value} (tracks : t.Tracks l h)
    (ok : t.write handle value = .ok t') : t'.Tracks l (h.after l (.write handle value)) := by
  have valid := tracks.valid.write ok
  obtain ⟨row, f, bits, selected, found, encoded, rfl⟩ := write_eq_ok.mp ok
  obtain ⟨-, field⟩ := fieldOf_eq_ok.mp found
  rw [tracks.layout] at field
  have encoding : f.type.bitsOf value = bits := by rw [FieldType.bitsOf, encoded]
  simp only [History.after, field]
  refine tracks.stage selected valid ⟨rfl, rfl, rfl, rfl⟩ rfl ?_ rfl ?_
  · rw [encoding]
    exact PendingLog.ops_stageWrite
  · rw [← tracks.activeUnion]
    rfl

theorem selectMember {handle : FieldHandle} (tracks : t.Tracks l h)
    (ok : t.selectMember handle = .ok t') : t'.Tracks l (h.after l (.selectMember handle)) := by
  have valid := tracks.valid.selectMember ok
  obtain ⟨row, f, tag, selected, found, isMember, rfl⟩ := selectMember_eq_ok.mp ok
  obtain ⟨-, field⟩ := fieldOf_eq_ok.mp found
  rw [tracks.layout] at field
  simp only [History.after, field, Option.bind_some, isMember, Option.map_some]
  exact tracks.stage selected valid ⟨rfl, rfl, rfl, rfl⟩ rfl rfl rfl rfl

theorem clear (tracks : t.Tracks l h) (ok : t.clear = .ok t') : t'.Tracks l (h.after l .clear) := by
  have valid := tracks.valid.clear ok
  obtain ⟨row, union, selected, target, rfl⟩ := clear_eq_ok.mp ok
  have target : h.clearTarget? l = some union := by
    rw [History.clearTarget?, ← tracks.activeUnion, ← tracks.layout]
    exact target
  simp only [History.after, target]
  rw [← activeUnion_stage]
  exact tracks.stage selected valid ⟨rfl, rfl, rfl, rfl⟩ rfl rfl rfl tracks.activeUnion

theorem clearUnion {handle : StructHandle} (tracks : t.Tracks l h)
    (ok : t.clearUnion handle = .ok t') : t'.Tracks l (h.after l (.clearUnion handle)) := by
  have valid := tracks.valid.clearUnion ok
  obtain ⟨row, s, selected, found, -, rfl⟩ := clearUnion_eq_ok.mp ok
  obtain ⟨-, struct⟩ := structOf_eq_ok.mp found
  have number := tracks.valid.sound.struct?_id struct
  rw [History.after, ← activeUnion_stage, ← number]
  exact tracks.stage selected valid ⟨rfl, rfl, rfl, rfl⟩ rfl rfl rfl tracks.activeUnion

theorem staged_isEmpty (tracks : t.Tracks l h) : h.staged.isEmpty = t.pending.isEmpty := by
  rw [← tracks.staged, PendingLog.isEmpty, Array.isEmpty_toList]

/-- A commit appends what is staged to what is committed. -/
theorem commit {result : CommitResult} (tracks : t.Tracks l h) (ok : t.commit = .ok (result, t')) :
    t'.Tracks l (h.after l .commit) := by
  have valid := tracks.valid.commit ok
  obtain ⟨layout, capacity, -, shows⟩ := commit_spec tracks.valid tracks.shows ok
  cases commits_of_ok ok with
  | idle none =>
    have empty : h.staged.isEmpty := by
      rw [tracks.staged_isEmpty, PendingLog.isEmpty, none]
      rfl
    rw [History.after, if_pos empty]
    exact tracks
  | applied some checked =>
    have filled : ¬ h.staged.isEmpty := by
      rw [tracks.staged_isEmpty, PendingLog.isEmpty]
      simpa using some
    rw [History.after, if_neg filled]
    have same := Valid.sameApart_applyPending t
    exact
      { layout := layout.trans tracks.layout
        valid := valid
        capacity := capacity.trans tracks.capacity
        cursor := by
          rw [same]
          exact tracks.cursor
        staged := by
          rw [same]
          rfl
        activeUnion := by
          rw [same]
          exact tracks.activeUnion
        committedUnion := by
          rw [same]
          exact tracks.activeUnion
        rows := by
          rw [← tracks.capacity, ← tracks.staged]
          exact List.forall_mem_append.mpr
            ⟨tracks.capacity ▸ tracks.rows, (of_checkPending checked).1⟩
        shows := by
          rw [replay_append, ← tracks.staged, ← tracks.layout]
          rw [← tracks.layout] at shows
          exact shows }

theorem rollback (tracks : t.Tracks l h) : t.rollback.Tracks l (h.after l .rollback) := by
  have valid := tracks.valid.rollback
  rw [History.after, tracks.staged_isEmpty]
  unfold Table.rollback at valid ⊢
  by_cases empty : t.pending.isEmpty
  · rw [if_pos empty, if_pos empty]
    exact tracks
  · rw [if_neg empty] at valid ⊢
    rw [if_neg empty]
    exact
      { layout := tracks.layout
        valid := valid
        capacity := tracks.capacity
        cursor := tracks.cursor
        staged := rfl
        activeUnion := tracks.committedUnion
        committedUnion := tracks.committedUnion
        rows := tracks.rows
        shows := tracks.shows.same ⟨rfl, rfl, rfl, rfl⟩ }

end Tracks

end Table

namespace Storage

open LayoutRules Table

variable {l : Layout} {s after : Storage} {h : History}

/-- Rows that are kept have their operations, and new rows have none. -/
theorem tracks_resize {length : UInt64} (tracks : s.table.Tracks l h)
    (ok : s.resize length = (.ok (), after)) : after.table.Tracks l (h.resize length) := by
  have valid := resize_valid tracks.valid length
  have step := resizes tracks.valid.intact length
  rw [ok] at valid step
  obtain ⟨objects, segments, released, sizes, rfl⟩ := step.of_ok rfl
  have keeps := keeps_done tracks.valid.intact (s.table.cursor.filter (· < length)) released sizes
  refine ⟨tracks.layout, valid, rfl, ?_, tracks.staged, tracks.activeUnion, tracks.committedUnion,
    ?_, ?_⟩
  · rw [History.resize, ← tracks.cursor]
  · intro op member
    exact of_decide_eq_true (List.mem_filter.mp member).2
  · refine (keeps.shows tracks.shows).congr fun row here => ?_
    have kept : AgreeAt l row ((blank l).replay l (h.committed.filter (·.row < length)))
        ((blank l).replay l h.committed) :=
      replay_filter fun op _ same => by
        rw [same]
        exact decide_eq_true here
    dsimp only
    rw [tracks.layout]
    by_cases old : row < s.table.capacity
    · exact kept.trans (AgreeAt.keep_of_lt _ old).symm
    · have past := UInt64.not_lt.mp old
      refine kept.trans (AgreeAt.trans (replay_other fun op member same => ?_)
        (AgreeAt.keep_of_le _ past).symm)
      have inside := tracks.rows op member
      rw [same, ← tracks.capacity] at inside
      exact old inside

theorem tracks_push (tracks : s.table.Tracks l h) (ok : s.perform .push = (.ok (), after)) :
    after.table.Tracks l (h.after l .push) := by
  simp only [perform] at ok
  have step := pushes s
  generalize s.push = outcome at step ok
  obtain ⟨result, pushed⟩ := outcome
  cases step with
  | refused | failed => cases ok
  | @done grown _ resized =>
    cases ok
    have grownTracks := tracks_resize tracks resized
    have same : SameRows grown.table { grown.table with cursor := some s.table.capacity } :=
      ⟨rfl, rfl, rfl, rfl⟩
    rw [History.after, ← tracks.capacity]
    exact grownTracks.congr (grownTracks.valid.congr same rfl rfl rfl) same rfl rfl rfl rfl

theorem tracks_reset {length : UInt64} (tracks : s.table.Tracks l h)
    (ok : s.reset length = (.ok (), after)) : after.table.Tracks l (h.after l (.reset length)) := by
  have step := resets tracks.valid.intact.stored length
  rw [ok] at step
  obtain ⟨segments, sizes, rfl⟩ := step.of_ok rfl
  obtain ⟨valid, shows⟩ := fresh_done tracks.valid.intact.stored tracks.valid.elements sizes
    s.table.growable s.table.listeners
  obtain rfl := tracks.layout
  exact .fresh rfl valid shows rfl rfl rfl rfl rfl

/-- Listeners are not recorded. -/
theorem tracks_of_listeners {t t' : Table} (tracks : t.Tracks l h)
    (same : ∃ listeners, t' = { t with listeners }) : t'.Tracks l h := by
  have valid := valid_of_listeners tracks.valid same
  obtain ⟨listeners, rfl⟩ := same
  exact tracks.congr valid ⟨rfl, rfl, rfl, rfl⟩ rfl rfl rfl tracks.cursor

theorem tracks_done {call : Call} (tracks : s.table.Tracks l h)
    (done : s.perform call = (.ok (), after)) : after.table.Tracks l (h.after l call) := by
  cases call with
  | select row =>
    obtain ⟨t, ok, rfl⟩ := onTable_eq_ok.mp done
    have valid := tracks.valid.select ok
    obtain ⟨-, rfl⟩ := select_eq_ok.mp ok
    exact tracks.congr valid ⟨rfl, rfl, rfl, rfl⟩ rfl rfl rfl rfl
  | write field value =>
    obtain ⟨t, ok, rfl⟩ := onTable_eq_ok.mp done
    exact tracks.write ok
  | selectMember member =>
    obtain ⟨t, ok, rfl⟩ := onTable_eq_ok.mp done
    exact tracks.selectMember ok
  | clear =>
    obtain ⟨t, ok, rfl⟩ := onTable_eq_ok.mp done
    exact tracks.clear ok
  | clearUnion union =>
    obtain ⟨t, ok, rfl⟩ := onTable_eq_ok.mp done
    exact tracks.clearUnion ok
  | commit =>
    obtain ⟨t, ok, rfl⟩ := onTable_eq_ok.mp done
    obtain ⟨result, ok⟩ := map_snd_eq_ok ok
    exact tracks.commit ok
  | rollback =>
    cases done
    exact tracks.rollback
  | listen path label =>
    obtain ⟨t, ok, rfl⟩ := onTable_eq_ok.mp done
    exact tracks_of_listeners tracks (listen_eq_ok ok)
  | listenField field label =>
    obtain ⟨t, ok, rfl⟩ := onTable_eq_ok.mp done
    exact tracks_of_listeners tracks (listenField_eq_ok ok)
  | listenStruct struct label =>
    obtain ⟨t, ok, rfl⟩ := onTable_eq_ok.mp done
    exact tracks_of_listeners tracks (listenStruct_eq_ok ok)
  | unlisten id =>
    cases done
    exact tracks_of_listeners tracks ⟨_, rfl⟩
  | resize length => exact tracks_resize tracks done
  | push => exact tracks_push tracks done
  | reset length => exact tracks_reset tracks done
  | createOrClearList struct length =>
    rw [table_createOrClearList done]
    exact tracks
  | inList struct call =>
    rw [table_inList done]
    exact tracks

theorem table_of_failed {call : Call} {e : Error} (failed : s.perform call = (.error e, after))
    (fixed : ¬ call.SetsLength) : after.table = s.table := by
  cases call with
  | rollback => cases failed
  | unlisten => cases failed
  | resize | push | reset => exact absurd trivial fixed
  | createOrClearList => exact table_createOrClearList failed
  | inList => exact table_inList failed
  | select | write | selectMember | clear | clearUnion | commit | listen | listenField
  | listenStruct => exact table_of_onTable_error failed

theorem tracks_new {capacity : UInt64} {growable : Bool} (compiled : l.Compiled)
    (ok : allocate l capacity growable = .ok s) : s.table.Tracks l { capacity } := by
  obtain ⟨t, tableOk, rfl⟩ := table_allocate ok
  obtain ⟨valid, shows⟩ := allocate_spec compiled.soundTyped tableOk
  obtain ⟨rfl, -⟩ := allocate_eq_ok tableOk
  exact .fresh rfl valid shows rfl rfl rfl rfl rfl

/-- A storage is what its history says. -/
theorem tracks_of_recorded (compiled : l.Compiled) (recorded : Recorded l s h) :
    s.table.Tracks l h := by
  induction recorded with
  | new ok => exact tracks_new compiled ok
  | done _ ok ih => exact tracks_done ih ok
  | failed _ failed fixed ih =>
    rw [table_of_failed failed fixed]
    exact ih
  | lists _ _ ih => exact ih

/-- The operations on other rows do not matter for what a row holds. -/
theorem agree_contents (l : Layout) (h : History) (row : UInt64) :
    AgreeAt l row (h.contents l) ((blank l).replay l h.committed) := by
  have own : AgreeAt l row ((blank l).replay l (h.ops row)) ((blank l).replay l h.committed) :=
    replay_filter fun op _ same => decide_eq_true same
  exact ⟨own.present, own.tag, own.region, own.value⟩

/-- The storage has the rows, the cursor and the staged operations that its history
says. Its rows hold the replay of what was committed to each of them, and a committed
read of any field gives what the history says, errors included. -/
structure Refines (l : Layout) (s : Storage) (h : History) : Prop where
  capacity : s.table.capacity = h.capacity
  cursor : s.table.cursor = h.cursor
  staged : s.table.pending.ops.toList = h.staged
  shows : s.table.Shows (h.contents l)
  read : ∀ row < h.capacity, ∃ t, s.table.select row = .ok t ∧
    ∀ id f, l.field? id = some f → t.read .committed (l.handleOf f) = h.read l f row

/-- A storage refines its history. -/
theorem refines_of_recorded (compiled : l.Compiled) (recorded : Recorded l s h) :
    Refines l s h := by
  have tracks := tracks_of_recorded compiled recorded
  have shows : s.table.Shows (h.contents l) := by
    refine tracks.shows.congr fun row _ => ?_
    rw [tracks.layout]
    exact agree_contents l h row
  refine ⟨tracks.capacity, tracks.cursor, tracks.staged, shows, fun row inside => ?_⟩
  have here : row < s.table.capacity := tracks.capacity ▸ inside
  have selected : s.table.select row = .ok { s.table with cursor := some row } :=
    select_eq_ok.mpr ⟨here, rfl⟩
  refine ⟨_, selected, fun id f field => ?_⟩
  have sound := tracks.layout ▸ tracks.valid.sound
  have found : l.fieldOf (l.handleOf f) = .ok f := by
    refine fieldOf_eq_ok.mpr ⟨rfl, ?_⟩
    rw [Layout.handleOf, sound.field?_id field]
    exact field
  rw [read_select selected, tracks.layout, found]
  change s.table.readAt .committed f row = _
  rw [shows.sees.readAt tracks.valid.sound here (tracks.layout ▸ field), tracks.layout,
    History.readAt_contents sound field]

/-- The second order is given a price in cents and then as a rate, and the first one
is selected before the commit. -/
theorem refines_of_recorded_priced : ∃ s h, orderLayout.Compiled ∧ Recorded orderLayout s h ∧
    Refines orderLayout s h ∧
    ∃ f, orderLayout.field? 4 = some f ∧ h.read orderLayout f 1 = .ok (.float 7) := by
  have allocated : allocate orderLayout 2 false = .ok orders := rfl
  have new : Recorded orderLayout orders { capacity := 2 } := .new allocated
  have second := new.next (.select 1) rfl
  have cents := second.next (.write ⟨orderLayout.fingerprint, 3, .int64⟩ (.int 250)) rfl
  have rate := cents.next (.write ⟨orderLayout.fingerprint, 4, .float32⟩ (.float 7)) rfl
  have first := rate.next (.select 0) rfl
  have committed := first.next .commit rfl
  have refines := refines_of_recorded orderLayout_compiled committed
  obtain ⟨t, selected, read⟩ := refines.read 1 (by decide)
  refine ⟨_, _, orderLayout_compiled, committed, refines, _, rfl, ?_⟩
  rw [← read 4 _ rfl]
  cases selected
  rfl

end Storage

end BitRecords
