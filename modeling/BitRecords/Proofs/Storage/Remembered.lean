import BitRecords.Proofs.Layout.Numbering
import BitRecords.Proofs.Storage.Obtainable

/-!
# What `clear` acts on

A storage remembers the union that was written or selected last, now and as of its last
commit. Both are told by the calls that its operations came from: the journal of a
storage has those that were committed and those that are still pending, and the union of
the last one that chose a member is what `clear` acts on. A commit moves the pending calls
over, a rollback drops them, and neither does anything to a journal without pending calls,
so it makes no difference that the storage does nothing then.
-/

namespace BitRecords

open Layout LayoutRules Table

/-- A field with a member number is in a union. -/
theorem Layout.LaidOut.isUnion_of_tag {l : Layout} (laid : l.LaidOut) {id : FieldId}
    {f : FieldLayout} {tag : Nat} (field : l.field? id = some f) (member : f.tag = some tag) :
    l.IsUnion f.owner := by
  have all := laid.throughout (Q := fun l => ∀ id f tag, l.field? id = some f →
    f.tag = some tag → l.IsUnion f.owner) fun r s part stride placed id f tag field member => by
      obtain ⟨linked, -⟩ := (LayoutRules.placement_linked r).1 _ _ _ _ _ placed
      obtain ⟨x, inside, owns⟩ := linked.owners f (List.mem_of_getElem? field)
      obtain ⟨i, here⟩ := List.mem_iff_getElem?.mp inside
      have number : x.id = i := (linked.structs i x here).trans (Nat.zero_add i)
      have lies := owns.lies
      cases union : x.union with
      | none =>
        rw [union] at lies
        cases lies.1.symm.trans member
      | some u =>
        refine ⟨x, u, ?_, union⟩
        rw [owns.owner, number]
        exact here
  exact all.here id f tag field member

/-- The call issues an operation if it succeeds. -/
def Call.issues : Call → Bool
  | .write .. | .selectMember .. | .clear | .clearUnion .. => true
  | _ => false

/-- The union that a call chooses a member of. Only writes and selections of members do
that. -/
def Call.chosen? (l : Layout) : Call → Option StructId
  | .write handle _ | .selectMember handle =>
    (l.field? handle.id).bind fun f => f.tag.map fun _ => f.owner
  | _ => none

/-- The calls whose operations were committed or are pending, in the order in which they
were made. -/
structure Journal where
  committed : List Call := []
  pending : List Call := []

namespace Journal

/-- The journal after a call that succeeds. -/
def after (j : Journal) : Call → Journal
  | .commit => { committed := j.committed ++ j.pending }
  | .rollback => { j with pending := [] }
  | .reset _ => {}
  | call => if call.issues then { j with pending := j.pending ++ [call] } else j

/-- The journal after a call with its outcome. -/
def note (j : Journal) (call : Call) : Except Error Unit → Journal
  | .ok () => j.after call
  | .error _ => j

/-- The union that a member was chosen of last. -/
def chosen? (j : Journal) (l : Layout) : Option StructId :=
  ((j.committed ++ j.pending).filterMap (·.chosen? l)).getLast?

variable {j : Journal} {l : Layout} {t t' : Table}

theorem after_of_issues {call : Call} (issues : call.issues = true) :
    j.after call = { j with pending := j.pending ++ [call] } := by
  cases call with
  | write | selectMember | clear | clearUnion => rfl
  | select | commit | rollback | listen | listenField | listenStruct | unlisten | resize | push
  | reset | createOrClearList | inList => cases issues

theorem chosen?_stage (j : Journal) (call : Call) (l : Layout) :
    chosen? { j with pending := j.pending ++ [call] } l =
      (call.chosen? l).or (j.chosen? l) := by
  simp only [chosen?, ← List.append_assoc, List.filterMap_append, List.getLast?_append]
  cases chosen : call.chosen? l with
  | none => simp [chosen]
  | some id => simp [chosen]

theorem chosen?_commit (j : Journal) (l : Layout) :
    (j.after .commit).chosen? l = j.chosen? l := by
  simp only [after, chosen?, List.append_nil]

theorem rollback_of_idle (idle : j.pending = []) : j.after .rollback = j := by
  rw [after, ← idle]

theorem commit_of_idle (idle : j.pending = []) : j.after .commit = j := by
  obtain ⟨committed, pending⟩ := j
  cases idle
  rw [after, List.append_nil]

theorem isUnion_of_chosen? (laid : l.LaidOut) {union : StructId}
    (chosen : j.chosen? l = some union) : l.IsUnion union := by
  obtain ⟨call, -, chosen⟩ := List.mem_filterMap.mp (List.mem_of_getLast? chosen)
  have member {handle : FieldHandle} (chosen : ((l.field? handle.id).bind fun f =>
      f.tag.map fun _ => f.owner) = some union) : l.IsUnion union := by
    obtain ⟨f, field, chosen⟩ := Option.bind_eq_some_iff.mp chosen
    obtain ⟨tag, isMember, rfl⟩ := Option.map_eq_some_iff.mp chosen
    exact laid.isUnion_of_tag field isMember
  cases call with
  | write | selectMember => exact member chosen
  | select | clear | clearUnion | commit | rollback | listen | listenField | listenStruct
  | unlisten | resize | push | reset | createOrClearList | inList => cases chosen

/-- The table remembers what the journal tells: the union that was chosen last, and the
one that would have been if the pending calls were dropped. -/
structure Recalls (j : Journal) (l : Layout) (t : Table) : Prop where
  layout : t.layout = l
  size : t.pending.ops.size = j.pending.length
  active : t.activeUnion = j.chosen? l
  settled : t.committedUnion = (j.after .rollback).chosen? l

namespace Recalls

theorem fresh (layout : t.layout = l) (pending : t.pending = .empty)
    (active : t.activeUnion = none) (settled : t.committedUnion = none) :
    Recalls {} l t where
  layout := layout
  size := by
    rw [pending]
    rfl
  active := active
  settled := settled

variable (recalls : j.Recalls l t)
include recalls

/-- Rows, cursors and listeners do not matter. -/
theorem congr (layout : t'.layout = t.layout) (pending : t'.pending = t.pending)
    (active : t'.activeUnion = t.activeUnion) (settled : t'.committedUnion = t.committedUnion) :
    j.Recalls l t' where
  layout := layout.trans recalls.layout
  size := by
    rw [pending]
    exact recalls.size
  active := active.trans recalls.active
  settled := settled.trans recalls.settled

theorem rows (same : SameDuties t t') : j.Recalls l t' := by
  rw [SameDuties] at same
  rw [same]
  exact recalls.congr rfl rfl rfl rfl

theorem listened (same : ∃ listeners, t' = { t with listeners }) : j.Recalls l t' := by
  obtain ⟨listeners, rfl⟩ := same
  exact recalls.congr rfl rfl rfl rfl

theorem idle_iff : j.pending = [] ↔ t.pending.ops = #[] := by
  rw [← List.length_eq_zero_iff, ← recalls.size, Array.size_eq_zero_iff]

/-- An operation was staged, for a call that chose the union that is remembered now, if
it chose any. -/
theorem stage {call : Call} (stages : Stages t t') (issues : call.issues = true)
    (active : t'.activeUnion = (call.chosen? l).or t.activeUnion) :
    (j.after call).Recalls l t' := by
  obtain ⟨op, pushed⟩ := stages.pushed
  rw [after_of_issues issues]
  refine ⟨?_, ?_, ?_, ?_⟩
  · rw [stages.same]
    exact recalls.layout
  · rw [pushed, Array.size_push, recalls.size, List.length_append, List.length_singleton]
  · rw [active, recalls.active, chosen?_stage]
  · rw [stages.same]
    exact recalls.settled

theorem chosen?_of_fieldOf {handle : FieldHandle} {f : FieldLayout}
    (found : t.layout.fieldOf handle = .ok f) :
    ((l.field? handle.id).bind fun f => f.tag.map fun _ => f.owner) =
      f.tag.map fun _ => f.owner := by
  obtain ⟨-, field⟩ := fieldOf_eq_ok.mp found
  rw [← recalls.layout, field, Option.bind_some]

theorem write {handle : FieldHandle} {value : Value} (ok : t.write handle value = .ok t') :
    (j.after (.write handle value)).Recalls l t' := by
  refine recalls.stage (stages_write ok) rfl ?_
  obtain ⟨row, f, bits, -, found, -, rfl⟩ := write_eq_ok.mp ok
  rw [Call.chosen?, recalls.chosen?_of_fieldOf found, Table.staged]
  cases f.tag with
  | none => rfl
  | some tag => rfl

theorem selectMember {handle : FieldHandle} (ok : t.selectMember handle = .ok t') :
    (j.after (.selectMember handle)).Recalls l t' := by
  refine recalls.stage (stages_selectMember ok) rfl ?_
  obtain ⟨row, f, tag, -, found, member, rfl⟩ := selectMember_eq_ok.mp ok
  rw [Call.chosen?, recalls.chosen?_of_fieldOf found, member]
  rfl

theorem clear (ok : t.clear = .ok t') : (j.after .clear).Recalls l t' := by
  refine recalls.stage (stages_clear ok) rfl ?_
  obtain ⟨row, union, -, -, rfl⟩ := clear_eq_ok.mp ok
  rfl

theorem clearUnion {handle : StructHandle} (ok : t.clearUnion handle = .ok t') :
    (j.after (.clearUnion handle)).Recalls l t' := by
  refine recalls.stage (stages_clearUnion ok) rfl ?_
  obtain ⟨row, s, -, -, -, rfl⟩ := clearUnion_eq_ok.mp ok
  rfl

theorem commit {result : CommitResult} (ok : t.commit = .ok (result, t')) :
    (j.after .commit).Recalls l t' := by
  cases commits_of_ok ok with
  | idle none =>
    rw [commit_of_idle (recalls.idle_iff.mpr none)]
    exact recalls
  | applied some checked =>
    have same := Valid.sameApart_applyPending t
    have chosen : t.activeUnion = (j.after .commit).chosen? l := by
      rw [chosen?_commit]
      exact recalls.active
    refine ⟨?_, ?_, ?_, ?_⟩
    · rw [layout_applyPending]
      exact recalls.layout
    · rw [same]
      rfl
    · rw [same]
      exact chosen
    · rw [same]
      exact chosen

theorem rollback : (j.after .rollback).Recalls l t.rollback := by
  unfold Table.rollback
  by_cases idle : t.pending.isEmpty
  · rw [if_pos idle, rollback_of_idle (recalls.idle_iff.mpr (by
      simpa [PendingLog.isEmpty] using idle))]
    exact recalls
  · rw [if_neg idle]
    exact ⟨recalls.layout, rfl, recalls.settled, recalls.settled⟩

end Recalls

end Journal

namespace Storage

open Journal

variable {s after : Storage} {j : Journal} {l : Layout}

/-- A reset that succeeds forgets everything, and one that fails forgets nothing. -/
theorem recalls_reset (recalls : j.Recalls l s.table) (length : UInt64) :
    (j.note (.reset length) (s.reset length).1).Recalls l (s.reset length).2.table := by
  unfold reset
  dsimp only
  split
  · exact recalls.congr rfl rfl rfl rfl
  · exact .fresh recalls.layout rfl rfl rfl

/-- A call that is not in the journal may fail or not. -/
theorem note_of_fixed {call : Call} (fixed : j.after call = j) (result : Except Error Unit) :
    j.note call result = j := by
  cases result with
  | ok => exact fixed
  | error => rfl

theorem recalls_onTable {call : Call} {outcome : Except Error Table}
    (recalls : j.Recalls l s.table)
    (done : ∀ t, outcome = .ok t → (j.after call).Recalls l t) :
    (j.note call (s.onTable outcome).1).Recalls l (s.onTable outcome).2.table := by
  cases outcome with
  | ok t => exact done t rfl
  | error => exact recalls

/-- A call changes what is remembered as it changes the journal. -/
theorem recalls_perform (recalls : j.Recalls l s.table) (call : Call) :
    (j.note call (s.perform call).1).Recalls l (s.perform call).2.table := by
  cases call with
  | select row => exact recalls_onTable recalls fun t ok => recalls.rows (sameDuties_select ok)
  | write field value => exact recalls_onTable recalls fun t ok => recalls.write ok
  | selectMember member => exact recalls_onTable recalls fun t ok => recalls.selectMember ok
  | clear => exact recalls_onTable recalls fun t ok => recalls.clear ok
  | clearUnion union => exact recalls_onTable recalls fun t ok => recalls.clearUnion ok
  | commit =>
    refine recalls_onTable recalls fun t ok => ?_
    obtain ⟨result, ok⟩ := map_snd_eq_ok ok
    exact recalls.commit ok
  | rollback => exact recalls.rollback
  | listen path label =>
    exact recalls_onTable recalls fun t ok => recalls.listened (listen_eq_ok ok)
  | listenField field label =>
    exact recalls_onTable recalls fun t ok => recalls.listened (listenField_eq_ok ok)
  | listenStruct struct label =>
    exact recalls_onTable recalls fun t ok => recalls.listened (listenStruct_eq_ok ok)
  | unlisten id => exact recalls.listened ⟨_, rfl⟩
  | resize length =>
    rw [note_of_fixed rfl]
    exact recalls.rows (alters_resize s length).table
  | push =>
    rw [note_of_fixed rfl]
    exact recalls.rows (alters_push s).table
  | reset length => exact recalls_reset recalls length
  | createOrClearList struct length =>
    have same : (s.perform (.createOrClearList struct length)).2.table = s.table :=
      table_createOrClearList rfl
    rw [note_of_fixed rfl, same]
    exact recalls
  | inList struct call =>
    have same : (s.perform (.inList struct call)).2.table = s.table := table_inList rfl
    rw [note_of_fixed rfl, same]
    exact recalls

/-- The journal of a storage after calls, one after the other, whether or not they
succeed. -/
def journal (s : Storage) (j : Journal) : List Call → Journal
  | [] => j
  | call :: rest => (s.perform call).2.journal (j.note call (s.perform call).1) rest

theorem recalls_run (recalls : j.Recalls l s.table) (calls : List Call) :
    (s.journal j calls).Recalls l (s.run calls).table := by
  induction calls generalizing s j with
  | nil => exact recalls
  | cons call rest ih => exact ih (recalls_perform recalls call)

/-- The storage has just been made, restored or reset. -/
inductive Begins : Storage → Prop where
  | new {l : Layout} {capacity : UInt64} {growable : Bool} {s : Storage} :
      allocate l capacity growable = .ok s → Begins s
  | restored {l : Layout} {snapshot : Snapshot} {s : Storage} : snapshot.restore l = .ok s →
      Begins s
  | reset {before s : Storage} {length : UInt64} : before.reset length = (.ok (), s) → Begins s

/-- A storage begins with nothing to remember. -/
theorem Begins.recalls (begins : s.Begins) : Recalls {} s.table.layout s.table := by
  cases begins with
  | new ok =>
    obtain ⟨t, tableOk, rfl⟩ := table_allocate ok
    obtain ⟨rfl, -⟩ := allocate_eq_ok tableOk
    exact .fresh rfl rfl rfl rfl
  | @restored l snapshot _ ok =>
    obtain ⟨fingerprint, capacity, rowStride, growable, segments, objects, lists⟩ := snapshot
    rw [Snapshot.restore] at ok
    split at ok
    · cases ok
    · obtain ⟨-, -, ok⟩ := bind_eq_ok.mp ok
      obtain ⟨buffers, -, ok⟩ := bind_eq_ok.mp ok
      obtain ⟨inner, -, ok⟩ := bind_eq_ok.mp ok
      cases ok
      exact .fresh rfl rfl rfl rfl
  | reset ok =>
    unfold Storage.reset at ok
    dsimp only at ok
    split at ok
    · cases ok
    · cases ok
      exact .fresh rfl rfl rfl rfl

/-- In the selected row, `clear` acts on the union: it stages that the union has no
selected member there, as `clearUnion` does. -/
structure ClearActsOn (s : Storage) (row : UInt64) (union : StructId) : Prop where
  isUnion : s.table.layout.IsUnion union
  staged : s.perform .clear = (.ok (), { s with table := s.table.stageSelect union row 0 })
  same : ∀ flags, s.perform .clear =
    s.perform (.clearUnion ⟨s.table.layout.fingerprint, union, flags⟩)

theorem clearActsOn_of_target {row : UInt64} {union : StructId}
    (numbered : s.table.layout.Numbered) (selected : s.table.selected = .ok row)
    (isUnion : s.table.layout.IsUnion union) (target : s.table.clearTarget? = some union) :
    s.ClearActsOn row union := by
  have cleared : s.table.clear = .ok (s.table.stageSelect union row 0) :=
    clear_eq_ok.mpr ⟨row, union, selected, target, rfl⟩
  have staged : s.perform .clear = (.ok (), { s with table := s.table.stageSelect union row 0 }) :=
    onTable_eq_ok.mpr ⟨_, cleared, rfl⟩
  refine ⟨isUnion, staged, fun flags => ?_⟩
  obtain ⟨x, u, struct, region⟩ := isUnion
  have same : s.table.clearUnion ⟨s.table.layout.fingerprint, union, flags⟩ =
      .ok (s.table.stageSelect union row 0) := by
    refine clearUnion_eq_ok.mpr ⟨row, x, selected, structOf_eq_ok.mpr ⟨rfl, struct⟩, ?_, ?_⟩
    · rw [region]
      rfl
    · rw [numbered.structs union x struct]
  rw [staged]
  exact (onTable_eq_ok.mpr ⟨_, same, rfl⟩).symm

/-- After any run of calls on a storage that was made, restored or reset, `clear` acts on
the union that a member was chosen of last, by a write or a selection that was committed
or is pending. Without one it acts on the root if that is a union, and else it fails and
stages nothing. -/
theorem clear_run (begins : s.Begins) (laid : s.table.layout.LaidOut) (calls : List Call)
    {row : UInt64} (selected : (s.run calls).table.selected = .ok row) :
    (∀ union, (s.journal {} calls).chosen? s.table.layout = some union →
      (s.run calls).ClearActsOn row union) ∧
    ((s.journal {} calls).chosen? s.table.layout = none → s.table.layout.IsUnion 0 →
      (s.run calls).ClearActsOn row 0) ∧
    ((s.journal {} calls).chosen? s.table.layout = none → ¬ s.table.layout.IsUnion 0 →
      (s.run calls).perform .clear =
        (.error (.unselectedUnion s.table.layout.rootName row), s.run calls)) := by
  have recalls := recalls_run begins.recalls calls
  generalize s.run calls = after at recalls selected
  generalize s.journal {} calls = j at recalls
  have numbered : after.table.layout.Numbered := by
    rw [recalls.layout]
    exact laid.numbered
  refine ⟨fun union chosen => ?_, fun none isUnion => ?_, fun none single => ?_⟩
  · refine clearActsOn_of_target numbered selected ?_ ?_
    · rw [recalls.layout]
      exact isUnion_of_chosen? laid chosen
    · rw [clearTarget?, recalls.active, chosen]
  · refine clearActsOn_of_target numbered selected ?_ ?_
    · rw [recalls.layout]
      exact isUnion
    · rw [clearTarget?, recalls.active, none]
      obtain ⟨x, u, struct, region⟩ := isUnion
      simp [recalls.layout, struct, region]
  · have target : after.table.clearTarget? = .none := by
      rw [clearTarget?, recalls.active, none, recalls.layout]
      refine Option.map_eq_none_iff.mpr (Option.eq_none_iff_forall_ne_some.mpr ?_)
      intro u found
      obtain ⟨x, struct, region⟩ := Option.bind_eq_some_iff.mp found
      exact single ⟨x, u, struct, region⟩
    have failed : after.table.clear =
        .error (.unselectedUnion s.table.layout.rootName row) := by
      rw [Table.clear, selected, target, recalls.layout]
      rfl
    rw [perform, failed, onTable]

/-- A cents price is written to the second order and committed. The rate that is selected
for the first one then does not count when it is dropped, and neither does what fails or
finds nothing to do. Had the price been dropped too, there would be nothing to act on. -/
theorem clear_run_orders :
    (orders.run [.select 1, .write ⟨orderLayout.fingerprint, 3, .int64⟩ (.int 250), .commit,
      .select 0, .selectMember ⟨orderLayout.fingerprint, 4, .float32⟩, .rollback, .rollback,
      .commit, .resize 5]).ClearActsOn 0 2 ∧
    (let dropped := orders.run [.select 1,
      .write ⟨orderLayout.fingerprint, 3, .int64⟩ (.int 250), .rollback]
    dropped.perform .clear = (.error (.unselectedUnion "order" 1), dropped)) := by
  have allocated : allocate orderLayout 2 false = .ok orders := rfl
  have begins : orders.Begins := .new allocated
  have laid : orders.table.layout.LaidOut := orderLayout_compiled.laidOut
  have single : ¬ orders.table.layout.IsUnion 0 := by
    rintro ⟨s, u, struct, union⟩
    cases struct
    cases union
  exact ⟨(clear_run begins laid _ rfl).1 2 (by decide +kernel),
    (clear_run begins laid _ rfl).2.2 (by decide +kernel) single⟩

end Storage

end BitRecords
