import BitRecords.Proofs.Layout.Numbering
import BitRecords.Proofs.Storage.Delta
import BitRecords.Proofs.Storage.Places

/-!
# Listeners

Which listeners a storage has is known from what the storage was told and answered since
it came to be: from the ids that it gave, and from those that it took back. A commit
tells them of its changes and nothing else does. For each change it tells those whose
target is the field or a struct around it, in the order of their registration.
-/

namespace BitRecords

open Layout

/-- A target covers a field if it is the field or a struct around it. -/
inductive ListenTarget.Covers (l : Layout) (field : FieldId) : ListenTarget → Prop where
  | field : Covers l field (.field field)
  | struct {id : StructId} {f : FieldLayout} : l.field? field = some f → l.Encloses id f.owner →
      Covers l field (.struct id)

theorem ListenTarget.matches_iff {l : Layout} (numbered : l.Numbered) (target : ListenTarget)
    (field : FieldId) : target.matches l field = true ↔ target.Covers l field := by
  cases target with
  | field id =>
    rw [ListenTarget.matches, beq_iff_eq]
    constructor
    · rintro rfl
      exact .field
    · intro covers
      cases covers
      rfl
  | struct id =>
    rw [ListenTarget.matches, numbered.isWithin_iff]
    constructor
    · rintro ⟨f, found, encloses⟩
      exact .struct found encloses
    · intro covers
      cases covers with
      | struct found encloses => exact ⟨_, found, encloses⟩

def Layout.Target.listened : Target → ListenTarget
  | .field f => .field f.id
  | .struct s => .struct s.id

/-- The target and the label that a call registers if it succeeds. -/
def Call.registers? (l : Layout) : Call → Option (ListenTarget × String)
  | .listen path label => (l.target? path).map fun target => (target.listened, label)
  | .listenField handle label => some (.field handle.id, label)
  | .listenStruct handle label => some (.struct handle.id, label)
  | _ => none

/-- The listeners of a storage as they are known from outside, with the ids that were
given and those that were taken back. -/
structure Roll where
  given : List Nat := []
  dropped : List Nat := []
  listeners : List Listener := []

namespace Roll

def register (roll : Roll) (id : Nat) (target : ListenTarget) (label : String) : Roll :=
  { roll with
    given := roll.given ++ [id], listeners := roll.listeners ++ [⟨id, target, label⟩] }

def unregister (roll : Roll) (id : Nat) (found : Bool) : Roll :=
  { roll with
    dropped := if found then roll.dropped ++ [id] else roll.dropped
    listeners := roll.listeners.filter (·.id != id) }

/-- The roll after a call and its answer. -/
def note (roll : Roll) (l : Layout) (told : Call × Except Error Reply) : Roll :=
  match told.2 with
  | .ok (.listener id) =>
    (told.1.registers? l).elim roll fun registered =>
      roll.register id registered.1 registered.2
  | .ok (.truth found) =>
    match told.1 with
    | .unlisten id => roll.unregister id found
    | _ => roll
  | _ => roll

/-- The notices that are due after a call and its answer: for each change of a successful
commit in order, one to each listener whose target covers its field, in the order of
registration. -/
def due (roll : Roll) (l : Layout) : Call × Except Error Reply → List Notice
  | (.commit, .ok (.committed result)) =>
    result.changes.flatMap fun change =>
      (roll.listeners.filter (·.target.matches l change.field.id)).map fun listener =>
        ⟨listener.id, listener.label, change⟩
  | _ => []

/-- The roll is that of a registry. Ids are given one after the other, and a listener has
its id until that is taken back. -/
structure Enrolled (roll : Roll) (r : ListenerRegistry) : Prop where
  listeners : r.listeners = roll.listeners
  given : roll.given = List.range' 1 r.lastId
  dropped : ∀ id ∈ roll.dropped, id ∈ roll.given
  ids : roll.listeners.map (·.id) = roll.given.filter fun id => !roll.dropped.contains id

variable {roll : Roll} {r : ListenerRegistry}

namespace Enrolled

theorem empty : Enrolled {} {} where
  listeners := rfl
  given := rfl
  dropped _ none := by cases none
  ids := rfl

variable (enrolled : Enrolled roll r)
include enrolled

theorem nodup_given : roll.given.Nodup := by
  rw [enrolled.given]
  exact List.nodup_range'

theorem nodup_ids : (roll.listeners.map (·.id)).Nodup := by
  rw [enrolled.ids]
  exact enrolled.nodup_given.filter _

theorem register (target : ListenTarget) (label : String) :
    Enrolled (roll.register (r.register target label).1 target label)
      (r.register target label).2 := by
  have fresh : r.lastId + 1 ∉ roll.given := by
    rw [enrolled.given, List.mem_range'_1]
    omega
  refine ⟨?_, ?_, ?_, ?_⟩
  · exact congrArg (· ++ _) enrolled.listeners
  · change roll.given ++ [r.lastId + 1] = List.range' 1 (r.lastId + 1)
    rw [List.range'_concat, enrolled.given, Nat.one_mul, Nat.add_comm]
  · exact fun id member => List.mem_append_left _ (enrolled.dropped id member)
  · have kept : r.lastId + 1 ∉ roll.dropped := fun member => fresh (enrolled.dropped _ member)
    simp only [Roll.register, ListenerRegistry.register, List.map_append, List.filter_append,
      enrolled.ids]
    simp [kept]

/-- An id is found exactly if it was given and not taken back. -/
theorem found_iff (id : Nat) :
    (r.unregister id).1 = decide (id ∈ roll.given ∧ id ∉ roll.dropped) := by
  have known : id ∈ roll.listeners.map (·.id) ↔ id ∈ roll.given ∧ id ∉ roll.dropped := by
    rw [enrolled.ids]
    simp
  rw [Bool.eq_iff_iff, decide_eq_true_eq, ← known, ListenerRegistry.unregister, bne_iff_ne,
    enrolled.listeners, ne_eq, List.length_filter_eq_length_iff]
  simp

theorem unregister (id : Nat) :
    Enrolled (roll.unregister id (r.unregister id).1) (r.unregister id).2 := by
  have found := enrolled.found_iff id
  refine ⟨?_, enrolled.given, ?_, ?_⟩
  · exact congrArg (List.filter _) enrolled.listeners
  · intro other member
    simp only [Roll.unregister] at member
    split at member
    · next was =>
      rw [found, decide_eq_true_eq] at was
      rcases List.mem_append.mp member with old | new
      · exact enrolled.dropped other old
      · rw [List.mem_singleton.mp new]
        exact was.1
    · exact enrolled.dropped other member
  · have ids : (roll.listeners.filter (·.id != id)).map (·.id) =
        (roll.listeners.map (·.id)).filter (· != id) := by
      rw [List.filter_map]
      rfl
    simp only [Roll.unregister]
    rw [ids, enrolled.ids, List.filter_filter]
    refine List.filter_congr fun other given => ?_
    rw [found]
    by_cases same : other = id
    · by_cases gone : id ∈ roll.dropped <;> simp [same, gone, same ▸ given]
    · by_cases known : id ∈ roll.given ∧ id ∉ roll.dropped <;> simp [same, known]

end Enrolled

end Roll

/-- The call registers listeners or takes them back. -/
def Call.tends : Call → Bool
  | .listen .. | .listenField .. | .listenStruct .. | .unlisten .. => true
  | _ => false

namespace Table

variable {t : Table}

theorem listen_cases (t : Table) (path label : String) :
    (∃ e, t.listen path label = .error e) ∨ ∃ target, t.layout.target? path = some target ∧
      t.listen path label = .ok (t.register target.listened label) := by
  unfold listen
  cases found : t.layout.target? path with
  | none => exact .inl ⟨_, rfl⟩
  | some target =>
    cases target with
    | field f => exact .inr ⟨_, rfl, rfl⟩
    | struct s =>
      cases checked : checkListenable s with
      | error e => exact .inl ⟨e, by simp [checked, bind, Except.bind]⟩
      | ok =>
        refine .inr ⟨_, rfl, ?_⟩
        simp [checked, bind, Except.bind, pure, Except.pure, Target.listened]

theorem listenField_cases (numbered : t.layout.Numbered) (handle : FieldHandle) (label : String) :
    (∃ e, t.listenField handle label = .error e) ∨
      t.listenField handle label = .ok (t.register (.field handle.id) label) := by
  unfold listenField
  cases found : t.layout.fieldOf handle with
  | error e => exact .inl ⟨e, rfl⟩
  | ok f =>
    obtain ⟨-, field⟩ := fieldOf_eq_ok.mp found
    rw [← numbered.fields _ f field]
    exact .inr rfl

theorem listenStruct_cases (numbered : t.layout.Numbered) (handle : StructHandle)
    (label : String) : (∃ e, t.listenStruct handle label = .error e) ∨
      t.listenStruct handle label = .ok (t.register (.struct handle.id) label) := by
  unfold listenStruct
  cases found : t.layout.structOf handle with
  | error e => exact .inl ⟨e, rfl⟩
  | ok s =>
    obtain ⟨-, struct⟩ := structOf_eq_ok.mp found
    rw [← numbered.structs _ s struct]
    cases checked : checkListenable s with
    | error e => exact .inl ⟨e, by simp [checked, bind, Except.bind]⟩
    | ok => exact .inr (by simp [checked, bind, Except.bind, pure, Except.pure])

end Table

namespace Storage

open Table

variable {s : Storage} {call : Call} {place : List Cell} {roll : Roll}

theorem listeners_onTable {outcome : Except Error Table}
    (kept : ∀ t, outcome = .ok t → t.listeners = s.table.listeners) :
    (s.onTable outcome).2.table.listeners = s.table.listeners := by
  cases outcome with
  | error => rfl
  | ok t => exact kept t rfl

/-- A storage gives an id only for what the call registers, unless the id is that of a
list. -/
theorem registers_of_answer {id : Nat} (gives : s.answer call = .ok (.listener id))
    (own : ∀ struct inner, call ≠ .inList struct inner) :
    ∃ registered, call.registers? s.table.layout = some registered := by
  have plain (outcome : Except Error Unit)
      (gives : (outcome.map fun _ => Reply.done) = .ok (.listener id)) : False := by
    cases outcome <;> cases gives
  cases call with
  | listen path label =>
    rcases listen_cases s.table path label with ⟨e, failed⟩ | ⟨target, found, -⟩
    · rw [answer, failed] at gives
      cases gives
    · exact ⟨_, by rw [Call.registers?, found]; rfl⟩
  | listenField | listenStruct => exact ⟨_, rfl⟩
  | inList struct inner => exact absurd rfl (own struct inner)
  | unlisten => cases gives
  | commit =>
    rw [answer] at gives
    cases outcome : s.table.commit <;> rw [outcome] at gives <;> cases gives
  | push =>
    rw [answer] at gives
    cases outcome : s.push.1 <;> rw [outcome] at gives <;> cases gives
  | select | write | selectMember | clear | clearUnion | rollback | resize | reset
  | createOrClearList => exact (plain _ gives).elim

/-- A call that does not tend to the listeners keeps them. -/
theorem listeners_perform (other : call.tends = false) :
    (s.perform call).2.table.listeners = s.table.listeners := by
  cases call with
  | listen | listenField | listenStruct | unlisten => cases other
  | select row =>
    exact listeners_onTable fun t ok => (sameDuties_select ok).listeners
  | write field value =>
    exact listeners_onTable fun t ok => (stages_write ok).listeners
  | selectMember member =>
    exact listeners_onTable fun t ok => (stages_selectMember ok).listeners
  | clear => exact listeners_onTable fun t ok => (stages_clear ok).listeners
  | clearUnion union =>
    exact listeners_onTable fun t ok => (stages_clearUnion ok).listeners
  | commit =>
    refine listeners_onTable fun t ok => ?_
    obtain ⟨result, ok⟩ := map_snd_eq_ok ok
    cases commits_of_ok ok with
    | idle => rfl
    | applied => exact listeners_applyPending s.table
  | rollback =>
    change s.table.rollback.listeners = _
    unfold Table.rollback
    split <;> rfl
  | resize length => exact (alters_resize s length).table.listeners
  | push => exact (alters_push s).table.listeners
  | reset length =>
    change (s.reset length).2.table.listeners = _
    unfold Storage.reset
    dsimp only
    split <;> rfl
  | createOrClearList struct length =>
    change (s.createOrClearList struct length).2.table.listeners = _
    unfold Storage.createOrClearList
    split
    · rfl
    · split
      · rfl
      · split <;> rfl
  | inList struct call =>
    unfold Storage.perform
    split <;> rfl

end Storage

namespace Roll

open Storage Table

variable {roll : Roll} {s : Storage} {call : Call}

theorem note_of_not_tends (other : call.tends = false) (l : Layout)
    (answer : Except Error Reply) : roll.note l (call, answer) = roll := by
  have none : call.registers? l = none := by
    cases call with
    | listen | listenField | listenStruct | unlisten => cases other
    | select | write | selectMember | clear | clearUnion | commit | rollback | resize | push
    | reset | createOrClearList | inList => rfl
  unfold note
  dsimp only
  split
  · rw [none]
    rfl
  · cases call with
    | unlisten => cases other
    | listen | listenField | listenStruct | select | write | selectMember | clear | clearUnion
    | commit | rollback | resize | push | reset | createOrClearList | inList => rfl
  · rfl

theorem due_of_ne_commit (roll : Roll) {l : Layout} (other : call ≠ .commit)
    (answer : Except Error Reply) : roll.due l (call, answer) = [] := by
  unfold due
  split
  · next same =>
    cases same
    exact absurd rfl other
  · rfl

/-- A registration is refused, or the listener is on the roll with its id. -/
theorem Enrolled.told (enrolled : roll.Enrolled s.table.listeners)
    {outcome : Except Error (Nat × Table)}
    (cases : (∃ e, outcome = .error e) ∨ ∃ target label,
      call.registers? s.table.layout = some (target, label) ∧
        outcome = .ok (s.table.register target label)) :
    (roll.note s.table.layout (call, outcome.map (.listener ·.1))).Enrolled
      (s.onTable (outcome.map (·.2))).2.table.listeners := by
  rcases cases with ⟨e, rfl⟩ | ⟨target, label, registers, rfl⟩
  · exact enrolled
  · have noted : roll.note s.table.layout
        (call, (Except.ok (s.table.register target label)).map (.listener ·.1)) =
          roll.register (s.table.listeners.register target label).1 target label := by
      simp only [note, Except.map, registers]
      rfl
    rw [noted]
    exact enrolled.register target label

/-- A call and its answer tell how the registry changes. -/
theorem Enrolled.perform (enrolled : roll.Enrolled s.table.listeners)
    (numbered : s.table.layout.Numbered) (call : Call) :
    (roll.note s.table.layout (call, s.answer call)).Enrolled
      (s.perform call).2.table.listeners := by
  cases tends : call.tends with
  | false =>
    rw [note_of_not_tends tends, listeners_perform tends]
    exact enrolled
  | true =>
    cases call with
    | listen path label =>
      rw [Storage.answer, Storage.perform]
      refine enrolled.told ?_
      rcases listen_cases s.table path label with failed | ⟨target, found, ok⟩
      · exact .inl failed
      · exact .inr ⟨_, label, by rw [Call.registers?, found]; rfl, ok⟩
    | listenField handle label =>
      rw [Storage.answer, Storage.perform]
      refine enrolled.told ?_
      rcases listenField_cases numbered handle label with failed | ok
      · exact .inl failed
      · exact .inr ⟨_, label, rfl, ok⟩
    | listenStruct handle label =>
      rw [Storage.answer, Storage.perform]
      refine enrolled.told ?_
      rcases listenStruct_cases numbered handle label with failed | ok
      · exact .inl failed
      · exact .inr ⟨_, label, rfl, ok⟩
    | unlisten id => exact enrolled.unregister id
    | select | write | selectMember | clear | clearUnion | commit | rollback | resize | push
    | reset | createOrClearList | inList => cases tends

end Roll

namespace Storage

open Table

/-- The roll of the storage at a place after a call on the one at the top. A storage that
is not there yet has no listeners. -/
def attend (s : Storage) (place : List Cell) (roll : Roll) (call : Call) : Roll :=
  match s.at? place with
  | none => {}
  | some x => (s.hears call place).elim roll (roll.note x.table.layout)

/-- The roll of the storage at a place after calls on the one at the top. -/
def rollAt (place : List Cell) (s : Storage) (roll : Roll) : List Call → Roll
  | [] => roll
  | call :: calls => rollAt place (s.perform call).2 (s.attend place roll call) calls

variable {s x : Storage} {place : List Cell} {roll : Roll}

theorem listeners_allocate {l : Layout} {length : UInt64} {growable : Bool}
    (ok : allocate l length growable = .ok s) : s.Throughout fun t => t.listeners = {} := by
  obtain ⟨t, tableOk, rfl⟩ := table_allocate ok
  obtain ⟨rfl, -⟩ := Table.allocate_eq_ok tableOk
  exact .intro rfl (List.forall_mem_nil _)

theorem listeners_create {l : Layout} {capacity : Option UInt64}
    (ok : create l capacity = .ok s) : s.Throughout fun t => t.listeners = {} := by
  obtain ⟨rows, -, ok⟩ := create_eq_ok.mp ok
  exact listeners_allocate ok

/-- A call keeps the rolls true. -/
theorem enrolled_attend (obtained : s.ObtainableOver LaidOut)
    (enrolled : ∀ x, s.at? place = some x → roll.Enrolled x.table.listeners) (call : Call) :
    ∀ x, (s.perform call).2.at? place = some x →
      (s.attend place roll call).Enrolled x.table.listeners := by
  intro after found
  unfold attend
  rcases at?_perform found with ⟨none, l, length, ok⟩ | ⟨x, here, rfl⟩
  · rw [none]
    rw [(listeners_allocate ok).here]
    exact .empty
  · rw [here]
    dsimp only
    cases hears : s.hears call place with
    | none => exact enrolled x here
    | some told =>
      obtain ⟨x', here', answer⟩ := hears_eq_some hears
      cases here.symm.trans here'
      have numbered : x.table.layout.Numbered :=
        ((obtained.layouts closed_laidOut).at? here).here.numbered
      have next := (enrolled x here).perform numbered told.1
      rw [← answer] at next
      exact next

/-- Calls keep the rolls true. -/
theorem enrolled_rollAt (obtained : s.ObtainableOver LaidOut)
    (enrolled : ∀ x, s.at? place = some x → roll.Enrolled x.table.listeners)
    (calls : List Call) : ∀ x, (s.run calls).at? place = some x →
      (rollAt place s roll calls).Enrolled x.table.listeners := by
  induction calls generalizing s roll with
  | nil => exact enrolled
  | cons call rest ih => exact ih (obtained.call call) (enrolled_attend obtained enrolled call)

/-- What listeners can rely on: `x` is the storage at the place in `s`, and the roll is
what it was told and answered about listeners. -/
structure Dispatches (s x : Storage) (place : List Cell) (roll : Roll) : Prop where
  /-- The listeners are those on the roll. -/
  listeners : x.table.listeners.listeners = roll.listeners
  /-- Each has an id of its own, and no id is given twice. -/
  distinct : (roll.listeners.map (·.id)).Nodup ∧ roll.given.Nodup
  /-- An id that it gives is a new one, and it is noted. -/
  noted : ∀ call id, x.answer call = .ok (.listener id) →
    (∀ struct inner, call ≠ .inList struct inner) →
      (roll.note x.table.layout (call, x.answer call)).given = roll.given ++ [id] ∧
        id ∉ roll.given
  /-- An id is found exactly if it was given and not taken back. -/
  unlisten : ∀ id, x.answer (.unlisten id) =
    .ok (.truth (decide (id ∈ roll.given ∧ id ∉ roll.dropped)))
  /-- A listener is for changes of its field, or of fields in its struct. -/
  covers : ∀ (target : ListenTarget) field,
    target.matches x.table.layout field = true ↔ target.Covers x.table.layout field
  /-- The listeners are given the notices that are due and no others. -/
  notices : ∀ call,
    s.noticesAt call place = (s.hears call place).elim [] (roll.due x.table.layout)
  /-- By then the rows are up to date. -/
  updated : ∀ result t, x.table.commit = .ok (result, t) → ∀ change ∈ result.changes,
    ∃ f, t.layout.field? change.field.id = some f ∧ t.content f change.row = change.new
  /-- A list that is created again keeps its listeners. -/
  kept : ∀ struct length cell list after, x.list? cell = some list →
    (x.createOrClearList struct length).2.list? cell = some after →
    after.table.listeners = list.table.listeners

theorem noticesOf_eq_due (listeners : x.table.listeners.listeners = roll.listeners)
    (call : Call) :
    noticesOf (call, x.answer call) = roll.due x.table.layout (call, x.answer call) := by
  by_cases commit : call = .commit
  · subst commit
    rw [answer]
    cases ok : x.table.commit with
    | error e => rfl
    | ok place =>
      obtain ⟨result, t⟩ := place
      change result.notices = result.changes.flatMap _
      cases commits_of_ok ok with
      | idle => rfl
      | applied =>
        rw [listeners_applyPending, layout_applyPending, ListenerRegistry.notices, listeners]
  · rw [noticesOf_of_ne_commit commit, roll.due_of_ne_commit commit]

theorem noticesAt_eq_due (here : s.at? place = some x)
    (listeners : x.table.listeners.listeners = roll.listeners) (call : Call) :
    s.noticesAt call place = (s.hears call place).elim [] (roll.due x.table.layout) := by
  rw [noticesAt_eq]
  cases hears : s.hears call place with
  | none => rfl
  | some told =>
    obtain ⟨x', here', answer⟩ := hears_eq_some hears
    cases here.symm.trans here'
    obtain ⟨call', reply⟩ := told
    obtain rfl : reply = x.answer call' := answer
    exact noticesOf_eq_due listeners call'

theorem noted_of_answer (enrolled : roll.Enrolled x.table.listeners)
    (numbered : x.table.layout.Numbered) {call : Call} {id : Nat}
    (gives : x.answer call = .ok (.listener id))
    (own : ∀ struct inner, call ≠ .inList struct inner) :
    (roll.note x.table.layout (call, x.answer call)).given = roll.given ++ [id] ∧
      id ∉ roll.given := by
  have noted : (roll.note x.table.layout (call, x.answer call)).given = roll.given ++ [id] := by
    obtain ⟨registered, registers⟩ := registers_of_answer gives own
    rw [gives, Roll.note]
    dsimp only
    rw [registers]
    rfl
  have nodup := (enrolled.perform numbered call).nodup_given
  rw [noted] at nodup
  exact ⟨noted, fun old => (List.nodup_append.mp nodup).2.2 id old id (by simp) rfl⟩

/-- The changes of a commit have the new contents of the rows. -/
theorem content_commit {t t' : Table} (laid : t.layout.LaidOut) {result : CommitResult}
    (ok : t.commit = .ok (result, t')) {change : Change} (member : change ∈ result.changes) :
    ∃ f, t'.layout.field? change.field.id = some f ∧ t'.content f change.row = change.new := by
  cases commits_of_ok ok with
  | idle => cases member
  | applied =>
    obtain ⟨cell, -, is⟩ := List.mem_filterMap.mp member
    obtain ⟨f, found, -, rfl⟩ := change?_eq_some.mp is
    have number := laid.numbered.fields cell.id f (by rwa [layout_applyPending] at found)
    exact ⟨f, by rw [Layout.handleOf, number]; exact found, rfl⟩

/-- A list that is created again keeps its listeners, whether or not its new length fits. -/
theorem listeners_createOrClearList {struct : StructHandle} {length : UInt64} {cell : Cell}
    {list after : Storage} (kept : s.list? cell = some list)
    (found : (s.createOrClearList struct length).2.list? cell = some after) :
    after.table.listeners = list.table.listeners := by
  have performed : (s.perform (.createOrClearList struct length)).2.list? cell = some after := found
  rcases list?_perform performed with ⟨none, -⟩ | ⟨before, same, rfl⟩
  · cases none.symm.trans kept
  · cases same.symm.trans kept
    unfold passes
    dsimp only
    split
    · split
      · have other : (Call.reset length).tends = false := rfl
        exact listeners_perform other
      · rfl
    · rfl

/-- Listeners are told exactly of what they listen to. At every point of a run of calls,
this holds of the storage at the top and of every list in it, at any depth. -/
theorem dispatches (obtained : s.ObtainableOver LaidOut)
    (silent : s.Throughout fun t => t.listeners = {}) (calls : List Call) :
    (∀ call, ∀ notice ∈ (s.run calls).notified call,
      ∃ x, (s.run calls).at? notice.1 = some x) ∧
    ∀ place x, (s.run calls).at? place = some x →
      Dispatches (s.run calls) x place (rollAt place s {} calls) := by
  refine ⟨fun call notice member => ?_, fun place x here => ?_⟩
  · rw [place_of_mem_notified member]
    exact at?_callee _ call
  · have start (x : Storage) (here : s.at? place = some x) :
        Roll.Enrolled {} x.table.listeners := by
      rw [(silent.at? here).here]
      exact .empty
    have enrolled := enrolled_rollAt obtained start calls x here
    have laid : x.table.layout.LaidOut := (((obtained.run calls).layouts closed_laidOut).at? here).here
    exact
      { listeners := enrolled.listeners
        distinct := ⟨enrolled.nodup_ids, enrolled.nodup_given⟩
        noted := fun call id gives own => noted_of_answer enrolled laid.numbered gives own
        unlisten := fun id =>
          congrArg (fun found => (.ok (.truth found) : Except Error Reply)) (enrolled.found_iff id)
        covers := fun target => target.matches_iff laid.numbered
        notices := noticesAt_eq_due here enrolled.listeners
        updated := fun result t ok change member => content_commit laid ok member
        kept := fun struct length cell list after kept found =>
          listeners_createOrClearList kept found }

open LayoutRules

/-- The list of lines of an order. -/
def lines : StructHandle := ⟨orderLayout.fingerprint, 3, { list := true }⟩

/-- The layout of the lines. -/
def lineLayout : Layout := ((orderLayout.struct? 3).bind (·.element)).get (by rfl)

/-- Someone listens to orders, to addresses and to zip codes, and then once more to
addresses instead. The second order has a line, which is listened to as well, and the list
is created again. Then the order and its line wait for commits. -/
def heeded : List Call :=
  [.listenStruct ⟨orderLayout.fingerprint, 0, {}⟩ "order", .listen "address" "address",
    .listenField ⟨orderLayout.fingerprint, 2, .unsigned 17⟩ "zip", .unlisten 2,
    .listen "address" "place", .select 1, .createOrClearList lines 1,
    .inList lines (.listen "count" "line"), .createOrClearList lines 2,
    .write ⟨orderLayout.fingerprint, 1, .bool⟩ (.bool true),
    .write ⟨orderLayout.fingerprint, 2, .unsigned 17⟩ (.int 80331),
    .inList lines (.select 0), .inList lines (.write ⟨lineLayout.fingerprint, 0, .int16⟩ (.int 3))]

/-- The zip code is in the order and in its address, and is told of first to the one who
listens to orders, who came first. Who took his listener back is not told. A commit of the
order tells nothing to the listener of its lines, nor the other way round. -/
theorem dispatches_heeded : orders.ObtainableOver LaidOut ∧
    (orders.Throughout fun t => t.listeners = {}) ∧
    (∀ place x, (orders.run heeded).at? place = some x →
      Dispatches (orders.run heeded) x place (rollAt place orders {} heeded)) ∧
    (rollAt [] orders {} heeded).given = [1, 2, 3, 4] ∧
    (rollAt [] orders {} heeded).dropped = [2] ∧
    ((orders.run heeded).noticesAt .commit []).map
        (fun notice => (notice.listener, notice.label, notice.change.path)) =
      [(1, "order", "paid"), (1, "order", "address.zip"), (3, "zip", "address.zip"),
        (4, "place", "address.zip")] ∧
    (orders.run heeded).noticesAt .commit [⟨3, 1⟩] = [] ∧
    ((orders.run heeded).noticesAt (.inList lines .commit) [⟨3, 1⟩]).map
        (fun notice => (notice.listener, notice.label, notice.change.path)) =
      [(1, "line", "count")] ∧
    (orders.run heeded).noticesAt (.inList lines .commit) [] = [] := by
  have obtained : orders.ObtainableOver LaidOut := orders_reachable.obtainable.mono fun _ => Compiled.laidOut
  have silent : orders.Throughout fun t => t.listeners = {} := listeners_create create_orders
  exact ⟨obtained, silent, (dispatches obtained silent heeded).2, by decide +kernel,
    by decide +kernel, by decide +kernel, by decide +kernel, by decide +kernel, by decide +kernel⟩

end Storage

end BitRecords
