import BitRecords.Proofs.Storage.Reset
import BitRecords.Proofs.Storage.Restore
import BitRecords.Storage.Run

/-!
# Reachable storages

A storage is reached from a new one by calls, as a list of another storage, by
restoring a snapshot, and by putting a storage in the place of a list. All tables
that are reached are valid.
-/

namespace BitRecords

open Layout Table

/-- The storages that there can be for compiled layouts. -/
inductive Storage.Reachable : Storage → Prop where
  | create {l : Layout} {capacity : Option UInt64} {s : Storage} : l.Compiled →
      create l capacity = .ok s → Reachable s
  | call {s : Storage} (call : Call) : Reachable s → Reachable (s.perform call).2
  | list {s list : Storage} {cell : Cell} : Reachable s → s.list? cell = some list → Reachable list
  | restore {s after : Storage} {l : Layout} : Reachable s → l.Compiled →
      s.snapshot.restore l = .ok after → Reachable after
  | replace {s list other : Storage} {cell : Cell} : Reachable s → s.list? cell = some list →
      Reachable other → Reachable (s.setList cell other)

namespace Storage

variable {s : Storage} {P : Table → Prop}

theorem mem_insertList {cell : Cell} {list : Storage} {lists : List (Cell × Storage)}
    {entry : Cell × Storage} (member : entry ∈ insertList cell list lists) :
    entry = (cell, list) ∨ entry ∈ lists := by
  induction lists with
  | nil => exact .inl (List.mem_singleton.mp member)
  | cons first rest ih =>
    rw [insertList] at member
    split at member
    · exact List.mem_cons.mp member
    · exact (List.mem_cons.mp member).imp_right (List.mem_cons_of_mem _)
    · rcases List.mem_cons.mp member with rfl | member
      · exact .inr List.mem_cons_self
      · exact (ih member).imp_right (List.mem_cons_of_mem _)

theorem mem_of_list? {cell : Cell} {list : Storage} (found : s.list? cell = some list) :
    (cell, list) ∈ s.lists := by
  obtain ⟨before, after, same, -⟩ := List.lookup_eq_some_iff.mp found
  rw [same]
  exact List.mem_append_right _ List.mem_cons_self

namespace Throughout

theorem of_parts (table : P s.table) (lists : ∀ entry ∈ s.lists, entry.2.Throughout P) :
    s.Throughout P := by
  cases s
  exact .intro table lists

theorem here (all : s.Throughout P) : P s.table := by
  cases all with
  | intro holds _ => exact holds

theorem lists (all : s.Throughout P) : ∀ entry ∈ s.lists, entry.2.Throughout P := by
  cases all with
  | intro _ lists => exact lists

theorem lookup (all : s.Throughout P) {cell : Cell} {list : Storage}
    (found : s.list? cell = some list) : list.Throughout P :=
  all.lists (cell, list) (mem_of_list? found)

theorem combine {Q R : Table → Prop} (first : s.Throughout P) (second : s.Throughout Q)
    (both : ∀ t, P t → Q t → R t) : s.Throughout R := by
  induction first with
  | intro holds _ ih =>
    exact .intro (both _ holds second.here) fun entry member =>
      ih entry member (second.lists entry member)

theorem mono {Q : Table → Prop} (all : s.Throughout P) (imp : ∀ t, P t → Q t) :
    s.Throughout Q :=
  all.combine all fun t holds _ => imp t holds

theorem withTable (all : s.Throughout P) {table : Table} (holds : P table) :
    Throughout P { s with table } :=
  .intro holds all.lists

theorem setList (all : s.Throughout P) (cell : Cell) {list : Storage} (holds : list.Throughout P) :
    (s.setList cell list).Throughout P := by
  refine .intro all.here fun entry member => ?_
  rcases mem_insertList member with rfl | old
  · exact holds
  · exact all.lists entry old

theorem onTable (all : s.Throughout P) {outcome : Except Error Table}
    (holds : ∀ table, outcome = .ok table → P table) : (s.onTable outcome).2.Throughout P := by
  cases outcome with
  | ok table => exact all.withTable (holds table rfl)
  | error => exact all

end Throughout

theorem onTable_eq_ok {after : Storage} {outcome : Except Error Table} :
    s.onTable outcome = (.ok (), after) ↔ ∃ t, outcome = .ok t ∧ after = { s with table := t } := by
  cases outcome with
  | error => simp [onTable]
  | ok t => simp [onTable, eq_comm]

theorem table_of_onTable_error {after : Storage} {outcome : Except Error Table} {e : Error}
    (failed : s.onTable outcome = (.error e, after)) : after.table = s.table := by
  cases outcome with
  | error =>
    cases failed
    rfl
  | ok => cases failed

/-- What happens to a list does not touch the table of the storage that has it. -/
theorem table_createOrClearList {after : Storage} {struct : StructHandle} {length : UInt64}
    {result : Except Error Unit}
    (done : s.perform (.createOrClearList struct length) = (result, after)) :
    after.table = s.table := by
  simp only [perform, createOrClearList] at done
  split at done
  · cases done
    rfl
  · split at done
    · cases done
      rfl
    · split at done
      · cases done
        rfl
      · cases done
        rfl

theorem table_inList {after : Storage} {struct : StructHandle} {call : Call}
    {result : Except Error Unit} (done : s.perform (.inList struct call) = (result, after)) :
    after.table = s.table := by
  rw [perform] at done
  split at done
  · cases done
    rfl
  · cases done
    rfl

theorem resize_throughout (all : s.Throughout Valid) (length : UInt64) :
    (s.resize length).2.Throughout Valid := by
  refine .of_parts (resize_valid all.here length) ?_
  have step := resizes all.here.intact length
  generalize s.resize length = outcome at step ⊢
  obtain ⟨result, after⟩ := outcome
  dsimp only at step ⊢
  cases step with
  | fixed => exact all.lists
  | failed => exact all.lists
  | done =>
    unfold trim
    dsimp only
    split
    · exact fun entry member => all.lists entry (List.mem_filter.mp member).1
    · exact all.lists

theorem push_throughout (all : s.Throughout Valid) : s.push.2.Throughout Valid := by
  refine .of_parts (push_valid all.here) ?_
  have grown := resize_throughout all (s.table.capacity + 1)
  have step := pushes s
  generalize s.push = outcome at step ⊢
  obtain ⟨result, after⟩ := outcome
  cases step with
  | refused => exact all.lists
  | failed resized | done _ resized =>
    rw [resized] at grown
    exact grown.lists

theorem reset_throughout (all : s.Throughout Valid) (length : UInt64) :
    (s.reset length).2.Throughout Valid := by
  refine .of_parts (reset_valid all.here length) ?_
  have step := resets all.here.intact.stored length
  generalize s.reset length = outcome at step ⊢
  obtain ⟨result, after⟩ := outcome
  dsimp only at step ⊢
  cases step with
  | failed => exact all.lists
  | done => simp

variable {t t' : Table}

theorem map_snd_eq_ok {α β : Type} {outcome : Except Error (α × β)} {b : β}
    (ok : outcome.map (·.2) = .ok b) : ∃ a, outcome = .ok (a, b) := by
  cases outcome with
  | error => cases ok
  | ok pair =>
    cases ok
    exact ⟨pair.1, rfl⟩

/-- Listening changes the listeners only. -/
theorem listen_eq_ok {path label : String} (ok : (t.listen path label).map (·.2) = .ok t') :
    ∃ listeners, t' = { t with listeners } := by
  obtain ⟨id, ok⟩ := map_snd_eq_ok ok
  unfold Table.listen at ok
  split at ok
  · cases ok
    exact ⟨_, rfl⟩
  · obtain ⟨_, -, ok⟩ := bind_eq_ok.mp ok
    cases ok
    exact ⟨_, rfl⟩
  · cases ok

theorem listenField_eq_ok {handle : FieldHandle} {label : String}
    (ok : (t.listenField handle label).map (·.2) = .ok t') :
    ∃ listeners, t' = { t with listeners } := by
  obtain ⟨id, ok⟩ := map_snd_eq_ok ok
  obtain ⟨f, -, ok⟩ := bind_eq_ok.mp ok
  cases ok
  exact ⟨_, rfl⟩

theorem listenStruct_eq_ok {handle : StructHandle} {label : String}
    (ok : (t.listenStruct handle label).map (·.2) = .ok t') :
    ∃ listeners, t' = { t with listeners } := by
  obtain ⟨id, ok⟩ := map_snd_eq_ok ok
  obtain ⟨s, -, ok⟩ := bind_eq_ok.mp ok
  obtain ⟨_, -, ok⟩ := bind_eq_ok.mp ok
  cases ok
  exact ⟨_, rfl⟩

theorem valid_of_listeners (valid : t.Valid) (same : ∃ listeners, t' = { t with listeners }) :
    t'.Valid := by
  obtain ⟨listeners, rfl⟩ := same
  exact valid.congr ⟨rfl, rfl, rfl, rfl⟩ rfl rfl rfl

/-- A storage that is allocated is a table without lists. -/
theorem table_allocate {l : Layout} {length : UInt64} {growable : Bool} {list : Storage}
    (ok : allocate l length growable = .ok list) :
    ∃ t, Table.allocate l length growable = .ok t ∧ list = { table := t } := by
  obtain ⟨t, tableOk, same⟩ := bind_eq_ok.mp ok
  exact ⟨t, tableOk, (pure_eq_ok.mp same).symm⟩

theorem allocate_valid {l : Layout} {length : UInt64} {growable : Bool} {list : Storage}
    (good : l.Throughout SoundTyped) (ok : allocate l length growable = .ok list) :
    list.Throughout Valid := by
  obtain ⟨t, tableOk, rfl⟩ := table_allocate ok
  exact .intro (allocate_spec good tableOk).1 (by simp)

/-- The cell of a list, and the layout of its elements. -/
theorem listCell_eq_ok {handle : StructHandle} {cell : Cell} {element : Layout} :
    s.listCell handle = .ok (cell, element) ↔ ∃ row struct, s.table.selected = .ok row ∧
      s.table.layout.structOf handle = .ok struct ∧ struct.element = some element ∧
      cell = ⟨struct.id, row⟩ := by
  unfold listCell
  simp only [bind_eq_ok]
  constructor
  · rintro ⟨row, selected, struct, found, ok⟩
    split at ok
    · next element single =>
      cases ok
      exact ⟨row, struct, selected, found, single, rfl⟩
    · cases ok
  · rintro ⟨row, struct, selected, found, single, rfl⟩
    refine ⟨row, selected, struct, found, ?_⟩
    rw [single]
    rfl

theorem createOrClearList_valid (all : s.Throughout Valid) (handle : StructHandle)
    (length : UInt64) : (s.createOrClearList handle length).2.Throughout Valid := by
  unfold createOrClearList
  split
  · exact all
  · next cell element cellOk =>
    split
    · next list found =>
      exact all.setList cell (reset_throughout (all.lookup found) length)
    · split
      · exact all
      · next list ok =>
        obtain ⟨row, struct, -, structOk, single, -⟩ := listCell_eq_ok.mp cellOk
        obtain ⟨-, found⟩ := structOf_eq_ok.mp structOk
        have good := all.here.elements.element (List.mem_of_getElem? found) single
        exact all.setList cell (allocate_valid good ok)

theorem list_eq_ok {handle : StructHandle} {cell : Cell} {list : Storage}
    (ok : s.list handle = .ok (cell, list)) : s.list? cell = some list := by
  obtain ⟨⟨cell', element⟩, -, ok⟩ := bind_eq_ok.mp ok
  dsimp only at ok
  cases found : s.list? cell' with
  | some kept =>
    rw [found] at ok
    cases ok
    exact found
  | none =>
    rw [found] at ok
    cases ok

theorem perform_valid (all : s.Throughout Valid) (call : Call) :
    (s.perform call).2.Throughout Valid := by
  induction call generalizing s with
  | select row => exact all.onTable fun _ => all.here.select
  | write field value => exact all.onTable fun _ => all.here.write
  | selectMember member => exact all.onTable fun _ => all.here.selectMember
  | clear => exact all.onTable fun _ => all.here.clear
  | clearUnion union => exact all.onTable fun _ => all.here.clearUnion
  | commit =>
    refine all.onTable fun table ok => ?_
    obtain ⟨result, ok⟩ := map_snd_eq_ok ok
    exact all.here.commit ok
  | rollback => exact all.withTable all.here.rollback
  | listen path label =>
    exact all.onTable fun _ ok => valid_of_listeners all.here (listen_eq_ok ok)
  | listenField field label =>
    exact all.onTable fun _ ok => valid_of_listeners all.here (listenField_eq_ok ok)
  | listenStruct struct label =>
    exact all.onTable fun _ ok => valid_of_listeners all.here (listenStruct_eq_ok ok)
  | unlisten id => exact all.withTable (valid_of_listeners all.here ⟨_, rfl⟩)
  | resize length => exact resize_throughout all length
  | push => exact push_throughout all
  | reset length => exact reset_throughout all length
  | createOrClearList struct length => exact createOrClearList_valid all struct length
  | inList struct call ih =>
    unfold perform
    split
    · exact all
    · next cell list found =>
      exact all.setList _ (ih (all.lookup (list_eq_ok found)))

theorem create_eq_ok {l : Layout} {capacity : Option UInt64} :
    create l capacity = .ok s ↔ ∃ rows, capacity = some rows ∧ allocate l rows false = .ok s := by
  cases capacity with
  | none => simp [create]
  | some rows => simp [create]

/-- Every table that is reached is valid. -/
theorem Reachable.valid (reachable : s.Reachable) : s.Throughout Valid := by
  induction reachable with
  | create compiled ok =>
    obtain ⟨rows, -, ok⟩ := create_eq_ok.mp ok
    exact allocate_valid compiled.soundTyped ok
  | call call _ ih => exact perform_valid ih call
  | list _ found ih => exact ih.lookup found
  | restore _ compiled ok ih => exact Snapshot.restore_valid ih compiled.soundTyped ok
  | replace _ _ _ ih other => exact ih.setList _ other

/-- Calls lead to reachable storages. -/
theorem Reachable.run (reachable : s.Reachable) (calls : List Call) : (s.run calls).Reachable := by
  induction calls generalizing s with
  | nil => exact reachable
  | cons call rest ih => exact ih (reachable.call call)

open LayoutRules

/-- Two orders. -/
def orders : Storage := (create orderLayout (some 2)).toOption.get (by rfl)

theorem create_orders : create orderLayout (some 2) = .ok orders := by rfl

theorem orders_reachable : orders.Reachable := .create orderLayout_compiled create_orders

/-- The orders with a price of the second one staged, first in cents and then as a
rate. -/
def priced : Storage :=
  orders.run [.select 1, .write ⟨orderLayout.fingerprint, 3, .int64⟩ (.int 250),
    .write ⟨orderLayout.fingerprint, 4, .float32⟩ (.float 7)]

theorem priced_reachable : priced.Reachable := orders_reachable.run _

/-- The orders, the second of which has a rate for its price. -/
def paid : Storage := priced.run [.commit]

theorem paid_reachable : paid.Reachable := priced_reachable.run _

end Storage

end BitRecords
