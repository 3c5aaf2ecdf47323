import BitRecords.Proofs.Storage.Reachable

/-!
# Storages for layouts of any kind

What does not depend on the places of bits holds of more storages than the reachable
ones: their layouts may be those of schemas that were never built. An invariant of tables
lasts in all of them when every kind of step keeps it, and the steps are few: staging,
listening, a commit, a rollback, a change of rows, a reset, and a new table.
-/

namespace BitRecords

open Layout

namespace Table

variable {t t' : Table}

/-- The tables differ at most in their rows and in the cursor. -/
def SameDuties (a b : Table) : Prop :=
  b = { a with
    segments := b.segments, objects := b.objects, capacity := b.capacity, cursor := b.cursor }

theorem SameDuties.trans {a b c : Table} (first : SameDuties a b) (second : SameDuties b c) :
    SameDuties a c := by
  rw [SameDuties] at *
  rw [second, first]

theorem SameDuties.listeners {a b : Table} (same : SameDuties a b) :
    b.listeners = a.listeners := by
  rw [SameDuties] at same
  rw [same]

/-- One operation was staged. -/
structure Stages (t t' : Table) : Prop where
  same : t' = { t with pending := t'.pending, activeUnion := t'.activeUnion }
  pushed : ∃ op, t'.pending.ops = t.pending.ops.push op

theorem Stages.listeners (stages : Stages t t') : t'.listeners = t.listeners := by
  rw [stages.same]

theorem stages_stageSelect (t : Table) (union : StructId) (row : UInt64) (tag : Nat) :
    Stages t (t.stageSelect union row tag) := ⟨rfl, _, rfl⟩

theorem stages_write {handle : FieldHandle} {value : Value} (ok : t.write handle value = .ok t') :
    Stages t t' := by
  obtain ⟨row, f, bits, -, -, -, rfl⟩ := write_eq_ok.mp ok
  exact ⟨rfl, _, PendingLog.ops_stageWrite ..⟩

theorem stages_selectMember {handle : FieldHandle} (ok : t.selectMember handle = .ok t') :
    Stages t t' := by
  obtain ⟨row, f, tag, -, -, -, rfl⟩ := selectMember_eq_ok.mp ok
  exact ⟨rfl, _, rfl⟩

theorem stages_clear (ok : t.clear = .ok t') : Stages t t' := by
  obtain ⟨row, union, -, -, rfl⟩ := clear_eq_ok.mp ok
  exact stages_stageSelect t union row 0

theorem stages_clearUnion {handle : StructHandle} (ok : t.clearUnion handle = .ok t') :
    Stages t t' := by
  obtain ⟨row, s, -, -, -, rfl⟩ := clearUnion_eq_ok.mp ok
  exact stages_stageSelect t s.id row 0

theorem sameDuties_select {row : UInt64} (ok : t.select row = .ok t') : SameDuties t t' := by
  obtain ⟨-, rfl⟩ := select_eq_ok.mp ok
  rfl

theorem layout_rollback (t : Table) : t.rollback.layout = t.layout := by
  unfold rollback
  split <;> rfl

end Table

namespace Storage

open Table

variable {s : Storage}

theorem sameDuties_releaseField (t : Table) (f : FieldLayout) (count : Nat) (row : UInt64) :
    SameDuties t (releaseField t f count row) := by
  induction count generalizing t row with
  | zero => rfl
  | succ count ih =>
    have first : SameDuties t
        { t with objects := t.objects.release (t.getBits f.place row f.width).toNat } := rfl
    exact first.trans (ih _ _)

theorem sameDuties_releaseFields (fields : List FieldLayout) (t : Table) (count : Nat)
    (row : UInt64) :
    SameDuties t (fields.foldl (fun t f => releaseField t f count row) t) := by
  induction fields generalizing t with
  | nil => rfl
  | cons f rest ih => exact (sameDuties_releaseField t f count row).trans (ih _)

/-- A list changes its rows when it loses or gets some, and its lists stay or go. -/
structure Alters (s after : Storage) : Prop where
  table : SameDuties s.table after.table
  lists : ∀ entry ∈ after.lists, entry ∈ s.lists

theorem Alters.refl (s : Storage) : Alters s s := ⟨rfl, fun _ => id⟩

theorem Alters.withTable {after : Storage} (alters : Alters s after) {table : Table}
    (same : SameDuties after.table table) : Alters s { after with table } :=
  ⟨alters.table.trans same, alters.lists⟩

theorem alters_releaseRows (s : Storage) (first : UInt64) : Alters s (s.releaseRows first) :=
  ⟨sameDuties_releaseFields _ _ _ _, fun _ member => (List.mem_filter.mp member).1⟩

theorem alters_resize (s : Storage) (length : UInt64) : Alters s (s.resize length).2 := by
  unfold resize
  split
  · exact .refl s
  · have trimmed : Alters s (if length < s.table.capacity then s.releaseRows length else s) := by
      split
      · exact alters_releaseRows s length
      · exact .refl s
    generalize (if length < s.table.capacity then s.releaseRows length else s) = trim at trimmed
    dsimp only
    split
    · exact trimmed.withTable rfl
    · exact trimmed.withTable rfl

theorem alters_push (s : Storage) : Alters s s.push.2 := by
  have grown := alters_resize s (s.table.capacity + 1)
  have step := pushes s
  generalize s.push = outcome at step ⊢
  obtain ⟨result, after⟩ := outcome
  cases step with
  | refused => exact .refl _
  | failed resized =>
    rw [resized] at grown
    exact grown
  | done _ resized =>
    rw [resized] at grown
    exact grown.withTable rfl

/-- The storages that there can be for layouts of some kind. -/
inductive ObtainableOver (L : Layout → Prop) : Storage → Prop where
  | create {l : Layout} {capacity : Option UInt64} {s : Storage} : L l →
      create l capacity = .ok s → ObtainableOver L s
  | call {s : Storage} (call : Call) : ObtainableOver L s → ObtainableOver L (s.perform call).2
  | list {s list : Storage} {cell : Cell} : ObtainableOver L s → s.list? cell = some list →
      ObtainableOver L list
  | restore {s after : Storage} {l : Layout} : ObtainableOver L s → L l →
      s.snapshot.restore l = .ok after → ObtainableOver L after
  | replace {s list other : Storage} {cell : Cell} : ObtainableOver L s → s.list? cell = some list →
      ObtainableOver L other → ObtainableOver L (s.setList cell other)

theorem Reachable.obtainable (reachable : s.Reachable) : s.ObtainableOver Compiled := by
  induction reachable with
  | create compiled ok => exact .create compiled ok
  | call call _ ih => exact .call call ih
  | list _ found ih => exact .list ih found
  | restore _ compiled ok ih => exact .restore ih compiled ok
  | replace _ found _ ih other => exact .replace ih found other

theorem ObtainableOver.mono {L L' : Layout → Prop} (obtained : s.ObtainableOver L) (more : ∀ l, L l → L' l) :
    s.ObtainableOver L' := by
  induction obtained with
  | create kind ok => exact .create (more _ kind) ok
  | call call _ ih => exact .call call ih
  | list _ found ih => exact .list ih found
  | restore _ kind ok ih => exact .restore ih (more _ kind) ok
  | replace _ found _ ih other => exact .replace ih found other

theorem ObtainableOver.run {L : Layout → Prop} (obtained : s.ObtainableOver L) (calls : List Call) :
    (s.run calls).ObtainableOver L := by
  induction calls generalizing s with
  | nil => exact obtained
  | cons call rest ih => exact ih (obtained.call call)

/-- The property of tables outlasts every step of tables with layouts of some kind. -/
structure Lasts (L : Layout → Prop) (P : Table → Prop) : Prop where
  layout : ∀ {t : Table}, P t → L t.layout
  rows : ∀ {t t' : Table}, P t → SameDuties t t' → P t'
  stage : ∀ {t t' : Table}, P t → Stages t t' → P t'
  listen : ∀ {t : Table} (listeners : ListenerRegistry), P t → P { t with listeners }
  commit : ∀ {t : Table}, P t → t.pending.ops ≠ #[] → P t.applyPending
  rollback : ∀ {t : Table}, P t → P t.rollback
  fresh : ∀ {l : Layout} (capacity : UInt64) (growable : Bool) (segments : Array BitBuffer)
    (objects : ObjectTable) (listeners : ListenerRegistry), L l →
    P { layout := l, capacity, growable, segments, objects, listeners }

namespace Lasts

variable {L : Layout → Prop} {P : Table → Prop} (lasts : Lasts L P)
include lasts

theorem alters {after : Storage} (all : s.Throughout P) (alters : Alters s after) :
    after.Throughout P :=
  .of_parts (lasts.rows all.here alters.table) fun entry member =>
    all.lists entry (alters.lists entry member)

theorem reset (all : s.Throughout P) (length : UInt64) : (s.reset length).2.Throughout P := by
  unfold Storage.reset
  dsimp only
  split
  · exact all.withTable (lasts.rows all.here rfl)
  · exact .intro (lasts.fresh _ _ _ _ _ (lasts.layout all.here)) (by simp)

theorem allocate {l : Layout} {length : UInt64} {growable : Bool} {list : Storage} (kind : L l)
    (ok : allocate l length growable = .ok list) : list.Throughout P := by
  obtain ⟨t, tableOk, rfl⟩ := table_allocate ok
  obtain ⟨rfl, -⟩ := allocate_eq_ok tableOk
  exact .intro (lasts.fresh _ _ _ _ _ kind) (by simp)

theorem createOrClearList (closed : Closed L) (all : s.Throughout P) (handle : StructHandle)
    (length : UInt64) : (s.createOrClearList handle length).2.Throughout P := by
  unfold Storage.createOrClearList
  split
  · exact all
  · next cell element cellOk =>
    split
    · next list found => exact all.setList cell (lasts.reset (all.lookup found) length)
    · split
      · exact all
      · next list ok =>
        obtain ⟨row, struct, -, structOk, single, -⟩ := listCell_eq_ok.mp cellOk
        obtain ⟨-, found⟩ := structOf_eq_ok.mp structOk
        have kind := closed (lasts.layout all.here) (List.mem_of_getElem? found) single
        exact all.setList cell (lasts.allocate kind ok)

theorem listened {t t' : Table} (holds : P t) (same : ∃ listeners, t' = { t with listeners }) :
    P t' := by
  obtain ⟨listeners, rfl⟩ := same
  exact lasts.listen listeners holds

/-- A call keeps the property everywhere. -/
theorem perform (closed : Closed L) (all : s.Throughout P) (call : Call) :
    (s.perform call).2.Throughout P := by
  induction call generalizing s with
  | select row => exact all.onTable fun _ ok => lasts.rows all.here (sameDuties_select ok)
  | write field value => exact all.onTable fun _ ok => lasts.stage all.here (stages_write ok)
  | selectMember member =>
    exact all.onTable fun _ ok => lasts.stage all.here (stages_selectMember ok)
  | clear => exact all.onTable fun _ ok => lasts.stage all.here (stages_clear ok)
  | clearUnion union => exact all.onTable fun _ ok => lasts.stage all.here (stages_clearUnion ok)
  | commit =>
    refine all.onTable fun t ok => ?_
    obtain ⟨result, ok⟩ := map_snd_eq_ok ok
    cases commits_of_ok ok with
    | idle => exact all.here
    | applied some _ => exact lasts.commit all.here some
  | rollback => exact all.withTable (lasts.rollback all.here)
  | listen path label => exact all.onTable fun _ ok => lasts.listened all.here (listen_eq_ok ok)
  | listenField field label =>
    exact all.onTable fun _ ok => lasts.listened all.here (listenField_eq_ok ok)
  | listenStruct struct label =>
    exact all.onTable fun _ ok => lasts.listened all.here (listenStruct_eq_ok ok)
  | unlisten id => exact all.withTable (lasts.listen _ all.here)
  | resize length => exact lasts.alters all (alters_resize s length)
  | push => exact lasts.alters all (alters_push s)
  | reset length => exact lasts.reset all length
  | createOrClearList struct length => exact lasts.createOrClearList closed all struct length
  | inList struct call ih =>
    unfold Storage.perform
    split
    · exact all
    · next cell list found => exact all.setList _ (ih (all.lookup (list_eq_ok found)))

theorem restore (closed : Closed L) {l : Layout} {after : Storage} (kind : L l)
    (all : s.Throughout P) (ok : s.snapshot.restore l = .ok after) : after.Throughout P := by
  induction all generalizing l after with
  | intro _ _ ih =>
    obtain ⟨buffers, inner, -, -, -, -, listsOk, rfl⟩ := Snapshot.restore_eq_ok.mp ok
    refine .intro (lasts.fresh _ _ _ _ _ kind) ?_
    exact Snapshot.restoreLists_throughout closed
      (fun entry member l list kind => ih entry member kind) kind listsOk

/-- The property holds in all storages. -/
theorem obtainable (closed : Closed L) (obtained : s.ObtainableOver L) : s.Throughout P := by
  induction obtained with
  | create kind ok =>
    obtain ⟨rows, -, ok⟩ := create_eq_ok.mp ok
    exact lasts.allocate kind ok
  | call call _ ih => exact lasts.perform closed ih call
  | list _ found ih => exact ih.lookup found
  | restore _ kind ok ih => exact lasts.restore closed kind ih ok
  | replace _ _ _ ih other => exact ih.setList _ other

end Lasts

theorem lasts_layout (L : Layout → Prop) : Lasts L (fun t => L t.layout) where
  layout := id
  rows kind same := by
    rw [same]
    exact kind
  stage kind stages := by
    rw [stages.same]
    exact kind
  listen _ kind := kind
  commit kind _ := by rwa [layout_applyPending]
  rollback kind := by rwa [layout_rollback]
  fresh _ _ _ _ _ kind := kind

/-- All tables have layouts of the kind. -/
theorem ObtainableOver.layouts {L : Layout → Prop} (closed : Closed L) (obtained : s.ObtainableOver L) :
    s.Throughout (fun t => L t.layout) :=
  (lasts_layout L).obtainable closed obtained

end Storage

end BitRecords
