import BitRecords.Proofs.Storage.Agreement
import BitRecords.Proofs.Table.Lay
import BitRecords.Proofs.Table.Writes

/-!
# The changes of a commit

The changes that a commit reports are the difference it made: laid over what the
slots held before they give what the slots hold afterwards, and the old values
lead back. A union member that was written may be left out when its own bits are
the same afterwards. Each bit of the region that did change lies in a wider member
that was written too, and that one is reported.
-/

namespace BitRecords

open Contents

namespace Table

variable {t t' : Table} {c : Contents}

/-- The slots of the rows hold the contents, presence and tags left aside. -/
structure Holds (t : Table) (c : Contents) : Prop where
  value : ∀ id row, row < t.capacity → ∀ f, t.layout.field? id = some f → f.tag = none →
    t.content f row = c.value ⟨id, row⟩
  region : ∀ id row, row < t.capacity → ∀ s u, t.layout.struct? id = some s → s.union = some u →
    t.region .committed s u row = c.region ⟨id, row⟩

theorem Shows.holds (shows : t.Shows c) : t.Holds c := ⟨shows.sees.value, shows.sees.region⟩

/-- A union member is read from the region. -/
theorem Holds.content (holds : t.Holds c) (stored : t.Stored) {id : FieldId} {row : UInt64}
    (here : row < t.capacity) {f : FieldLayout} (field : t.layout.field? id = some f) :
    t.content f row = c.content t.layout ⟨id, row⟩ := by
  cases tag : f.tag with
  | none =>
    rw [holds.value id row here f field tag]
    simp [Contents.content, field, tag]
  | some n =>
    obtain ⟨s, u, struct, union, place, narrow, plain, -, -⟩ := stored.good.sound.member field tag
    have stores := stored.good.sound.stores_region struct union
    have region := holds.region f.owner row here s u struct union
    have low : t.getBits f.place row f.width =
        c.region ⟨f.owner, row⟩ &&& lowMask f.width := by
      rw [place, stored.getBits_narrow stores here narrow, ← region]
      rfl
    rw [content_eq, valueOf_of_ne_object _ plain, low, FieldLayout.width,
      FieldType.decode_and_lowMask]
    simp [Contents.content, field, tag]

/-- Values of one table that are laid over what the slots of another one hold, at
least wherever the two differ. -/
theorem Holds.layAll {a b : Table} {l : Layout} {ca cb : Contents} {value : Change → Value}
    {order : List Change} (good : l.SoundTyped) (layoutA : a.layout = l) (layoutB : b.layout = l)
    (capacity : b.capacity = a.capacity) (holdsA : a.Holds ca) (holdsB : b.Holds cb)
    (correct : ∀ ch ∈ order, value ch = cb.content l ch.cell)
    (values : ∀ id row, row < a.capacity → ∀ f, l.field? id = some f → f.tag = none →
      ca.value ⟨id, row⟩ = cb.value ⟨id, row⟩ ∨ ∃ ch ∈ order, ch.cell = ⟨id, row⟩)
    (bits : ∀ cell, cell.row < a.capacity → ∀ p,
      bitOf (ca.region cell) p = bitOf (cb.region cell) p ∨
        ∃ ch ∈ order, Overlaps l ch.cell cell p)
    (holds : a.Holds c) : b.Holds (c.layAll l value order) where
  value id row here f field plain := by
    rw [capacity] at here
    rw [layoutB] at field
    rw [holdsB.value id row (capacity ▸ here) f (layoutB ▸ field) plain]
    have start : c.value ⟨id, row⟩ = ca.value ⟨id, row⟩ :=
      (holds.value id row here f (layoutA ▸ field) plain).symm.trans
        (holdsA.value id row here f (layoutA ▸ field) plain)
    refine (value_layAll correct ?_).symm
    rw [start]
    exact (values id row here f field plain).imp_right fun hit => ⟨⟨f, field, plain⟩, hit⟩
  region id row here s u struct union := by
    rw [capacity] at here
    rw [layoutB] at struct
    rw [holdsB.region id row (capacity ▸ here) s u (layoutB ▸ struct) union]
    have start : c.region ⟨id, row⟩ = ca.region ⟨id, row⟩ :=
      (holds.region id row here s u (layoutA ▸ struct) union).symm.trans
        (holdsA.region id row here s u (layoutA ▸ struct) union)
    refine eq_of_bitOf fun p _ => (bitOf_region_layAll good correct ?_).symm
    rw [start]
    exact bits ⟨id, row⟩ here p

/-- The changes are the exact difference between the slots of two tables. They come
in the order in which the pending operations of the first one write them. -/
structure Delta (before after : Table) (changes : List Change) : Prop where
  once : (changes.map Change.cell).Nodup
  ordered : changes.Pairwise fun a b =>
    firstWrite before.pending.ops.toList a.cell < firstWrite before.pending.ops.toList b.cell
  written : ∀ ch ∈ changes, ∃ op ∈ before.pending.ops.toList, op.writes ch.cell = true
  exact : ∀ ch ∈ changes, ch.row < before.capacity ∧ ∃ f,
    before.layout.field? ch.field.id = some f ∧ ch.field = before.layout.handleOf f ∧
      ch.path = f.path ∧ ch.old = before.content f ch.row ∧ ch.new = after.content f ch.row ∧
      ch.old ≠ ch.new
  forward : ∀ order, order.Perm changes → ∀ c, before.Holds c →
    after.Holds (c.layAll before.layout Change.new order)
  backward : ∀ order, order.Perm changes → ∀ c, after.Holds c →
    before.Holds (c.layAll before.layout Change.old order)

theorem delta_idle (t : Table) : Delta t t [] where
  once := .nil
  ordered := .nil
  written _ none := nomatch none
  exact _ none := nomatch none
  forward order perm c holds := by
    rw [List.perm_nil.mp perm]
    exact holds
  backward order perm c holds := by
    rw [List.perm_nil.mp perm]
    exact holds

/-- The change of a cell, and that there is one when its content differs. -/
theorem change?_eq_some {cell : Cell} {ch : Change} :
    t.change? t' cell = some ch ↔ ∃ f, t'.layout.field? cell.id = some f ∧
      t.content f cell.row ≠ t'.content f cell.row ∧
      ch = ⟨t'.layout.handleOf f, f.path, cell.row, t.content f cell.row,
        t'.content f cell.row⟩ := by
  unfold change?
  cases t'.layout.field? cell.id with
  | none => simp
  | some f =>
    by_cases same : t.content f cell.row = t'.content f cell.row
    · simp [same]
    · simp [same, eq_comm]

/-- The changes that a commit of the pending operations reports. -/
def changes (t : Table) : List Change :=
  (writtenCells t.pending.ops.toList).filterMap (t.change? t.applyPending)

namespace Valid

variable (valid : t.Valid) (checked : t.checkPending = .ok ())
include valid checked

theorem shows_applied : t.applyPending.Shows (t.contents.replay t.layout t.pending.ops.toList) :=
  (applyPending_spec valid.intact (shows_contents t) valid.answers.admits checked).2.2.2

theorem layout_applied : t.applyPending.layout = t.layout :=
  (applyPending_spec valid.intact (shows_contents t) valid.answers.admits checked).1

theorem capacity_applied : t.applyPending.capacity = t.capacity :=
  (applyPending_spec valid.intact (shows_contents t) valid.answers.admits checked).2.1

theorem mem_changes {ch : Change} : ch ∈ t.changes ↔
    (∃ op ∈ t.pending.ops.toList, op.writes ch.cell = true) ∧
      ∃ f, t.layout.field? ch.field.id = some f ∧
        t.content f ch.row ≠ t.applyPending.content f ch.row ∧
        ch = ⟨t.layout.handleOf f, f.path, ch.row, t.content f ch.row,
          t.applyPending.content f ch.row⟩ := by
  have layout := valid.layout_applied checked
  simp only [changes, List.mem_filterMap, mem_writtenCells, change?_eq_some, layout]
  constructor
  · rintro ⟨⟨id, row⟩, written, f, field, differs, rfl⟩
    obtain rfl := valid.sound.field?_id field
    exact ⟨written, f, field, differs, rfl⟩
  · rintro ⟨written, f, field, differs, same⟩
    exact ⟨ch.cell, written, f, field, differs, same⟩

/-- A cell that was written and has other content is reported. -/
theorem reported (cell : Cell) {f : FieldLayout} (field : t.layout.field? cell.id = some f)
    (written : ∃ op ∈ t.pending.ops.toList, op.writes cell = true)
    (differs : t.content f cell.row ≠ t.applyPending.content f cell.row) :
    ∃ ch ∈ t.changes, ch.cell = cell := by
  obtain ⟨ch, laid⟩ : ∃ ch : Change, ch = ⟨t.layout.handleOf f, f.path, cell.row,
      t.content f cell.row, t.applyPending.content f cell.row⟩ := ⟨_, rfl⟩
  have id : ch.field.id = cell.id := by
    rw [laid]
    exact valid.sound.field?_id field
  have row : ch.row = cell.row := by rw [laid]
  have same : ch.cell = cell := by rw [Change.cell, id, row]
  refine ⟨ch, (valid.mem_changes checked).mpr ⟨?_, f, ?_, ?_, ?_⟩, same⟩
  · rw [same]
    exact written
  · rw [id]
    exact field
  · rw [row]
    exact differs
  · rw [row]
    exact laid

/-- A value that a commit changes is reported. -/
theorem value_reported {id : FieldId} {row : UInt64} (here : row < t.capacity) {f : FieldLayout}
    (field : t.layout.field? id = some f) (plain : f.tag = none) :
    t.contents.value ⟨id, row⟩ =
        (t.contents.replay t.layout t.pending.ops.toList).value ⟨id, row⟩ ∨
      ∃ ch ∈ t.changes, ch.cell = ⟨id, row⟩ := by
  have layout := valid.layout_applied checked
  have capacity := valid.capacity_applied checked
  by_cases written : ∃ op ∈ t.pending.ops.toList, op.writes ⟨id, row⟩ = true
  · by_cases same : t.content f row = t.applyPending.content f row
    · refine .inl ?_
      rw [← (shows_contents t).holds.value id row here f field plain, same]
      exact (valid.shows_applied checked).holds.value id row (capacity ▸ here) f (layout ▸ field)
        plain
    · exact .inr (valid.reported checked ⟨id, row⟩ field written same)
  · refine .inl (value_replay fun op member => ?_).symm
    simpa using fun writes => written ⟨op, member, writes⟩

/-- A bit of a region that a commit changes lies in a member that is reported. -/
theorem bit_reported {cell : Cell} (here : cell.row < t.capacity) (p : Nat) :
    bitOf (t.contents.region cell) p =
        bitOf ((t.contents.replay t.layout t.pending.ops.toList).region cell) p ∨
      ∃ ch ∈ t.changes, Overlaps t.layout ch.cell cell p := by
  have layout := valid.layout_applied checked
  have capacity := valid.capacity_applied checked
  by_cases covered : ∃ op ∈ t.pending.ops.toList, op.Covers t.layout cell p
  · obtain ⟨op, member, covers⟩ := covered
    cases op with
    | select => cases covers
    | write field row width bits value =>
      obtain ⟨f, found, isMember, rfl, low⟩ := covers
      obtain rfl : width = f.width := by
        cases valid.answers.admits _ member with
        | write found' =>
          cases found.symm.trans found'
          rfl
      obtain ⟨tag, isMember⟩ := Option.isSome_iff_exists.mp isMember
      by_cases same : t.content f row = t.applyPending.content f row
      · refine .inl ?_
        obtain ⟨-, -, -, -, -, -, plain, -, -⟩ := valid.sound.member found isMember
        have admissible := valid.intact.stored.good.typed.fields f (List.mem_of_getElem? found)
        rw [(shows_contents t).holds.content valid.intact.stored here found,
          (valid.shows_applied checked).holds.content (valid.applyPending checked).intact.stored
            (capacity ▸ here) (layout ▸ found), layout] at same
        simp only [Contents.content, found, isMember] at same
        have low' := congrArg (bitOf · p) (FieldType.decode_inj admissible plain same)
        have narrow : p < 64 := Nat.lt_of_lt_of_le low (FieldType.width_le_of_admissible admissible)
        have inside : p < f.type.width := low
        simpa [narrow, inside] using low'
      · obtain ⟨ch, reported, cell⟩ := valid.reported checked ⟨field, row⟩ found
          ⟨_, member, by simp [PendingOp.writes]⟩ same
        refine .inr ⟨ch, reported, f, ?_, by simp [isMember], by rw [cell], low⟩
        rw [cell]
        exact found
  · refine .inl (bitOf_region_replay fun op member covers => covered ⟨op, member, covers⟩).symm

/-- The changes are in the order of the cells. -/
theorem pairwise_changes : t.changes.Pairwise fun a b =>
    firstWrite t.pending.ops.toList a.cell < firstWrite t.pending.ops.toList b.cell := by
  have cell {cell : Cell} {ch : Change} (laid : t.change? t.applyPending cell = some ch) :
      ch.cell = cell := by
    obtain ⟨f, field, -, rfl⟩ := change?_eq_some.mp laid
    rw [valid.layout_applied checked] at field
    rw [Change.cell, Layout.handleOf, valid.sound.field?_id field]
  refine List.pairwise_filterMap.mpr ?_
  refine (pairwise_writtenCells t.pending.ops.toList).imp fun {x y} order a fromX b fromY => ?_
  rw [cell fromX, cell fromY]
  exact order

/-- A change is of an existing row, and tells what its slot held before and holds
afterwards. -/
theorem slot_of_mem_changes {ch : Change} (member : ch ∈ t.changes) :
    ch.row < t.capacity ∧ ch.old = t.contents.content t.layout ch.cell ∧
      ch.new = (t.contents.replay t.layout t.pending.ops.toList).content t.layout ch.cell := by
  have layout := valid.layout_applied checked
  have capacity := valid.capacity_applied checked
  obtain ⟨⟨op, inLog, writes⟩, f, field, -, laid⟩ := (valid.mem_changes checked).mp member
  have here : ch.row < t.capacity := by
    have row := (of_checkPending checked).1 op inLog
    cases op with
    | write field row' _ _ _ =>
      have same : ch.cell = ⟨field, row'⟩ := of_decide_eq_true writes
      rw [show ch.row = row' from congrArg Cell.row same]
      exact row
    | select => cases writes
  have old := (shows_contents t).holds.content valid.intact.stored here field
  have new := (valid.shows_applied checked).holds.content (valid.applyPending checked).intact.stored
    (capacity ▸ here) (layout ▸ field)
  rw [layout] at new
  exact ⟨here, (congrArg Change.old laid).trans old, (congrArg Change.new laid).trans new⟩

theorem delta_applied : Delta t t.applyPending t.changes := by
  have layout := valid.layout_applied checked
  have capacity := valid.capacity_applied checked
  have good := valid.intact.stored.good
  have before := (shows_contents t).holds
  have after := (valid.shows_applied checked).holds
  have ordered := valid.pairwise_changes checked
  refine ⟨List.pairwise_map.mpr (ordered.imp fun {a b} order same => ?_), ordered,
    fun ch member => ((valid.mem_changes checked).mp member).1, fun ch member => ?_, ?_, ?_⟩
  · rw [same] at order
    exact Nat.lt_irrefl _ order
  · obtain ⟨-, f, field, differs, laid⟩ := (valid.mem_changes checked).mp member
    refine ⟨(valid.slot_of_mem_changes checked member).1, f, field, ?_⟩
    rw [laid]
    exact ⟨rfl, rfl, rfl, rfl, differs⟩
  · intro order perm c holds
    have new (ch : Change) (member : ch ∈ order) :=
      (valid.slot_of_mem_changes checked (perm.mem_iff.mp member)).2.2
    refine Holds.layAll good rfl layout capacity before after new ?_ ?_ holds
    · simp only [perm.mem_iff]
      exact fun id row here f field plain => valid.value_reported checked here field plain
    · simp only [perm.mem_iff]
      exact fun cell here p => valid.bit_reported checked here p
  · intro order perm c holds
    have old (ch : Change) (member : ch ∈ order) :=
      (valid.slot_of_mem_changes checked (perm.mem_iff.mp member)).2.1
    refine Holds.layAll good layout rfl capacity.symm after before old ?_ ?_ holds
    · simp only [perm.mem_iff, capacity]
      exact fun id row here f field plain =>
        (valid.value_reported checked here field plain).imp_left Eq.symm
    · simp only [perm.mem_iff, capacity]
      exact fun cell here p => (valid.bit_reported checked here p).imp_left Eq.symm

end Valid

end Table

namespace Storage

open Table

/-- The changes of a commit are the exact difference that it made to the slots. -/
theorem commit_changes {s : Storage} (reachable : s.Reachable) {result : CommitResult} {t : Table}
    (ok : s.table.commit = .ok (result, t)) : Delta s.table t result.changes := by
  have valid := reachable.valid.here
  cases commits_of_ok ok with
  | idle => exact delta_idle s.table
  | applied _ checked => exact valid.delta_applied checked

theorem commit_changes_priced : ∃ result t, priced.Reachable ∧
    priced.table.commit = .ok (result, t) ∧ result.changes.length = 2 ∧
    Delta priced.table t result.changes :=
  ⟨_, _, priced_reachable, rfl, rfl, commit_changes priced_reachable rfl⟩

end Storage

end BitRecords
