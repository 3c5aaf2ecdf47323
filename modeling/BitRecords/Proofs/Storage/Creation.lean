import BitRecords.Proofs.Storage.Freshness
import BitRecords.Proofs.Storage.Lengths

/-!
# Lists that are created

Lists can change their length: they are created so, and no call changes it. A list that
is created again is thus a new list with the listeners of the old one. With what becomes
of rows when a length changes, this tells what every row holds that comes into existence.
-/

namespace BitRecords.Storage

open Layout Table

variable {s after list : Storage} {length row : UInt64} {cell : Cell}

/-- All lists, and the lists in them, can change their length. -/
def ListsGrow (s : Storage) : Prop :=
  ∀ entry ∈ s.lists, entry.2.Throughout fun t => t.growable = true

theorem ListsGrow.throughout (grow : s.ListsGrow) (growable : s.table.growable = true) :
    s.Throughout fun t => t.growable = true :=
  .of_parts growable grow

theorem ListsGrow.lookup (grow : s.ListsGrow) (found : s.list? cell = some list) :
    list.table.growable = true ∧ list.ListsGrow := by
  have all := grow _ (mem_of_list? found)
  exact ⟨all.here, all.lists⟩

theorem ListsGrow.setList (grow : s.ListsGrow) (cell : Cell) (growable : list.table.growable = true)
    (inner : list.ListsGrow) : (s.setList cell list).ListsGrow := fun entry member => by
  rcases mem_insertList member with rfl | old
  · exact inner.throughout growable
  · exact grow entry old

/-- The second storage can change its length as the first one can, and its lists can. -/
structure StaysGrowing (s after : Storage) : Prop where
  growable : after.table.growable = s.table.growable
  lists : s.ListsGrow → after.ListsGrow

theorem StaysGrowing.of_alters (alters : Alters s after) : s.StaysGrowing after := by
  obtain ⟨table, lists⟩ := alters
  rw [SameDuties] at table
  exact ⟨by rw [table], fun grow entry member => grow entry (lists entry member)⟩

theorem StaysGrowing.onTable {outcome : Except Error Table}
    (same : ∀ t, outcome = .ok t → t.growable = s.table.growable) :
    s.StaysGrowing (s.onTable outcome).2 := by
  cases outcome with
  | ok t => exact ⟨same t rfl, id⟩
  | error => exact ⟨rfl, id⟩

theorem StaysGrowing.stages {outcome : Except Error Table}
    (stages : ∀ t, outcome = .ok t → Stages s.table t) :
    s.StaysGrowing (s.onTable outcome).2 :=
  .onTable fun t ok => by rw [(stages t ok).same]

theorem StaysGrowing.listens {outcome : Except Error Table}
    (listens : ∀ t, outcome = .ok t → ∃ listeners, t = { s.table with listeners }) :
    s.StaysGrowing (s.onTable outcome).2 :=
  .onTable fun t ok => by
    obtain ⟨listeners, rfl⟩ := listens t ok
    rfl

theorem StaysGrowing.reset (s : Storage) (length : UInt64) :
    s.StaysGrowing (s.reset length).2 := by
  unfold Storage.reset
  dsimp only
  split
  · exact ⟨rfl, id⟩
  · exact ⟨rfl, fun _ entry none => by cases none⟩

theorem StaysGrowing.createOrClearList (s : Storage) (handle : StructHandle) (length : UInt64) :
    s.StaysGrowing (s.createOrClearList handle length).2 := by
  unfold Storage.createOrClearList
  split
  · exact ⟨rfl, id⟩
  · next cell element _ =>
    split
    · next list found =>
      refine ⟨rfl, fun grow => ?_⟩
      obtain ⟨growable, inner⟩ := grow.lookup found
      have step := StaysGrowing.reset list length
      exact grow.setList cell (step.growable.trans growable) (step.lists inner)
    · split
      · exact ⟨rfl, id⟩
      · next list ok =>
        refine ⟨rfl, fun grow => ?_⟩
        obtain ⟨t, tableOk, rfl⟩ := table_allocate ok
        obtain ⟨rfl, -⟩ := allocate_eq_ok tableOk
        exact grow.setList cell rfl fun entry none => by cases none

theorem StaysGrowing.perform (s : Storage) (call : Call) :
    s.StaysGrowing (s.perform call).2 := by
  induction call generalizing s with
  | select row =>
    refine .onTable fun t ok => ?_
    obtain ⟨-, rfl⟩ := select_eq_ok.mp ok
    rfl
  | write field value => exact .stages fun t ok => stages_write ok
  | selectMember member => exact .stages fun t ok => stages_selectMember ok
  | clear => exact .stages fun t ok => stages_clear ok
  | clearUnion union => exact .stages fun t ok => stages_clearUnion ok
  | commit =>
    refine .onTable fun t ok => ?_
    obtain ⟨result, ok⟩ := map_snd_eq_ok ok
    cases commits_of_ok ok with
    | idle => rfl
    | applied => rw [Valid.sameApart_applyPending s.table]
  | rollback =>
    refine .onTable fun t ok => ?_
    cases ok
    unfold Table.rollback
    split <;> rfl
  | listen path label => exact .listens fun t ok => listen_eq_ok ok
  | listenField field label => exact .listens fun t ok => listenField_eq_ok ok
  | listenStruct struct label => exact .listens fun t ok => listenStruct_eq_ok ok
  | unlisten id => exact ⟨rfl, fun grow => grow⟩
  | resize length => exact .of_alters (alters_resize s length)
  | push => exact .of_alters (alters_push s)
  | reset length => exact .reset s length
  | createOrClearList struct length => exact .createOrClearList s struct length
  | inList struct call ih =>
    unfold Storage.perform
    split
    · exact ⟨rfl, id⟩
    · next cell list found =>
      refine ⟨rfl, fun grow => ?_⟩
      obtain ⟨growable, inner⟩ := grow.lookup (list_eq_ok found)
      have step := ih list
      exact grow.setList cell (step.growable.trans growable) (step.lists inner)

theorem listsGrow_restore {l : Layout} (grow : s.ListsGrow)
    (ok : s.snapshot.restore l = .ok after) : after.ListsGrow := by
  have whole {list after : Storage} {l : Layout} (all : list.Throughout fun t => t.growable = true)
      (ok : list.snapshot.restore l = .ok after) : after.Throughout fun t => t.growable = true := by
    induction all generalizing l after with
    | intro growable _ ih =>
      obtain ⟨buffers, inner, -, -, -, -, listsOk, rfl⟩ := Snapshot.restore_eq_ok.mp ok
      exact .intro growable (Snapshot.restoreLists_throughout (L := fun _ => True)
        (fun _ _ _ => trivial) (fun entry member l list _ => ih entry member) trivial listsOk)
  obtain ⟨t, lists⟩ := s
  obtain ⟨buffers, inner, -, -, -, -, listsOk, rfl⟩ := Snapshot.restore_eq_ok.mp ok
  exact Snapshot.restoreLists_throughout (L := fun _ => True) (fun _ _ _ => trivial)
    (fun entry member l list _ => whole (grow entry member)) trivial listsOk

/-- The storages have the same layout, and one can change its length if the other can. -/
def SameKind (list other : Storage) : Prop :=
  other.table.layout = list.table.layout ∧ other.table.growable = list.table.growable

theorem Steady.listsGrow (steady : s.Steady SameKind) : s.ListsGrow := by
  induction steady with
  | create _ ok =>
    obtain ⟨rows, -, ok⟩ := create_eq_ok.mp ok
    rw [ListsGrow, (layout_allocate ok).2]
    simp
  | call call _ _ ih => exact (StaysGrowing.perform _ call).lists ih
  | list _ found ih => exact (ih.lookup found).2
  | restore _ _ ok ih => exact listsGrow_restore ih ok
  | replace _ found _ kind ih other =>
    exact ih.setList _ (kind.2.trans (ih.lookup found).1) other

/-- Blank buffers of all segments are what is allocated. -/
theorem mapM_of_sizeSegments {l : Layout} {segments : List Segment} {buffers sized : List BitBuffer}
    (count : buffers.length = segments.length)
    (ok : sizeSegments l length (fun _ bits => .zeroed bits) segments buffers = (.ok (), sized)) :
    (segments.mapM fun g => do return BitBuffer.zeroed (← l.segmentBits length g.stride)) =
      .ok sized := by
  induction segments generalizing buffers sized with
  | nil =>
    cases List.length_eq_zero_iff.mp count
    cases ok
    rfl
  | cons g rest ih =>
    cases buffers with
    | nil => cases count
    | cons b others =>
      rw [sizeSegments] at ok
      cases bits : l.segmentBits length g.stride with
      | error e =>
        rw [bits] at ok
        cases ok
      | ok size =>
        rw [bits] at ok
        dsimp only at ok
        generalize outcome : sizeSegments l length (fun _ bits => .zeroed bits) rest others = result
          at ok
        obtain ⟨result, inner⟩ := result
        cases ok
        rw [List.mapM_cons, ih (Nat.succ.inj count) outcome, bits]
        rfl

/-- A list that is reset is a new one with the listeners of the old one. -/
theorem allocate_of_reset (stored : s.table.Stored) (ok : s.reset length = (.ok (), after)) :
    ∃ new, allocate s.table.layout length s.table.growable = .ok new ∧
      after = { new with table := { new.table with listeners := s.table.listeners } } := by
  have count : s.table.segments.toList.length = s.table.layout.segments.length := by
    rw [Array.length_toList, stored.count]
  unfold reset at ok
  dsimp only at ok
  generalize sized : sizeSegments s.table.layout length (fun _ bits => .zeroed bits)
    s.table.layout.segments s.table.segments.toList = outcome at ok
  obtain ⟨result, segments⟩ := outcome
  cases result with
  | error => cases ok
  | ok =>
    cases ok
    let fresh : Table :=
      { layout := s.table.layout
        capacity := length
        growable := s.table.growable
        segments := segments.toArray }
    refine ⟨{ table := fresh }, ?_, rfl⟩
    simp only [allocate, Table.allocate, mapM_of_sizeSegments count sized]
    rfl

theorem fresh_allocate {l : Layout} {growable : Bool} (good : l.Throughout SoundTyped)
    (ok : allocate l length growable = .ok s) :
    s.table.capacity = length ∧ ∀ row < length, s.Fresh row := by
  obtain ⟨t, tableOk, rfl⟩ := table_allocate ok
  obtain ⟨valid, shows⟩ := allocate_spec good tableOk
  obtain ⟨rfl, -⟩ := allocate_eq_ok tableOk
  exact ⟨rfl, fun row here => fresh_of_shows valid.sound shows here
    ⟨fun _ => rfl, fun _ => rfl, fun _ => rfl, fun _ _ => rfl⟩ fun _ => rfl⟩

/-- A list of empty elements that is kept under a cell, and nothing else has changed. It
is new, or has the listeners of the list that was there before. -/
structure Creates (s : Storage) (cell : Cell) (element : Layout) (length : UInt64)
    (after list : Storage) : Prop where
  after : after = s.setList cell list
  capacity : list.table.capacity = length
  fresh : ∀ row < length, list.Fresh row
  idle : list.table.cursor = none ∧ list.table.pending = .empty ∧
    list.table.activeUnion = none ∧ list.table.committedUnion = none
  vacant : s.list? cell = none → allocate element length true = .ok list
  again : ∀ old, s.list? cell = some old → ∃ new, allocate element length true = .ok new ∧
    list = { new with table := { new.table with listeners := old.table.listeners } }

theorem creates_allocate {element : Layout} (good : element.Throughout SoundTyped)
    (none : s.list? cell = none) (ok : allocate element length true = .ok list) :
    s.Creates cell element length (s.setList cell list) list := by
  obtain ⟨capacity, fresh⟩ := fresh_allocate good ok
  refine ⟨rfl, capacity, fresh, ?_, fun _ => ok, fun old found => ?_⟩
  · obtain ⟨t, tableOk, rfl⟩ := table_allocate ok
    obtain ⟨rfl, -⟩ := allocate_eq_ok tableOk
    exact ⟨rfl, rfl, rfl, rfl⟩
  · cases none.symm.trans found

theorem creates_reset {old element} (good : element.Throughout SoundTyped)
    (found : s.list? cell = some old) (layout : element = old.table.layout)
    (growable : old.table.growable = true) (stored : old.table.Stored)
    (ok : old.reset length = (.ok (), list)) :
    s.Creates cell element length (s.setList cell list) list := by
  obtain ⟨new, newOk, rfl⟩ := allocate_of_reset stored ok
  rw [← layout, growable] at newOk
  obtain ⟨capacity, fresh⟩ := fresh_allocate good newOk
  refine ⟨rfl, capacity, fun row here => ?_, ?_, fun none => ?_, fun other same => ?_⟩
  · exact (fresh row here).beside new.table.cursor old.table.listeners
  · obtain ⟨t, tableOk, rfl⟩ := table_allocate newOk
    obtain ⟨rfl, -⟩ := allocate_eq_ok tableOk
    exact ⟨rfl, rfl, rfl, rfl⟩
  · cases none.symm.trans found
  · cases same.symm.trans found
    exact ⟨new, newOk, rfl⟩

theorem creates_list (steady : s.Steady SameKind) {handle : StructHandle}
    (ok : s.createOrClearList handle length = (.ok cell, after)) :
    ∃ element list, s.listCell handle = .ok (cell, element) ∧
      s.Creates cell element length after list := by
  have valid := steady.reachable.valid
  unfold createOrClearList at ok
  cases cellOk : s.listCell handle with
  | error =>
    rw [cellOk] at ok
    cases ok
  | ok place =>
    obtain ⟨cell', element⟩ := place
    rw [cellOk] at ok
    dsimp only at ok
    obtain ⟨row, struct, -, structOk, single, rfl⟩ := listCell_eq_ok.mp cellOk
    obtain ⟨-, member⟩ := structOf_eq_ok.mp structOk
    rw [← valid.here.sound.struct?_id member] at member
    have good := valid.here.elements.element (List.mem_of_getElem? member) single
    cases found : s.list? ⟨struct.id, row⟩ with
    | none =>
      rw [found] at ok
      dsimp only at ok
      cases listOk : allocate element length true with
      | error =>
        rw [listOk] at ok
        cases ok
      | ok list =>
        rw [listOk] at ok
        cases ok
        exact ⟨element, list, rfl, creates_allocate good found listOk⟩
    | some old =>
      rw [found] at ok
      dsimp only at ok
      generalize resetOk : old.reset length = outcome at ok
      obtain ⟨result, list⟩ := outcome
      cases result with
      | error => cases ok
      | ok =>
        cases ok
        have tidy : s.Tidy fun element layout => element = layout :=
          steady.tidy (fun _ => rfl) fun _ _ _ kind same => same.trans kind.1.symm
        obtain ⟨-, element', here, layout⟩ := tidy.hangs _ (mem_of_list? found)
        have same : element = element' :=
          Option.some.inj ((element?_eq_some.mpr ⟨struct, member, single⟩).symm.trans here)
        exact ⟨element, list, rfl, creates_reset good found (same.trans layout)
          (steady.listsGrow.lookup found).1 (valid.lookup found).here.intact.stored resetOk⟩

/-- A new length that fits keeps the rows that are in both lengths and gives fresh rows for
the others, whether or not there were rows of their numbers before. Appending a row gives
its number and selects it. Creating a list gives a new list of fresh rows, which has the
listeners of the one that was there. -/
theorem rows_fresh_or_kept {s : Storage} (steady : s.Steady SameKind) :
    (∀ length after, s.resize length = (.ok (), after) → s.Lengthened length after) ∧
    (∀ number after, s.push = (.ok number, after) → s.table.capacity.toNat + 1 < UInt64.size →
      number = s.table.capacity ∧ after.table.cursor = some number ∧
        after.table.capacity.toNat = s.table.capacity.toNat + 1 ∧ after.Fresh number ∧
        ∀ row < s.table.capacity, s.KeepsRow after row) ∧
    ∀ handle length cell after, s.createOrClearList handle length = (.ok cell, after) →
      ∃ element list, s.listCell handle = .ok (cell, element) ∧
        s.Creates cell element length after list := by
  refine ⟨fun length after => lengthened_resize steady, fun number after ok counted => ?_,
    fun handle length cell after => creates_list steady⟩
  obtain ⟨rfl, cursor, done⟩ := lengthened_push steady ok
  have next : s.table.capacity < s.table.capacity + 1 := by
    rw [UInt64.lt_iff_toNat_lt, toNat_succ_row counted]
    exact Nat.lt_succ_self _
  refine ⟨rfl, cursor, ?_, done.fresh _ UInt64.le_rfl next, fun row old =>
    done.kept row old (UInt64.lt_trans old next)⟩
  rw [done.capacity, toNat_succ_row counted]

/-- The first page keeps its picture when the second one is cut off. When both are cut off
and one is appended, that one has no picture. The list can be created again with four
pages. -/
theorem rows_fresh_or_kept_pageList : pageList.Steady SameKind ∧
    (∃ after, pageList.resize 1 = (.ok (), after) ∧ pageList.KeepsRow after 0) ∧
    (∃ after, (pageList.perform (.resize 0)).2.push = (.ok 0, after) ∧ after.Fresh 0) ∧
    ∃ after list, filled.createOrClearList pages 4 = (.ok ⟨1, 1⟩, after) ∧ list.Fresh 3 ∧
      after.list? ⟨1, 1⟩ = some list := by
  have steady : pageList.Steady SameKind := .list filled_steady (Option.some_get _).symm
  have emptied : (pageList.perform (.resize 0)).2.Steady SameKind :=
    steady.call (.resize 0) (by decide +kernel)
  obtain ⟨resized, -, -⟩ := rows_fresh_or_kept steady
  obtain ⟨-, pushed, -⟩ := rows_fresh_or_kept emptied
  obtain ⟨-, -, created⟩ := rows_fresh_or_kept (filled_steady : filled.Steady SameKind)
  have pair {α β : Type} {p : α × β} {a : α} (first : p.1 = a) : p = (a, p.2) := by rw [← first]
  have resizeOk : pageList.resize 1 = (.ok (), _) := pair (by decide +kernel)
  have pushOk : (pageList.perform (.resize 0)).2.push = (.ok 0, _) := pair (by decide +kernel)
  have createOk : filled.createOrClearList pages 4 = (.ok ⟨1, 1⟩, _) := pair (by decide +kernel)
  refine ⟨steady, ⟨_, resizeOk, (resized 1 _ resizeOk).kept 0 (by decide +kernel) (by decide)⟩,
    ⟨_, pushOk, (pushed 0 _ pushOk (by decide +kernel)).2.2.2.1⟩, ?_⟩
  obtain ⟨element, list, -, creates⟩ := created pages 4 _ _ createOk
  refine ⟨_, list, createOk, creates.fresh 3 (by decide), ?_⟩
  rw [creates.after, list?_setList, if_pos rfl]

end BitRecords.Storage
