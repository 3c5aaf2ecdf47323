import BitRecords.Proofs.Layout.Exchange
import BitRecords.Proofs.Storage.Obtainable

/-!
# Storages whose lengths fit

A storage is steady when it is reached without a change of a list's length that
overflows. A new list that would overflow is refused without a change, so nothing
is lost by leaving out its call as well.

A property of rows persists in steady storages when it outlasts a commit, a new
length, a reset and a restore. Staging and listening do not change rows.
-/

namespace BitRecords

open Layout Table

/-- A size that overflows. -/
def Error.isOverflow : Error → Bool
  | .compilation _ (.capacityTooLarge ..) => true
  | _ => false

namespace Storage

/-- Whether the outcome is the refusal of a size that overflows. -/
def overflowed {α : Type} : Except Error α → Bool
  | .ok _ => false
  | .error e => e.isOverflow

/-- The storages that are reached without an overflow. A storage may take the
place of a list if `may` allows it. -/
inductive Steady (may : Storage → Storage → Prop) : Storage → Prop where
  | create {l : Layout} {capacity : Option UInt64} {s : Storage} : l.Compiled →
      create l capacity = .ok s → Steady may s
  | call {s : Storage} (call : Call) : Steady may s → overflowed (s.perform call).1 = false →
      Steady may (s.perform call).2
  | list {s list : Storage} {cell : Cell} : Steady may s → s.list? cell = some list →
      Steady may list
  | restore {s after : Storage} {l : Layout} : Steady may s → l.Compiled →
      s.snapshot.restore l = .ok after → Steady may after
  | replace {s list other : Storage} {cell : Cell} : Steady may s → s.list? cell = some list →
      Steady may other → may list other → Steady may (s.setList cell other)

variable {may : Storage → Storage → Prop} {s : Storage} {P : Table → Prop}

theorem Steady.reachable (steady : s.Steady may) : s.Reachable := by
  induction steady with
  | create compiled ok => exact .create compiled ok
  | call call _ _ ih => exact .call call ih
  | list _ found ih => exact .list ih found
  | restore _ compiled ok ih => exact .restore ih compiled ok
  | replace _ found _ _ ih other => exact .replace ih found other

@[simp] theorem overflowed_map {α β : Type} (f : α → β) (outcome : Except Error α) :
    overflowed (outcome.map f) = overflowed outcome := by
  cases outcome <;> rfl

/-- Sizing buffers fails only when a size overflows. -/
theorem overflowed_sizeSegments (l : Layout) (length : UInt64)
    (change : BitBuffer → UInt64 → BitBuffer) (segments : List Segment) (buffers : List BitBuffer)
    (failed : (sizeSegments l length change segments buffers).1 ≠ .ok ()) :
    overflowed (sizeSegments l length change segments buffers).1 = true := by
  induction segments generalizing buffers with
  | nil => exact absurd rfl failed
  | cons g rest ih =>
    cases buffers with
    | nil => exact absurd rfl failed
    | cons b others =>
      rw [sizeSegments] at failed ⊢
      cases bits : l.segmentBits length g.stride with
      | error e =>
        unfold Layout.segmentBits at bits
        split at bits <;> cases bits
        rfl
      | ok count =>
        rw [bits] at failed
        exact ih others failed

/-- A new length that fits: nothing happens if the capacity is fixed, and else rows
are cut off or added. -/
inductive Resized (s : Storage) (length : UInt64) : Storage → Prop where
  | fixed : Resized s length s
  | done {objects : ObjectTable} {segments : List BitBuffer} :
      Released s.table (NamedFrom s.table length) { s.table with objects } →
      Sized length BitBuffer.resize s.table.layout.segments s.table.segments.toList (.ok ())
        segments →
      Resized s length
        { table :=
            { s.table with
              objects
              segments := segments.toArray
              capacity := length
              cursor := s.table.cursor.filter (· < length) }
          lists := (s.trim length).lists }

theorem resized (intact : s.table.Intact) {length : UInt64}
    (fits : overflowed (s.resize length).1 = false) : Resized s length (s.resize length).2 := by
  have step := resizes intact length
  cases growable : s.table.growable with
  | false =>
    simp only [resize, growable, Bool.not_false, if_true]
    exact .fixed
  | true =>
    have failed : (s.resize length).1 ≠ .ok () → overflowed (s.resize length).1 = true := by
      simp only [resize, growable, Bool.not_true, Bool.false_eq_true, if_false]
      generalize (if length < s.table.capacity then s.releaseRows length else s) = s'
      have sizes := overflowed_sizeSegments s'.table.layout length BitBuffer.resize
        s'.table.layout.segments s'.table.segments.toList
      revert sizes
      generalize sizeSegments s'.table.layout length BitBuffer.resize s'.table.layout.segments
        s'.table.segments.toList = sized
      obtain ⟨result, segments⟩ := sized
      cases result <;> exact id
    have ok : (s.resize length).1 = .ok () := by
      by_contra bad
      rw [failed bad] at fits
      cases fits
    generalize s.resize length = outcome at step ok ⊢
    obtain ⟨result, after⟩ := outcome
    cases ok
    cases step with
    | done released sizes => exact .done released sizes

/-- A reset to a length that fits. -/
theorem reset_of_fits {length : UInt64} (fits : overflowed (s.reset length).1 = false) :
    ∃ segments, Sized length (fun _ => .zeroed) s.table.layout.segments s.table.segments.toList
        (.ok ()) segments ∧
      s.reset length = (.ok (),
        { table :=
            { layout := s.table.layout
              capacity := length
              growable := s.table.growable
              segments := segments.toArray
              listeners := s.table.listeners } }) := by
  have sizes := sizeSegments_spec s.table.layout length (fun _ => .zeroed) s.table.layout.segments
    s.table.segments.toList
  have failed := overflowed_sizeSegments s.table.layout length (fun _ => .zeroed)
    s.table.layout.segments s.table.segments.toList
  simp only [reset] at fits ⊢
  generalize sizeSegments s.table.layout length (fun _ => .zeroed) s.table.layout.segments
    s.table.segments.toList = sized at sizes failed fits ⊢
  obtain ⟨result, segments⟩ := sized
  cases result with
  | ok => exact ⟨segments, sizes, rfl⟩
  | error e =>
    rw [show overflowed (.error e : Except Error Unit) = false from fits] at failed
    cases failed (by simp)

/-- What a call on a table does to its rows: it leaves them as they are, or commits
what is pending. -/
inductive TableStep (t : Table) : Table → Prop where
  | rows {t' : Table} : SameRows t t' → TableStep t t'
  | commit : t.checkPending = .ok () → TableStep t t.applyPending

/-- What a call on a storage does: it changes the table, a length, or a list. -/
inductive Performs : Storage → Except Error Unit → Storage → Prop where
  | table {s : Storage} {t : Table} {result : Except Error Unit} : TableStep s.table t →
      Performs s result { s with table := t }
  | resize {s : Storage} {length : UInt64} :
      Performs s (s.resize length).1 (s.resize length).2
  | push {s : Storage} : Performs s (s.push.1.map fun _ => ()) s.push.2
  | reset {s : Storage} {length : UInt64} : Performs s (s.reset length).1 (s.reset length).2
  | createOrClearList {s : Storage} {handle : StructHandle} {length : UInt64} :
      Performs s ((s.createOrClearList handle length).1.map fun _ => ())
        (s.createOrClearList handle length).2
  | inList {s list after : Storage} {cell : Cell} {result : Except Error Unit} :
      s.list? cell = some list → Performs list result after →
      Performs s result (s.setList cell after)

theorem Performs.unchanged (s : Storage) (result : Except Error Unit) : Performs s result s := by
  cases s
  exact .table (.rows ⟨rfl, rfl, rfl, rfl⟩)

theorem performs_onTable {outcome : Except Error Table}
    (step : ∀ t, outcome = .ok t → TableStep s.table t) :
    Performs s (s.onTable outcome).1 (s.onTable outcome).2 := by
  cases outcome with
  | ok t => exact .table (step t rfl)
  | error e => exact .unchanged s _

theorem performs (s : Storage) (call : Call) :
    Performs s (s.perform call).1 (s.perform call).2 := by
  induction call generalizing s with
  | select row =>
    refine performs_onTable fun t ok => .rows ?_
    obtain ⟨-, rfl⟩ := select_eq_ok.mp ok
    exact ⟨rfl, rfl, rfl, rfl⟩
  | write field value =>
    refine performs_onTable fun t ok => .rows ?_
    obtain ⟨row, f, bits, -, -, -, rfl⟩ := write_eq_ok.mp ok
    exact ⟨rfl, rfl, rfl, rfl⟩
  | selectMember member =>
    refine performs_onTable fun t ok => .rows ?_
    obtain ⟨row, f, tag, -, -, -, rfl⟩ := selectMember_eq_ok.mp ok
    exact ⟨rfl, rfl, rfl, rfl⟩
  | clear =>
    refine performs_onTable fun t ok => .rows ?_
    obtain ⟨row, union, -, -, rfl⟩ := clear_eq_ok.mp ok
    exact ⟨rfl, rfl, rfl, rfl⟩
  | clearUnion union =>
    refine performs_onTable fun t ok => .rows ?_
    obtain ⟨row, struct, -, -, -, rfl⟩ := clearUnion_eq_ok.mp ok
    exact ⟨rfl, rfl, rfl, rfl⟩
  | commit =>
    refine performs_onTable fun t ok => ?_
    obtain ⟨result, ok⟩ := map_snd_eq_ok ok
    cases commits_of_ok ok with
    | idle => exact .rows ⟨rfl, rfl, rfl, rfl⟩
    | applied _ checked => exact .commit checked
  | rollback =>
    refine performs_onTable fun t ok => .rows ?_
    cases ok
    unfold Table.rollback
    split <;> exact ⟨rfl, rfl, rfl, rfl⟩
  | listen path label =>
    refine performs_onTable fun t ok => .rows ?_
    obtain ⟨listeners, rfl⟩ := listen_eq_ok ok
    exact ⟨rfl, rfl, rfl, rfl⟩
  | listenField field label =>
    refine performs_onTable fun t ok => .rows ?_
    obtain ⟨listeners, rfl⟩ := listenField_eq_ok ok
    exact ⟨rfl, rfl, rfl, rfl⟩
  | listenStruct struct label =>
    refine performs_onTable fun t ok => .rows ?_
    obtain ⟨listeners, rfl⟩ := listenStruct_eq_ok ok
    exact ⟨rfl, rfl, rfl, rfl⟩
  | unlisten id =>
    refine performs_onTable fun t ok => .rows ?_
    cases ok
    exact ⟨rfl, rfl, rfl, rfl⟩
  | resize length => exact .resize
  | push => exact .push
  | reset length => exact .reset
  | createOrClearList struct length => exact .createOrClearList
  | inList struct call ih =>
    unfold perform
    cases found : s.list struct with
    | error e => exact .unchanged s _
    | ok place => exact .inList (list_eq_ok found) (ih place.2)

/-- The property outlasts everything that can happen to the rows of a table while
lengths fit. -/
structure Persists (P : Table → Prop) : Prop where
  rows : ∀ {t t' : Table}, P t → SameRows t t' → P t'
  commit : ∀ {t : Table}, P t → t.Valid → t.checkPending = .ok () → P t.applyPending
  resize : ∀ {t : Table} {length : UInt64} {objects : ObjectTable} {segments : List BitBuffer},
    P t → t.Valid → Released t (NamedFrom t length) { t with objects } →
    Sized length BitBuffer.resize t.layout.segments t.segments.toList (.ok ()) segments →
    P { t with objects, segments := segments.toArray, capacity := length }
  fresh : ∀ {t : Table}, t.Valid → t.objects = {} →
    (∀ (k : Nat) (b : BitBuffer), t.segments[k]? = some b →
      t.capacity.toNat * (t.layout.stride k).toNat < UInt64.size ∧
        b = .zeroed (t.capacity * t.layout.stride k)) → P t
  restore : ∀ {t : Table} {l : Layout} {buffers : List BitBuffer}, P t → t.Valid →
    t.layout.Interchangeable l → (Snapshot.restored t l buffers).Valid →
    t.segments.size = l.segments.length →
    Snapshot.restoreSegments t.capacity (t.segments.toList.map BitBuffer.toBytes) l.segments =
      .ok buffers →
    P (Snapshot.restored t l buffers)

namespace Persists

variable (persists : Persists P)
include persists

theorem resize_throughout (valid : s.Throughout Valid) (all : s.Throughout P) {length : UInt64}
    (fits : overflowed (s.resize length).1 = false) : (s.resize length).2.Throughout P := by
  have step := resized valid.here.intact fits
  generalize (s.resize length).2 = after at step ⊢
  cases step with
  | fixed => exact all
  | done released sizes =>
    have holds := persists.resize all.here valid.here released sizes
    refine .intro (persists.rows holds ⟨rfl, rfl, rfl, rfl⟩) ?_
    unfold trim
    split
    · exact fun entry member => all.lists entry (List.mem_filter.mp member).1
    · exact all.lists

theorem push_throughout (valid : s.Throughout Valid) (all : s.Throughout P)
    (fits : overflowed s.push.1 = false) : s.push.2.Throughout P := by
  have grown (fits : overflowed (s.resize (s.table.capacity + 1)).1 = false) :=
    persists.resize_throughout valid all fits
  have step := pushes s
  generalize s.push = outcome at step fits ⊢
  obtain ⟨result, after⟩ := outcome
  cases step with
  | refused => exact all
  | failed resized =>
    rw [resized] at grown
    exact grown fits
  | done _ resized =>
    rw [resized] at grown
    have all := grown rfl
    exact all.withTable (persists.rows all.here ⟨rfl, rfl, rfl, rfl⟩)

theorem reset_throughout (valid : s.Throughout Valid) {length : UInt64}
    (fits : overflowed (s.reset length).1 = false) : (s.reset length).2.Throughout P := by
  obtain ⟨segments, sizes, same⟩ := reset_of_fits fits
  rw [same]
  have stored := valid.here.intact.stored
  refine .intro (persists.fresh (fresh_done stored valid.here.elements sizes _ _).1 rfl ?_)
    (by simp)
  intro k b found
  obtain ⟨-, -, cases | ⟨failed, -⟩⟩ := sizes.buffer stored found
  · exact cases
  · exact absurd rfl failed

theorem allocate_throughout {l : Layout} {length : UInt64} {growable : Bool} {list : Storage}
    (good : l.Throughout SoundTyped) (ok : allocate l length growable = .ok list) :
    list.Throughout P := by
  obtain ⟨t, tableOk, rfl⟩ := table_allocate ok
  have valid := (allocate_spec good tableOk).1
  obtain ⟨rfl, fits⟩ := allocate_eq_ok tableOk
  refine .intro (persists.fresh valid rfl fun k b found => ?_) (by simp)
  simp only [List.getElem?_toArray, List.getElem?_map, Option.map_eq_some_iff] at found
  obtain ⟨g, segment, rfl⟩ := found
  dsimp only
  rw [stride_eq segment]
  exact ⟨fits g (List.mem_of_getElem? segment), rfl⟩

theorem createOrClearList_throughout (valid : s.Throughout Valid) (all : s.Throughout P)
    {handle : StructHandle} {length : UInt64}
    (fits : overflowed (s.createOrClearList handle length).1 = false) :
    (s.createOrClearList handle length).2.Throughout P := by
  unfold createOrClearList at fits ⊢
  cases cellOk : s.listCell handle with
  | error e => exact all
  | ok place =>
    obtain ⟨cell, element⟩ := place
    rw [cellOk] at fits
    dsimp only at fits ⊢
    cases found : s.list? cell with
    | some list =>
      rw [found] at fits
      dsimp only at fits ⊢
      rw [overflowed_map] at fits
      exact all.setList cell (persists.reset_throughout (valid.lookup found) fits)
    | none =>
      cases ok : allocate element length true with
      | error e => exact all
      | ok list =>
        obtain ⟨row, struct, -, structOk, single, -⟩ := listCell_eq_ok.mp cellOk
        obtain ⟨-, member⟩ := structOf_eq_ok.mp structOk
        have good := valid.here.elements.element (List.mem_of_getElem? member) single
        exact all.setList cell (persists.allocate_throughout good ok)

/-- A call that does not overflow keeps the property everywhere. -/
theorem perform (valid : s.Throughout Valid) (all : s.Throughout P) {call : Call}
    (fits : overflowed (s.perform call).1 = false) : (s.perform call).2.Throughout P := by
  have step := performs s call
  generalize (s.perform call).1 = result at step fits
  generalize (s.perform call).2 = after at step ⊢
  induction step with
  | table step =>
    cases step with
    | rows same => exact all.withTable (persists.rows all.here same)
    | commit checked => exact all.withTable (persists.commit all.here valid.here checked)
  | resize => exact persists.resize_throughout valid all fits
  | push => exact persists.push_throughout valid all (by rwa [overflowed_map] at fits)
  | reset => exact persists.reset_throughout valid fits
  | createOrClearList =>
    exact persists.createOrClearList_throughout valid all (by rwa [overflowed_map] at fits)
  | inList found _ ih =>
    exact all.setList _ (ih (valid.lookup found) (all.lookup found) fits)

theorem restore_throughout {l : Layout} {after : Storage} (valid : s.Throughout Valid)
    (placed : s.Throughout fun t => t.layout.Placed) (all : s.Throughout P) (compiled : l.Compiled)
    (ok : s.snapshot.restore l = .ok after) : after.Throughout P := by
  induction all generalizing l after with
  | @intro t lists holds _ ih =>
    obtain ⟨buffers, inner, same, -, count, buffersOk, listsOk, rfl⟩ := Snapshot.restore_eq_ok.mp ok
    have restored := Snapshot.restored_valid same count buffersOk valid.here compiled.soundTyped
    have exchanged := placed.here.interchangeable compiled.placed same
    refine .intro (persists.restore holds valid.here exchanged restored count buffersOk) ?_
    exact Snapshot.restoreLists_throughout closed_compiled
      (fun entry member l list => ih entry member (valid.lists entry member)
        (placed.lists entry member)) compiled listsOk

/-- The property holds in all steady storages. -/
theorem steady (steady : s.Steady may) : s.Throughout P := by
  induction steady with
  | create compiled ok =>
    obtain ⟨rows, -, ok⟩ := create_eq_ok.mp ok
    exact persists.allocate_throughout compiled.soundTyped ok
  | call call before fits ih => exact persists.perform before.reachable.valid ih fits
  | list _ found ih => exact ih.lookup found
  | restore before compiled ok ih =>
    have placed := (before.reachable.obtainable.layouts closed_compiled).mono fun _ => Compiled.placed
    exact persists.restore_throughout before.reachable.valid placed ih compiled ok
  | replace _ _ _ _ ih other => exact ih.setList _ other

end Persists

/-- No call of the run overflows. -/
def fits (s : Storage) : List Call → Bool
  | [] => true
  | call :: calls => !overflowed (s.perform call).1 && (s.perform call).2.fits calls

theorem Steady.run (steady : s.Steady may) {calls : List Call} (fits : s.fits calls = true) :
    (s.run calls).Steady may := by
  induction calls generalizing s with
  | nil => exact steady
  | cons call rest ih =>
    simp only [Storage.fits, Bool.and_eq_true, Bool.not_eq_true'] at fits
    exact ih (steady.call call fits.1) fits.2

open LayoutRules

/-- An album with two pictures of its own, and a list of pages with one picture
each. -/
def album : Schema where
  name := "album"
  fields := [⟨"front", .object⟩, ⟨"back", .object⟩, ⟨"year", .unsigned 11⟩]
  children := [
    { name := "pages", fields := [⟨"picture", .object⟩], flags := { list := true } }]

theorem album_buildable : album.Buildable := by
  refine .rebuilt (fun child member => ?_) (by decide) (by rfl)
  cases List.mem_singleton.mp member
  exact .rebuilt (by simp) (by decide) (by rfl)

def albumLayout : Layout :=
  (LayoutRules.layout { strategy := .packed } album).toOption.get (by rfl)

/-- The layout of the pages of an album. -/
def pageLayout : Layout := ((albumLayout.struct? 1).bind (·.element)).get (by rfl)

theorem albumLayout_compiled : albumLayout.Compiled :=
  .root (r := { strategy := .packed }) album_buildable (by rfl)

theorem pageLayout_compiled : pageLayout.Compiled :=
  albumLayout_compiled.element (s := (albumLayout.struct? 1).get (by rfl))
    (List.mem_of_getElem? (i := 1) (by rfl)) (by rfl)

/-- Two albums. -/
def albums : Storage := (create albumLayout (some 2)).toOption.get (by rfl)

theorem create_albums : create albumLayout (some 2) = .ok albums := by rfl

theorem albums_steady : albums.Steady may := .create albumLayout_compiled create_albums

/-- Puts a picture, or none, into a field of a layout. -/
def paste (l : Layout) (field : FieldId) (picture : Option ObjectRef) : Call :=
  .write ⟨l.fingerprint, field, .object⟩ (.object picture)

/-- The list of pages. -/
def pages : StructHandle := ⟨albumLayout.fingerprint, 1, { list := true }⟩

/-- The pictures of the first album are taken out again. The second album has a
picture, and two pages with a picture on the first one. Another picture waits for
a commit. -/
def filling : List Call :=
  [.select 0, paste albumLayout 0 (some ⟨"sea"⟩), paste albumLayout 1 (some ⟨"hill"⟩), .select 1,
    paste albumLayout 0 (some ⟨"lake"⟩), .commit,
    .select 0, paste albumLayout 0 none, paste albumLayout 1 none, .commit,
    .select 1, .createOrClearList pages 2, .inList pages (.select 0),
    .inList pages (paste pageLayout 0 (some ⟨"dog"⟩)), .inList pages .commit,
    paste albumLayout 1 (some ⟨"tree"⟩)]

def filled : Storage := albums.run filling

theorem filled_steady : filled.Steady may := albums_steady.run (by decide +kernel)

end Storage

end BitRecords
