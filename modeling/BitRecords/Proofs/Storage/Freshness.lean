import BitRecords.Proofs.Storage.Places
import BitRecords.Proofs.Storage.Refinement
import BitRecords.Proofs.Storage.Tidy

/-!
# Rows that come into existence

A row that comes into existence holds defaults only, also where there was a row of its
number before that was cut off. Rows that stay are as they were, with their lists.

All this is about committed rows: what is pending for a row that is cut off stays in the
log, and is no part of the row.
-/

namespace BitRecords

open Layout Contents

/-- Reading a row of contents looks at no other row. -/
theorem Contents.AgreeAt.readAt {l : Layout} {row : UInt64} {a b : Contents}
    (agree : AgreeAt l row a b) (sound : l.Sound) {id : FieldId} {f : FieldLayout}
    (field : l.field? id = some f) : a.readAt l f row = b.readAt l f row := by
  obtain ⟨s, struct, number, -⟩ := sound.owner field
  have absent : a.firstAbsent? s row = b.firstAbsent? s row :=
    List.find?_congr fun o _ => by rw [agree.present]
  unfold Contents.readAt
  rw [struct]
  dsimp only
  rw [absent]
  cases (b.firstAbsent? s row).bind l.struct? with
  | some => rfl
  | none =>
    dsimp only
    cases union : s.union with
    | some u => rw [agree.tag, agree.region]
    | none =>
      obtain rfl := sound.field?_id field
      have plain := (sound.plain_of_union field struct).mp union
      rw [agree.value f.id ⟨f, field, plain⟩]

namespace Storage

open Table

variable {may : Storage → Storage → Prop} {s after list : Storage} {c c' : Contents}
variable {length row : UInt64} {cell : Cell}

/-- Nothing was written to the row yet: its fields have their defaults, no optional
struct is present, no member of a union is selected, and there are no lists. -/
structure Fresh (s : Storage) (row : UInt64) : Prop where
  content : ∀ id f, s.table.layout.field? id = some f → f.tag = none →
    s.table.content f row = f.type.defaultValue
  read : ∀ id f, s.table.layout.field? id = some f → f.tag = none →
    s.table.layout.chainOf f.owner = [] →
    s.table.readAt .committed f row = .ok f.type.defaultValue
  absent : ∀ id slot, s.table.layout.presence? id = some slot →
    s.table.hasOptional .committed id row = false
  tag : ∀ id struct u, s.table.layout.struct? id = some struct → struct.union = some u →
    s.table.tag .committed id u row = 0
  region : ∀ id struct u, s.table.layout.struct? id = some struct → struct.union = some u →
    s.table.region .committed struct u row = 0
  lists : ∀ id, s.list? ⟨id, row⟩ = none

/-- The row is in both storages, with the same values, presence, selected members,
regions and lists. -/
structure KeepsRow (s after : Storage) (row : UInt64) : Prop where
  content : ∀ id f, s.table.layout.field? id = some f → f.tag = none →
    after.table.content f row = s.table.content f row
  read : ∀ id f, s.table.layout.field? id = some f →
    after.table.readAt .committed f row = s.table.readAt .committed f row
  present : ∀ id slot, s.table.layout.presence? id = some slot →
    after.table.hasOptional .committed id row = s.table.hasOptional .committed id row
  tag : ∀ id struct u, s.table.layout.struct? id = some struct → struct.union = some u →
    after.table.tag .committed id u row = s.table.tag .committed id u row
  region : ∀ id struct u, s.table.layout.struct? id = some struct → struct.union = some u →
    after.table.region .committed struct u row = s.table.region .committed struct u row
  lists : ∀ id, after.list? ⟨id, row⟩ = s.list? ⟨id, row⟩

/-- A row with blank contents and without lists is fresh. -/
theorem fresh_of_shows (sound : s.table.layout.Sound) (shows : s.table.Shows c)
    (here : row < s.table.capacity) (blank : AgreeAt s.table.layout row c (blank s.table.layout))
    (lists : ∀ id, s.list? ⟨id, row⟩ = none) : s.Fresh row := by
  have sees := shows.sees
  have content (id : FieldId) (f : FieldLayout) (field : s.table.layout.field? id = some f)
      (plain : f.tag = none) : s.table.content f row = f.type.defaultValue := by
    have value := sees.value id row here f field plain
    rw [blank.value id ⟨f, field, plain⟩] at value
    simpa [Table.valueIn, Contents.blank, field] using value
  refine ⟨content, fun id f field plain outermost => ?_, fun id slot presence => ?_,
    fun id struct u found union => ?_, fun id struct u found union => ?_, lists⟩
  · obtain ⟨owner, struct, -⟩ := sound.owner field
    have chain : owner.chain = [] := by simpa [chainOf, struct] using outermost
    have union : owner.union = none := (sound.plain_of_union field struct).mpr plain
    unfold Table.readAt
    rw [struct]
    simp only [Table.firstAbsent?, chain, List.find?_nil, Option.bind_none, union]
    rw [content id f field plain]
  · rw [sees.present id row here slot presence, blank.present]
    rfl
  · rw [sees.tag id row here struct u found union, blank.tag]
    rfl
  · rw [sees.region id row here struct u found union, blank.region]
    rfl

/-- Neither the cursor nor the listeners belong to a row. -/
theorem Fresh.beside (fresh : s.Fresh row) (cursor : Option UInt64) (listeners : ListenerRegistry) :
    Fresh { s with table := { s.table with cursor, listeners } } row := by
  obtain ⟨content, read, absent, tag, region, lists⟩ := fresh
  exact ⟨content, read, absent, tag, region, lists⟩

/-- A row with the same contents and the same lists is kept. -/
theorem keepsRow_of_shows (sound : s.table.layout.Sound)
    (layout : after.table.layout = s.table.layout) (shows : s.table.Shows c)
    (shows' : after.table.Shows c') (old : row < s.table.capacity)
    (here : row < after.table.capacity) (same : AgreeAt s.table.layout row c' c)
    (lists : ∀ id, after.list? ⟨id, row⟩ = s.list? ⟨id, row⟩) : s.KeepsRow after row := by
  have sees := shows.sees
  have sees' := shows'.sees
  refine ⟨fun id f field plain => ?_, fun id f field => ?_, fun id slot presence => ?_,
    fun id struct u found union => ?_, fun id struct u found union => ?_, lists⟩
  · have value := sees.value id row old f field plain
    have value' := sees'.value id row here f (layout ▸ field) plain
    rw [same.value id ⟨f, field, plain⟩, ← value] at value'
    exact value'
  · rw [sees.readAt sound old field, sees'.readAt (layout ▸ sound) here (layout ▸ field), layout]
    exact same.readAt sound field
  · rw [sees.present id row old slot presence,
      sees'.present id row here slot (layout ▸ presence), same.present]
  · rw [sees.tag id row old struct u found union,
      sees'.tag id row here struct u (layout ▸ found) union, same.tag]
  · rw [sees.region id row old struct u found union,
      sees'.region id row here struct u (layout ▸ found) union, same.region]

theorem lookup_filter (kept : Cell → Bool) (keeps : kept cell = true)
    (lists : List (Cell × Storage)) :
    (lists.filter fun entry => kept entry.1).lookup cell = lists.lookup cell := by
  induction lists with
  | nil => rfl
  | cons entry rest ih =>
    obtain ⟨key, value⟩ := entry
    by_cases same : cell = key
    · rw [List.filter_cons, if_pos (same ▸ keeps), lookup_cons, lookup_cons, if_pos same,
        if_pos same]
    · rw [lookup_cons, if_neg same, List.filter_cons, ← ih]
      split
      · rw [lookup_cons, if_neg same]
      · rfl

/-- Rows that stay have their lists. -/
theorem list?_trim (s : Storage) (inside : cell.row < length) :
    (s.trim length).list? cell = s.list? cell := by
  unfold trim
  split
  · exact lookup_filter (fun cell => cell.row < length) (decide_eq_true inside) s.lists
  · rfl

/-- A row that a storage does not have has no lists. -/
theorem list?_of_le (steady : s.Steady may) (past : s.table.capacity ≤ cell.row) :
    s.list? cell = none := by
  cases found : s.list? cell with
  | none => rfl
  | some list =>
    have tidy : s.Tidy fun _ _ => True :=
      steady.tidy (fun _ => trivial) fun _ _ _ _ _ => trivial
    have hangs := tidy.hangs _ (mem_of_list? found)
    exact absurd hangs.row (UInt64.not_lt.mpr past)

/-- What a new length leaves: the layout is the same, rows of the old length stay, and
all others are fresh. -/
structure Lengthened (s : Storage) (length : UInt64) (after : Storage) : Prop where
  layout : after.table.layout = s.table.layout
  capacity : after.table.capacity = length
  fresh : ∀ row, s.table.capacity ≤ row → row < length → after.Fresh row
  kept : ∀ row, row < s.table.capacity → row < length → s.KeepsRow after row

theorem lengthened_resize (steady : s.Steady may) (ok : s.resize length = (.ok (), after)) :
    s.Lengthened length after := by
  have valid := steady.reachable.valid.here
  have step := resizes valid.intact length
  rw [ok] at step
  obtain ⟨objects, segments, released, sizes, rfl⟩ := step.of_ok rfl
  have shows := (keeps_done valid.intact (s.table.cursor.filter (· < length)) released sizes).shows
    (shows_contents s.table)
  refine ⟨rfl, rfl, fun row past here => ?_, fun row old here => ?_⟩
  · refine fresh_of_shows valid.sound shows here (.keep_of_le _ past) fun id => ?_
    exact (list?_trim s here).trans (list?_of_le steady past)
  · exact keepsRow_of_shows valid.sound rfl (shows_contents s.table) shows old here
      (.keep_of_lt _ old) fun id => list?_trim s here

/-- The cursor does not matter for what rows hold. -/
theorem Lengthened.select (done : s.Lengthened length after) (cursor : Option UInt64) :
    s.Lengthened length { after with table := { after.table with cursor } } := by
  refine ⟨done.layout, done.capacity, fun row past here => ?_, fun row old here => ?_⟩
  · exact (done.fresh row past here).beside cursor after.table.listeners
  · obtain ⟨content, read, present, tag, region, lists⟩ := done.kept row old here
    exact ⟨content, read, present, tag, region, lists⟩

/-- Appending a row gives its number and selects it. -/
theorem lengthened_push (steady : s.Steady may) {number : UInt64}
    (ok : s.push = (.ok number, after)) :
    number = s.table.capacity ∧ after.table.cursor = some number ∧
      s.Lengthened (s.table.capacity + 1) after := by
  have step := pushes s
  rw [ok] at step
  cases step with
  | done _ resized => exact ⟨rfl, rfl, (lengthened_resize steady resized).select _⟩

end Storage

end BitRecords
