import Mathlib.Data.List.Find
import BitRecords.Proofs.Table.Rows

/-!
# What reads see

A read sees contents when presence, tags, regions and values are those of the
contents in its view. Then all answers of the table are determined by them. In
the committed view a table sees the contents that its rows hold.
-/

namespace BitRecords.Table

/-- The value of a field that is no union member, in a view. -/
def valueIn (t : Table) (view : View) (f : FieldLayout) (row : UInt64) : Value :=
  match view with
  | .committed => t.content f row
  | .staged => (t.pending.latestValue? f.id row).getD (t.content f row)

/-- Reads in the view see the contents. -/
structure Sees (t : Table) (view : View) (c : Contents) : Prop where
  present : ∀ id row, row < t.capacity → ∀ slot, t.layout.presence? id = some slot →
    t.hasOptional view id row = c.present ⟨id, row⟩
  tag : ∀ id row, row < t.capacity → ∀ s u, t.layout.struct? id = some s → s.union = some u →
    t.tag view id u row = c.tag ⟨id, row⟩
  region : ∀ id row, row < t.capacity → ∀ s u, t.layout.struct? id = some s → s.union = some u →
    t.region view s u row = c.region ⟨id, row⟩
  value : ∀ id row, row < t.capacity → ∀ f, t.layout.field? id = some f → f.tag = none →
    t.valueIn view f row = c.value ⟨id, row⟩

variable {t : Table} {c : Contents} {view : View} {id : Nat} {row : UInt64}

namespace Sees

theorem firstAbsent? (sees : t.Sees view c) (sound : t.layout.Sound) (here : row < t.capacity)
    {s : StructLayout} (struct : t.layout.struct? id = some s) :
    t.firstAbsent? view s row = c.firstAbsent? s row := by
  unfold Table.firstAbsent? Contents.firstAbsent?
  refine List.find?_congr fun o member => ?_
  obtain ⟨-, slot, presence⟩ := sound.chain struct o member
  rw [sees.present o row here slot presence]

/-- A read gives what the contents say. -/
theorem readAt (sees : t.Sees view c) (sound : t.layout.Sound) (here : row < t.capacity)
    {f : FieldLayout} (field : t.layout.field? id = some f) :
    t.readAt view f row = c.readAt t.layout f row := by
  obtain ⟨s, struct, number, owns⟩ := sound.owner field
  unfold Table.readAt Contents.readAt
  rw [struct]
  dsimp only
  rw [sees.firstAbsent? sound here struct]
  cases (c.firstAbsent? s row).bind t.layout.struct? with
  | some absent => rfl
  | none =>
    cases union : s.union with
    | some u =>
      dsimp only
      rw [number, sees.tag f.owner row here s u struct union,
        sees.region f.owner row here s u struct union]
    | none =>
      obtain rfl := sound.field?_id field
      have plain := (sound.plain_of_union field struct).mp union
      dsimp only
      rw [← sees.value f.id row here f field plain]
      cases view <;> rfl

end Sees

/-- A committed read sees the contents of the rows. -/
theorem Shows.sees (shows : t.Shows c) : t.Sees .committed c where
  present id row here slot presence := by
    rw [shows.present id row here slot presence, hasOptional, presenceBit, presence, bitsOf,
      Layout.slotOf?, presence]
    simp
  tag id row here s u struct union := by
    rw [shows.tag id row here s u struct union, Table.tag, committedTag, bitsOf, Layout.slotOf?,
      struct]
    simp [union]
  region id row here s u struct union := by
    rw [shows.region id row here s u struct union, Table.region, bitsOf, Layout.slotOf?, struct]
    simp [union]
  value id row here f field plain := by
    rw [shows.value id row here f field plain, valueIn, content_eq, bitsOf, Layout.slotOf?, field]
    simp [plain]

end BitRecords.Table
