import BitRecords.Proofs.Table.Bits
import BitRecords.Proofs.Table.Contents
import BitRecords.Proofs.Table.Objects
import BitRecords.Table.Commit

/-!
# Rows and their contents

The rows of a table show contents when each use of a row has the bits that stand
for what its cell holds. The table is intact when no two object fields name the
same slot of the object table and every slot that is named is occupied. A write
for one use keeps all this, and changes the contents of one cell.
-/

namespace BitRecords

namespace Contents

/-- The contents agree on the cell of a use. -/
def AgreeOn (a b : Contents) (row : UInt64) : Use → Prop
  | .presence id => a.present ⟨id, row⟩ = b.present ⟨id, row⟩
  | .tag id => a.tag ⟨id, row⟩ = b.tag ⟨id, row⟩
  | .region id => a.region ⟨id, row⟩ = b.region ⟨id, row⟩
  | .field id => a.value ⟨id, row⟩ = b.value ⟨id, row⟩

variable {c : Contents} {use : Use} {id : Nat} {row row' : UInt64}

theorem agreeOn_setPresent (other : ¬ (use = .presence id ∧ row' = row)) :
    (c.setPresent ⟨id, row⟩).AgreeOn c row' use := by
  cases use with
  | presence => exact (present_setPresent ..).trans (if_neg (by simpa using other))
  | tag | region | field => rfl

theorem agreeOn_setTag {tag : Nat} (other : ¬ (use = .tag id ∧ row' = row)) :
    (c.setTag ⟨id, row⟩ tag).AgreeOn c row' use := by
  cases use with
  | tag => exact (tag_setTag ..).trans (if_neg (by simpa using other))
  | presence | region | field => rfl

theorem agreeOn_overlay {width : Nat} {bits : UInt64} (other : ¬ (use = .region id ∧ row' = row)) :
    (c.overlay ⟨id, row⟩ width bits).AgreeOn c row' use := by
  cases use with
  | region => exact (region_overlay ..).trans (if_neg (by simpa using other))
  | presence | tag | field => rfl

theorem agreeOn_setValue {value : Value} (other : ¬ (use = .field id ∧ row' = row)) :
    (c.setValue ⟨id, row⟩ value).AgreeOn c row' use := by
  cases use with
  | field => exact (value_setValue ..).trans (if_neg (by simpa using other))
  | presence | tag | region => rfl

end Contents

namespace Table

/-- A field of a row that holds an object. -/
def ObjectCell (t : Table) (id : FieldId) (row : UInt64) : Prop :=
  row < t.capacity ∧ ∃ f, t.layout.field? id = some f ∧ f.type = .object

/-- The buffers are in order, and every object is in exactly one field. -/
structure Intact (t : Table) : Prop where
  stored : t.Stored
  consistent : t.objects.Consistent
  occupied : ∀ id row, t.ObjectCell id row → t.bitsOf (.field id) row ≠ 0 →
    (t.objects.get? (t.bitsOf (.field id) row).toNat).isSome
  distinct : ∀ id row id' row', t.ObjectCell id row → t.ObjectCell id' row' →
    t.bitsOf (.field id) row ≠ 0 → t.bitsOf (.field id) row = t.bitsOf (.field id') row' →
    id = id' ∧ row = row'

/-- The value that the bits of a field stand for. -/
def valueOf (t : Table) (type : FieldType) (bits : UInt64) : Value :=
  match type with
  | .object => .object (t.objects.get? bits.toNat)
  | type => type.decode bits

theorem valueOf_of_ne_object (t : Table) {type : FieldType} (plain : type ≠ .object)
    (bits : UInt64) : t.valueOf type bits = type.decode bits := by
  cases type with
  | object => exact absurd rfl plain
  | bool | int8 | int16 | int32 | int64 | unsigned | float32 | float64 => rfl

theorem content_eq (t : Table) (f : FieldLayout) (row : UInt64) :
    t.content f row = t.valueOf f.type (t.getBits f.place row f.width) := by
  unfold content valueOf
  cases f.type <;> rfl

/-- The rows of the table hold the contents. -/
structure Shows (t : Table) (c : Contents) : Prop where
  present : ∀ id row, row < t.capacity → ∀ slot, t.layout.presence? id = some slot →
    c.present ⟨id, row⟩ = (t.bitsOf (.presence id) row == 1)
  tag : ∀ id row, row < t.capacity → ∀ s u, t.layout.struct? id = some s → s.union = some u →
    c.tag ⟨id, row⟩ = (t.bitsOf (.tag id) row).toNat
  region : ∀ id row, row < t.capacity → ∀ s u, t.layout.struct? id = some s → s.union = some u →
    c.region ⟨id, row⟩ = t.bitsOf (.region id) row
  value : ∀ id row, row < t.capacity → ∀ f, t.layout.field? id = some f → f.tag = none →
    c.value ⟨id, row⟩ = t.valueOf f.type (t.bitsOf (.field id) row)

/-- The contents of the rows. -/
def contents (t : Table) : Contents where
  present cell := t.bitsOf (.presence cell.id) cell.row == 1
  tag cell := (t.bitsOf (.tag cell.id) cell.row).toNat
  region cell := t.bitsOf (.region cell.id) cell.row
  value cell := ((t.layout.field? cell.id).map fun f =>
    t.valueOf f.type (t.bitsOf (.field cell.id) cell.row)).getD default

theorem shows_contents (t : Table) : t.Shows t.contents where
  present _ _ _ _ _ := rfl
  tag _ _ _ _ _ _ _ := rfl
  region _ _ _ _ _ _ _ := rfl
  value id row _ f found _ := by simp [contents, found]

open Contents

variable {t : Table} {c : Contents} {use : Use} {slot : Slot} {row : UInt64} {width width' : Nat}

/-- Only the layout, the capacity, the buffers and the objects matter. -/
structure SameRows (t t' : Table) : Prop where
  layout : t'.layout = t.layout
  capacity : t'.capacity = t.capacity
  segments : t'.segments = t.segments
  objects : t'.objects = t.objects

theorem SameRows.bitsOf {t t' : Table} (same : SameRows t t') (use : Use) (row : UInt64) :
    t'.bitsOf use row = t.bitsOf use row := by
  simp only [Table.bitsOf, getBits, address, same.layout, same.segments]

theorem Intact.same {t t' : Table} (intact : t.Intact) (same : SameRows t t') : t'.Intact := by
  have cell (id : FieldId) (row : UInt64) : t'.ObjectCell id row ↔ t.ObjectCell id row := by
    rw [ObjectCell, ObjectCell, same.layout, same.capacity]
  refine ⟨intact.stored.congr same.layout same.capacity same.segments, ?_, ?_, ?_⟩
  · rw [same.objects]
    exact intact.consistent
  · simp only [cell, same.bitsOf, same.objects]
    exact intact.occupied
  · simp only [cell, same.bitsOf]
    exact intact.distinct

theorem Shows.same {t t' : Table} {c : Contents} (shows : t.Shows c) (same : SameRows t t') :
    t'.Shows c := by
  refine ⟨?_, ?_, ?_, ?_⟩
  · simp only [same.bitsOf, same.layout, same.capacity]
    exact shows.present
  · simp only [same.bitsOf, same.layout, same.capacity]
    exact shows.tag
  · simp only [same.bitsOf, same.layout, same.capacity]
    exact shows.region
  · simp only [same.bitsOf, same.layout, same.capacity, valueOf, same.objects]
    exact shows.value

/-- A write that is for no object field keeps all objects. -/
theorem Intact.setBits (intact : t.Intact) (found : t.layout.slotOf? use = some (slot, width'))
    (narrow : width ≤ width') (here : row < t.capacity)
    (plain : ∀ id, use = .field id → ¬ t.ObjectCell id row) (bits : UInt64) :
    (t.setBits slot row width bits).Intact := by
  have stores := (Layout.stores_of_slotOf? intact.stored.good found).mono narrow
  have kept (id : FieldId) (row' : UInt64) (cell : t.ObjectCell id row') :
      (t.setBits slot row width bits).bitsOf (.field id) row' = t.bitsOf (.field id) row' := by
    rw [intact.stored.bitsOf_setBits_low found narrow here cell.1, if_neg]
    rintro ⟨rfl, rfl⟩
    exact plain id rfl cell
  refine ⟨intact.stored.setBits stores here bits, intact.consistent, ?_, ?_⟩
  · intro id row' cell some
    rw [kept id row' cell] at some ⊢
    exact intact.occupied id row' cell some
  · intro id row' id' row'' cell cell' some same
    rw [kept id row' cell] at some same
    rw [kept id' row'' cell'] at same
    exact intact.distinct id row' id' row'' cell cell' some same

/-- The bits of a use stand for what its cell holds. -/
def Stands (t : Table) (c : Contents) (row : UInt64) : Use → Prop
  | .presence id => ∀ slot, t.layout.presence? id = some slot →
      c.present ⟨id, row⟩ = (t.bitsOf (.presence id) row == 1)
  | .tag id => ∀ s u, t.layout.struct? id = some s → s.union = some u →
      c.tag ⟨id, row⟩ = (t.bitsOf (.tag id) row).toNat
  | .region id => ∀ s u, t.layout.struct? id = some s → s.union = some u →
      c.region ⟨id, row⟩ = t.bitsOf (.region id) row
  | .field id => ∀ f, t.layout.field? id = some f → f.tag = none →
      c.value ⟨id, row⟩ = t.valueOf f.type (t.bitsOf (.field id) row)

theorem shows_of_stands (stands : ∀ use row, row < t.capacity → t.Stands c row use) :
    t.Shows c where
  present id row here := stands (.presence id) row here
  tag id row here := stands (.tag id) row here
  region id row here := stands (.region id) row here
  value id row here := stands (.field id) row here

/-- A write shows contents that differ at most in the cell it is for. -/
theorem Shows.setBits (shows : t.Shows c) (stored : t.Stored)
    (found : t.layout.slotOf? use = some (slot, width')) (narrow : width ≤ width')
    (here : row < t.capacity) {bits : UInt64} {c' : Contents}
    (written : (t.setBits slot row width bits).Stands c' row use)
    (others : ∀ use' row', ¬ (use' = use ∧ row' = row) → c'.AgreeOn c row' use') :
    (t.setBits slot row width bits).Shows c' := by
  refine shows_of_stands fun use' row' here' => ?_
  by_cases same : use' = use ∧ row' = row
  · obtain ⟨rfl, rfl⟩ := same
    exact written
  · have kept : (t.setBits slot row width bits).bitsOf use' row' = t.bitsOf use' row' := by
      rw [stored.bitsOf_setBits_low found narrow here here', if_neg same]
    have agree := others use' row' same
    cases use' with
    | presence id =>
      intro slot' presence
      rw [show c'.present ⟨id, row'⟩ = c.present ⟨id, row'⟩ from agree, kept]
      exact shows.present id row' here' slot' presence
    | tag id =>
      intro s u struct union
      rw [show c'.tag ⟨id, row'⟩ = c.tag ⟨id, row'⟩ from agree, kept]
      exact shows.tag id row' here' s u struct union
    | region id =>
      intro s u struct union
      rw [show c'.region ⟨id, row'⟩ = c.region ⟨id, row'⟩ from agree, kept]
      exact shows.region id row' here' s u struct union
    | field id =>
      intro f field plain
      rw [show c'.value ⟨id, row'⟩ = c.value ⟨id, row'⟩ from agree, kept]
      exact shows.value id row' here' f field plain

theorem Shows.setPresence (shows : t.Shows c) (stored : t.Stored) (here : row < t.capacity)
    {id : StructId} (found : t.layout.presence? id = some slot) :
    (t.setBits slot row 1 1).Shows (c.setPresent ⟨id, row⟩) := by
  have place : t.layout.slotOf? (.presence id) = some (slot, 1) := by
    rw [Layout.slotOf?, found]
    rfl
  refine shows.setBits stored place (Nat.le_refl _) here ?_ fun _ _ => agreeOn_setPresent
  intro slot' found'
  rw [stored.bitsOf_setBits place here here, if_pos ⟨rfl, rfl⟩, Contents.present_setPresent,
    if_pos rfl]
  rfl

theorem Shows.setTag (shows : t.Shows c) (stored : t.Stored) (here : row < t.capacity)
    {id : StructId} {s : StructLayout} {u : UnionRegion} {tag : Nat}
    (struct : t.layout.struct? id = some s) (union : s.union = some u)
    (bound : tag ≤ u.members.length) :
    (t.setTag u row tag).Shows (c.setTag ⟨id, row⟩ tag) := by
  have found : t.layout.slotOf? (.tag id) = some (u.tag, u.tagWidth) := by
    simp [Layout.slotOf?, struct, union]
  have member : s ∈ t.layout.structs := List.mem_of_getElem? struct
  have number : (UInt64.ofNat tag &&& lowMask u.tagWidth).toNat = tag := by
    obtain ⟨narrow, counted⟩ := stored.good.typed.tags s member u union
    have told := (stored.good.sound.unions s member u union).1.tag
    rw [toNat_and_lowMask _ narrow, UInt64.toNat_ofNat_of_lt' (by omega)]
    exact Nat.mod_eq_of_lt (by omega)
  refine shows.setBits stored found (Nat.le_refl _) here ?_ fun _ _ => agreeOn_setTag
  intro s' u' struct' union'
  rw [stored.bitsOf_setBits found here here, if_pos ⟨rfl, rfl⟩, Contents.tag_setTag, if_pos rfl,
    number]

/-- Writing a union member lays its bits over the low bits of the region. -/
theorem Shows.overlay (shows : t.Shows c) (stored : t.Stored) (here : row < t.capacity)
    {id : StructId} {s : StructLayout} {u : UnionRegion} (struct : t.layout.struct? id = some s)
    (union : s.union = some u) (narrow : width ≤ u.width) (bits : UInt64) :
    (t.setBits (u.place s.segment) row width bits).Shows (c.overlay ⟨id, row⟩ width bits) := by
  have found : t.layout.slotOf? (.region id) = some (u.place s.segment, u.width) := by
    simp [Layout.slotOf?, struct, union]
  refine shows.setBits stored found narrow here ?_ fun _ _ => agreeOn_overlay
  intro s' u' struct' union'
  rw [stored.bitsOf_setBits_low found narrow here here, if_pos ⟨rfl, rfl⟩, Contents.region_overlay,
    if_pos rfl, shows.region id row here s u struct union]

theorem Shows.setValue (shows : t.Shows c) (stored : t.Stored) (here : row < t.capacity)
    {id : FieldId} {f : FieldLayout} (field : t.layout.field? id = some f) (plain : f.tag = none)
    {bits : UInt64} {value : Value} (same : t.valueOf f.type (bits &&& lowMask f.width) = value) :
    (t.setBits f.place row f.width bits).Shows (c.setValue ⟨id, row⟩ value) := by
  have found : t.layout.slotOf? (.field id) = some (f.place, f.width) := by
    simp [Layout.slotOf?, field, plain]
  refine shows.setBits stored found (Nat.le_refl _) here ?_ fun _ _ => agreeOn_setValue
  intro f' field' plain'
  cases field.symm.trans field'
  rw [stored.bitsOf_setBits found here here, if_pos ⟨rfl, rfl⟩, Contents.value_setValue, if_pos rfl,
    ← same]
  rfl

end Table

end BitRecords
