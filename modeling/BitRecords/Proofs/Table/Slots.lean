import BitRecords.Proofs.Table.Apply

/-!
# Slots under operations

An operation that writes an object puts it into the slot that the object table has
for it, and makes its field name that slot. All other operations leave the object
table and the object fields alone.
-/

namespace BitRecords.Table

open Layout

variable {t u : Table} {use : Use} {slot : Slot} {row : UInt64} {width width' : Nat}

/-- The second table has the objects of the first one, under the same names. -/
structure Spares (t u : Table) : Prop where
  layout : u.layout = t.layout
  capacity : u.capacity = t.capacity
  stored : u.Stored
  objects : u.objects = t.objects
  named : ∀ id row, t.ObjectCell id row → u.bitsOf (.field id) row = t.bitsOf (.field id) row

namespace Spares

theorem refl (stored : t.Stored) : t.Spares t := ⟨rfl, rfl, stored, rfl, fun _ _ _ => rfl⟩

theorem cell (spares : t.Spares u) {id : FieldId} (cell : t.ObjectCell id row) :
    u.ObjectCell id row := by
  rwa [ObjectCell, spares.capacity, spares.layout]

theorem trans {v : Table} (first : t.Spares u) (second : u.Spares v) : t.Spares v where
  layout := second.layout.trans first.layout
  capacity := second.capacity.trans first.capacity
  stored := second.stored
  objects := second.objects.trans first.objects
  named id row cell := (second.named id row (first.cell cell)).trans (first.named id row cell)

theorem setBits (stored : t.Stored) (found : t.layout.slotOf? use = some (slot, width'))
    (narrow : width ≤ width') (here : row < t.capacity)
    (other : ∀ id, use = .field id → ¬ t.ObjectCell id row) (bits : UInt64) :
    t.Spares (t.setBits slot row width bits) where
  layout := rfl
  capacity := rfl
  stored := stored.setBits ((stores_of_slotOf? stored.good found).mono narrow) here bits
  objects := rfl
  named id row' cell := by
    rw [stored.bitsOf_setBits_low found narrow here cell.1, if_neg]
    rintro ⟨rfl, rfl⟩
    exact other id rfl cell

theorem markPresent (stored : t.Stored) (chain : List StructId) (here : row < t.capacity) :
    t.Spares (t.markPresent chain row) := by
  refine (markPresent_induction (P := fun u => t.Spares u) chain (refl stored)
    fun u id slot spares presence => spares.trans ?_)
  have found : u.layout.slotOf? (.presence id) = some (slot, 1) := by
    rw [slotOf?, presence]
    rfl
  exact .setBits spares.stored found (Nat.le_refl _) (spares.capacity ▸ here)
    (by simp) 1

theorem setTag (stored : t.Stored) {id : StructId} {s : StructLayout} {u : UnionRegion}
    (struct : t.layout.struct? id = some s) (union : s.union = some u) (here : row < t.capacity)
    (tag : Nat) : t.Spares (t.setTag u row tag) := by
  have found : t.layout.slotOf? (.tag id) = some (u.tag, u.tagWidth) := by
    simp [slotOf?, struct, union]
  exact .setBits stored found (Nat.le_refl _) here (by simp) _

theorem setContent (stored : t.Stored) {id : FieldId} {f : FieldLayout}
    (field : t.layout.field? id = some f) (plain : f.type ≠ .object) (here : row < t.capacity)
    (bits : UInt64) (value : Value) : t.Spares (t.setContent f row bits value) := by
  rw [setContent_of_ne_object plain]
  cases isMember : f.tag with
  | none =>
    have found : t.layout.slotOf? (.field id) = some (f.place, f.width) := by
      simp [slotOf?, field, isMember]
    refine .setBits stored found (Nat.le_refl _) here ?_ bits
    rintro _ ⟨⟩ ⟨-, f', field', object⟩
    cases field.symm.trans field'
    exact plain object
  | some tag =>
    obtain ⟨s, u, struct, union, place, narrow, -⟩ := stored.good.sound.member field isMember
    have found : t.layout.slotOf? (.region f.owner) = some (u.place s.segment, u.width) := by
      simp [slotOf?, struct, union]
    rw [place]
    exact .setBits stored found narrow here (by simp) bits

end Spares

/-- What an operation does to the objects. -/
inductive Rehouses (t : Table) (op : PendingOp) (u : Table) : Prop where
  | spared : t.writesObject op = false → t.Spares u → Rehouses t op u
  | replaced {field : FieldId} {row : UInt64} {width : Nat} {bits : UInt64}
      {ref : Option ObjectRef} :
      op = .write field row width bits (.object ref) → t.ObjectCell field row →
      u.objects = (t.objects.replace (t.bitsOf (.field field) row).toNat ref).2 →
      (∀ id row', t.ObjectCell id row' → u.bitsOf (.field id) row' =
        if id = field ∧ row' = row then
          UInt64.ofNat (t.objects.replace (t.bitsOf (.field field) row).toNat ref).1 &&&
            lowMask objectSlotBits
        else t.bitsOf (.field id) row') →
      Rehouses t op u

/-- A write of a value, when the presence bits and the tag have been written. -/
theorem Spares.rehouses (spares : t.Spares u) {field : FieldId} {f : FieldLayout}
    (found : t.layout.field? field = some f) (here : row < t.capacity) {bits : UInt64}
    {value : Value} (encoded : f.type.encode value = .ok bits) :
    t.Rehouses (.write field row f.width bits value) (u.setContent f row bits value) := by
  have found' : u.layout.field? field = some f := spares.layout ▸ found
  have here' : row < u.capacity := spares.capacity ▸ here
  by_cases object : f.type = .object
  · rw [object] at encoded
    obtain ⟨ref, rfl⟩ := object_of_encode encoded
    have cell : t.ObjectCell field row := ⟨here, f, found, object⟩
    have single := spares.stored.good.sound.single_of_object found' object
    have place : u.layout.slotOf? (.field field) = some (f.place, f.width) := by
      simp [slotOf?, found', single]
    have old : u.getBits f.place row f.width = t.bitsOf (.field field) row := by
      rw [← spares.named field row cell, bitsOf, place]
    have width : f.width = objectSlotBits := by
      rw [FieldLayout.width, object]
      rfl
    rw [setContent_object object, old, spares.objects]
    refine .replaced rfl cell rfl fun id row' cell' => ?_
    have stored : ({ u with objects :=
        (t.objects.replace (t.bitsOf (.field field) row).toNat ref).2 } : Table).Stored :=
      spares.stored.congr rfl rfl rfl
    rw [stored.bitsOf_setBits place here' (spares.cell cell').1, width]
    simp only [Use.field.injEq]
    split
    · rfl
    · exact spares.named id row' cell'
  · refine .spared ?_ (spares.trans (.setContent spares.stored found' object here' bits value))
    rw [writesObject_write found]
    cases type : f.type <;> first | rfl | exact absurd type object

theorem rehouses (stored : t.Stored) {op : PendingOp} (admits : t.layout.Admits op)
    (here : op.row < t.capacity) : t.Rehouses op (t.apply op) := by
  cases admits with
  | @write field row bits value f found encoded =>
    obtain ⟨s, struct, -, -⟩ := stored.good.sound.owner found
    have marked := Spares.markPresent stored s.chain here
    simp only [Table.apply, found, struct]
    split
    · next u tag union _ =>
      have tagged := marked.trans (.setTag marked.stored (marked.layout ▸ struct) union
        (marked.capacity ▸ here) tag)
      exact tagged.rehouses found here encoded
    · exact marked.rehouses found here encoded
  | @select union row tag s u struct isUnion bound =>
    have marked := Spares.markPresent stored s.chain here
    simp only [Table.apply, struct, isUnion]
    exact .spared rfl (marked.trans (.setTag marked.stored (marked.layout ▸ struct) isUnion
      (marked.capacity ▸ here) tag))

theorem ObjectCell.writesObject {field : FieldId} {row : UInt64} (cell : t.ObjectCell field row)
    (width : Nat) (bits : UInt64) (value : Value) :
    t.writesObject (.write field row width bits value) = true := by
  obtain ⟨-, f, found, object⟩ := cell
  rw [writesObject_write found, object]
  rfl

/-- The objects are in the same slots, and the object fields name the same ones. -/
structure SameSlots (t t' : Table) : Prop where
  objects : t'.objects = t.objects
  named : ∀ id row, t.ObjectCell id row → t'.bitsOf (.field id) row = t.bitsOf (.field id) row

variable {t' u' : Table}

theorem SameSlots.same (slots : t.SameSlots t') (rows : SameRows t u) (rows' : SameRows t' u') :
    u.SameSlots u' where
  objects := by rw [rows.objects, rows'.objects, slots.objects]
  named id row cell := by
    rw [rows.bitsOf, rows'.bitsOf]
    rw [ObjectCell, rows.layout, rows.capacity] at cell
    exact slots.named id row cell

/-- Without objects, no field names a slot. -/
theorem Intact.bitsOf_of_empty (intact : t.Intact) (empty : t.objects = {}) {id : FieldId}
    (cell : t.ObjectCell id row) : t.bitsOf (.field id) row = 0 := by
  by_contra some
  have occupied := intact.occupied id row cell some
  rw [empty] at occupied
  have bound := (ObjectTable.le_of_get? occupied).2
  exact Nat.not_lt_zero _ (Nat.lt_of_lt_of_le (ObjectTable.le_of_get? occupied).1 bound)

end BitRecords.Table
