import BitRecords.Proofs.FieldType
import BitRecords.Proofs.Table.Views

/-!
# Applying operations

Applying an operation to an intact table changes the contents of its rows as the
operation says, and keeps the table intact. An object table needs room for one
more object.
-/

namespace BitRecords

open Layout

/-- An operation that can be staged: its field or union is in the layout, and the
bits of a write stand for its value. -/
inductive Layout.Admits (l : Layout) : PendingOp → Prop where
  | write {field : FieldId} {row bits : UInt64} {value : Value} {f : FieldLayout} :
      l.field? field = some f → f.type.encode value = .ok bits →
      Admits l (.write field row f.width bits value)
  | select {union : StructId} {row : UInt64} {tag : Nat} {s : StructLayout} {u : UnionRegion} :
      l.struct? union = some s → s.union = some u → tag ≤ u.members.length →
      Admits l (.select union row tag)

namespace Table

variable {t : Table} {c : Contents} {row : UInt64}

/-- What operations do to a table: they keep it intact and change its contents,
with at most so many new slots of the object table. -/
structure Applied (t : Table) (writes : Nat) (after : Table) (c : Contents) : Prop where
  layout : after.layout = t.layout
  capacity : after.capacity = t.capacity
  intact : after.Intact
  shows : after.Shows c
  size_le : after.objects.slots.size ≤ t.objects.slots.size + writes

theorem Applied.trans {t₁ t₂ : Table} {c₁ c₂ : Contents} {m n : Nat} (first : Applied t m t₁ c₁)
    (second : Applied t₁ n t₂ c₂) : Applied t (m + n) t₂ c₂ where
  layout := second.layout.trans first.layout
  capacity := second.capacity.trans first.capacity
  intact := second.intact
  shows := second.shows
  size_le := by
    have first := first.size_le
    have second := second.size_le
    omega

theorem Applied.mono {after : Table} {m n : Nat} (applied : Applied t m after c) (more : m ≤ n) :
    Applied t n after c :=
  { applied with size_le := Nat.le_trans applied.size_le (Nat.add_le_add_left more _) }

/-- What holds of a table after any presence bits of a row are set. -/
theorem markPresent_induction {P : Table → Prop} (chain : List StructId) (holds : P t)
    (step : ∀ t id slot, P t → t.layout.presence? id = some slot → P (t.setBits slot row 1 1)) :
    P (t.markPresent chain row) := by
  unfold markPresent
  induction chain generalizing t with
  | nil => exact holds
  | cons id rest ih =>
    rw [List.foldl_cons]
    split
    · next slot presence => exact ih (step t id slot holds presence)
    · exact ih holds

@[simp] theorem layout_markPresent (t : Table) (chain : List StructId) (row : UInt64) :
    (t.markPresent chain row).layout = t.layout :=
  markPresent_induction (P := fun t' => t'.layout = t.layout) chain rfl fun _ _ _ same _ => same

@[simp] theorem capacity_markPresent (t : Table) (chain : List StructId) (row : UInt64) :
    (t.markPresent chain row).capacity = t.capacity :=
  markPresent_induction (P := fun t' => t'.capacity = t.capacity) chain rfl fun _ _ _ same _ => same

theorem Intact.setPresence {id : StructId} {slot : Slot} (intact : t.Intact)
    (found : t.layout.presence? id = some slot) (here : row < t.capacity) :
    (t.setBits slot row 1 1).Intact := by
  have found : t.layout.slotOf? (.presence id) = some (slot, 1) := by
    rw [slotOf?, found]
    rfl
  exact intact.setBits found (Nat.le_refl _) here (by simp) 1

theorem markPresent_spec (chain : List StructId) (intact : t.Intact) (shows : t.Shows c)
    (here : row < t.capacity) : Applied t 0 (t.markPresent chain row) (c.mark chain row) := by
  unfold markPresent
  induction chain generalizing t c with
  | nil => exact ⟨rfl, rfl, intact, shows, Nat.le_refl _⟩
  | cons id rest ih =>
    rw [List.foldl_cons, Contents.mark_cons]
    split
    · next slot presence =>
      have first : Applied t 0 (t.setBits slot row 1 1) (c.setPresent ⟨id, row⟩) :=
        ⟨rfl, rfl, intact.setPresence presence here, shows.setPresence intact.stored here presence,
          Nat.le_refl _⟩
      exact first.trans (ih first.intact first.shows here)
    · next absent =>
      refine ih intact ⟨?_, shows.tag, shows.region, shows.value⟩ here
      intro id' row' here' slot' presence
      have other : (⟨id', row'⟩ : Cell) ≠ ⟨id, row⟩ := by
        rintro ⟨⟩
        rw [absent] at presence
        cases presence
      rw [Contents.present_setPresent, if_neg other]
      exact shows.present id' row' here' slot' presence

theorem setTag_spec (intact : t.Intact) (shows : t.Shows c) (here : row < t.capacity)
    {id : StructId} {s : StructLayout} {u : UnionRegion} (struct : t.layout.struct? id = some s)
    (union : s.union = some u) {tag : Nat} (bound : tag ≤ u.members.length) :
    Applied t 0 (t.setTag u row tag) (c.setTag ⟨id, row⟩ tag) := by
  have found : t.layout.slotOf? (.tag id) = some (u.tag, u.tagWidth) := by
    simp [slotOf?, struct, union]
  exact ⟨rfl, rfl, intact.setBits found (Nat.le_refl _) here (by simp) _,
    shows.setTag intact.stored here struct union bound, Nat.le_refl _⟩

theorem setContent_of_ne_object {f : FieldLayout} (plain : f.type ≠ .object) (bits : UInt64)
    (value : Value) : t.setContent f row bits value = t.setBits f.place row f.width bits := by
  unfold setContent
  rw [if_neg]
  cases type : f.type with
  | object => exact absurd type plain
  | bool | int8 | int16 | int32 | int64 | unsigned | float32 | float64 => simp [FieldType.isObject]

theorem setContent_object {f : FieldLayout} (object : f.type = .object) (bits : UInt64)
    (ref : Option ObjectRef) :
    t.setContent f row bits (.object ref) =
      setBits
        { t with objects := (t.objects.replace (t.getBits f.place row f.width).toNat ref).2 }
        f.place row f.width
        (UInt64.ofNat (t.objects.replace (t.getBits f.place row f.width).toNat ref).1) := by
  unfold setContent
  rw [if_pos (by simp [object, FieldType.isObject])]
  cases ref <;> rfl

/-- A value of a field that holds no object. -/
theorem setPlain_spec (intact : t.Intact) (shows : t.Shows c) (here : row < t.capacity)
    {id : FieldId} {f : FieldLayout} (field : t.layout.field? id = some f) (single : f.tag = none)
    (plain : f.type ≠ .object) {bits : UInt64} {value : Value}
    (encoded : f.type.encode value = .ok bits) :
    Applied t 0 (t.setContent f row bits value) (c.setValue ⟨id, row⟩ value) := by
  have admissible := intact.stored.good.typed.fields f (List.mem_of_getElem? field)
  have found : t.layout.slotOf? (.field id) = some (f.place, f.width) := by
    simp [slotOf?, field, single]
  rw [setContent_of_ne_object plain]
  refine ⟨rfl, rfl, intact.setBits found (Nat.le_refl _) here ?_ bits,
    shows.setValue intact.stored here field single ?_, Nat.le_refl _⟩
  · rintro _ ⟨⟩ ⟨-, f', field', object⟩
    cases field.symm.trans field'
    exact plain object
  · rw [valueOf_of_ne_object _ plain, FieldLayout.width, FieldType.decode_and_lowMask]
    exact (FieldType.decode_encode admissible encoded).2 plain

/-- A member of a union is written over the low bits of the region. -/
theorem setMember_spec (intact : t.Intact) (shows : t.Shows c) (here : row < t.capacity)
    {id : FieldId} {f : FieldLayout} {tag : Nat} (field : t.layout.field? id = some f)
    (member : f.tag = some tag) (bits : UInt64) (value : Value) :
    Applied t 0 (t.setContent f row bits value) (c.overlay ⟨f.owner, row⟩ f.width bits) := by
  obtain ⟨s, u, struct, union, place, narrow, plain, -, -⟩ :=
    intact.stored.good.sound.member field member
  have found : t.layout.slotOf? (.region f.owner) = some (u.place s.segment, u.width) := by
    simp [slotOf?, struct, union]
  rw [setContent_of_ne_object plain, place]
  exact ⟨rfl, rfl, intact.setBits found narrow here (by simp) bits,
    shows.overlay intact.stored here struct union narrow bits, Nat.le_refl _⟩

/-- An object field is given another object. The slots that all other fields name
stay as they were, since none of them names the slot of this one. -/
structure Swaps (t after : Table) (id : FieldId) (row : UInt64) (ref : Option ObjectRef) :
    Prop where
  layout : after.layout = t.layout
  capacity : after.capacity = t.capacity
  stored : after.Stored
  consistent : after.objects.Consistent
  kept : ∀ use row', row' < t.capacity → ¬ (use = .field id ∧ row' = row) →
    after.bitsOf use row' = t.bitsOf use row'
  given : after.objects.get? (after.bitsOf (.field id) row).toNat = ref
  absent : ref = none → after.bitsOf (.field id) row = 0
  others : ∀ id' row', t.ObjectCell id' row' → ¬ (id' = id ∧ row' = row) →
    t.bitsOf (.field id') row' ≠ 0 →
    t.bitsOf (.field id') row' ≠ after.bitsOf (.field id) row ∧
      after.objects.get? (t.bitsOf (.field id') row').toNat =
        t.objects.get? (t.bitsOf (.field id') row').toNat
  size_le : after.objects.slots.size ≤ t.objects.slots.size + 1

namespace Swaps

variable {after : Table} {id : FieldId} {ref : Option ObjectRef}

theorem intact (swaps : Swaps t after id row ref) (intact : t.Intact) : after.Intact := by
  have cell {id' : FieldId} {row' : UInt64} (cell : after.ObjectCell id' row') :
      t.ObjectCell id' row' := by
    rw [ObjectCell, swaps.layout, swaps.capacity] at cell
    exact cell
  have kept {id' : FieldId} {row' : UInt64} (cell' : after.ObjectCell id' row')
      (other : ¬ (id' = id ∧ row' = row)) :
      after.bitsOf (.field id') row' = t.bitsOf (.field id') row' :=
    swaps.kept _ _ (cell cell').1 (by simpa using other)
  refine ⟨swaps.stored, swaps.consistent, ?_, ?_⟩
  · intro id' row' cell' some
    by_cases same : id' = id ∧ row' = row
    · obtain ⟨rfl, rfl⟩ := same
      rw [swaps.given]
      cases ref with
      | some ref => rfl
      | none => exact absurd (swaps.absent rfl) some
    · rw [kept cell' same] at some ⊢
      rw [(swaps.others id' row' (cell cell') same some).2]
      exact intact.occupied id' row' (cell cell') some
  · intro id' row' id'' row'' cell' cell'' some same
    by_cases first : id' = id ∧ row' = row
    · by_cases second : id'' = id ∧ row'' = row
      · exact ⟨first.1.trans second.1.symm, first.2.trans second.2.symm⟩
      · obtain ⟨rfl, rfl⟩ := first
        rw [kept cell'' second] at same
        rw [same] at some
        exact absurd same.symm (swaps.others id'' row'' (cell cell'') second some).1
    · rw [kept cell' first] at some same
      by_cases second : id'' = id ∧ row'' = row
      · obtain ⟨rfl, rfl⟩ := second
        exact absurd same (swaps.others id' row' (cell cell') first some).1
      · rw [kept cell'' second] at same
        exact intact.distinct id' row' id'' row'' (cell cell') (cell cell'') some same

theorem shows (swaps : Swaps t after id row ref) (shows : t.Shows c) {f : FieldLayout}
    (field : t.layout.field? id = some f) (object : f.type = .object) :
    after.Shows (c.setValue ⟨id, row⟩ (.object ref)) := by
  refine ⟨?_, ?_, ?_, ?_⟩ <;> rw [swaps.layout, swaps.capacity]
  · intro id' row' here' slot presence
    rw [swaps.kept _ _ here' (by simp)]
    exact shows.present id' row' here' slot presence
  · intro id' row' here' s u struct union
    rw [swaps.kept _ _ here' (by simp)]
    exact shows.tag id' row' here' s u struct union
  · intro id' row' here' s u struct union
    rw [swaps.kept _ _ here' (by simp)]
    exact shows.region id' row' here' s u struct union
  · intro id' row' here' f' field' single
    rw [Contents.value_setValue]
    by_cases same : id' = id ∧ row' = row
    · obtain ⟨rfl, rfl⟩ := same
      cases field.symm.trans field'
      rw [if_pos rfl, object, valueOf, swaps.given]
    · rw [if_neg (by simpa using same), swaps.kept _ _ here' (by simpa using same),
        shows.value id' row' here' f' field' single]
      by_cases object' : f'.type = .object
      · simp only [object', valueOf]
        by_cases some : t.bitsOf (.field id') row' = 0
        · rw [some]
          rfl
        · rw [(swaps.others id' row' ⟨here', f', field', object'⟩ same some).2]
      · rw [valueOf_of_ne_object _ object', valueOf_of_ne_object _ object']

end Swaps

/-- The bits of an object field have room for every slot number. -/
theorem toNat_slot {slot : Nat} (bounded : slot ≤ ObjectTable.maxSlots) :
    (UInt64.ofNat slot &&& lowMask objectSlotBits).toNat = slot := by
  have small : slot < 2 ^ objectSlotBits := Nat.lt_of_le_of_lt bounded (by decide)
  have large : 2 ^ objectSlotBits < UInt64.size := by decide
  rw [toNat_and_lowMask _ (by decide), UInt64.toNat_ofNat_of_lt' (Nat.lt_trans small large)]
  exact Nat.mod_eq_of_lt small

theorem swaps_setContent (intact : t.Intact) (here : row < t.capacity) {id : FieldId}
    {f : FieldLayout} (field : t.layout.field? id = some f) (object : f.type = .object)
    (room : t.objects.slots.size < ObjectTable.maxSlots) (bits : UInt64) (ref : Option ObjectRef) :
    Swaps t (t.setContent f row bits (.object ref)) id row ref := by
  have single := intact.stored.good.sound.single_of_object field object
  have found : t.layout.slotOf? (.field id) = some (f.place, f.width) := by
    simp [slotOf?, field, single]
  have old : t.getBits f.place row f.width = t.bitsOf (.field id) row := by
    rw [bitsOf, found]
  rw [setContent_object object, old]
  have replaced := intact.consistent.replace (t.bitsOf (.field id) row).toNat ref room
  generalize t.objects.replace (t.bitsOf (.field id) row).toNat ref = result at replaced ⊢
  obtain ⟨slot, objects⟩ := result
  dsimp only at replaced ⊢
  have stored : ({ t with objects } : Table).Stored := intact.stored.congr rfl rfl rfl
  have number : (UInt64.ofNat slot &&& lowMask f.width).toNat = slot := by
    rw [FieldLayout.width, object]
    exact toNat_slot replaced.bounded
  have bits (use : Use) (row' : UInt64) (here' : row' < t.capacity) :
      (({ t with objects } : Table).setBits f.place row f.width
          (UInt64.ofNat slot)).bitsOf use row' =
        if use = .field id ∧ row' = row then UInt64.ofNat slot &&& lowMask f.width
        else t.bitsOf use row' :=
    stored.bitsOf_setBits found here here' (UInt64.ofNat slot)
  have named : (({ t with objects } : Table).setBits f.place row f.width
      (UInt64.ofNat slot)).bitsOf (.field id) row = UInt64.ofNat slot &&& lowMask f.width := by
    rw [bits _ _ here, if_pos ⟨rfl, rfl⟩]
  exact
    { layout := rfl
      capacity := rfl
      stored := stored.setBits (stores_of_slotOf? intact.stored.good found) here _
      consistent := replaced.consistent
      kept := fun use row' here' other => by rw [bits _ _ here', if_neg other]
      given := by
        rw [named, number, objects_setBits]
        exact replaced.get?
      absent := fun none => by
        rw [named, ← UInt64.toNat_inj, number, replaced.absent none]
        rfl
      others := fun id' row' cell differs some => by
        have other : (t.bitsOf (.field id') row').toNat ≠ (t.bitsOf (.field id) row).toNat :=
          fun same => differs (intact.distinct id' row' id row cell ⟨here, f, field, object⟩ some
            (UInt64.toNat_inj.mp same))
        obtain ⟨apart, kept⟩ := replaced.other _ other (intact.occupied id' row' cell some)
        refine ⟨fun same => apart ?_, kept⟩
        rw [same, named, number]
      size_le := replaced.size_le }

theorem setObject_spec (intact : t.Intact) (shows : t.Shows c) (here : row < t.capacity)
    {id : FieldId} {f : FieldLayout} (field : t.layout.field? id = some f)
    (object : f.type = .object) (room : t.objects.slots.size < ObjectTable.maxSlots) (bits : UInt64)
    (ref : Option ObjectRef) :
    Applied t 1 (t.setContent f row bits (.object ref)) (c.setValue ⟨id, row⟩ (.object ref)) := by
  have swaps := swaps_setContent intact here field object room bits ref
  exact ⟨swaps.layout, swaps.capacity, swaps.intact intact, swaps.shows shows field object,
    swaps.size_le⟩

theorem object_of_encode {v : Value} {bits : UInt64}
    (encoded : FieldType.object.encode v = .ok bits) : ∃ ref, v = .object ref := by
  cases v with
  | object ref => exact ⟨ref, rfl⟩
  | bool | int | float | double => cases encoded

/-- Whether the field of a write holds objects. -/
theorem writesObject_write {field : FieldId} {f : FieldLayout}
    (found : t.layout.field? field = some f) (width : Nat) (bits : UInt64) (value : Value) :
    t.writesObject (.write field row width bits value) = f.type.isObject := by
  simp [writesObject, found]

/-- The number of objects that operations might need a slot for. -/
def objectWrites (t : Table) (ops : List PendingOp) : Nat := ops.countP t.writesObject

/-- The tag, if the field is a union member, and the content. -/
theorem setField_spec (intact : t.Intact) (shows : t.Shows c) (here : row < t.capacity)
    {id : FieldId} {f : FieldLayout} {s : StructLayout} {bits : UInt64} {value : Value}
    (found : t.layout.field? id = some f) (struct : t.layout.struct? f.owner = some s)
    (encoded : f.type.encode value = .ok bits)
    (room : t.objects.slots.size + f.type.isObject.toNat ≤ ObjectTable.maxSlots) :
    Applied t f.type.isObject.toNat
      ((match s.union, f.tag with
        | some u, some tag => t.setTag u row tag
        | _, _ => t).setContent f row bits value)
      (match f.tag with
        | some tag => (c.setTag ⟨f.owner, row⟩ tag).overlay ⟨f.owner, row⟩ f.width bits
        | none => c.setValue ⟨id, row⟩ value) := by
  cases isMember : f.tag with
  | some tag =>
    obtain ⟨s', u, struct', union, -, -, plain, -, bound⟩ :=
      intact.stored.good.sound.member found isMember
    cases struct.symm.trans struct'
    simp only [union]
    have tagged := setTag_spec intact shows here struct union bound
    have written := setMember_spec tagged.intact tagged.shows here found isMember bits value
    exact (tagged.trans written).mono (Nat.zero_le _)
  | none =>
    have same : (match s.union, (none : Option Nat) with
        | some u, some tag => t.setTag u row tag
        | _, _ => t) = t := by
      cases s.union <;> rfl
    rw [same]
    by_cases object : f.type = .object
    · rw [object] at encoded room ⊢
      obtain ⟨ref, rfl⟩ := object_of_encode encoded
      exact setObject_spec intact shows here found object room bits ref
    · exact (setPlain_spec intact shows here found isMember object encoded).mono (Nat.zero_le _)

theorem apply_spec (intact : t.Intact) (shows : t.Shows c) {op : PendingOp}
    (admits : t.layout.Admits op) (here : op.row < t.capacity)
    (room : t.objects.slots.size + t.objectWrites [op] ≤ ObjectTable.maxSlots) :
    Applied t (t.objectWrites [op]) (t.apply op) (c.apply t.layout op) := by
  cases admits with
  | @write field row bits value f found encoded =>
    obtain ⟨s, struct, -, owns⟩ := intact.stored.good.sound.owner found
    have chain : t.layout.chainOf f.owner = s.chain := by simp [chainOf, struct]
    have marked := markPresent_spec s.chain intact shows here
    have count : t.objectWrites [.write field row f.width bits value] = f.type.isObject.toNat := by
      rw [objectWrites, List.countP_singleton, writesObject_write found]
      cases f.type.isObject <;> rfl
    rw [count] at room ⊢
    simp only [Table.apply, Contents.apply, found, struct, chain]
    refine (marked.trans (setField_spec marked.intact marked.shows ?_ ?_ ?_ encoded ?_)).mono ?_
    · rw [marked.capacity]
      exact here
    · rw [marked.layout]
      exact found
    · rw [marked.layout]
      exact struct
    · exact Nat.le_trans (Nat.add_le_add_right marked.size_le _) room
    · rw [Nat.zero_add]
  | @select union row tag s u struct isUnion bound =>
    have chain : t.layout.chainOf union = s.chain := by simp [chainOf, struct]
    have marked := markPresent_spec s.chain intact shows here
    simp only [Table.apply, Contents.apply, struct, chain, isUnion]
    refine (marked.trans (setTag_spec marked.intact marked.shows ?_ ?_ isUnion bound)).mono ?_
    · rw [marked.capacity]
      exact here
    · rw [marked.layout]
      exact struct
    · exact Nat.zero_le _

end Table

end BitRecords
