import Mathlib.Data.Set.Card
import Mathlib.Order.Interval.Finset.Nat
import BitRecords.Proofs.Storage.Agreement
import BitRecords.Proofs.Storage.Steady
import BitRecords.Proofs.Table.Slots

/-!
# Objects and the fields that hold them

An object field holds the number of a slot. In a steady storage no two fields have
the same slot, and every slot that is occupied belongs to a field, so objects are
neither shared nor leaked. A slot that no field names could only appear when a
reset fails midway: then some fields have lost their numbers and the objects stay.
-/

namespace BitRecords

open Layout

namespace ObjectTable

theorem get?_eq_some {o : ObjectTable} {slot : Nat} {ref : ObjectRef} :
    o.get? slot = some ref ↔ ∃ i, slot = i + 1 ∧ o.slots[i]? = some (some ref) := by
  cases slot with
  | zero => simp [get?]
  | succ i => simp [get?, Array.getD_eq_getD_getElem?, Option.getD_eq_iff]

theorem mem_slots {o : ObjectTable} {ref : ObjectRef} :
    some ref ∈ o.slots ↔ ∃ slot, o.get? slot = some ref := by
  rw [Array.mem_iff_getElem?]
  constructor
  · rintro ⟨i, found⟩
    exact ⟨i + 1, get?_eq_some.mpr ⟨i, rfl, found⟩⟩
  · rintro ⟨slot, found⟩
    obtain ⟨i, -, found⟩ := get?_eq_some.mp found
    exact ⟨i, found⟩

/-- The objects are counted by the numbers of their slots. -/
theorem countP_slots (o : ObjectTable) :
    o.slots.toList.countP Option.isSome = {slot | (o.get? slot).isSome}.ncard := by
  have listed : o.slots.toList = (List.range o.slots.size).map fun i => o.slots.getD i none := by
    refine List.ext_getElem (by simp) fun i here there => ?_
    have inside : i < o.slots.size := by simpa using here
    simp [inside]
  have numbers : {slot | (o.get? slot).isSome} =
      ((((List.range o.slots.size).filter fun i => (o.slots.getD i none).isSome).map
        (· + 1)).toFinset : Set Nat) := by
    ext slot
    simp only [Set.mem_ofPred_eq, List.coe_toFinset, List.mem_map, List.mem_filter, List.mem_range]
    constructor
    · intro occupied
      obtain ⟨positive, bound⟩ := le_of_get? occupied
      rw [get?, if_neg (Nat.ne_of_gt positive)] at occupied
      exact ⟨slot - 1, ⟨by omega, occupied⟩, by omega⟩
    · rintro ⟨i, ⟨-, occupied⟩, rfl⟩
      exact occupied
  have nodup : (((List.range o.slots.size).filter fun i => (o.slots.getD i none).isSome).map
      (· + 1)).Nodup :=
    (List.nodup_range.filter _).map Nat.succ_injective
  rw [numbers, Set.ncard_coe_finset, List.toFinset_card_of_nodup nodup, List.length_map, listed,
    List.countP_map, List.countP_eq_length_filter]
  rfl

/-- Each slot holds an object or is on the free list. -/
theorem Consistent.countP_slots {o : ObjectTable} (consistent : o.Consistent) :
    o.slots.toList.countP Option.isSome + o.free.length = o.slots.size := by
  have occupied : {slot | (o.get? slot).isSome} =
      ((Finset.Icc 1 o.slots.size \ o.free.toFinset : Finset Nat) : Set Nat) := by
    ext slot
    simp only [Set.mem_ofPred_eq, Finset.coe_sdiff, Finset.coe_Icc, List.coe_toFinset,
      Set.mem_sdiff, Set.mem_Icc, consistent.free]
    constructor
    · intro some
      refine ⟨le_of_get? some, fun free => ?_⟩
      rw [free.2.2] at some
      cases some
    · rintro ⟨⟨positive, bound⟩, used⟩
      by_contra none
      exact used ⟨positive, bound, Option.not_isSome_iff_eq_none.mp none⟩
  have inside : o.free.toFinset ⊆ Finset.Icc 1 o.slots.size := by
    intro slot free
    obtain ⟨positive, bound, -⟩ := (consistent.free slot).mp (List.mem_toFinset.mp free)
    exact Finset.mem_Icc.mpr ⟨positive, bound⟩
  have fewer : o.free.length ≤ o.slots.size := by
    simpa [List.toFinset_card_of_nodup consistent.nodup] using Finset.card_le_card inside
  rw [ObjectTable.countP_slots, occupied, Set.ncard_coe_finset, Finset.card_sdiff_of_subset inside,
    Nat.card_Icc, List.toFinset_card_of_nodup consistent.nodup, Nat.add_sub_cancel,
    Nat.sub_add_cancel fewer]

end ObjectTable

namespace Table

variable {t t' : Table}

/-- Every occupied slot is named by an object field. -/
def Named (t : Table) : Prop :=
  ∀ slot, (t.objects.get? slot).isSome →
    ∃ id row, t.ObjectCell id row ∧ (t.bitsOf (.field id) row).toNat = slot

theorem Named.same (named : t.Named) (same : SameRows t t') : t'.Named := by
  intro slot occupied
  rw [same.objects] at occupied
  obtain ⟨id, row, cell, number⟩ := named slot occupied
  refine ⟨id, row, ?_, ?_⟩
  · rwa [ObjectCell, same.layout, same.capacity]
  · rwa [same.bitsOf]

/-- An operation names each object that it puts into the table. -/
theorem Named.apply (named : t.Named) (intact : t.Intact) {op : PendingOp}
    (admits : t.layout.Admits op) (here : op.row < t.capacity)
    (room : t.objects.slots.size + t.objectWrites [op] ≤ ObjectTable.maxSlots) :
    (t.apply op).Named := by
  have kept {id : FieldId} {row : UInt64} (cell : t.ObjectCell id row) :
      (t.apply op).ObjectCell id row := by
    rw [sameApart_apply t op]
    exact cell
  intro slot occupied
  cases rehouses intact.stored admits here with
  | spared _ spares =>
    rw [spares.objects] at occupied
    obtain ⟨id, row, cell, number⟩ := named slot occupied
    exact ⟨id, row, kept cell, (congrArg UInt64.toNat (spares.named id row cell)).trans number⟩
  | @replaced field row width bits ref written cell objects names =>
    subst written
    rw [objectWrites, List.countP_singleton, cell.writesObject] at room
    have replaced := intact.consistent.replace (t.bitsOf (.field field) row).toNat ref room
    rw [objects] at occupied
    rcases replaced.occupied slot occupied with rfl | ⟨other, before⟩
    · refine ⟨field, row, kept cell, ?_⟩
      rw [names field row cell, if_pos ⟨rfl, rfl⟩]
      exact toNat_slot replaced.bounded
    · obtain ⟨id, row', cell', rfl⟩ := named slot before
      refine ⟨id, row', kept cell', ?_⟩
      rw [names id row' cell', if_neg]
      rintro ⟨rfl, rfl⟩
      exact other rfl

theorem Named.applyAll (named : t.Named) (ops : List PendingOp) (intact : t.Intact)
    (admits : ∀ op ∈ ops, t.layout.Admits op) (here : ∀ op ∈ ops, op.row < t.capacity)
    (room : t.objects.slots.size + t.objectWrites ops ≤ ObjectTable.maxSlots) :
    (ops.foldl Table.apply t).Named := by
  induction ops generalizing t with
  | nil => exact named
  | cons op rest ih =>
    have sum : t.objectWrites (op :: rest) = t.objectWrites [op] + t.objectWrites rest := by
      rw [objectWrites, objectWrites, objectWrites, ← List.countP_append, List.singleton_append]
    rw [sum] at room
    have first := apply_spec intact (shows_contents t) (admits op List.mem_cons_self)
      (here op List.mem_cons_self) (by omega)
    have size := first.size_le
    refine ih ?_ first.intact
      (fun op member => first.layout ▸ admits op (List.mem_cons_of_mem _ member))
      (fun op member => first.capacity ▸ here op (List.mem_cons_of_mem _ member))
      (by rw [objectWrites_congr first.layout rest]; omega)
    exact named.apply intact (admits op List.mem_cons_self) (here op List.mem_cons_self) (by omega)

/-- The fields of rows that are for objects. -/
def objectCells (t : Table) : Set Cell := {cell | t.ObjectCell cell.id cell.row}

/-- The slot that a field names in a row. Zero names none. -/
def slotAt (t : Table) (cell : Cell) : Nat :=
  ((t.layout.field? cell.id).map fun f => (t.getBits f.place cell.row f.width).toNat).getD 0

/-- The object that a field holds in a row, in a view. -/
def objectIn (t : Table) (view : View) (cell : Cell) : Option ObjectRef :=
  match (t.layout.field? cell.id).map (t.valueIn view · cell.row) with
  | some (.object ref) => ref
  | _ => none

/-- Slots and fields belong together one to one, and the free slots are the empty
ones, each counted once. -/
structure Owns (t : Table) : Prop where
  distinct : ∀ a ∈ t.objectCells, ∀ b ∈ t.objectCells, t.slotAt a ≠ 0 → t.slotAt a = t.slotAt b →
    a = b
  occupied : ∀ a ∈ t.objectCells, t.slotAt a ≠ 0 → (t.objects.get? (t.slotAt a)).isSome
  named : ∀ slot, (t.objects.get? slot).isSome → ∃! a, a ∈ t.objectCells ∧ t.slotAt a = slot
  nodup : t.objects.free.Nodup
  free : ∀ slot, slot ∈ t.objects.free ↔
    0 < slot ∧ slot ≤ t.objects.slots.size ∧ t.objects.get? slot = none

theorem slotAt_eq (good : t.layout.SoundTyped) {a : Cell} (cell : a ∈ t.objectCells) :
    t.slotAt a = (t.bitsOf (.field a.id) a.row).toNat := by
  obtain ⟨-, f, field, object⟩ := cell
  have single := good.sound.single_of_object field object
  simp [slotAt, bitsOf, slotOf?, field, single]

theorem objectIn_committed {a : Cell} (cell : a ∈ t.objectCells) :
    t.objectIn .committed a = t.objects.get? (t.slotAt a) := by
  obtain ⟨-, f, field, object⟩ := cell
  simp [objectIn, slotAt, valueIn, content_eq, valueOf, field, object]

/-- In an intact table the slots that are named are told apart and occupied. It
remains that every occupied slot is named. -/
theorem Intact.owns (intact : t.Intact) (named : t.Named) : t.Owns := by
  have good := intact.stored.good
  have distinct : ∀ a ∈ t.objectCells, ∀ b ∈ t.objectCells, t.slotAt a ≠ 0 →
      t.slotAt a = t.slotAt b → a = b := by
    intro a cell b cell' some same
    rw [slotAt_eq good cell] at some same
    rw [slotAt_eq good cell'] at same
    obtain ⟨ids, rows⟩ := intact.distinct a.id a.row b.id b.row cell cell'
      (fun zero => some (congrArg UInt64.toNat zero)) (UInt64.toNat_inj.mp same)
    cases a
    cases b
    simp_all
  refine ⟨distinct, ?_, ?_, intact.consistent.nodup, intact.consistent.free⟩
  · intro a cell some
    rw [slotAt_eq good cell] at some ⊢
    exact intact.occupied a.id a.row cell fun zero => some (congrArg UInt64.toNat zero)
  · intro slot occupied
    obtain ⟨id, row, cell, number⟩ := named slot occupied
    have cell : (⟨id, row⟩ : Cell) ∈ t.objectCells := cell
    have number : t.slotAt ⟨id, row⟩ = slot := (slotAt_eq good cell).trans number
    refine ⟨⟨id, row⟩, ⟨cell, number⟩, ?_⟩
    rintro b ⟨cell', number'⟩
    refine distinct b cell' _ cell ?_ (number'.trans number.symm)
    rw [number']
    rintro rfl
    cases occupied

/-- An object is held exactly when it is in a field. -/
theorem Owns.mem_slots (owns : t.Owns) (ref : ObjectRef) :
    some ref ∈ t.objects.slots ↔ ∃ a ∈ t.objectCells, t.objectIn .committed a = some ref := by
  rw [ObjectTable.mem_slots]
  constructor
  · rintro ⟨slot, found⟩
    obtain ⟨a, ⟨cell, rfl⟩, -⟩ := owns.named slot (by rw [found]; rfl)
    exact ⟨a, cell, (objectIn_committed cell).trans found⟩
  · rintro ⟨a, cell, found⟩
    exact ⟨t.slotAt a, (objectIn_committed cell).symm.trans found⟩

/-- There are as many objects as fields that hold one. -/
theorem Owns.countP_slots (owns : t.Owns) :
    t.objects.slots.toList.countP Option.isSome =
      {a ∈ t.objectCells | (t.objectIn .committed a).isSome}.ncard := by
  have slots : {slot | (t.objects.get? slot).isSome} =
      t.slotAt '' {a ∈ t.objectCells | (t.objectIn .committed a).isSome} := by
    ext slot
    constructor
    · intro occupied
      obtain ⟨a, ⟨cell, rfl⟩, -⟩ := owns.named slot occupied
      exact ⟨a, ⟨cell, by rwa [objectIn_committed cell]⟩, rfl⟩
    · rintro ⟨a, ⟨cell, some⟩, rfl⟩
      rwa [objectIn_committed cell] at some
  rw [ObjectTable.countP_slots, slots]
  refine Set.InjOn.ncard_image ?_
  rintro a ⟨cell, some⟩ b ⟨cell', -⟩ same
  refine owns.distinct a cell b cell' ?_ same
  intro zero
  rw [objectIn_committed cell, zero] at some
  cases some

/-- Fields see the same objects when they see the same values. -/
theorem objectIn_congr {view view' : View} {a : Cell} (layout : t'.layout = t.layout)
    (same : ∀ f, t.layout.field? a.id = some f → f.type = .object →
      t'.valueIn view' f a.row = t.valueIn view f a.row) (cell : a ∈ t.objectCells) :
    t'.objectIn view' a = t.objectIn view a := by
  obtain ⟨-, f, field, object⟩ := cell
  simp only [objectIn, layout, field, Option.map_some, same f field object]

/-- Staging a write changes what the written field holds in the staged view, and
nothing else. -/
theorem objectIn_write (valid : t.Valid) {handle : FieldHandle} {value : Value} {row : UInt64}
    (ok : t.write handle value = .ok t') (selected : t.selected = .ok row) (view : View) {a : Cell}
    (cell : a ∈ t.objectCells) (other : a ≠ ⟨handle.id, row⟩) :
    t'.objectIn view a = t.objectIn view a := by
  obtain ⟨row', g, bits, selected', found, -, rfl⟩ := write_eq_ok.mp ok
  cases selected.symm.trans selected'
  refine objectIn_congr rfl (fun f field object => ?_) cell
  cases view with
  | committed => rfl
  | staged =>
    obtain ⟨-, found⟩ := fieldOf_eq_ok.mp found
    have apart : ¬ (f.id = g.id ∧ a.row = row) := by
      rintro ⟨ids, rfl⟩
      rw [valid.sound.field?_id field, valid.sound.field?_id found] at ids
      exact other (by rw [← ids])
    simp only [valueIn, staged, PendingLog.latestValue?_stageWrite valid.answers.bounded,
      if_neg apart]
    rfl

/-- A commit makes each field hold what it held in the staged view. -/
theorem objectIn_commit (valid : t.Valid) {result : CommitResult}
    (ok : t.commit = .ok (result, t')) {a : Cell} (cell : a ∈ t.objectCells) :
    t'.objectIn .committed a = t.objectIn .staged a := by
  obtain ⟨layout, capacity, -, shows⟩ := commit_spec valid (shows_contents t) ok
  refine objectIn_congr layout (fun f field object => ?_) cell
  have single := valid.sound.single_of_object field object
  have staged := (shows_contents t).sees_staged valid.answers valid.sound
  rw [staged.value a.id a.row cell.1 f field single]
  exact shows.sees.value a.id a.row (capacity ▸ cell.1) f (layout ▸ field) single

end Table

namespace Storage

open Table

/-- All objects are named by fields as long as lengths fit. -/
theorem persists_named : Persists Named where
  rows named same := named.same same
  commit {t} named valid checked := by
    obtain ⟨here, room⟩ := of_checkPending checked
    have same : SameRows t { t with pending := .empty, committedUnion := t.activeUnion } :=
      ⟨rfl, rfl, rfl, rfl⟩
    rw [applyPending_eq]
    exact (named.same same).applyAll t.pending.ops.toList (valid.intact.same same)
      valid.answers.admits here (Nat.le_trans (Nat.le_of_eq rfl) room)
  resize {t length objects segments} named valid released sizes := by
    intro slot occupied
    have kept := keeps_done valid.intact t.cursor released sizes
    by_cases cut : NamedFrom t length slot
    · rw [released.emptied slot cut] at occupied
      cases occupied
    · rw [released.kept slot cut] at occupied
      obtain ⟨id, row, cell, rfl⟩ := named slot occupied
      have inside : row < length := by
        by_contra past
        exact cut ⟨id, row, cell, UInt64.not_lt.mp past, rfl⟩
      refine ⟨id, row, ⟨inside, cell.2⟩, ?_⟩
      exact congrArg UInt64.toNat (kept.kept (.field id) row inside cell.1)
  fresh {t} valid none blank := by
    intro slot occupied
    rw [none] at occupied
    simp [ObjectTable.get?] at occupied
  restore {t l buffers} named valid exchanged restored count ok := by
    have same := exchanged.fingerprint.symm
    intro slot occupied
    obtain ⟨id, row, cell, number⟩ := named slot occupied
    refine ⟨id, row, (Snapshot.objectCell_restored same).mpr cell, ?_⟩
    rw [Snapshot.bitsOf_restored same count ok valid.intact.stored restored.intact.stored.good
      cell.1 (slotOf?_of_fingerprint same id), number]

/-- A new length keeps the objects of all rows that stay. -/
theorem objectIn_resize {s : Storage} (valid : s.table.Valid) {length : UInt64}
    (ok : (s.resize length).1 = .ok ()) {a : Cell} (cell : a ∈ s.table.objectCells)
    (stays : a.row < length) :
    (s.resize length).2.table.objectIn .committed a = s.table.objectIn .committed a := by
  have step := resizes valid.intact length
  generalize s.resize length = outcome at step ok ⊢
  obtain ⟨result, after⟩ := outcome
  cases ok
  cases step with
  | done released sizes =>
    have keeps := keeps_done valid.intact (s.table.cursor.filter (· < length)) released sizes
    have shows := keeps.shows (shows_contents s.table)
    refine objectIn_congr rfl (fun f field object => ?_) cell
    have single := valid.sound.single_of_object field object
    refine (shows.sees.value a.id a.row stays f field single).trans ?_
    refine Eq.trans ?_ ((shows_contents s.table).sees.value a.id a.row cell.1 f field single).symm
    exact if_pos cell.1

/-- Objects are neither shared nor leaked: at every level, slots and object fields
belong together one to one, the snapshot counts the fields that hold an object, and
no object is held but in a field. Writes, commits and new lengths change what they
are for and no other field. Lists of a steady storage are steady, as is what its
snapshots are restored to. -/
theorem owns_objects {s : Storage} (steady : s.Steady fun _ _ => True) :
    s.Throughout Owns ∧
    s.snapshot.liveObjects =
      {a ∈ s.table.objectCells | (s.table.objectIn .committed a).isSome}.ncard ∧
    (∀ ref, some ref ∈ s.table.objects.slots ↔
      ∃ a ∈ s.table.objectCells, s.table.objectIn .committed a = some ref) ∧
    (∀ handle value t row, s.table.write handle value = .ok t → s.table.selected = .ok row →
      ∀ view, ∀ a ∈ s.table.objectCells, a ≠ ⟨handle.id, row⟩ →
        t.objectIn view a = s.table.objectIn view a) ∧
    (∀ result t, s.table.commit = .ok (result, t) → ∀ a ∈ s.table.objectCells,
      t.objectIn .committed a = s.table.objectIn .staged a) ∧
    (∀ length, (s.resize length).1 = .ok () → ∀ a ∈ s.table.objectCells, a.row < length →
      (s.resize length).2.table.objectIn .committed a = s.table.objectIn .committed a) := by
  have valid := steady.reachable.valid.here
  have all : s.Throughout Owns := steady.reachable.valid.combine (persists_named.steady steady)
    fun _ valid named => valid.intact.owns named
  have owns := all.here
  refine ⟨all, ?_, owns.mem_slots, ?_, ?_, ?_⟩
  · rw [← owns.countP_slots]
    cases s
    rw [snapshot, Snapshot.liveObjects]
  · intro handle value t row ok selected view a cell other
    exact objectIn_write valid ok selected view cell other
  · intro result t ok a cell
    exact objectIn_commit valid ok cell
  · intro length ok a cell stays
    exact objectIn_resize valid ok cell stays

/-- The filled albums have one picture, with two free slots, and a second one is
staged. -/
theorem owns_objects_filled :
    (filled.Steady fun _ _ => True) ∧ filled.Throughout Owns ∧ filled.table.objects.free = [2, 1] ∧
      filled.snapshot.liveObjects = 1 ∧ ∃ a ∈ filled.table.objectCells,
        filled.table.objectIn .committed a = some ⟨"lake"⟩ := by
  obtain ⟨owns, -, held, -⟩ := owns_objects filled_steady
  exact ⟨filled_steady, owns, by decide +kernel, by decide +kernel,
    (held ⟨"lake"⟩).mp (by decide +kernel)⟩

end Storage

end BitRecords
