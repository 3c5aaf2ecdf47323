import BitRecords.Proofs.Layout.Elements
import BitRecords.Proofs.Table.Sizes
import BitRecords.Storage.Snapshot

/-!
# Restoring snapshots

A layout with the same fingerprint has the same strides, and its fields have the
same types and places. So a snapshot that is restored shows the same bits in the
same fields, and the fields name the same slots of the object table.
-/

namespace BitRecords

open Layout

/-- What holds of the tables of a storage and of all lists in it. -/
inductive Storage.Throughout (P : Table → Prop) : Storage → Prop where
  | intro {table : Table} {lists : List (Cell × Storage)} : P table →
      (∀ entry ∈ lists, Throughout P entry.2) → Throughout P ⟨table, lists⟩

namespace Layout

variable {l l' : Layout}

theorem stride_of_fingerprint (same : l.fingerprint = l'.fingerprint) (k : SegmentId) :
    l.stride k = l'.stride k := by
  have strides : l.segments.map (·.stride) = l'.segments.map (·.stride) := by
    rw [← strides_fingerprint, ← strides_fingerprint, same]
  have stride (l : Layout) : l.stride k = ((l.segments.map (·.stride))[k]?).getD 0 := by
    rw [Layout.stride, List.getElem?_map]
    cases l.segments[k]? <;> rfl
  rw [stride, stride, strides]

/-- The same field in both layouts. -/
theorem field?_of_fingerprint (same : l.fingerprint = l'.fingerprint) {id : FieldId}
    {f : FieldLayout} (field : l'.field? id = some f) :
    ∃ f', l.field? id = some f' ∧ f'.mark = f.mark := by
  have marks : l.fields.map (·.mark) = l'.fields.map (·.mark) := by
    rw [← fields_fingerprint, ← fields_fingerprint, same]
  have mark : (l.fields.map (·.mark))[id]? = some f.mark := by
    rw [marks, List.getElem?_map]
    exact congrArg (Option.map _) field
  rw [List.getElem?_map] at mark
  exact Option.map_eq_some_iff.mp mark

theorem slotOf?_of_fingerprint (same : l.fingerprint = l'.fingerprint) (id : FieldId) :
    l.slotOf? (.field id) = l'.slotOf? (.field id) := by
  have image (l : Layout) : l.slotOf? (.field id) =
      ((l.fields.map (·.mark))[id]?).bind fun m =>
        if m.tag.isNone then some (⟨m.segment, m.offset⟩, m.type.width) else none := by
    rw [slotOf?, field?, List.getElem?_map]
    cases l.fields[id]? <;> rfl
  rw [image, image, ← fields_fingerprint, ← fields_fingerprint, same]

end Layout

namespace Snapshot

open Table

theorem restoreSegments_spec {capacity : UInt64} {olds : List BitBuffer} {segments : List Segment}
    {buffers : List BitBuffer}
    (ok : restoreSegments capacity (olds.map BitBuffer.toBytes) segments = .ok buffers)
    (count : olds.length = segments.length) :
    buffers.length = segments.length ∧ ∀ (k : Nat) (b : BitBuffer) (g : Segment),
      buffers[k]? = some b → segments[k]? = some g →
      ∃ old, olds[k]? = some old ∧ b.words = old.words ∧ b.Canonical ∧
        b.size.toNat = capacity.toNat * g.stride.toNat := by
  induction segments generalizing olds buffers with
  | nil =>
    obtain rfl := List.length_eq_zero_iff.mp count
    cases ok
    exact ⟨rfl, fun k b g found => (by cases found)⟩
  | cons g rest ih =>
    cases olds with
    | nil => cases count
    | cons old olds =>
      rw [List.map_cons, restoreSegments] at ok
      by_cases wide : UInt64.size ≤ capacity.toNat * g.stride.toNat
      · rw [if_pos wide] at ok
        obtain ⟨_, thrown, _⟩ := bind_eq_ok.mp ok
        cases thrown
      · rw [if_neg wide] at ok
        dsimp only at ok
        cases image : BitBuffer.ofBytes old.toBytes (capacity * g.stride) with
        | error fault =>
          rw [image] at ok
          cases ok
        | ok b =>
          rw [image] at ok
          simp only [bind_eq_ok, pure_eq_ok] at ok
          obtain ⟨others, othersOk, rfl⟩ := ok
          obtain ⟨length, each⟩ := ih othersOk (Nat.succ.inj count)
          obtain ⟨size, canonical⟩ := BitBuffer.canonical_ofBytes image
          refine ⟨congrArg Nat.succ length, fun k b' g' found segment => ?_⟩
          cases k with
          | zero =>
            cases found
            cases segment
            refine ⟨old, rfl, BitBuffer.words_ofBytes_toBytes image, canonical, ?_⟩
            rw [size, toNat_mul_exact (Nat.lt_of_not_le wide)]
          | succ k => exact each k b' g' found segment

/-- The table that the snapshot of a table is restored to. -/
def restored (t : Table) (l : Layout) (buffers : List BitBuffer) : Table where
  layout := l
  capacity := t.capacity
  growable := t.growable
  segments := buffers.toArray
  objects := .ofSlots t.objects.slots

variable {t : Table} {l : Layout} {buffers : List BitBuffer}

/-- Both tables have objects in the same fields. -/
theorem objectCell_restored (same : t.layout.fingerprint = l.fingerprint) {id : FieldId}
    {row : UInt64} : (restored t l buffers).ObjectCell id row ↔ t.ObjectCell id row := by
  constructor
  · rintro ⟨here, f, field, object⟩
    obtain ⟨f', field', mark⟩ := field?_of_fingerprint same field
    exact ⟨here, f', field', (congrArg FieldMark.type mark).trans object⟩
  · rintro ⟨here, f, field, object⟩
    obtain ⟨f', field', mark⟩ := field?_of_fingerprint same.symm field
    exact ⟨here, f', field', (congrArg FieldMark.type mark).trans object⟩

section Buffers

variable (same : t.layout.fingerprint = l.fingerprint)
  (count : t.segments.size = l.segments.length)
  (ok : restoreSegments t.capacity (t.segments.toList.map BitBuffer.toBytes) l.segments =
    .ok buffers)
include count ok

theorem stored_restored (good : l.SoundTyped) : (restored t l buffers).Stored := by
  obtain ⟨length, each⟩ := restoreSegments_spec ok (by rw [Array.length_toList, count])
  refine stored_of_exact good ?_ fun k b g found segment => ?_
  · rw [restored, List.size_toArray, length]
  rw [restored, List.getElem?_toArray] at found
  obtain ⟨-, -, -, canonical, size⟩ := each k b g found segment
  exact ⟨canonical, size⟩

include same

/-- The buffers that are read back show the bits of the rows. -/
theorem bitAt_restored (k : SegmentId) (row : UInt64) (p : Nat) :
    (restored t l buffers).bitAt k row p = t.bitAt k row p := by
  obtain ⟨length, each⟩ := restoreSegments_spec ok (by rw [Array.length_toList, count])
  have stride : l.stride k = t.layout.stride k := (stride_of_fingerprint same k).symm
  unfold bitAt restored
  cases found : buffers.toArray[k]? with
  | none =>
    have past : t.segments.size ≤ k := by
      rw [count, ← length, ← List.size_toArray]
      exact Array.getElem?_eq_none_iff.mp found
    rw [Array.getElem?_eq_none past]
  | some b =>
    rw [List.getElem?_toArray] at found
    have bound : k < l.segments.length := by
      rw [← length]
      exact (List.getElem?_eq_some_iff.mp found).1
    obtain ⟨old, before, words, -, -⟩ := each k b _ found (List.getElem?_eq_getElem bound)
    rw [Array.getElem?_toList] at before
    rw [before]
    simp only [stride, BitBuffer.bit, BitBuffer.word, words]

/-- A use that both layouts store in the same place has the same bits. -/
theorem bitsOf_restored (stored : t.Stored) (good : l.SoundTyped) {use : Use} {row : UInt64}
    (here : row < t.capacity) (place : t.layout.slotOf? use = l.slotOf? use) :
    (restored t l buffers).bitsOf use row = t.bitsOf use row := by
  cases found : t.layout.slotOf? use with
  | none =>
    rw [bitsOf_of_slotOf?_eq_none found, bitsOf_of_slotOf?_eq_none (place.symm.trans found)]
  | some slot =>
    refine eq_of_bitOf fun i _ => ?_
    rw [bitOf_bitsOf (stored_restored count ok good) here (place.symm.trans found),
      bitOf_bitsOf stored here found, bitAt_restored same count ok]

theorem restored_valid (valid : t.Valid) (good : l.Throughout SoundTyped) :
    (restored t l buffers).Valid := by
  refine ⟨valid.intact.rebuild (stored_restored count ok good.here) ?_ fun id row cell some => ?_,
    .empty, fun _ none => (nomatch none), fun _ none => (nomatch none), good⟩
  · exact ObjectTable.consistent_ofSlots valid.intact.consistent.bounded
  · have cell := (objectCell_restored same).mp cell
    have bits := bitsOf_restored same count ok valid.intact.stored good.here cell.1
      (slotOf?_of_fingerprint same id)
    rw [bits] at some
    exact ⟨cell, bits, valid.intact.occupied id row cell some⟩

end Buffers

/-- Restoring the snapshot of a storage. -/
theorem restore_eq_ok {lists : List (Cell × Storage)} {after : Storage} :
    (Storage.mk t lists).snapshot.restore l = .ok after ↔ ∃ buffers inner,
      t.layout.fingerprint = l.fingerprint ∧ t.layout.rowStride = l.rowStride ∧
      t.segments.size = l.segments.length ∧
      restoreSegments t.capacity (t.segments.toList.map BitBuffer.toBytes) l.segments =
        .ok buffers ∧
      restoreLists l t.capacity (Storage.snapshotLists lists) = .ok inner ∧
      after = ⟨restored t l buffers, inner⟩ := by
  rw [Storage.snapshot, restore]
  by_cases foreign : t.layout.fingerprint ≠ l.fingerprint ∨ t.layout.rowStride ≠ l.rowStride ∨
      (t.segments.toList.map BitBuffer.toBytes).length ≠ l.segments.length
  · rw [if_pos foreign]
    simp only [List.length_map, Array.length_toList] at foreign
    constructor
    · intro ok
      obtain ⟨_, thrown, _⟩ := bind_eq_ok.mp ok
      cases thrown
    · rintro ⟨_, _, same, stride, count, -⟩
      simp [same, stride, count] at foreign
  · rw [if_neg foreign]
    simp only [not_or, not_not, List.length_map, Array.length_toList] at foreign
    obtain ⟨same, stride, count⟩ := foreign
    simp only [bind_eq_ok, pure_eq_ok]
    constructor
    · rintro ⟨buffers, buffersOk, inner, listsOk, rfl⟩
      exact ⟨buffers, inner, same, stride, count, buffersOk, listsOk, rfl⟩
    · rintro ⟨buffers, inner, -, -, -, buffersOk, listsOk, rfl⟩
      exact ⟨buffers, buffersOk, inner, listsOk, rfl⟩

/-- Restoring the snapshots of lists, the first one before the others. -/
theorem restoreLists_cons_eq_ok {capacity : UInt64} {cell : Cell} {list : Storage}
    {rest after : List (Cell × Storage)} :
    restoreLists l capacity (Storage.snapshotLists ((cell, list) :: rest)) = .ok after ↔
      ∃ element storage others, cell.row < capacity ∧
        (l.struct? cell.id).bind (·.element) = some element ∧
        list.snapshot.restore element = .ok storage ∧
        restoreLists l capacity (Storage.snapshotLists rest) = .ok others ∧
        after = (cell, storage) :: others := by
  rw [Storage.snapshotLists, restoreLists]
  by_cases outside : capacity ≤ cell.row
  · rw [if_pos outside]
    constructor
    · intro ok
      obtain ⟨_, thrown, _⟩ := bind_eq_ok.mp ok
      cases thrown
    · rintro ⟨_, _, _, inside, -⟩
      exact absurd inside (UInt64.not_lt.mpr outside)
  · rw [if_neg outside]
    have inside := UInt64.not_le.mp outside
    dsimp only
    cases (l.struct? cell.id).bind (·.element) with
    | none =>
      constructor
      · intro ok
        cases ok
      · rintro ⟨_, _, _, _, none, -⟩
        cases none
    | some element =>
      simp only [bind_eq_ok, pure_eq_ok, Option.some.injEq]
      constructor
      · rintro ⟨storage, storageOk, others, othersOk, rfl⟩
        exact ⟨element, storage, others, inside, rfl, storageOk, othersOk, rfl⟩
      · rintro ⟨_, storage, others, -, rfl, storageOk, othersOk, rfl⟩
        exact ⟨storage, storageOk, others, othersOk, rfl⟩

theorem restoreLists_throughout {P : Table → Prop} {L : Layout → Prop} (closed : Closed L)
    {l : Layout} {capacity : UInt64} {lists after : List (Cell × Storage)}
    (each : ∀ entry ∈ lists, ∀ (l : Layout) (list : Storage), L l →
      entry.2.snapshot.restore l = .ok list → list.Throughout P)
    (holds : L l)
    (ok : restoreLists l capacity (Storage.snapshotLists lists) = .ok after) :
    ∀ entry ∈ after, entry.2.Throughout P := by
  induction lists generalizing after with
  | nil =>
    rw [Storage.snapshotLists, restoreLists] at ok
    cases ok
    simp
  | cons entry rest ih =>
    obtain ⟨element, storage, others, -, found, storageOk, othersOk, rfl⟩ :=
      restoreLists_cons_eq_ok.mp ok
    obtain ⟨s, struct, found⟩ := Option.bind_eq_some_iff.mp found
    refine List.forall_mem_cons.mpr ⟨?_, ?_⟩
    · exact each _ List.mem_cons_self element storage
        (closed holds (List.mem_of_getElem? struct) found) storageOk
    · exact ih (fun entry member => each entry (List.mem_cons_of_mem _ member)) othersOk

/-- A snapshot of valid tables that is restored gives valid tables, those of its
lists included. -/
theorem restore_valid {s after : Storage} (valid : s.Throughout Valid) {l : Layout}
    (good : l.Throughout SoundTyped) (ok : s.snapshot.restore l = .ok after) :
    after.Throughout Valid := by
  induction valid generalizing l after with
  | @intro t lists valid _ ih =>
    obtain ⟨buffers, inner, same, -, count, buffersOk, listsOk, rfl⟩ := restore_eq_ok.mp ok
    exact .intro (restored_valid same count buffersOk valid good)
      (restoreLists_throughout (closed_throughout SoundTyped) (fun entry member l list => ih entry member)
        good listsOk)

end Snapshot

end BitRecords
