import BitRecords.Proofs.Storage.RoundTrip
import BitRecords.Proofs.Storage.Simulation

/-!
# Restored storages in sessions

Stripping a storage takes away what its snapshot leaves out. The stripped storage
and the one that is restored from the snapshot have the same buffers and the same
objects in the same slots, but free slots in different orders, so they differ from
the next object on. They are twins nevertheless, and no session can tell them
apart.
-/

namespace BitRecords

open Layout

namespace Table

variable {t : Table}

/-- The table without the log, the cursor, the listeners and the unions that it
remembers. -/
def stripped (t : Table) : Table :=
  { t with
    pending := .empty, cursor := none, listeners := {}, activeUnion := none, committedUnion := none }

theorem Valid.stripped (valid : t.Valid) : t.stripped.Valid where
  intact := valid.intact.same ⟨rfl, rfl, rfl, rfl⟩
  answers := .empty
  active _ none := nomatch none
  remembered _ none := nomatch none
  elements := valid.elements

/-- Only the order of the free slots changes when an object table is rebuilt. -/
theorem even_ofSlots {o : ObjectTable} (consistent : o.Consistent) :
    o.Even (.ofSlots o.slots) := by
  have counted := consistent.countP_slots
  have rebuilt : o.slots.toList.countP Option.isSome + (ObjectTable.ofSlots o.slots).free.length =
      o.slots.size := (ObjectTable.consistent_ofSlots consistent.bounded).countP_slots
  exact ⟨.refl _, by omega⟩

/-- A table that is restored is the stripped one with a new free list. -/
theorem restored_eq (valid : t.Valid) (exact : t.Exact) {buffers : List BitBuffer}
    (ok : Snapshot.restoreSegments t.capacity (t.segments.toList.map BitBuffer.toBytes)
      t.layout.segments = .ok buffers) :
    Snapshot.restored t t.layout buffers =
      { t.stripped with objects := .ofSlots t.objects.slots } := by
  rw [Storage.restoreSegments_exact valid exact rfl valid.intact.stored.count] at ok
  cases ok
  rfl

theorem twins_restored (valid : t.Valid) (exact : t.Exact) {buffers : List BitBuffer}
    (ok : Snapshot.restoreSegments t.capacity (t.segments.toList.map BitBuffer.toBytes)
      t.layout.segments = .ok buffers) :
    t.stripped.Twins id True (Snapshot.restored t t.layout buffers) where
  alike := .refl (valid.elements.mono fun _ good => good.sound)
  state := ⟨rfl, rfl, rfl, rfl, rfl, rfl, rfl⟩
  valid := valid.stripped
  valid' := Snapshot.restored_valid rfl valid.intact.stored.count ok valid valid.elements
  shows := by
    rw [restored_eq valid exact ok]
    exact ⟨t.stripped.contents, shows_contents _,
      shows_contents { t.stripped with objects := .ofSlots t.objects.slots }⟩
  objects := even_ofSlots valid.intact.consistent
  bits _ := by
    rw [restored_eq valid exact ok]
    have stored := valid.stripped.intact.stored
    exact .of_segments stored (stored.congr rfl rfl rfl) rfl rfl rfl
  slots other := absurd trivial other

/-- The tables differ in the slots of their objects only, that is in the order of
the slots and in the bits of the object fields. These name the same objects. -/
structure SameButSlots (t t' : Table) : Prop where
  state : SameState t t'
  bits : t.SameBits t'
  slots : t'.objects.slots.toList.Perm t.objects.slots.toList
  named : ∀ id row, t.ObjectCell id row →
    t'.objects.get? (t'.bitsOf (.field id) row).toNat =
      t.objects.get? (t.bitsOf (.field id) row).toNat

theorem Twins.sameButSlots {t' : Table} (twins : t.Twins id True t') : t.SameButSlots t' where
  state := twins.state
  bits := twins.bits trivial
  slots := twins.objects.slots
  named _ _ := twins.named

end Table

namespace Storage

open Table

variable {s : Storage}

mutual

/-- The storage without what its snapshot leaves out, at every level. -/
def stripped : Storage → Storage
  | { table, lists } => { table := table.stripped, lists := strippedLists lists }

def strippedLists : List (Cell × Storage) → List (Cell × Storage)
  | [] => []
  | (cell, list) :: rest => (cell, list.stripped) :: strippedLists rest

end

theorem twins_restoreLists {t : Table} {lists after : List (Cell × Storage)}
    (hangs : ∀ entry ∈ lists, Hangs Eq t entry)
    (each : ∀ entry ∈ lists, ∀ after, entry.2.snapshot.restore entry.2.table.layout = .ok after →
      entry.2.stripped.Twins id True after)
    (ok : Snapshot.restoreLists t.layout t.capacity (snapshotLists lists) = .ok after) :
    List.Forall₂ (Entries (Table.Twins id True)) (strippedLists lists) after := by
  induction lists generalizing after with
  | nil =>
    rw [snapshotLists, Snapshot.restoreLists] at ok
    cases ok
    exact .nil
  | cons entry rest ih =>
    obtain ⟨element, storage, others, -, found, storageOk, othersOk, rfl⟩ :=
      Snapshot.restoreLists_cons_eq_ok.mp ok
    obtain ⟨hangsHere, hangs⟩ := List.forall_mem_cons.mp hangs
    obtain ⟨here, each⟩ := List.forall_mem_cons.mp each
    obtain ⟨element', found', layout⟩ := hangsHere.element
    cases found.symm.trans found'
    exact .cons ⟨rfl, here storage (layout ▸ storageOk)⟩ (ih hangs each othersOk)

/-- What is restored is a twin of what was stripped. -/
theorem twins_restore (tidy : s.Tidy Eq) (valid : s.Throughout Valid)
    (exact : s.Throughout Exact) {after : Storage}
    (ok : s.snapshot.restore s.table.layout = .ok after) : s.stripped.Twins id True after := by
  induction tidy generalizing after with
  | intro _ hangs _ ih =>
    obtain ⟨buffers, inner, -, -, -, buffersOk, innerOk, rfl⟩ := Snapshot.restore_eq_ok.mp ok
    refine throughout₂_iff.mpr ⟨twins_restored valid.here exact.here buffersOk, ?_⟩
    exact twins_restoreLists hangs (fun entry member after =>
      ih entry member (valid.lists entry member) (exact.lists entry member)) innerOk

/-- A steady storage that is restored from its snapshot answers in every session as
if only the pending operations, the cursors, the listeners and the remembered
unions had been taken from it, and never differs from that one but in the slots of
objects. Storages that take the place of a list have the layout of that list. -/
theorem restore_answers
    (steady : s.Steady fun list other => list.table.layout = other.table.layout) :
    ∃ after, s.snapshot.restore s.table.layout = .ok after ∧
      ∀ requests, after.answers requests = s.stripped.answers requests ∧
        (s.stripped.afterwards requests).Throughout₂ SameButSlots (after.afterwards requests) := by
  have valid := steady.reachable.valid
  have exact := persists_exact.steady steady
  have tidy : s.Tidy Eq := steady.tidy (fun _ => rfl) fun _ _ _ may same => same.trans may
  have places : s.Tidy SamePlaces := steady.tidy (fun _ => rfl) fun _ _ _ may same =>
    same.trans (congrArg fingerprint may)
  obtain ⟨after, ok, -⟩ := places.restores valid exact
    (valid.here.elements.mono fun _ good => good.sound.flagged) rfl
  refine ⟨after, ok, fun requests => ?_⟩
  obtain ⟨answers, afters⟩ := (twins_restore tidy valid exact ok).session requests (.inl trivial)
  rw [List.map_id'' rename_id_request] at answers afters
  rw [List.map_id'' renameAnswer_id] at answers
  exact ⟨answers, afters.mono fun _ _ => Table.Twins.sameButSlots⟩

/-- The restored albums have their free slots in another order, so the next picture
takes another slot, and still nobody can tell. -/
theorem restore_answers_filled :
    filled.stripped.table.objects.free = [2, 1] ∧
    ∃ after, filled.snapshot.restore filled.table.layout = .ok after ∧
      after.table.objects.free = [1, 2] ∧
      ∀ requests, after.answers requests = filled.stripped.answers requests ∧
        (filled.stripped.afterwards requests).Throughout₂ SameButSlots (after.afterwards requests) := by
  obtain ⟨after, ok, same⟩ := restore_answers filled_steady
  have free : (filled.snapshot.restore filled.table.layout).toOption.map
      (·.table.objects.free) = some [1, 2] := by decide +kernel
  rw [ok] at free
  exact ⟨by decide +kernel, after, ok, Option.some.inj free, same⟩

end Storage

end BitRecords
