import BitRecords.Proofs.Storage.Tidy

/-!
# Restoring one's own snapshot

A snapshot of a steady storage is accepted by each layout with the fingerprint of
the storage's layout: the images have the sizes of the rows and no bit past them,
and each list has its place. What is restored has the same snapshot again.
-/

namespace BitRecords

open Layout Table

namespace Snapshot

/-- Canonical buffers of the exact sizes are read back from their images. -/
theorem restoreSegments_toBytes {capacity : UInt64} {buffers : List BitBuffer}
    {segments : List Segment} (count : buffers.length = segments.length)
    (exact : ∀ (k : Nat) (b : BitBuffer) (g : Segment), buffers[k]? = some b →
      segments[k]? = some g → b.Canonical ∧ b.size.toNat = capacity.toNat * g.stride.toNat) :
    restoreSegments capacity (buffers.map BitBuffer.toBytes) segments = .ok buffers := by
  induction segments generalizing buffers with
  | nil =>
    obtain rfl := List.length_eq_zero_iff.mp count
    rfl
  | cons g rest ih =>
    cases buffers with
    | nil => cases count
    | cons b buffers =>
      obtain ⟨canonical, size⟩ := exact 0 b g rfl rfl
      have small : capacity.toNat * g.stride.toNat < UInt64.size := size ▸ b.size.toNat_lt_size
      have whole : capacity * g.stride = b.size :=
        UInt64.toNat_inj.mp ((toNat_mul_exact small).trans size.symm)
      have others := ih (Nat.succ.inj count) fun k b g found => exact (k + 1) b g found
      rw [List.map_cons, restoreSegments, if_neg (Nat.not_le.mpr small), whole,
        BitBuffer.ofBytes_toBytes canonical]
      simp only [others]
      rfl

end Snapshot

namespace Cell

variable {α : Type} {cell : Cell}

theorem lookup_eq_none {entries : List (Cell × α)} (other : ∀ entry ∈ entries, cell ≠ entry.1) :
    entries.lookup cell = none :=
  List.lookup_eq_none_iff.mpr fun entry member => bne_iff_ne.mpr (other entry member)

/-- In entries that are in order, what the cell names is on its side of any entry. -/
theorem lookup_of_ordered {entries later : List (Cell × α)} {entry : Cell × α} {n : Nat}
    (ordered : entries.Pairwise fun a b => compare a.1 b.1 = .lt)
    (half : entries.drop n = entry :: later) :
    entries.lookup cell =
      match compare cell entry.1 with
      | .lt => (entries.take n).lookup cell
      | .eq => some entry.2
      | .gt => later.lookup cell := by
  have halves := List.take_append_drop n entries
  rw [half] at halves
  generalize entries.take n = before at halves
  subst halves
  obtain ⟨-, after, apart⟩ := List.pairwise_append.mp ordered
  have above := (List.pairwise_cons.mp after).1
  have below := fun x member => apart x member entry List.mem_cons_self
  have irrefl (c : Cell) : compare c c ≠ .lt := by
    have same : compare c c = .eq := Std.ReflCmp.compare_self
    rw [same]
    exact nofun
  rw [List.lookup_append, List.lookup_cons]
  cases side : compare cell entry.1 with
  | lt =>
    have here : cell ≠ entry.1 := fun same => irrefl entry.1 (same ▸ side)
    have there : later.lookup cell = none := lookup_eq_none fun x member same =>
      irrefl cell (Std.TransCmp.lt_trans side (same ▸ above x member))
    rw [beq_false_of_ne here, there]
    exact Option.or_none
  | eq =>
    obtain rfl := Std.LawfulEqOrd.eq_of_compare side
    have there : before.lookup entry.1 = none := lookup_eq_none fun x member same =>
      irrefl entry.1 (same ▸ below x member)
    rw [there, beq_self_eq_true]
    rfl
  | gt =>
    have side := Std.OrientedCmp.gt_iff_lt.mp side
    have here : cell ≠ entry.1 := fun same => irrefl entry.1 (same ▸ side)
    have there : before.lookup cell = none := lookup_eq_none fun x member same =>
      irrefl cell (Std.TransCmp.lt_trans (same ▸ below x member) side)
    rw [beq_false_of_ne here, there]
    rfl

/-- In entries that are in order, the search finds what is there. -/
theorem search_eq_lookup (cell : Cell) {entries : List (Cell × α)}
    (ordered : entries.Pairwise fun a b => compare a.1 b.1 = .lt) :
    cell.search entries = entries.lookup cell := by
  fun_induction search cell entries with
  | case1 entries empty =>
    have length := List.drop_eq_nil_iff.mp empty
    obtain rfl : entries = [] := List.length_eq_zero_iff.mp (by omega)
    rfl
  | case2 entries entry later half side ih =>
    rw [lookup_of_ordered ordered half, side]
    exact ih (ordered.sublist (List.take_sublist _ _))
  | case3 entries entry later half side =>
    rw [lookup_of_ordered ordered half, side]
  | case4 entries entry later half side ih =>
    have tail := ordered.sublist (List.drop_sublist (entries.length / 2) entries)
    rw [half] at tail
    rw [lookup_of_ordered ordered half, side]
    exact ih (List.pairwise_cons.mp tail).2
end Cell

/-- No row is selected, nothing is pending, and nobody listens. -/
structure Table.Idle (t : Table) : Prop where
  cursor : t.cursor = none
  pending : t.pending = .empty
  listeners : t.listeners = {}

namespace Storage

variable {s : Storage}

/-- The layouts have the same fingerprint. -/
def SamePlaces (l l' : Layout) : Prop := l.fingerprint = l'.fingerprint

theorem restoreSegments_exact {t : Table} (valid : t.Valid) (exact : t.Exact) {l : Layout}
    (same : t.layout.fingerprint = l.fingerprint) (count : t.segments.size = l.segments.length) :
    Snapshot.restoreSegments t.capacity (t.segments.toList.map BitBuffer.toBytes) l.segments =
      .ok t.segments.toList := by
  refine Snapshot.restoreSegments_toBytes (by simpa using count) fun k b g found segment => ?_
  rw [Array.getElem?_toList] at found
  refine ⟨valid.intact.stored.canonical k b found, ?_⟩
  rw [exact k b found, stride_of_fingerprint same, stride_eq segment]

theorem restoreLists_snapshots {t : Table} {lists : List (Cell × Storage)} {l : Layout}
    (sound : t.layout.Sound) (flagged : l.Throughout Flagged)
    (same : t.layout.fingerprint = l.fingerprint)
    (hangs : ∀ entry ∈ lists, Hangs SamePlaces t entry)
    (each : ∀ entry ∈ lists, ∀ l : Layout, l.Throughout Flagged →
      entry.2.table.layout.fingerprint = l.fingerprint →
      ∃ after, entry.2.snapshot.restore l = .ok after ∧ after.snapshot = entry.2.snapshot) :
    ∃ after, Snapshot.restoreLists l t.capacity (snapshotLists lists) = .ok after ∧
      snapshotLists after = snapshotLists lists := by
  induction lists with
  | nil => exact ⟨[], by rw [snapshotLists, Snapshot.restoreLists], rfl⟩
  | cons entry rest ih =>
    obtain ⟨hangsHere, hangs⟩ := List.forall_mem_cons.mp hangs
    obtain ⟨others, othersOk, othersSame⟩ := ih hangs fun entry member =>
      each entry (List.mem_cons_of_mem _ member)
    obtain ⟨row, element, found, alike⟩ := hangsHere
    have elements := element?_of_fingerprint sound.flagged flagged.here same entry.1.id
    rw [found] at elements
    obtain ⟨element', found', print⟩ := Option.map_eq_some_iff.mp elements.symm
    obtain ⟨after, ok, snapshots⟩ := each entry List.mem_cons_self element'
      (flagged.element? found')
      (alike.symm.trans print.symm)
    refine ⟨(entry.1, after) :: others, ?_, ?_⟩
    · exact Snapshot.restoreLists_cons_eq_ok.mpr
        ⟨element', after, others, row, found', ok, othersOk, rfl⟩
    · rw [snapshotLists, snapshotLists, snapshots, othersSame]

/-- A storage with exact buffers and lists in their places can be restored from its
snapshot, and has the same snapshot then. -/
theorem Tidy.restores (tidy : s.Tidy SamePlaces) (valid : s.Throughout Valid)
    (exact : s.Throughout Exact) {l : Layout} (flagged : l.Throughout Flagged)
    (same : s.table.layout.fingerprint = l.fingerprint) :
    ∃ after, s.snapshot.restore l = .ok after ∧ after.snapshot = s.snapshot := by
  induction tidy generalizing l with
  | @intro t lists _ hangs _ ih =>
    have stored := valid.here.intact.stored
    have strides := congrArg (·.strides.length) same
    simp only [strides_fingerprint, List.length_map] at strides
    have count : t.segments.size = l.segments.length := stored.count.trans strides
    have buffers := restoreSegments_exact valid.here exact.here same count
    obtain ⟨inner, innerOk, snapshots⟩ := restoreLists_snapshots stored.good.sound flagged same
      hangs fun entry member l => ih entry member (valid.lists entry member)
        (exact.lists entry member)
    have rows : t.layout.rowStride = l.rowStride := stride_of_fingerprint same 0
    refine ⟨_, Snapshot.restore_eq_ok.mpr ⟨_, inner, same, rows, count, buffers, innerOk, rfl⟩, ?_⟩
    simp only [snapshot, Snapshot.restored, snapshots, ObjectTable.ofSlots]
    rw [same, rows]

/-- What is restored has no state beyond the snapshot. -/
theorem idle_restore (valid : s.Throughout Valid) {l : Layout} {after : Storage}
    (ok : s.snapshot.restore l = .ok after) : after.Throughout Idle := by
  induction valid generalizing l after with
  | intro _ _ ih =>
    obtain ⟨buffers, inner, -, -, -, -, listsOk, rfl⟩ := Snapshot.restore_eq_ok.mp ok
    refine .intro ⟨rfl, rfl, rfl⟩ fun entry member => ?_
    obtain ⟨old, inside, -, element, -, ok⟩ := (cells_restoreLists listsOk).2 entry member
    exact ih _ inside ok

theorem snapshotLists_eq (lists : List (Cell × Storage)) :
    snapshotLists lists = lists.map fun entry => (entry.1, entry.2.snapshot) := by
  induction lists with
  | nil => rfl
  | cons entry rest ih => rw [snapshotLists, ih, List.map_cons]

theorem lists_snapshot (s : Storage) :
    s.snapshot.lists = s.lists.map fun entry => (entry.1, entry.2.snapshot) := by
  cases s
  rw [snapshot, snapshotLists_eq]

theorem ordered_snapshot {same : Layout → Layout → Prop} (tidy : s.Tidy same) :
    s.snapshot.lists.Pairwise fun a b => compare a.1 b.1 = .lt := by
  rw [lists_snapshot]
  exact List.pairwise_map.mpr tidy.ordered

/-- A snapshot has the snapshots of the lists, each under the cell of its list. -/
theorem list?_snapshot {same : Layout → Layout → Prop} (tidy : s.Tidy same) (cell : Cell) :
    s.snapshot.list? cell = (s.list? cell).map snapshot := by
  rw [Snapshot.list?, Cell.search_eq_lookup cell (ordered_snapshot tidy), lists_snapshot, list?]
  induction s.lists with
  | nil => rfl
  | cons entry rest ih =>
    rw [List.map_cons, List.lookup_cons, List.lookup_cons]
    cases cell == entry.1 with
    | true => rfl
    | false => exact ih

/-- The snapshot of a steady storage can be restored exactly to the layouts with
its fingerprint. What is restored has the same snapshot, down to the lists of
lists, and no cursor, pending operations or listeners. The lists of the snapshot
are in strict order, and found under the cells of the storage's lists. Storages
that take the place of a list have the fingerprint of that list. -/
theorem restore_snapshot
    (steady : s.Steady fun list other => SamePlaces list.table.layout other.table.layout)
    {l : Layout} (laid : l.LaidOut) :
    ((∃ after, s.snapshot.restore l = .ok after) ↔
      l.fingerprint = s.table.layout.fingerprint) ∧
    (∀ after, s.snapshot.restore l = .ok after →
      after.snapshot = s.snapshot ∧ after.Throughout Idle) ∧
    s.snapshot.lists.Pairwise (fun a b => compare a.1 b.1 = .lt) ∧
    ∀ cell, s.snapshot.list? cell = (s.list? cell).map snapshot := by
  have valid := steady.reachable.valid
  have tidy : s.Tidy SamePlaces := steady.tidy (fun _ => rfl) fun _ _ _ => fun may alike =>
    Eq.trans alike may
  have restores (same : s.table.layout.fingerprint = l.fingerprint) :=
    tidy.restores valid (persists_exact.steady steady) laid.flagged same
  have fingerprint {after : Storage} (ok : s.snapshot.restore l = .ok after) :
      s.table.layout.fingerprint = l.fingerprint := by
    cases s
    obtain ⟨_, _, same, -⟩ := Snapshot.restore_eq_ok.mp ok
    exact same
  refine ⟨⟨fun ⟨_, ok⟩ => (fingerprint ok).symm, fun same => ?_⟩, fun after ok => ?_,
    ordered_snapshot tidy, list?_snapshot tidy⟩
  · obtain ⟨after, ok, -⟩ := restores same.symm
    exact ⟨after, ok⟩
  · obtain ⟨after', ok', snapshots⟩ := restores (fingerprint ok)
    cases ok.symm.trans ok'
    exact ⟨snapshots, idle_restore valid ok⟩

/-- The filled albums are restored to their layout, and not to the layout of a
page. -/
theorem restore_snapshot_filled :
    (∃ after, filled.snapshot.restore albumLayout = .ok after ∧
      after.snapshot = filled.snapshot) ∧
    ¬ ∃ after, filled.snapshot.restore pageLayout = .ok after := by
  constructor
  · obtain ⟨accepts, same, -⟩ := restore_snapshot filled_steady albumLayout_compiled.laidOut
    obtain ⟨after, ok⟩ := accepts.mpr (by decide +kernel)
    exact ⟨after, ok, (same after ok).1⟩
  · rw [(restore_snapshot filled_steady pageLayout_compiled.laidOut).1]
    decide +kernel

end Storage

end BitRecords
