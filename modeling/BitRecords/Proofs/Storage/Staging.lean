import BitRecords.Proofs.Storage.Places

/-!
# Staging and rolling back

Staging changes the log and the union that is remembered for `clear`. A rollback drops
the log and takes the remembered union of the last commit. That is the state before
the staging because in every storage these unions are the same while nothing is
pending: no operation is ever staged without being in the log.
-/

namespace BitRecords

open Layout

/-- Whether the call selects a row of the storage itself or stages an operation there. -/
def Call.stages : Call → Bool
  | .select _ | .write .. | .selectMember _ | .clear | .clearUnion _ => true
  | _ => false

namespace Table

variable {t t' t'' : Table} {L : Layout → Prop}

/-- While nothing is pending, the log has no index left over, and the remembered union
is the one of the last commit. -/
def Settled (t : Table) : Prop :=
  t.pending.ops = #[] → t.pending = .empty ∧ t.activeUnion = t.committedUnion

theorem ops_eq_empty : t.pending.ops = #[] ↔ t.hasPending = false := by
  simp [hasPending, PendingLog.isEmpty]

theorem Stages.ops_ne (stages : Stages t t') : t'.pending.ops ≠ #[] := by
  obtain ⟨op, pushed⟩ := stages.pushed
  simp [pushed]

theorem settled_applyPending (t : Table) : t.applyPending.Settled := fun _ => by
  rw [Valid.sameApart_applyPending t]
  exact ⟨rfl, rfl⟩

theorem Settled.rollback (settled : t.Settled) : t.rollback.Settled := by
  unfold Table.rollback
  split
  · exact settled
  · exact fun _ => ⟨rfl, rfl⟩

theorem lasts_settled (L : Layout → Prop) :
    Storage.Lasts L (fun t => L t.layout ∧ t.Settled) where
  layout := And.left
  rows holds same := by
    rw [same]
    exact holds
  stage holds stages := by
    refine ⟨?_, fun none => absurd none stages.ops_ne⟩
    rw [stages.same]
    exact holds.1
  listen _ holds := holds
  commit holds _ := by
    rw [layout_applyPending]
    exact ⟨holds.1, settled_applyPending _⟩
  rollback holds := by
    rw [layout_rollback]
    exact ⟨holds.1, holds.2.rollback⟩
  fresh _ _ _ _ _ kind := ⟨kind, fun _ => ⟨rfl, rfl⟩⟩

/-- The second table is the first one with the cursor moved and operations staged, or
none. -/
structure Ahead (t t' : Table) : Prop where
  same : t' = { t with
    cursor := t'.cursor, pending := t'.pending, activeUnion := t'.activeUnion }
  idle : t'.pending.ops = #[] → t'.pending = t.pending ∧ t'.activeUnion = t.activeUnion

namespace Ahead

theorem refl (t : Table) : Ahead t t := ⟨rfl, fun _ => ⟨rfl, rfl⟩⟩

theorem select {row : UInt64} (ahead : Ahead t t') (ok : t'.select row = .ok t'') :
    Ahead t t'' := by
  obtain ⟨-, rfl⟩ := select_eq_ok.mp ok
  refine ⟨?_, ahead.idle⟩
  rw [ahead.same]

theorem stage (ahead : Ahead t t') (stages : Stages t' t'') : Ahead t t'' := by
  refine ⟨?_, fun none => absurd none stages.ops_ne⟩
  rw [stages.same, ahead.same]

/-- A committed read does not look at the log. -/
theorem readAt (ahead : Ahead t t') (f : FieldLayout) (row : UInt64) :
    t'.readAt .committed f row = t.readAt .committed f row := by
  rw [ahead.same]
  rfl

theorem read (ahead : Ahead t t') (cursor : Option UInt64) (handle : FieldHandle) :
    { t' with cursor }.read .committed handle = { t with cursor }.read .committed handle := by
  rw [ahead.same]
  rfl

/-- A rollback takes back all that was staged. -/
theorem rollback (ahead : Ahead t t') (settled : t.Settled) (idle : t.pending.ops = #[]) :
    t'.rollback = { t with cursor := t'.cursor } := by
  obtain ⟨empty, remembered⟩ := settled idle
  unfold Table.rollback
  split
  · next none =>
    obtain ⟨pending, active⟩ := ahead.idle (by simpa [PendingLog.isEmpty] using none)
    rw [ahead.same, pending, active]
  · rw [ahead.same, ← empty, ← remembered]

end Ahead

end Table

namespace Storage

open Table

variable {s : Storage} {call : Call} {calls : List Call}

/-- The storage with another cursor. -/
def withCursor (s : Storage) (cursor : Option UInt64) : Storage :=
  { s with table := { s.table with cursor } }

/-- Staging concerns the table alone, and a call that fails does nothing at all. -/
theorem perform_of_stages (stages : call.stages = true) :
    ∃ outcome, s.perform call = s.onTable outcome ∧
      ∀ t, outcome = .ok t → (∃ row, s.table.select row = .ok t) ∨ Stages s.table t := by
  cases call with
  | select row => exact ⟨_, rfl, fun t ok => .inl ⟨row, ok⟩⟩
  | write field value => exact ⟨_, rfl, fun t ok => .inr (stages_write ok)⟩
  | selectMember member => exact ⟨_, rfl, fun t ok => .inr (stages_selectMember ok)⟩
  | clear => exact ⟨_, rfl, fun t ok => .inr (stages_clear ok)⟩
  | clearUnion union => exact ⟨_, rfl, fun t ok => .inr (stages_clearUnion ok)⟩
  | commit | rollback | listen | listenField | listenStruct | unlisten | resize | push | reset
  | createOrClearList | inList => simp [Call.stages] at stages

/-- A storage with operations staged on its table. -/
structure Staged (s s' : Storage) : Prop where
  table : Ahead s.table s'.table
  lists : s'.lists = s.lists

theorem Staged.perform {s' : Storage} (staged : Staged s s') (stages : call.stages = true) :
    Staged s (s'.perform call).2 := by
  obtain ⟨outcome, performed, steps⟩ := perform_of_stages (s := s') stages
  rw [performed]
  cases outcome with
  | error e => exact staged
  | ok t =>
    refine ⟨?_, staged.lists⟩
    rcases steps t rfl with ⟨row, ok⟩ | stages
    · exact staged.table.select ok
    · exact staged.table.stage stages

theorem Staged.run {s' : Storage} (staged : Staged s s')
    (stages : ∀ call ∈ calls, call.stages = true) : Staged s (s'.run calls) := by
  induction calls generalizing s' with
  | nil => exact staged
  | cons call rest ih =>
    obtain ⟨here, stages⟩ := List.forall_mem_cons.mp stages
    exact ih (staged.perform here) stages

theorem Staged.snapshot {s' : Storage} (staged : Staged s s') : s'.snapshot = s.snapshot := by
  obtain ⟨t, lists⟩ := s
  obtain ⟨t', lists'⟩ := s'
  obtain ⟨table, same⟩ := staged
  dsimp only at table same
  rw [table.same, same, Storage.snapshot, Storage.snapshot]

theorem Staged.rollback {s' : Storage} (staged : Staged s s') (settled : s.table.Settled)
    (idle : s.table.hasPending = false) :
    s'.perform .rollback = (.ok (), s.withCursor s'.table.cursor) := by
  have table := staged.table.rollback settled (ops_eq_empty.mpr idle)
  obtain ⟨t', lists'⟩ := s'
  obtain ⟨-, rfl⟩ := staged
  change (Except.ok (), Storage.mk t'.rollback s.lists) = _
  rw [table]
  rfl

/-- A staging call gives no notice. -/
theorem notified_of_stages (stages : call.stages = true) : s.notified call = [] := by
  refine notified_of_ne_commit ?_ ?_
  · rintro rfl
    cases stages
  · rintro struct inner rfl
    cases stages

/-- Staging on a storage without pending operations is not seen by committed reads or in
snapshots, no listener is told of it, and a call that fails stages nothing. A rollback
then gives the storage as it was, but for the row that is selected, so that all further
requests are answered as they would have been. -/
theorem staging_invisible {s : Storage} (obtained : s.ObtainableOver LaidOut)
    (idle : s.table.hasPending = false) {calls : List Call}
    (staging : ∀ call ∈ calls, call.stages = true) :
    (∀ cursor field, ((s.run calls).withCursor cursor).query (.read .committed field) =
      (s.withCursor cursor).query (.read .committed field)) ∧
    (s.run calls).lists = s.lists ∧ (s.run calls).snapshot = s.snapshot ∧
    (∀ call, call.stages = true → (s.run calls).notified call = [] ∧
      ∀ e, ((s.run calls).answer call) = .error e →
        ((s.run calls).perform call).2 = s.run calls) ∧
    (s.run calls).perform .rollback =
      (.ok (), s.withCursor (s.run calls).table.cursor) ∧
    ∀ requests, ((s.run calls).perform .rollback).2.answers requests =
      (s.withCursor (s.run calls).table.cursor).answers requests := by
  have settled : s.table.Settled := ((lasts_settled LaidOut).obtainable closed_laidOut obtained).here.2
  have staged : Staged s (s.run calls) := Staged.run ⟨.refl s.table, rfl⟩ staging
  have rolled := staged.rollback settled idle
  refine ⟨fun cursor field => ?_, staged.lists, staged.snapshot, fun call stages => ?_, rolled,
    fun requests => by rw [rolled]⟩
  · exact congrArg (Except.map Reply.value) (staged.table.read cursor field)
  · refine ⟨notified_of_stages stages, fun e failed => ?_⟩
    obtain ⟨outcome, performed, -⟩ := perform_of_stages (s := s.run calls) stages
    have failed : ((s.run calls).perform call).1 = .error e := by
      rw [← map_answer, failed]
      rfl
    rw [performed] at failed ⊢
    cases outcome with
    | error e => rfl
    | ok t => cases failed

/-- Another price for the first order, none for the second one, and a call for an order
that does not exist. -/
def repricing : List Call :=
  [.select 0, .write ⟨LayoutRules.orderLayout.fingerprint, 3, .int64⟩ (.int 9), .select 1,
    .clear, .select 2]

theorem staging_invisible_paid : paid.ObtainableOver LaidOut ∧ paid.table.hasPending = false ∧
    (∀ call ∈ repricing, call.stages = true) ∧ (paid.run repricing).table.pending.size = 2 ∧
    (paid.run repricing).snapshot = paid.snapshot ∧
    (paid.run repricing).perform .rollback = (.ok (), paid.withCursor (some 1)) := by
  have obtained : paid.ObtainableOver LaidOut := paid_reachable.obtainable.mono fun _ => Compiled.laidOut
  have idle : paid.table.hasPending = false := by decide +kernel
  have staging : ∀ call ∈ repricing, call.stages = true := by
    simp [repricing, Call.stages]
  obtain ⟨-, -, snapshot, -, rolled, -⟩ := staging_invisible obtained idle staging
  have cursor : (paid.run repricing).table.cursor = some 1 := by decide +kernel
  rw [cursor] at rolled
  exact ⟨obtained, idle, staging, by decide +kernel, snapshot, rolled⟩

end Storage

end BitRecords
