import BitRecords.Proofs.Storage.Agreement
import BitRecords.Proofs.Storage.Steady
import BitRecords.Storage.Session

/-!
# Commits that fail

A commit checks all pending operations before it applies any. In a storage that is
reached, only rows that were cut off after an operation was staged make it fail, and
then nothing has happened: the storage, its log included, is as before. A commit that
succeeds leaves no operation behind.
-/

namespace BitRecords

namespace Table

variable {t : Table}

/-- Checks in order end at the first element that is refused. -/
theorem forM_eq_find? {ε α : Type} {xs : List α} {f : α → Except ε Unit} {bad : α → Bool}
    {fault : α → ε} (each : ∀ x ∈ xs, f x = if bad x then .error (fault x) else .ok ()) :
    xs.forM f = (xs.find? bad).elim (.ok ()) fun x => .error (fault x) := by
  induction xs with
  | nil => rfl
  | cons x rest ih =>
    obtain ⟨first, others⟩ := List.forall_mem_cons.mp each
    change (f x >>= fun _ => rest.forM f) = _
    rw [first, List.find?_cons]
    cases bad x with
    | true => rfl
    | false => exact ih others

/-- The first pending operation on a row that does not exist. -/
def firstLost? (t : Table) : Option PendingOp :=
  t.pending.ops.toList.find? fun op => t.capacity ≤ op.row

theorem firstLost?_eq_none :
    t.firstLost? = none ↔ ∀ op ∈ t.pending.ops.toList, op.row < t.capacity := by
  simp [firstLost?]

/-- While the object table has room, the check fails at the first operation whose row
is gone. -/
theorem Valid.checkPending_eq (valid : t.Valid)
    (room : t.objects.slots.size + t.objectWrites t.pending.ops.toList ≤ ObjectTable.maxSlots) :
    t.checkPending =
      t.firstLost?.elim (.ok ()) fun op => .error (.index op.row t.capacity) := by
  have checks : t.pending.ops.toList.forM t.checkOp =
      t.firstLost?.elim (.ok ()) fun op => .error (.index op.row t.capacity) := by
    refine forM_eq_find? fun op member => ?_
    rw [checkOp_of_admits valid.intact.stored.good (valid.answers.admits op member)]
    simp only [decide_eq_true_eq]
  rw [checkPending, checks]
  cases t.firstLost? with
  | some op => rfl
  | none => exact if_neg (Nat.not_lt.mpr room)

/-- A commit fails at the first operation whose row is gone. -/
theorem Valid.commit_of_firstLost (valid : t.Valid)
    (room : t.objects.slots.size + t.objectWrites t.pending.ops.toList ≤ ObjectTable.maxSlots)
    {op : PendingOp} (lost : t.firstLost? = some op) :
    t.commit = .error (.index op.row t.capacity) := by
  have some : t.pending.isEmpty = false := by
    have member := List.mem_of_find?_eq_some lost
    rw [PendingLog.isEmpty, Array.isEmpty_eq_false_iff]
    rintro empty
    simp [empty] at member
  rw [Table.commit, some, if_neg Bool.false_ne_true, valid.checkPending_eq room, lost]
  rfl

/-- A commit succeeds when all rows of pending operations exist. -/
theorem Valid.commit_of_inside (valid : t.Valid)
    (room : t.objects.slots.size + t.objectWrites t.pending.ops.toList ≤ ObjectTable.maxSlots)
    (inside : t.firstLost? = none) : ∃ result t', t.commit = .ok (result, t') := by
  rw [Table.commit]
  split
  · exact ⟨_, _, rfl⟩
  · rw [valid.checkPending_eq room, inside]
    exact ⟨_, _, rfl⟩

end Table

namespace Storage

open Table

/-- A commit succeeds exactly when all rows of pending operations exist, provided that
the object table has room for all objects. If it fails, the error is about the first
operation whose row does not exist, no listener is told anything, and the storage is
as before. If it succeeds, the rows hold what a replay of the whole log gives, and
nothing is pending. -/
theorem commit_atomic {s : Storage} (reachable : s.Reachable)
    (room : s.table.objects.slots.size + s.table.objectWrites s.table.pending.ops.toList ≤
      ObjectTable.maxSlots) :
    ((∃ result t, s.table.commit = .ok (result, t)) ↔
      ∀ op ∈ s.table.pending.ops.toList, op.row < s.table.capacity) ∧
    (∀ e, s.table.commit = .error e →
      (∃ op, s.table.pending.ops.toList.find? (fun op => s.table.capacity ≤ op.row) = some op ∧
        e = .index op.row s.table.capacity) ∧
      s.answer .commit = .error e ∧ s.perform .commit = (.error e, s)) ∧
    ∀ result t, s.table.commit = .ok (result, t) →
      s.answer .commit = .ok (.committed result) ∧
      s.perform .commit = (.ok (), { s with table := t }) ∧
      t.layout = s.table.layout ∧ t.capacity = s.table.capacity ∧ t.hasPending = false ∧
      t.Shows (s.table.contents.replay s.table.layout s.table.pending.ops.toList) := by
  have valid := reachable.valid.here
  refine ⟨?_, fun e failed => ?_, fun result t ok => ?_⟩
  · rw [← firstLost?_eq_none]
    constructor
    · rintro ⟨result, t, ok⟩
      cases lost : s.table.firstLost? with
      | none => rfl
      | some op => cases ok.symm.trans (valid.commit_of_firstLost room lost)
    · exact valid.commit_of_inside room
  · refine ⟨?_, ?_, ?_⟩
    · cases lost : s.table.firstLost? with
      | none =>
        obtain ⟨result, t, ok⟩ := valid.commit_of_inside room lost
        cases failed.symm.trans ok
      | some op =>
        cases failed.symm.trans (valid.commit_of_firstLost room lost)
        exact ⟨op, lost, rfl⟩
    · rw [answer, failed]
      rfl
    · rw [perform, failed]
      rfl
  · obtain ⟨layout, capacity, idle, shows⟩ := commit_spec valid (shows_contents s.table) ok
    refine ⟨?_, ?_, layout, capacity, ?_, shows⟩
    · rw [answer, ok]
      rfl
    · rw [perform, ok]
      rfl
    · simp [hasPending, PendingLog.isEmpty, idle]

/-- The albums after the first page of the second album was given another picture, and
its last page one that it lost with the page. -/
def tearing : Storage :=
  filled.run [.inList pages (.select 0), .inList pages (paste pageLayout 0 (some ⟨"cat"⟩)),
    .inList pages (.select 1), .inList pages (paste pageLayout 0 (some ⟨"owl"⟩)),
    .inList pages (.resize 1)]

/-- The pages that are left, with two pictures staged. -/
def torn : Storage := (tearing.list? ⟨1, 1⟩).get (by decide +kernel)

theorem torn_reachable : torn.Reachable :=
  .list ((@filled_steady fun _ _ => True).reachable.run _) (Option.some_get _).symm

theorem commit_atomic_torn :
    torn.Reachable ∧ torn.table.pending.size = 2 ∧
    torn.table.objects.slots.size + torn.table.objectWrites torn.table.pending.ops.toList ≤
      ObjectTable.maxSlots ∧
    (¬ ∃ result t, torn.table.commit = .ok (result, t)) ∧
    torn.perform .commit = (.error (.index 1 1), torn) := by
  have room : torn.table.objects.slots.size +
      torn.table.objectWrites torn.table.pending.ops.toList ≤ ObjectTable.maxSlots := by
    decide +kernel
  have first : torn.table.pending.ops.toList.find? (fun op => torn.table.capacity ≤ op.row) =
      some (.write 0 1 32 0 (.object (some ⟨"owl"⟩))) := by
    decide +kernel
  have capacity : torn.table.capacity = 1 := by decide +kernel
  obtain ⟨succeeds, fails, -⟩ := commit_atomic torn_reachable room
  have failed : ¬ ∃ result t, torn.table.commit = .ok (result, t) := by
    rw [succeeds]
    decide +kernel
  refine ⟨torn_reachable, by decide +kernel, room, failed, ?_⟩
  cases outcome : torn.table.commit with
  | ok pair => exact absurd ⟨pair.1, pair.2, outcome⟩ failed
  | error e =>
    obtain ⟨⟨op, found, rfl⟩, -, after⟩ := fails e outcome
    cases first.symm.trans found
    rw [capacity] at after
    exact after

end Storage

end BitRecords
