import BitRecords.Proofs.Layout.Numbering
import BitRecords.Proofs.Storage.Obtainable
import BitRecords.Proofs.Table.Replay

/-!
# Pending logs by scan

A log is driven by three kinds of calls: a write is staged, a selection is staged, or
the whole log is taken, which a commit and a rollback do alike. The operations of the log
are then those staged since it was last taken, and each index answers what a scan of them
gives. Every log of a storage is driven by such calls.
-/

namespace BitRecords

open Layout

/-- A call on the log of a table. The union that a field belongs to and the optional
structs above a struct are those of the table's layout. -/
inductive LogCall where
  | write (field : FieldId) (row : UInt64) (bits : UInt64) (value : Value)
  | select (union : StructId) (row : UInt64) (tag : Nat)
  /-- All operations are taken out. -/
  | take

namespace LogCall

/-- The operation that a call stages. There is none on a field that the layout lacks. -/
def op? (l : Layout) : LogCall → Option PendingOp
  | write field row bits value =>
    (l.field? field).map fun f => .write field row f.width bits value
  | select union row tag => some (.select union row tag)
  | take => none

/-- The operations that are in a log after a call. -/
def after (l : Layout) (ops : List PendingOp) : LogCall → List PendingOp
  | take => []
  | call => ops ++ (call.op? l).toList

/-- The operations that calls staged since the log was last taken. -/
def staged (l : Layout) (calls : List LogCall) : List PendingOp := calls.foldl (after l) []

end LogCall

/-- What an operation on a struct makes present. -/
theorem PendingOp.marks_of_target? {l : Layout} {op : PendingOp} {id : StructId} {cell : Cell}
    (target : op.target? l = some id) :
    op.marks l cell = decide (cell.row = op.row ∧ cell.id ∈ l.chainOf id) := by
  simp [marks, target, beq_eq_decide]

namespace PendingLog

variable {l : Layout} {log : PendingLog} {ops : List PendingOp} {row : UInt64}

/-- What a call makes of the log. -/
def call (l : Layout) (log : PendingLog) : LogCall → PendingLog
  | .write field row bits value =>
    match l.field? field with
    | none => log
    | some f =>
      log.stageWrite field row f.width bits value (f.tag.map fun tag => (f.owner, tag))
        (l.chainOf f.owner)
  | .select union row tag => log.stageSelect union row tag (l.chainOf union)
  | .take => .empty

/-- The log after calls, one after the other. -/
def run (l : Layout) (calls : List LogCall) : PendingLog := calls.foldl (call l) .empty

/-- The log holds the operations, and its indexes answer what a scan of them gives: the
last value of a field, the last tag of a union, the bits of a region with all writes to
members laid over it in order, and whether some operation is under an optional struct. -/
structure Scans (l : Layout) (log : PendingLog) (ops : List PendingOp) : Prop where
  holds : log.ops.toList = ops
  value : ∀ field row, log.latestValue? field row =
    (ops.filterMap (·.valueAt? ⟨field, row⟩)).getLast?
  tag : ∀ union row, log.tag? union row = (ops.filterMap (·.tagAt? l ⟨union, row⟩)).getLast?
  region : ∀ union row region, log.overlayUnion union row region =
    (ops.filterMap (·.bitsAt? l ⟨union, row⟩)).foldl Contents.overlayBits region
  present : ∀ opt row, log.isPresent opt row = ops.any (·.marks l ⟨opt, row⟩)

namespace Scans

theorem empty : PendingLog.empty.Scans l [] where
  holds := rfl
  value _ _ := by simp [PendingLog.empty, latestValue?]
  tag _ _ := by simp [PendingLog.empty, tag?]
  region _ _ _ := by simp [PendingLog.empty, overlayUnion]
  present _ _ := by simp [PendingLog.empty, isPresent]

/-- A write of a field is seen by the indexes as by a scan. -/
theorem stageWrite (scans : log.Scans l ops) (bounded : log.Bounded) {field : FieldId}
    {f : FieldLayout} (found : l.field? field = some f) (bits : UInt64) (value : Value) :
    (log.stageWrite field row f.width bits value (f.tag.map fun tag => (f.owner, tag))
      (l.chainOf f.owner)).Scans l (ops ++ [.write field row f.width bits value]) where
  holds := by simp [scans.holds]
  value id r := by
    rw [latestValue?_stageWrite bounded, scans.value, List.filterMap_append]
    by_cases same : id = field ∧ r = row
    · obtain ⟨rfl, rfl⟩ := same
      simp [PendingOp.valueAt?]
    · simp [PendingOp.valueAt?, same]
  tag u r := by
    rw [tag?_stageWrite, scans.tag, List.filterMap_append]
    cases isMember : f.tag with
    | none => simp [PendingOp.tagAt?, found, isMember]
    | some tag =>
      by_cases same : u = f.owner ∧ r = row
      · obtain ⟨rfl, rfl⟩ := same
        simp [PendingOp.tagAt?, found, isMember]
      · simp [PendingOp.tagAt?, found, same]
  region u r region := by
    rw [overlayUnion_stageWrite bounded, scans.region, List.filterMap_append, List.foldl_append]
    cases isMember : f.tag with
    | none => simp [PendingOp.bitsAt?, found, isMember]
    | some tag =>
      by_cases same : u = f.owner ∧ r = row
      · obtain ⟨rfl, rfl⟩ := same
        simp [PendingOp.bitsAt?, found, isMember, Contents.overlayBits]
      · simp [PendingOp.bitsAt?, found, same]
  present o r := by
    rw [isPresent_stageWrite, scans.present, List.any_append, List.any_cons, List.any_nil,
      Bool.or_false, PendingOp.marks_of_target? (by rw [PendingOp.target?, found]; rfl)]
    rfl

/-- So is the selection of a member. -/
theorem stageSelect (scans : log.Scans l ops) (bounded : log.Bounded) (union : StructId)
    (tag : Nat) :
    (log.stageSelect union row tag (l.chainOf union)).Scans l
      (ops ++ [.select union row tag]) where
  holds := by simp [scans.holds]
  value id r := by
    rw [latestValue?_stageSelect bounded, scans.value, List.filterMap_append]
    simp [PendingOp.valueAt?]
  tag u r := by
    rw [tag?_stageSelect, scans.tag, List.filterMap_append]
    by_cases same : u = union ∧ r = row
    · obtain ⟨rfl, rfl⟩ := same
      simp [PendingOp.tagAt?]
    · simp [PendingOp.tagAt?, same]
  region u r region := by
    rw [overlayUnion_stageSelect bounded, scans.region, List.filterMap_append]
    simp [PendingOp.bitsAt?]
  present o r := by
    rw [isPresent_stageSelect, scans.present, List.any_append, List.any_cons, List.any_nil,
      Bool.or_false, PendingOp.marks_of_target? rfl]
    rfl

end Scans

theorem Bounded.call (bounded : log.Bounded) (call : LogCall) : (log.call l call).Bounded := by
  cases call with
  | write field row bits value =>
    rw [PendingLog.call]
    cases l.field? field with
    | none => exact bounded
    | some f => exact bounded.stageWrite
  | select union row tag => exact bounded.stageSelect
  | take => exact bounded_empty

theorem Scans.call (scans : log.Scans l ops) (bounded : log.Bounded) (call : LogCall) :
    (log.call l call).Scans l (call.after l ops) := by
  cases call with
  | write field row bits value =>
    simp only [PendingLog.call, LogCall.after, LogCall.op?]
    cases found : l.field? field with
    | none => simpa using scans
    | some f => exact scans.stageWrite bounded found bits value
  | select union row tag => exact scans.stageSelect bounded union tag
  | take => exact .empty

theorem run_concat (calls : List LogCall) (call : LogCall) :
    run l (calls ++ [call]) = (run l calls).call l call := by
  rw [run, List.foldl_append]
  rfl

theorem bounded_run (calls : List LogCall) : (run l calls).Bounded := by
  induction calls using List.reverseRecOn with
  | nil => exact bounded_empty
  | append_singleton calls call ih =>
    rw [run_concat]
    exact ih.call call

/-- After any calls, the log is what a scan of it says. -/
theorem scans_run (l : Layout) (calls : List LogCall) :
    (run l calls).Scans l (LogCall.staged l calls) := by
  induction calls using List.reverseRecOn with
  | nil => exact .empty
  | append_singleton calls call ih =>
    rw [run_concat, LogCall.staged, List.foldl_append]
    exact ih.call (bounded_run calls) call

end PendingLog

namespace Table

variable {t t' : Table}

/-- The log was driven by calls for the layout. -/
def Driven (t : Table) : Prop := ∃ calls, t.pending = .run t.layout calls

theorem driven_of_empty (empty : t.pending = .empty) : t.Driven := ⟨[], empty⟩

theorem Driven.call (driven : t.Driven) (call : LogCall) (layout : t'.layout = t.layout)
    (called : t'.pending = t.pending.call t.layout call) : t'.Driven := by
  obtain ⟨calls, same⟩ := driven
  refine ⟨calls ++ [call], ?_⟩
  rw [called, layout, PendingLog.run_concat, same]

theorem Driven.same (driven : t.Driven) (layout : t'.layout = t.layout)
    (pending : t'.pending = t.pending) : t'.Driven := by
  obtain ⟨calls, same⟩ := driven
  refine ⟨calls, ?_⟩
  rw [pending, layout, same]

theorem Driven.sameDuties (driven : t.Driven) (same : SameDuties t t') : t'.Driven := by
  rw [SameDuties] at same
  refine driven.same ?_ ?_ <;> rw [same]

theorem Driven.listen (driven : t.Driven) (same : ∃ listeners, t' = { t with listeners }) :
    t'.Driven := by
  obtain ⟨listeners, rfl⟩ := same
  exact driven

theorem Driven.stageSelect (driven : t.Driven) (union : StructId) (row : UInt64) (tag : Nat) :
    (t.stageSelect union row tag).Driven :=
  driven.call (.select union row tag) rfl rfl

theorem Driven.write (driven : t.Driven) (laid : t.layout.LaidOut) {handle : FieldHandle}
    {value : Value} (ok : t.write handle value = .ok t') : t'.Driven := by
  obtain ⟨row, f, bits, -, fieldOk, -, rfl⟩ := write_eq_ok.mp ok
  obtain ⟨-, found⟩ := fieldOf_eq_ok.mp fieldOk
  have id : f.id = handle.id := laid.numbered.fields handle.id f found
  rw [← id] at found
  refine driven.call (.write f.id row bits value) rfl ?_
  simp only [PendingLog.call, found]
  rfl

theorem Driven.rollback (driven : t.Driven) : t.rollback.Driven := by
  unfold Table.rollback
  split
  · exact driven
  · exact driven_of_empty rfl

end Table

namespace Storage

open Table

variable {s : Storage}

theorem driven_alters {after : Storage} (all : s.Throughout Driven) (alters : Alters s after) :
    after.Throughout Driven :=
  .of_parts (all.here.sameDuties alters.table) fun entry member =>
    all.lists entry (alters.lists entry member)

theorem driven_reset (all : s.Throughout Driven) (length : UInt64) :
    (s.reset length).2.Throughout Driven := by
  unfold Storage.reset
  dsimp only
  split
  · exact all.withTable (all.here.sameDuties rfl)
  · exact .intro (driven_of_empty rfl) (by simp)

theorem driven_allocate {l : Layout} {length : UInt64} {growable : Bool} {list : Storage}
    (ok : allocate l length growable = .ok list) : list.Throughout Driven := by
  obtain ⟨t, tableOk, rfl⟩ := table_allocate ok
  obtain ⟨rfl, -⟩ := allocate_eq_ok tableOk
  exact .intro (driven_of_empty rfl) (by simp)

theorem driven_createOrClearList (all : s.Throughout Driven) (handle : StructHandle)
    (length : UInt64) : (s.createOrClearList handle length).2.Throughout Driven := by
  unfold Storage.createOrClearList
  split
  · exact all
  · next cell element _ =>
    split
    · next list found => exact all.setList cell (driven_reset (all.lookup found) length)
    · split
      · exact all
      · next list ok => exact all.setList cell (driven_allocate ok)

/-- A call on a storage drives the logs in it by calls, if at all. -/
theorem driven_perform (laid : s.Throughout fun t => t.layout.LaidOut) (all : s.Throughout Driven)
    (call : Call) : (s.perform call).2.Throughout Driven := by
  induction call generalizing s with
  | select row => exact all.onTable fun _ ok => all.here.sameDuties (sameDuties_select ok)
  | write field value => exact all.onTable fun _ ok => all.here.write laid.here ok
  | selectMember member =>
    refine all.onTable fun t ok => ?_
    obtain ⟨row, f, tag, -, -, -, rfl⟩ := selectMember_eq_ok.mp ok
    exact (all.here.stageSelect f.owner row tag).same rfl rfl
  | clear =>
    refine all.onTable fun t ok => ?_
    obtain ⟨row, union, -, -, rfl⟩ := clear_eq_ok.mp ok
    exact all.here.stageSelect union row 0
  | clearUnion union =>
    refine all.onTable fun t ok => ?_
    obtain ⟨row, struct, -, -, -, rfl⟩ := clearUnion_eq_ok.mp ok
    exact all.here.stageSelect struct.id row 0
  | commit =>
    refine all.onTable fun t ok => ?_
    obtain ⟨result, ok⟩ := map_snd_eq_ok ok
    cases commits_of_ok ok with
    | idle => exact all.here
    | applied =>
      refine driven_of_empty ?_
      rw [Valid.sameApart_applyPending s.table]
  | rollback => exact all.withTable all.here.rollback
  | listen path label => exact all.onTable fun _ ok => all.here.listen (listen_eq_ok ok)
  | listenField field label => exact all.onTable fun _ ok => all.here.listen (listenField_eq_ok ok)
  | listenStruct struct label =>
    exact all.onTable fun _ ok => all.here.listen (listenStruct_eq_ok ok)
  | unlisten id => exact all.withTable (all.here.listen ⟨_, rfl⟩)
  | resize length => exact driven_alters all (alters_resize s length)
  | push => exact driven_alters all (alters_push s)
  | reset length => exact driven_reset all length
  | createOrClearList struct length => exact driven_createOrClearList all struct length
  | inList struct call ih =>
    unfold Storage.perform
    split
    · exact all
    · next cell list found =>
      have found := list_eq_ok found
      exact all.setList _ (ih (laid.lookup found) (all.lookup found))

theorem driven_restore {l : Layout} {after : Storage} (all : s.Throughout Driven)
    (ok : s.snapshot.restore l = .ok after) : after.Throughout Driven := by
  induction all generalizing l after with
  | intro _ _ ih =>
    obtain ⟨buffers, inner, -, -, -, -, listsOk, rfl⟩ := Snapshot.restore_eq_ok.mp ok
    refine .intro (driven_of_empty rfl) ?_
    exact Snapshot.restoreLists_throughout (L := fun _ => True) (fun _ _ _ => trivial)
      (fun entry member l list _ => ih entry member) trivial listsOk

/-- All logs in a storage are driven by calls. -/
theorem ObtainableOver.driven (obtained : s.ObtainableOver LaidOut) : s.Throughout Driven := by
  induction obtained with
  | create _ ok =>
    obtain ⟨rows, -, ok⟩ := create_eq_ok.mp ok
    exact driven_allocate ok
  | call call before ih => exact driven_perform (before.layouts closed_laidOut) ih call
  | list _ found ih => exact ih.lookup found
  | restore _ _ ok ih => exact driven_restore ih ok
  | replace _ _ _ ih other => exact ih.setList _ other

end Storage

/-- The indexes of a log that is driven by calls answer for every key what a scan of its
operations gives, and those of an empty log once it is taken. The logs of storages, those
of their lists included, are driven by such calls. -/
theorem PendingLog.scans_of_calls (l : Layout) :
    (∀ calls, (run l calls).Scans l (LogCall.staged l calls)) ∧
    (∀ calls later, run l (calls ++ .take :: later) = run l later ∧
      LogCall.staged l (calls ++ .take :: later) = LogCall.staged l later) ∧
    (run l [] = .empty ∧ LogCall.staged l [] = []) ∧
    ∀ s : Storage, s.ObtainableOver LaidOut →
      s.Throughout fun t => ∃ calls, t.pending = .run t.layout calls := by
  refine ⟨scans_run l, fun calls later => ?_, ⟨rfl, rfl⟩, fun s obtained => obtained.driven⟩
  simp [run, LogCall.staged, List.foldl_append, PendingLog.call, LogCall.after]

/-- A price in cents for the first order, which is committed, and for the second one, where
no price is then selected before it is given as a rate. -/
def haggling : List LogCall :=
  [.write 3 0 250 (.int 250), .take, .write 3 1 250 (.int 250), .select 2 1 0,
    .write 4 1 7 (.float 7)]

theorem PendingLog.scans_of_calls_haggling : Storage.priced.ObtainableOver LaidOut ∧
    Storage.priced.Throughout Table.Driven ∧
    (run LayoutRules.orderLayout haggling).latestValue? 3 0 = none ∧
    (run LayoutRules.orderLayout haggling).latestValue? 3 1 = some (.int 250) ∧
    (run LayoutRules.orderLayout haggling).tag? 2 1 = some 2 ∧
    (run LayoutRules.orderLayout haggling).overlayUnion 2 1 0 = 7 ∧
    (run LayoutRules.orderLayout haggling).isPresent 2 0 = false ∧
    (run LayoutRules.orderLayout haggling).isPresent 2 1 = true := by
  have obtained : Storage.priced.ObtainableOver LaidOut :=
    Storage.priced_reachable.obtainable.mono fun _ => Compiled.laidOut
  obtain ⟨scans, -, -, driven⟩ := scans_of_calls LayoutRules.orderLayout
  have log := scans haggling
  exact ⟨obtained, driven Storage.priced obtained, (log.value 3 0).trans (by decide),
    (log.value 3 1).trans (by decide), (log.tag 2 1).trans (by decide),
    (log.region 2 1 0).trans (by decide), (log.present 2 0).trans (by decide),
    (log.present 2 1).trans (by decide)⟩

end BitRecords
