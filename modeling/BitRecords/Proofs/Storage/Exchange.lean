import BitRecords.Proofs.Storage.Pairs
import BitRecords.Proofs.Storage.Obtainable
import BitRecords.Proofs.Table.Exchange
import BitRecords.Storage.Session

/-!
# Storages over interchangeable layouts

Two storages are exchanged when their tables are the same but for their layouts, which are
interchangeable, and when their lists are exchanged too. They give the same answers to all
questions and calls and stay exchanged: both change the same bits. They also fail together,
but where an error names the root of the layout, each names its own.
-/

namespace BitRecords

open Layout

/-- The tables have the same rows, log and listeners over interchangeable layouts. -/
structure Table.Exchanged (t t' : Table) : Prop where
  layout : t.layout.Interchangeable t'.layout
  same : t' = t.relaid t'.layout

namespace Table

variable {t t' : Table}

theorem exchanged_relaid {l : Layout} (same : t.layout.Interchangeable l) :
    t.Exchanged (t.relaid l) := ⟨same, rfl⟩

/-- What a call leaves is exchanged as before when it keeps the layout. -/
theorem Exchanged.outcome {l : Layout} (same : t.layout.Interchangeable l)
    {x y : Except Error Table} (kept : ∀ a, x = .ok a → a.layout = t.layout)
    (relaid : SameOutcome (fun a b => b = a.relaid l) x y) : SameOutcome Exchanged x y := by
  cases relaid with
  | error => exact .error
  | @ok a b related =>
    obtain rfl := related
    exact .ok (exchanged_relaid (kept a rfl ▸ same))

end Table

/-- Storages that are exchanged all the way down. -/
def Storage.Exchanged : Storage → Storage → Prop := Storage.Throughout₂ Table.Exchanged

namespace Storage

open Table

variable {s s' : Storage}

namespace Exchanged

variable (all : s.Exchanged s')
include all

/-- A handle names the same list in both storages. -/
theorem listCell (handle : StructHandle) :
    SameOutcome (fun a b => b.1 = a.1 ∧ a.2.Interchangeable b.2) (s.listCell handle)
      (s'.listCell handle) := by
  have layouts := all.table.layout
  have selected : s'.table.selected = s.table.selected := by
    rw [all.table.same]
    rfl
  unfold Storage.listCell
  rw [selected, layouts.structOf]
  cases s.table.selected with
  | error e => exact .error
  | ok row =>
    cases found : s.table.layout.structOf handle with
    | error e => exact .error
    | ok struct =>
      obtain ⟨-, found⟩ := structOf_eq_ok.mp found
      have elements := (layouts.stands_standIn found).element
      have id : (s'.table.layout.standIn handle.id struct).id = struct.id := rfl
      dsimp only [Except.map, bind, Except.bind]
      rw [id]
      generalize struct.element = x at elements
      generalize (s'.table.layout.standIn handle.id struct).element = y at elements
      cases elements with
      | none => exact .error
      | some element => exact .ok ⟨rfl, element⟩

theorem list (handle : StructHandle) :
    SameOutcome (fun a b => b.1 = a.1 ∧ a.2.Exchanged b.2) (s.list handle) (s'.list handle) := by
  refine (all.listCell handle).bind fun a b both => ?_
  obtain ⟨cell, element⟩ := a
  obtain ⟨cell', element'⟩ := b
  obtain ⟨rfl, -⟩ := both
  have lists := all.list? cell'
  dsimp only
  generalize s.list? cell' = x at lists
  generalize s'.list? cell' = y at lists
  cases lists with
  | none => exact .error
  | some inner => exact .ok ⟨rfl, inner⟩

omit all in
theorem snapshotLists {lists lists' : List (Cell × Storage)}
    (cells : lists.map (·.1) = lists'.map (·.1))
    (each : ∀ a b, (a, b) ∈ lists.zip lists' → b.2.snapshot = a.2.snapshot) :
    snapshotLists lists' = snapshotLists lists := by
  induction lists generalizing lists' with
  | nil => rw [List.map_eq_nil_iff.mp cells.symm]
  | cons entry rest ih =>
    obtain ⟨other, rest', rfl, same, others⟩ := List.map_eq_cons_iff.mp cells.symm
    obtain ⟨cell, list⟩ := entry
    obtain ⟨cell', list'⟩ := other
    cases same
    rw [Storage.snapshotLists, Storage.snapshotLists,
      each (cell, list) (cell, list') List.mem_cons_self,
      ih others.symm fun a b member => each a b (List.mem_cons_of_mem _ member)]

/-- A snapshot has nothing in it that interchangeable layouts tell apart. -/
theorem snapshot : s'.snapshot = s.snapshot := by
  induction all with
  | @intro s s' tables cells _ ih =>
    obtain ⟨t, lists⟩ := s
    obtain ⟨t', lists'⟩ := s'
    dsimp only at tables
    have rowStride : t'.layout.rowStride = t.layout.rowStride := tables.layout.stride 0
    rw [Storage.snapshot, Storage.snapshot, snapshotLists cells ih, tables.layout.fingerprint,
      rowStride, tables.same]
    rfl

theorem status : s'.status = s.status := by
  have cells : s'.lists.map (·.1) = s.lists.map (·.1) := by
    obtain ⟨-, cells, -⟩ := all
    exact cells.symm
  rw [Storage.status, Storage.status, cells, all.snapshot, all.table.layout.fingerprint,
    all.table.same]
  rfl

/-- Exchanged storages answer questions alike. -/
theorem query (query : Query) :
    SameOutcome (fun a b => b = a) (s.query query) (s'.query query) := by
  obtain ⟨same, relaid⟩ := all.table
  induction query generalizing s s' with
  | status => exact .of_eq (congrArg (Except.ok ∘ Reply.status) all.status)
  | read view field =>
    refine .of_eq (congrArg (Except.map Reply.value) ?_)
    rw [relaid]
    exact read_relaid same view field
  | isPresent struct =>
    refine .of_eq (congrArg (Except.map Reply.truth) ?_)
    rw [relaid]
    exact isPresent_relaid same struct
  | activeMember union =>
    refine .of_eq (congrArg (Except.map Reply.member) ?_)
    rw [relaid]
    exact activeMember_relaid same union
  | listLength struct =>
    refine ((all.list struct).bind fun a b both => ?_).map fun a b => congrArg Reply.length
    rw [both.2.table.same]
    exact .ok rfl
  | field path => exact .of_eq (congrArg (Except.map Reply.field) (same.fieldHandle path))
  | fieldOfType path type =>
    exact .of_eq (congrArg (Except.map Reply.field) (same.fieldHandleOfType path type))
  | struct path => exact .of_eq (congrArg (Except.map Reply.struct) (same.structHandle path))
  | inList struct query ih =>
    exact (all.list struct).bind fun a b both => ih both.2 both.2.table.layout both.2.table.same

end Exchanged

section Lengths

variable {t : Table} {l : Layout} (same : t.layout.Interchangeable l)
include same

theorem releaseField_relaid {f f' : FieldLayout} (stands : f.Stands f') (count : Nat)
    (row : UInt64) :
    releaseField (t.relaid l) f' count row = (releaseField t f count row).relaid l := by
  have place : f'.place = f.place := by
    rw [stands.same]
    rfl
  have width : f'.width = f.width := by
    rw [stands.same]
    rfl
  induction count generalizing t row with
  | zero => rfl
  | succ count ih =>
    rw [releaseField, releaseField, place, width, getBits_relaid same]
    exact ih (t := { t with objects := t.objects.release (t.getBits f.place row f.width).toNat })
      same (row + 1)

theorem releaseFields_relaid {fields fields' : List FieldLayout}
    (each : List.Forall₂ FieldLayout.Stands fields fields') (count : Nat) (row : UInt64) :
    fields'.foldl (fun t f => releaseField t f count row) (t.relaid l) =
      (fields.foldl (fun t f => releaseField t f count row) t).relaid l := by
  induction each generalizing t with
  | nil => rfl
  | @cons f f' _ _ stands _ ih =>
    have kept : (releaseField t f count row).layout.Interchangeable l := by
      rw [sameDuties_releaseField t f count row]
      exact same
    rw [List.foldl_cons, List.foldl_cons, releaseField_relaid same stands, ih kept]

end Lengths

/-- A layout is asked for the name of its root only when a size overflows. -/
theorem size_other (l l' : Layout) (length stride : UInt64) :
    SameOutcome (fun a b => b = a)
      (do return BitBuffer.zeroed (← l.segmentBits length stride) : Except Error BitBuffer)
      (do return BitBuffer.zeroed (← l'.segmentBits length stride)) := by
  rw [segmentBits, segmentBits]
  by_cases fits : length.toNat * stride.toNat < UInt64.size
  · rw [if_pos fits, if_pos fits]
    exact .ok rfl
  · rw [if_neg fits, if_neg fits]
    exact .error

theorem sizeSegments_other (l l' : Layout) (length : UInt64)
    (change : BitBuffer → UInt64 → BitBuffer) (segments : List Segment) (buffers : List BitBuffer) :
    SameOutcome (fun _ _ => True) (sizeSegments l length change segments buffers).1
        (sizeSegments l' length change segments buffers).1 ∧
      (sizeSegments l' length change segments buffers).2 =
        (sizeSegments l length change segments buffers).2 := by
  induction segments generalizing buffers with
  | nil => exact ⟨.ok trivial, rfl⟩
  | cons g rest ih =>
    cases buffers with
    | nil => exact ⟨.ok trivial, rfl⟩
    | cons b others =>
      rw [sizeSegments, sizeSegments, segmentBits, segmentBits]
      by_cases fits : length.toNat * g.stride.toNat < UInt64.size
      · rw [if_pos fits, if_pos fits]
        exact ⟨(ih others).1, congrArg (List.cons _) (ih others).2⟩
      · rw [if_neg fits, if_neg fits]
        exact ⟨.error, rfl⟩

theorem allocate_other {l l' : Layout} (same : l.Interchangeable l') (length : UInt64)
    (growable : Bool) :
    SameOutcome Exchanged (allocate l length growable) (allocate l' length growable) := by
  have buffers := SameOutcome.mapM (fun g : Segment => size_other l l' length g.stride) l.segments
  unfold allocate Table.allocate
  rw [same.segments]
  refine (buffers.bind (Q := Table.Exchanged) fun a b related => ?_).bind fun t t' tables =>
    .ok (throughout₂_iff.mpr ⟨tables, .nil⟩)
  obtain rfl := related
  exact .ok ⟨same, rfl⟩

namespace Exchanged

variable (all : s.Exchanged s')
include all

theorem releaseRows (first : UInt64) : (s.releaseRows first).Exchanged (s'.releaseRows first) := by
  obtain ⟨same, relaid⟩ := all.table
  have fields : List.Forall₂ FieldLayout.Stands s.table.layout.fields s'.table.layout.fields := by
    have each : List.Forall₂ (· = ·) (s.table.layout.fields.map (·.unslotted))
        (s'.table.layout.fields.map (·.unslotted)) := by
      rw [same.fields]
      exact List.forall₂_same.mpr fun _ _ => rfl
    rw [List.forall₂_map_left_iff, List.forall₂_map_right_iff] at each
    exact each.imp fun _ _ unslotted => Interchangeable.stands_field unslotted.symm
  have object (f f' : FieldLayout) (stands : f.Stands f') :
      f.type.isObject = true ↔ f'.type.isObject = true := by
    rw [stands.same]
  have kept (a b : Cell × Storage) (entries : Entries Table.Exchanged a b) :
      decide (a.1.row < first) = true ↔ decide (b.1.row < first) = true := by
    rw [entries.1]
  have capacity : s'.table.capacity = s.table.capacity := by
    rw [relaid]
    rfl
  refine throughout₂_iff.mpr ⟨?_, List.rel_filter kept all.lists⟩
  have tables := releaseFields_relaid same (List.rel_filter object fields)
    (s.table.capacity.toNat - first.toNat) first
  rw [← relaid] at tables
  have released : (s'.releaseRows first).table =
      (s.releaseRows first).table.relaid s'.table.layout := by
    unfold Storage.releaseRows
    rw [capacity]
    exact tables
  rw [released]
  refine exchanged_relaid ?_
  rw [(alters_releaseRows s first).table]
  exact same

theorem trim (length : UInt64) : (s.trim length).Exchanged (s'.trim length) := by
  have capacity : s'.table.capacity = s.table.capacity := by
    rw [all.table.same]
    rfl
  unfold Storage.trim
  rw [capacity]
  split
  · exact all.releaseRows length
  · exact all

/-- The same buffers are sized, and they come to the same. -/
theorem sizes (length : UInt64) (change : BitBuffer → UInt64 → BitBuffer) :
    SameOutcome (fun _ _ => True)
        (sizeSegments s.table.layout length change s.table.layout.segments
          s.table.segments.toList).1
        (sizeSegments s'.table.layout length change s'.table.layout.segments
          s'.table.segments.toList).1 ∧
      (sizeSegments s'.table.layout length change s'.table.layout.segments
          s'.table.segments.toList).2 =
        (sizeSegments s.table.layout length change s.table.layout.segments
          s.table.segments.toList).2 := by
  obtain ⟨layout, same⟩ := all.table
  have segments : s'.table.segments = s.table.segments := by
    rw [same]
    rfl
  rw [layout.segments, segments]
  exact sizeSegments_other ..

theorem resize (length : UInt64) :
    SameOutcome (fun _ _ => True) (s.resize length).1 (s'.resize length).1 ∧
      (s.resize length).2.Exchanged (s'.resize length).2 := by
  have growable : s'.table.growable = s.table.growable := by
    rw [all.table.same]
    rfl
  unfold Storage.resize
  rw [growable]
  cases s.table.growable with
  | false => exact ⟨.error, all⟩
  | true =>
    have trimmed := all.trim length
    simp only [Bool.not_true, Bool.false_eq_true, if_false]
    rw [← Storage.trim, ← Storage.trim]
    generalize s.trim length = u at trimmed
    generalize s'.trim length = u' at trimmed
    have sizes := trimmed.sizes length BitBuffer.resize
    generalize sizeSegments u.table.layout length BitBuffer.resize u.table.layout.segments
      u.table.segments.toList = x at sizes
    generalize sizeSegments u'.table.layout length BitBuffer.resize u'.table.layout.segments
      u'.table.segments.toList = y at sizes
    obtain ⟨result, buffers⟩ := x
    obtain ⟨result', buffers'⟩ := y
    obtain ⟨results, rfl⟩ := sizes
    obtain ⟨layout, same⟩ := trimmed.table
    dsimp only at results ⊢
    cases results with
    | error => exact ⟨.error, trimmed.withTable ⟨layout, by rw [same]; rfl⟩⟩
    | ok => exact ⟨.ok trivial, trimmed.withTable ⟨layout, by rw [same]; rfl⟩⟩

theorem push :
    SameOutcome (fun a b => b = a) s.push.1 s'.push.1 ∧ s.push.2.Exchanged s'.push.2 := by
  have growable : s'.table.growable = s.table.growable := by
    rw [all.table.same]
    rfl
  have capacity : s'.table.capacity = s.table.capacity := by
    rw [all.table.same]
    rfl
  have resized := all.resize (s.table.capacity + 1)
  unfold Storage.push
  rw [growable, capacity]
  dsimp only
  generalize s.resize (s.table.capacity + 1) = x at resized
  generalize s'.resize (s.table.capacity + 1) = y at resized
  obtain ⟨result, after⟩ := x
  obtain ⟨result', after'⟩ := y
  obtain ⟨results, afters⟩ := resized
  dsimp only at results afters
  split
  · exact ⟨.error, all⟩
  split
  · exact ⟨.error, all⟩
  · cases results with
    | error => exact ⟨.error, afters⟩
    | ok =>
      obtain ⟨layout, same⟩ := afters.table
      exact ⟨.ok rfl, afters.withTable ⟨layout, by rw [same]; rfl⟩⟩

theorem reset (length : UInt64) :
    SameOutcome (fun _ _ => True) (s.reset length).1 (s'.reset length).1 ∧
      (s.reset length).2.Exchanged (s'.reset length).2 := by
  have sizes := all.sizes length fun _ => .zeroed
  unfold Storage.reset
  dsimp only
  generalize sizeSegments s.table.layout length (fun _ => .zeroed) s.table.layout.segments
    s.table.segments.toList = x at sizes
  generalize sizeSegments s'.table.layout length (fun _ => .zeroed) s'.table.layout.segments
    s'.table.segments.toList = y at sizes
  obtain ⟨result, buffers⟩ := x
  obtain ⟨result', buffers'⟩ := y
  obtain ⟨results, rfl⟩ := sizes
  obtain ⟨layout, same⟩ := all.table
  dsimp only at results ⊢
  cases results with
  | error => exact ⟨.error, all.withTable ⟨layout, by rw [same]; rfl⟩⟩
  | ok => exact ⟨.ok trivial, throughout₂_iff.mpr ⟨⟨layout, by rw [same]; rfl⟩, .nil⟩⟩

theorem createOrClearList (handle : StructHandle) (length : UInt64) :
    SameOutcome (fun _ _ => True) (s.createOrClearList handle length).1
        (s'.createOrClearList handle length).1 ∧
      (s.createOrClearList handle length).2.Exchanged (s'.createOrClearList handle length).2 := by
  have cells := all.listCell handle
  unfold Storage.createOrClearList
  generalize s.listCell handle = x at cells
  generalize s'.listCell handle = y at cells
  cases cells with
  | error => exact ⟨.error, all⟩
  | @ok a b both =>
    obtain ⟨cell, element⟩ := a
    obtain ⟨cell', element'⟩ := b
    obtain ⟨rfl, elements⟩ := both
    have lists : Option.Rel Exchanged (s.list? cell') (s'.list? cell') := all.list? cell'
    dsimp only at lists ⊢
    generalize s.list? cell' = x at lists
    generalize s'.list? cell' = y at lists
    cases lists with
    | some inner =>
      obtain ⟨results, afters⟩ := inner.reset length
      exact ⟨results.map fun _ _ _ => trivial, all.setList _ afters⟩
    | none =>
      have news := allocate_other elements length true
      dsimp only
      generalize allocate element length true = x at news
      generalize allocate element' length true = y at news
      cases news with
      | error => exact ⟨.error, all⟩
      | ok inner => exact ⟨.ok trivial, all.setList _ inner⟩

theorem onTable {outcome outcome' : Except Error Table}
    (tables : SameOutcome Table.Exchanged outcome outcome') :
    SameOutcome (fun _ _ => True) (s.onTable outcome).1 (s'.onTable outcome').1 ∧
      (s.onTable outcome).2.Exchanged (s'.onTable outcome').2 := by
  cases tables with
  | ok after => exact ⟨.ok trivial, all.withTable after⟩
  | error => exact ⟨.error, all⟩

omit all in
/-- The answer to a call that only succeeds or fails. -/
theorem done {outcome outcome' : Except Error Unit × Storage}
    (both : SameOutcome (fun _ _ => True) outcome.1 outcome'.1 ∧ outcome.2.Exchanged outcome'.2) :
    SameOutcome (fun a b => b = a) (outcome.1.map fun _ => Reply.done)
        (outcome'.1.map fun _ => .done) ∧
      outcome.2.Exchanged outcome'.2 :=
  ⟨both.1.map fun _ _ _ => rfl, both.2⟩

/-- The answer to a call on the table that tells something. -/
theorem told {α : Type} {outcome outcome' : Except Error (α × Table)} (reply : α → Reply)
    (kept : ∀ t, outcome.map (·.2) = .ok t → t.layout = s.table.layout)
    (relaid : outcome' = outcome.map fun a => (a.1, a.2.relaid s'.table.layout)) :
    SameOutcome (fun a b => b = a) (outcome.map (reply ·.1)) (outcome'.map (reply ·.1)) ∧
      (s.onTable (outcome.map (·.2))).2.Exchanged (s'.onTable (outcome'.map (·.2))).2 := by
  obtain rfl := relaid
  cases outcome with
  | error e => exact ⟨.error, all⟩
  | ok a => exact ⟨.ok rfl, all.withTable (exchanged_relaid (kept a.2 rfl ▸ all.table.layout))⟩

/-- Exchanged storages answer a call alike and stay exchanged. -/
theorem call (call : Call) :
    SameOutcome (fun a b => b = a) (s.answer call) (s'.answer call) ∧
      (s.perform call).2.Exchanged (s'.perform call).2 := by
  obtain ⟨same, relaid⟩ := all.table
  induction call generalizing s s' with
  | select row =>
    refine done (all.onTable ?_)
    rw [relaid]
    exact Table.Exchanged.outcome same (fun a ok => by rw [sameDuties_select ok])
      (select_relaid s.table s'.table.layout row)
  | write field value =>
    refine done (all.onTable ?_)
    rw [relaid]
    exact Table.Exchanged.outcome same (fun a ok => by rw [(stages_write ok).same])
      (write_relaid same field value)
  | selectMember member =>
    refine done (all.onTable ?_)
    rw [relaid]
    exact Table.Exchanged.outcome same (fun a ok => by rw [(stages_selectMember ok).same])
      (selectMember_relaid same member)
  | clear =>
    refine done (all.onTable ?_)
    rw [relaid]
    exact Table.Exchanged.outcome same (fun a ok => by rw [(stages_clear ok).same])
      (clear_relaid same)
  | clearUnion union =>
    refine done (all.onTable ?_)
    rw [relaid]
    exact Table.Exchanged.outcome same (fun a ok => by rw [(stages_clearUnion ok).same])
      (clearUnion_relaid same union)
  | commit =>
    refine all.told Reply.committed (fun t ok => ?_) ?_
    · obtain ⟨result, ok⟩ := map_snd_eq_ok ok
      cases commits_of_ok ok with
      | idle => rfl
      | applied => exact layout_applyPending s.table
    · rw [relaid]
      exact commit_relaid same
  | rollback =>
    refine done (all.onTable (.ok ?_))
    rw [relaid, rollback_relaid]
    exact exchanged_relaid (layout_rollback s.table ▸ same)
  | listen path label =>
    refine all.told Reply.listener (fun t ok => ?_) ?_
    · obtain ⟨listeners, rfl⟩ := listen_eq_ok ok
      rfl
    · rw [relaid]
      exact listen_relaid same path label
  | listenField field label =>
    refine all.told Reply.listener (fun t ok => ?_) ?_
    · obtain ⟨listeners, rfl⟩ := listenField_eq_ok ok
      rfl
    · rw [relaid]
      exact listenField_relaid same field label
  | listenStruct struct label =>
    refine all.told Reply.listener (fun t ok => ?_) ?_
    · obtain ⟨listeners, rfl⟩ := listenStruct_eq_ok ok
      rfl
    · rw [relaid]
      exact listenStruct_relaid same struct label
  | unlisten id =>
    have removed : (.ok (s'.table.unlisten id) : Except Error (Bool × Table)) =
        (Except.ok (s.table.unlisten id)).map fun a => (a.1, a.2.relaid s'.table.layout) := by
      rw [relaid]
      rfl
    refine all.told Reply.truth (fun a ok => ?_) removed
    cases ok
    rfl
  | resize length => exact done (all.resize length)
  | push =>
    obtain ⟨rows, afters⟩ := all.push
    exact ⟨rows.map fun _ _ => congrArg Reply.row, afters⟩
  | reset length => exact done (all.reset length)
  | createOrClearList struct length =>
    obtain ⟨results, afters⟩ := all.createOrClearList struct length
    exact done ⟨results.map fun _ _ _ => trivial, afters⟩
  | inList struct call ih =>
    have lists := all.list struct
    unfold perform answer
    generalize s.list struct = x at lists
    generalize s'.list struct = y at lists
    cases lists with
    | error => exact ⟨.error, all⟩
    | @ok a b both =>
      obtain ⟨cell, list⟩ := a
      obtain ⟨cell', list'⟩ := b
      obtain ⟨rfl, inner⟩ := both
      obtain ⟨answers, afters⟩ := ih inner inner.table.layout inner.table.same
      exact ⟨answers, all.setList _ afters⟩

/-- Exchanged storages answer alike in a session and stay exchanged. -/
theorem session (requests : List Request) :
    List.Forall₂ (SameOutcome fun a b => b = a) (s.answers requests) (s'.answers requests) ∧
      (s.afterwards requests).Exchanged (s'.afterwards requests) := by
  induction requests generalizing s s' with
  | nil => exact ⟨.nil, all⟩
  | cons request rest ih =>
    cases request with
    | ask query =>
      obtain ⟨answers, afters⟩ := ih all
      exact ⟨.cons (all.query query) answers, afters⟩
    | tell call =>
      obtain ⟨answer, after⟩ := all.call call
      obtain ⟨answers, afters⟩ := ih after
      exact ⟨.cons answer answers, afters⟩

end Exchanged

end Storage

end BitRecords
