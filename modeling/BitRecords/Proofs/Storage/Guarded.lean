import BitRecords.Proofs.Storage.Reachable
import BitRecords.Proofs.Table.Guarded
import BitRecords.Storage.Session

/-!
# Guarded calls

A guarded call or question has no result when any of its accesses to a buffer is out of
bounds. In a valid storage every call and every question has one, which is the result
that it has without guards.
-/

namespace BitRecords

open Layout

namespace Guarded

/-- Changes the buffers of the segments to `length` rows, up to the first segment that
would overflow. -/
def sizeSegments (layout : Layout) (length : UInt64) :
    List Segment → List BitBuffer → Option (Except Error Unit × List BitBuffer)
  | segment :: segments, buffer :: buffers =>
    match layout.segmentBits length segment.stride with
    | .error e => some (.error e, buffer :: buffers)
    | .ok bits => do
      let buffer ← resizeBuffer buffer bits
      let (result, buffers) ← sizeSegments layout length segments buffers
      return (result, buffer :: buffers)
  | _, buffers => some (.ok (), buffers)

/-- Releases the objects in a field of the `count` rows from `row` on. -/
def releaseField (t : Table) (f : FieldLayout) : (count : Nat) → (row : UInt64) → Option Table
  | 0, _ => some t
  | count + 1, row => do
    let slot := (← getBits t f.place row f.width).toNat
    releaseField { t with objects := t.objects.release slot } f count (row + 1)

/-- Releases the objects and drops the lists of all rows from `first` on. -/
def releaseRows (s : Storage) (first : UInt64) : Option Storage := do
  let count := s.table.capacity.toNat - first.toNat
  let fields := s.table.layout.fields.filter (·.type.isObject)
  return {
    table := ← fields.foldlM (fun t f => releaseField t f count first) s.table
    lists := s.lists.filter (·.1.row < first) }

/-- Releases the rows that a new length cuts off. -/
def trim (s : Storage) (length : UInt64) : Option Storage :=
  if length < s.table.capacity then releaseRows s length else some s

/-- Changes the length of a list. -/
def resize (s : Storage) (length : UInt64) : Option (Except Error Unit × Storage) :=
  if !s.table.growable then some (.error (.index length s.table.capacity), s)
  else do
    let s ← trim s length
    let t := s.table
    let (result, segments) ← sizeSegments t.layout length t.layout.segments t.segments.toList
    let t := { t with segments := segments.toArray }
    match result with
    | .error e => return (.error e, { s with table := t })
    | .ok () =>
      let cursor := t.cursor.filter (· < length)
      return (.ok (), { s with table := { t with capacity := length, cursor } })

/-- Appends an empty row to a list and selects it. -/
def push (s : Storage) : Option (Except Error UInt64 × Storage) :=
  let row := s.table.capacity
  if !s.table.growable then some (.error (.index row row), s)
  else if row + 1 = 0 then some (.error .overflow, s)
  else do
    match ← resize s (row + 1) with
    | (.error e, s) => return (.error e, s)
    | (.ok (), s) => return (.ok row, { s with table := { s.table with cursor := some row } })

/-- Whether a call succeeds, and the storage after it. Only commits and new lengths
access bits of a buffer. -/
def perform (s : Storage) : Call → Option (Except Error Unit × Storage)
  | .commit => do return s.onTable ((← commit s.table).map (·.2))
  | .resize length => resize s length
  | .push => do
    let (result, s) ← push s
    return (result.map fun _ => (), s)
  | .inList struct call =>
    match s.list struct with
    | .error e => some (.error e, s)
    | .ok (cell, list) => do
      let (result, list) ← perform list call
      return (result, s.setList cell list)
  | call => some (s.perform call)

/-- The answer to a question. -/
def query (s : Storage) : Query → Option (Except Error Reply)
  | .read view field => do return (← read s.table view field).map .value
  | .isPresent struct => do return (← isPresent s.table struct).map .truth
  | .activeMember union => do return (← activeMember s.table union).map .member
  | .inList struct q => andThen (s.list struct) fun place => query place.2 q
  | q => some (s.query q)

theorem sizeSegments_eq (layout : Layout) (length : UInt64) (segments : List Segment)
    (buffers : List BitBuffer) : sizeSegments layout length segments buffers =
      some (Storage.sizeSegments layout length BitBuffer.resize segments buffers) := by
  induction segments generalizing buffers with
  | nil => rfl
  | cons segment rest ih =>
    cases buffers with
    | nil => rfl
    | cons buffer others =>
      rw [sizeSegments, Storage.sizeSegments]
      cases layout.segmentBits length segment.stride with
      | error e => rfl
      | ok bits =>
        dsimp only
        rw [resizeBuffer_eq, ih]
        rfl

variable {t : Table} {s : Storage}

theorem releaseField_eq (stored : t.Stored) {id : FieldId} {f : FieldLayout}
    (field : t.layout.field? id = some f) {count : Nat} {row : UInt64}
    (inside : row.toNat + count ≤ t.capacity.toNat) :
    releaseField t f count row = some (Storage.releaseField t f count row) := by
  induction count generalizing t row with
  | zero => rfl
  | succ count ih =>
    have bound : t.capacity.toNat < UInt64.size := t.capacity.toNat_lt_size
    have next : (row + 1).toNat = row.toNat + 1 := Storage.toNat_succ_row (by omega)
    have here : row < t.capacity := by
      rw [UInt64.lt_iff_toNat_lt]
      omega
    obtain ⟨use, stores⟩ := stored.good.stores_place field
    have rows : ({ t with
        objects := t.objects.release (t.getBits f.place row f.width).toNat } : Table).Stored :=
      stored.congr rfl rfl rfl
    rw [releaseField, Storage.releaseField, getBits_eq stored stores here, Option.bind_eq_bind,
      Option.bind_some]
    refine ih rows field ?_
    rw [next]
    exact Nat.le_trans (by omega) inside

theorem releaseFields_eq (stored : t.Stored) (consistent : t.objects.Consistent)
    {fields : List FieldLayout} (listed : ∀ f ∈ fields, f ∈ t.layout.fields) {count : Nat}
    {row : UInt64} (inside : row.toNat + count ≤ t.capacity.toNat) :
    fields.foldlM (fun t f => releaseField t f count row) t =
      some (fields.foldl (fun t f => Storage.releaseField t f count row) t) := by
  induction fields generalizing t with
  | nil => rfl
  | cons f rest ih =>
    obtain ⟨member, listed⟩ := List.forall_mem_cons.mp listed
    obtain ⟨id, field⟩ := List.mem_iff_getElem?.mp member
    have noWrap : row.toNat + count < UInt64.size :=
      Nat.lt_of_le_of_lt inside t.capacity.toNat_lt_size
    have released := Storage.releaseField_spec (f := f) consistent noWrap
    have same := released.same
    rw [List.foldlM_cons, List.foldl_cons, releaseField_eq stored field inside,
      Option.bind_eq_bind, Option.bind_some]
    refine ih (stored.congr ?_ ?_ ?_) released.consistent ?_ ?_
    · rw [same]
    · rw [same]
    · rw [same]
    · rw [same]
      exact listed
    · rw [same]
      exact inside

/-- All rows that are released exist. -/
theorem releaseRows_eq (intact : s.table.Intact) {first : UInt64}
    (inside : first ≤ s.table.capacity) : releaseRows s first = some (s.releaseRows first) := by
  have order := UInt64.le_iff_toNat_le.mp inside
  unfold releaseRows Storage.releaseRows
  dsimp only
  rw [releaseFields_eq intact.stored intact.consistent
    (fun f member => (List.mem_filter.mp member).1) (by omega)]
  rfl

theorem trim_eq (intact : s.table.Intact) (length : UInt64) :
    trim s length = some (s.trim length) := by
  unfold trim Storage.trim
  split
  · next shorter => exact releaseRows_eq intact (UInt64.le_of_lt shorter)
  · rfl

theorem resize_eq (intact : s.table.Intact) (length : UInt64) :
    resize s length = some (s.resize length) := by
  unfold resize Storage.resize
  split
  · rfl
  · rw [trim_eq intact, Option.bind_eq_bind, Option.bind_some, ← Storage.trim]
    dsimp only
    rw [sizeSegments_eq, Option.bind_eq_bind, Option.bind_some]
    generalize Storage.sizeSegments _ _ _ _ _ = outcome
    obtain ⟨result, segments⟩ := outcome
    cases result <;> rfl

theorem push_eq (intact : s.table.Intact) : push s = some s.push := by
  unfold push Storage.push
  dsimp only
  split
  · rfl
  split
  · rfl
  · rw [resize_eq intact, Option.bind_eq_bind, Option.bind_some]
    generalize s.resize (s.table.capacity + 1) = outcome
    obtain ⟨result, after⟩ := outcome
    cases result <;> rfl

/-- Every access of a call is inside its buffer, and no address wraps around. -/
theorem perform_eq (valid : s.Throughout Table.Valid) (call : Call) :
    perform s call = some (s.perform call) := by
  induction call generalizing s with
  | commit =>
    rw [perform, commit_eq valid.here]
    rfl
  | resize length => exact resize_eq valid.here.intact length
  | push =>
    rw [perform, push_eq valid.here.intact]
    rfl
  | inList struct call ih =>
    rw [perform, Storage.perform]
    cases found : s.list struct with
    | error e => rfl
    | ok place =>
      dsimp only
      rw [ih (valid.lookup (Storage.list_eq_ok found))]
      rfl
  | select | write | selectMember | clear | clearUnion | rollback | listen | listenField
  | listenStruct | unlisten | reset | createOrClearList => rfl

/-- Every access of a question is inside its buffer, and no address wraps around. -/
theorem query_eq (valid : s.Throughout Table.Valid) (q : Query) :
    query s q = some (s.query q) := by
  induction q generalizing s with
  | read view field =>
    rw [query, read_eq valid.here.intact.stored]
    rfl
  | isPresent struct =>
    rw [query, isPresent_eq valid.here.intact.stored]
    rfl
  | activeMember union =>
    rw [query, activeMember_eq valid.here.intact.stored]
    rfl
  | inList struct q ih =>
    exact andThen_eq fun place found => ih (valid.lookup (Storage.list_eq_ok found))
  | status | listLength | field | fieldOfType | struct => rfl

end Guarded

end BitRecords
