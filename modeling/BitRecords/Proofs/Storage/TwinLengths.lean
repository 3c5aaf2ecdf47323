import BitRecords.Proofs.Storage.Pairs
import BitRecords.Proofs.Storage.Steady
import BitRecords.Proofs.Table.Twins

/-!
# Lengths of twins

Storages are twins when their tables are, and when they have twins as lists under
the same cells. A change of a length keeps twins. When it overflows, buffers that
were sized before are as large as the new length demands or lost their bits, so
this takes layouts with the same strides; otherwise both lengths have to fit.
-/

namespace BitRecords

open Layout Table

variable {ρ : Fingerprint → Fingerprint} {fixed : Prop}

/-- Storages whose tables are twins. -/
def Storage.Twins (ρ : Fingerprint → Fingerprint) (fixed : Prop) : Storage → Storage → Prop :=
  Storage.Throughout₂ (Table.Twins ρ fixed)

namespace Storage

variable {s s' : Storage}

/-- The object tables are even, and the object fields of two tables name the same
objects in them. If the tables have the same slots, so have the object tables. -/
structure EvenIn (t t' : Table) (o o' : ObjectTable) : Prop where
  even : o.Even o'
  named : ∀ id row, t.ObjectCell id row →
    o'.get? (t'.bitsOf (.field id) row).toNat = o.get? (t.bitsOf (.field id) row).toNat
  slots : t.SameSlots t' → o' = o

variable {t t' : Table} {o o' : ObjectTable}

/-- Releasing the object of one field leaves that of another one. -/
theorem get?_release_other (intact : t.Intact) (o : ObjectTable) {id id' : FieldId}
    {row row' : UInt64} (cell : t.ObjectCell id row) (cell' : t.ObjectCell id' row')
    (other : ¬ (id' = id ∧ row' = row)) :
    (o.release (t.bitsOf (.field id) row).toNat).get? (t.bitsOf (.field id') row').toNat =
      o.get? (t.bitsOf (.field id') row').toNat := by
  rw [ObjectTable.get?_release]
  split
  · next same =>
    have none : t.bitsOf (.field id') row' = 0 := by
      by_contra some
      exact other (intact.distinct id' row' id row cell' cell some (UInt64.toNat_inj.mp same))
    rw [none]
    rfl
  · rfl

section Release

variable (alike : t.layout.Alike ρ t'.layout) (capacity : t'.capacity = t.capacity)
variable (intact : t.Intact) (intact' : t'.Intact)
include alike capacity intact intact'

theorem EvenIn.release (evens : EvenIn t t' o o') {id : FieldId} {row : UInt64}
    (cell : t.ObjectCell id row) :
    EvenIn t t' (o.release (t.bitsOf (.field id) row).toNat)
      (o'.release (t'.bitsOf (.field id) row).toNat) := by
  refine ⟨evens.even.release (evens.named id row cell), fun id' row' cell' => ?_, fun same => ?_⟩
  · by_cases same : id' = id ∧ row' = row
    · obtain ⟨rfl, rfl⟩ := same
      rw [ObjectTable.get?_release, ObjectTable.get?_release, if_pos rfl, if_pos rfl]
    · rw [get?_release_other intact' o' (cell.alike alike capacity) (cell'.alike alike capacity)
        same, get?_release_other intact o cell cell' same]
      exact evens.named id' row' cell'
  · rw [evens.slots same, same.named id row cell]

theorem releaseField_twins {id : FieldId} {f f' : FieldLayout}
    (field : t.layout.field? id = some f) (field' : t'.layout.field? id = some f')
    (object : f.type = .object) (object' : f'.type = .object) {count : Nat} {row : UInt64}
    (inside : row.toNat + count ≤ t.capacity.toNat) (evens : EvenIn t t' o o') :
    ∃ p p', releaseField { t with objects := o } f count row = { t with objects := p } ∧
      releaseField { t' with objects := o' } f' count row = { t' with objects := p' } ∧
      EvenIn t t' p p' := by
  induction count generalizing row o o' with
  | zero => exact ⟨o, o', rfl, rfl, evens⟩
  | succ count ih =>
    have small : t.capacity.toNat < UInt64.size := t.capacity.toNat_lt_size
    have here : row < t.capacity := UInt64.lt_iff_toNat_lt.mpr (by omega)
    have next : (row + 1).toNat = row.toNat + 1 := toNat_succ_row (by omega)
    have bits := bitsOf_object intact field object row
    have bits' := bitsOf_object intact' field' object' row
    have first := evens.release alike capacity intact intact' ⟨here, f, field, object⟩
    rw [bits, bits'] at first
    exact ih (by omega) first

theorem releaseFields_twins {fields fields' : List FieldLayout}
    (each : List.Forall₂ (fun f f' => ∃ id, t.layout.field? id = some f ∧
      t'.layout.field? id = some f' ∧ f'.type = f.type) fields fields') {count : Nat} {row : UInt64}
    (inside : row.toNat + count ≤ t.capacity.toNat) (evens : EvenIn t t' o o') :
    ∃ p p',
      (fields.filter (·.type.isObject)).foldl (fun t f => releaseField t f count row)
        { t with objects := o } = { t with objects := p } ∧
      (fields'.filter (·.type.isObject)).foldl (fun t f => releaseField t f count row)
        { t' with objects := o' } = { t' with objects := p' } ∧
      EvenIn t t' p p' := by
  induction each generalizing o o' with
  | nil => exact ⟨o, o', rfl, rfl, evens⟩
  | @cons f f' _ _ first _ ih =>
    obtain ⟨id, field, field', type⟩ := first
    rw [List.filter_cons, List.filter_cons, type]
    cases object : f.type.isObject with
    | false => exact ih evens
    | true =>
      have object : f.type = .object := by
        cases type : f.type <;> simp [type, FieldType.isObject] at object ⊢
      obtain ⟨p, p', same, same', evens⟩ := releaseField_twins alike capacity intact intact' field
        field' object (type.trans object) inside evens
      simp only [if_true, List.foldl_cons, same, same']
      exact ih evens

end Release

/-- Twins release the objects of as many fields. -/
theorem Twins.releaseRows (twins : s.Twins ρ fixed s') {first : UInt64}
    (inside : first ≤ s.table.capacity) :
    ∃ o o', (s.releaseRows first).table = { s.table with objects := o } ∧
      (s'.releaseRows first).table = { s'.table with objects := o' } ∧ o.Even o' ∧
      (s.table.SameSlots s'.table → o' = o) := by
  have tables := twins.table
  have evens : EvenIn s.table s'.table s.table.objects s'.table.objects :=
    ⟨tables.objects, fun id row => tables.named, SameSlots.objects⟩
  have rows : first.toNat + (s.table.capacity.toNat - first.toNat) ≤ s.table.capacity.toNat := by
    have order := UInt64.le_iff_toNat_le.mp inside
    omega
  obtain ⟨o, o', same, same', evens⟩ := releaseFields_twins tables.alike tables.state.capacity
    tables.valid.intact tables.valid'.intact tables.alike.forall₂_fields rows evens
  refine ⟨o, o', same, ?_, evens.even, evens.slots⟩
  rw [Storage.releaseRows, tables.state.capacity]
  exact same'

theorem Twins.trim (twins : s.Twins ρ fixed s') (length : UInt64) :
    (s.trim length).table.objects.Even (s'.trim length).table.objects ∧
      (s.table.SameSlots s'.table →
        (s'.trim length).table.objects = (s.trim length).table.objects) ∧
      List.Forall₂ (Entries (Table.Twins ρ fixed)) (s.trim length).lists
        (s'.trim length).lists := by
  unfold Storage.trim
  rw [twins.table.state.capacity]
  split
  · next shorter =>
    obtain ⟨o, o', same, same', even, slots⟩ := twins.releaseRows (UInt64.le_of_lt shorter)
    rw [same, same']
    have kept (a b : Cell × Storage) (entries : Entries (Table.Twins ρ fixed) a b) :
        decide (a.1.row < length) = true ↔ decide (b.1.row < length) = true := by
      rw [entries.1]
    exact ⟨even, slots, List.rel_filter kept twins.lists⟩
  · exact ⟨twins.table.objects, SameSlots.objects, twins.lists⟩

/-- Whether sizes overflow is up to the layout and the length. -/
theorem sizeSegments_congr {l : Layout} {length : UInt64}
    {change : BitBuffer → UInt64 → BitBuffer} {segments : List Segment}
    {buffers buffers' : List BitBuffer} (count : buffers.length = buffers'.length) :
    (sizeSegments l length change segments buffers).1 =
      (sizeSegments l length change segments buffers').1 := by
  induction segments generalizing buffers buffers' with
  | nil => rfl
  | cons g rest ih =>
    cases buffers with
    | nil =>
      obtain rfl := List.length_eq_zero_iff.mp count.symm
      rfl
    | cons b others =>
      obtain ⟨b', others', rfl⟩ := List.exists_cons_of_length_eq_add_one count.symm
      rw [sizeSegments, sizeSegments]
      cases l.segmentBits length g.stride with
      | error e => rfl
      | ok bits => exact ih (Nat.succ.inj count)

/-- The number of segments before the first one that overflows. -/
def fitting (length : UInt64) (segments : List Segment) : Nat :=
  (segments.takeWhile fun g => decide (length.toNat * g.stride.toNat < UInt64.size)).length

theorem fitting_cons {length : UInt64} (g : Segment) (rest : List Segment) :
    fitting length (g :: rest) =
      if length.toNat * g.stride.toNat < UInt64.size then fitting length rest + 1 else 0 := by
  unfold fitting
  by_cases fits : length.toNat * g.stride.toNat < UInt64.size <;> simp [fits]

/-- Buffers are changed up to the first segment that overflows. -/
theorem getElem?_sizeSegments {l : Layout} {length : UInt64}
    {change : BitBuffer → UInt64 → BitBuffer} {segments : List Segment} {buffers : List BitBuffer}
    (count : buffers.length = segments.length) (k : Nat) :
    (sizeSegments l length change segments buffers).2[k]? =
      if k < fitting length segments then
        buffers[k]?.bind fun b => segments[k]?.map fun g => change b (length * g.stride)
      else buffers[k]? := by
  induction segments generalizing buffers k with
  | nil => rfl
  | cons g rest ih =>
    obtain ⟨b, others, rfl⟩ := List.exists_cons_of_length_eq_add_one count
    rw [sizeSegments, fitting_cons, Layout.segmentBits]
    by_cases fits : length.toNat * g.stride.toNat < UInt64.size
    · rw [if_pos fits, if_pos fits]
      cases k with
      | zero => simp
      | succ k => simpa using ih (Nat.succ.inj count) k
    · rw [if_neg fits, if_neg fits]
      rfl

/-- Buffers that differ in object fields only are changed alike. -/
theorem sameBuffer_sizeSegments (same : t.SameBits t') (length : UInt64)
    (change : BitBuffer → UInt64 → BitBuffer)
    (each : ∀ k b b' size, b.Canonical → b'.Canonical → t.layout.SameBuffer k b b' →
      t.layout.SameBuffer k (change b size) (change b' size)) (k : Nat) :
    Option.Rel (t.layout.SameBuffer k)
      (sizeSegments t.layout length change t.layout.segments t.segments.toList).2.toArray[k]?
      (sizeSegments t'.layout length change t'.layout.segments t'.segments.toList).2.toArray[k]? := by
  have related := same.buffers k
  have canonical := same.stored.canonical k
  have canonical' := same.stored'.canonical k
  rw [List.getElem?_toArray, List.getElem?_toArray, same.layout,
    getElem?_sizeSegments (by rw [Array.length_toList, same.stored.count]),
    getElem?_sizeSegments (by rw [Array.length_toList, same.stored'.count, same.layout]),
    Array.getElem?_toList, Array.getElem?_toList]
  generalize t.segments[k]? = x at related canonical
  generalize t'.segments[k]? = y at related canonical'
  split
  · cases related with
    | none => exact .none
    | some buffers =>
      dsimp only [Option.bind_some]
      cases t.layout.segments[k]? with
      | none => exact .none
      | some g => exact .some (each k _ _ _ (canonical _ rfl) (canonical' _ rfl) buffers)
  · exact related

/-- The refusal of a size names no layout. -/
theorem rename_of_isOverflow {e : Error} (overflow : e.isOverflow = true) : e.rename ρ = e := by
  cases e with
  | compilation path fault => cases fault <;> first | rfl | cases overflow
  | _ => cases overflow

/-- Either no size overflows, or the layouts are the same and the same size does. -/
inductive Sizing (ρ : Fingerprint → Fingerprint) (fixed : Prop) :
    Except Error Unit → Except Error Unit → Prop where
  | fits : Sizing ρ fixed (.ok ()) (.ok ())
  | fails {e : Error} : fixed → e.rename ρ = e → Sizing ρ fixed (.error e) (.error e)

theorem Sizing.matches {result result' : Except Error Unit}
    (sizing : Sizing ρ fixed result result') : Matches ρ (fun _ _ => True) result result' := by
  cases sizing with
  | fits => exact .ok trivial
  | @fails e _ plain =>
    have failed : Matches ρ (fun _ _ => True) (.error e : Except Error Unit)
      (.error (e.rename ρ) : Except Error Unit) := .error e
    rwa [plain] at failed

theorem sizing_of_twins (twins : t.Twins ρ fixed t') (length : UInt64)
    (change : BitBuffer → UInt64 → BitBuffer)
    (fits : fixed ∨
      overflowed (sizeSegments t.layout length change t.layout.segments t.segments.toList).1 =
          false ∧
        overflowed (sizeSegments t'.layout length change t'.layout.segments t'.segments.toList).1 =
          false) :
    Sizing ρ fixed (sizeSegments t.layout length change t.layout.segments t.segments.toList).1
      (sizeSegments t'.layout length change t'.layout.segments t'.segments.toList).1 := by
  rcases fits with same | ⟨first, second⟩
  · have count : t'.segments.toList.length = t.segments.toList.length := by
      rw [Array.length_toList, Array.length_toList, twins.valid.intact.stored.count,
        twins.valid'.intact.stored.count, twins.layout same]
    rw [twins.layout same, sizeSegments_congr count]
    have sizes := overflowed_sizeSegments t.layout length change t.layout.segments
      t.segments.toList
    generalize (sizeSegments t.layout length change t.layout.segments t.segments.toList).1 = result
      at sizes
    cases result with
    | ok => exact .fits
    | error e => exact .fails same (rename_of_isOverflow (sizes fun ok => nomatch ok))
  · have done {l : Layout} {segments : List Segment} {buffers : List BitBuffer}
        (fits : overflowed (sizeSegments l length change segments buffers).1 = false) :
        (sizeSegments l length change segments buffers).1 = .ok () := by
      by_contra failed
      rw [overflowed_sizeSegments _ _ _ _ _ failed] at fits
      cases fits
    rw [done first, done second]
    exact .fits

theorem fst_resize (intact : s.table.Intact) (growable : s.table.growable = true)
    (length : UInt64) : (s.resize length).1 = (sizeSegments s.table.layout length BitBuffer.resize
      s.table.layout.segments s.table.segments.toList).1 := by
  have released := trim_spec intact length
  have trimmed : (if length < s.table.capacity then s.releaseRows length else s) = s.trim length :=
    rfl
  simp only [resize, growable, Bool.not_true, Bool.false_eq_true, if_false, trimmed]
  rw [released.same]
  dsimp only
  generalize sizeSegments s.table.layout length BitBuffer.resize s.table.layout.segments
    s.table.segments.toList = sized
  obtain ⟨result, segments⟩ := sized
  cases result <;> rfl

theorem objects_resize (growable : s.table.growable = true) (length : UInt64) :
    (s.resize length).2.table.objects = (s.trim length).table.objects := by
  have trimmed : (if length < s.table.capacity then s.releaseRows length else s) = s.trim length :=
    rfl
  simp only [resize, growable, Bool.not_true, Bool.false_eq_true, if_false, trimmed]
  split <;> rfl

theorem segments_resize (intact : s.table.Intact) (growable : s.table.growable = true)
    (length : UInt64) : (s.resize length).2.table.segments =
      (sizeSegments s.table.layout length BitBuffer.resize s.table.layout.segments
        s.table.segments.toList).2.toArray := by
  have released := trim_spec intact length
  have trimmed : (if length < s.table.capacity then s.releaseRows length else s) = s.trim length :=
    rfl
  simp only [resize, growable, Bool.not_true, Bool.false_eq_true, if_false, trimmed]
  rw [released.same]
  dsimp only
  generalize sizeSegments s.table.layout length BitBuffer.resize s.table.layout.segments
    s.table.segments.toList = sized
  obtain ⟨result, segments⟩ := sized
  cases result <;> rfl

/-- Tables that keep the rows of twins. -/
theorem twins_of_keeps {u u' : Table} (twins : t.Twins ρ fixed t') (keeps : Keeps t u)
    (keeps' : Keeps t' u') (state : SameState u u') (valid : u.Valid) (valid' : u'.Valid)
    (objects : u.objects.Even u'.objects)
    (slots : t.SameSlots t' → u'.objects = u.objects)
    (buffers : fixed → ∀ k : Nat,
      Option.Rel (t.layout.SameBuffer k) u.segments[k]? u'.segments[k]?) :
    u.Twins ρ fixed u' where
  alike := by
    rw [keeps.layout, keeps'.layout]
    exact twins.alike
  state := state
  valid := valid
  valid' := valid'
  shows := by
    obtain ⟨c, shows, shows'⟩ := twins.shows
    have kept := keeps'.shows shows'
    rw [twins.alike.keep, twins.state.capacity] at kept
    exact ⟨_, keeps.shows shows, kept⟩
  objects := objects
  bits same :=
    { layout := by rw [keeps.layout, keeps'.layout, twins.layout same]
      capacity := state.capacity
      stored := valid.intact.stored
      stored' := valid'.intact.stored
      buffers := by
        rw [keeps.layout]
        exact buffers same }
  slots other :=
    have same := twins.slots other
    { objects := slots same
      named := fun id row cell => by
        obtain ⟨here, f, field, object⟩ := cell
        have here' : row < u'.capacity := state.capacity ▸ here
        by_cases old : row < t.capacity
        · rw [keeps.kept _ row here old,
            keeps'.kept _ row here' (twins.state.capacity ▸ old)]
          exact same.named id row ⟨old, f, keeps.layout ▸ field, object⟩
        · have past := UInt64.not_lt.mp old
          rw [keeps.blank _ row here past,
            keeps'.blank _ row here' (twins.state.capacity ▸ past)] }

/-- Twins stay twins when their length changes. -/
theorem Twins.resize (twins : s.Twins ρ fixed s') (length : UInt64)
    (fits : fixed ∨ overflowed (s.resize length).1 = false ∧
      overflowed (s'.resize length).1 = false) :
    Matches ρ (fun _ _ => True) (s.resize length).1 (s'.resize length).1 ∧
      (s.resize length).2.Twins ρ fixed (s'.resize length).2 := by
  have tables := twins.table
  have intact := tables.valid.intact
  have intact' := tables.valid'.intact
  have same := tables.state.growable
  cases growable : s.table.growable with
  | false =>
    rw [growable] at same
    simp only [Storage.resize, growable, same, Bool.not_false, if_true, tables.state.capacity]
    exact ⟨.error (.index length s.table.capacity), twins⟩
  | true =>
    rw [growable] at same
    obtain ⟨even, slots, lists⟩ := twins.trim length
    have objects := objects_resize growable length
    have objects' := objects_resize same length
    have step := resizes intact length
    have step' := resizes intact' length
    have valid := resize_valid tables.valid length
    have valid' := resize_valid tables.valid' length
    rw [← objects, ← objects'] at even slots
    have buffers (layouts : fixed) (k : Nat) : Option.Rel (s.table.layout.SameBuffer k)
        (s.resize length).2.table.segments[k]? (s'.resize length).2.table.segments[k]? := by
      rw [segments_resize intact growable, segments_resize intact' same]
      refine sameBuffer_sizeSegments (tables.bits layouts) length _ (fun k b b' size canonical
        canonical' buffers => ⟨rfl, fun p outside => ?_⟩) k
      rw [BitBuffer.bit_resize canonical, BitBuffer.bit_resize canonical', buffers.bit p outside]
    have sizing : Sizing ρ fixed (s.resize length).1 (s'.resize length).1 := by
      rw [fst_resize intact growable, fst_resize intact' same] at fits ⊢
      exact sizing_of_twins tables length _ fits
    refine ⟨sizing.matches, ?_⟩
    generalize s.resize length = outcome at step sizing valid even slots buffers
    generalize s'.resize length = outcome' at step' sizing valid' even slots buffers
    obtain ⟨result, after⟩ := outcome
    obtain ⟨result', after'⟩ := outcome'
    dsimp only at step step' sizing valid valid' even slots buffers ⊢
    cases sizing with
    | fits =>
      cases step with
      | done released sizes =>
        cases step' with
        | done released' sizes' =>
          refine throughout₂_iff.mpr ⟨twins_of_keeps tables (keeps_done intact _ released sizes)
            (keeps_done intact' _ released' sizes') ?_ valid valid' even slots buffers, lists⟩
          have cursor := congrArg (Option.filter fun row => decide (row < length))
            tables.state.cursor
          exact { tables.state with capacity := rfl, cursor := cursor }
    | fails =>
      cases step with
      | fixed rigid =>
        rw [growable] at rigid
        cases rigid
      | failed grows sizes =>
        cases step' with
        | fixed rigid =>
          rw [same] at rigid
          cases rigid
        | failed grows' sizes' =>
          exact throughout₂_iff.mpr ⟨twins_of_keeps tables (keeps_failed intact grows sizes)
            (keeps_failed intact' grows' sizes') { tables.state with } valid valid' even
            slots buffers, twins.lists⟩

end Storage

end BitRecords
