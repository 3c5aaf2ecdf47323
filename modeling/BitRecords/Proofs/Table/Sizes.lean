import BitRecords.Proofs.Table.Valid
import BitRecords.Storage

/-!
# Tables of other sizes

When the buffers of a table are replaced, what its rows hold is decided segment
by segment: each one shows the old bits of a row or none at all. A table whose
fields name only slots that they named before stays intact.
-/

namespace BitRecords.Table

open Layout

variable {t t' : Table} {use : Use} {row : UInt64}

/-- The bits that a row has for a use are those of one segment. -/
theorem bitOf_bitsOf (stored : t.Stored) (here : row < t.capacity) {slot : Slot} {width : Nat}
    (found : t.layout.slotOf? use = some (slot, width)) (i : Nat) :
    bitOf (t.bitsOf use row) i =
      (decide (i < width) && t.bitAt slot.segment row (slot.offset.toNat + i)) := by
  rw [bitsOf, found]
  exact stored.bitOf_getBits (stores_of_slotOf? stored.good found) here i

theorem bitsOf_congr_segment (stored : t.Stored) (stored' : t'.Stored)
    (layout : t'.layout = t.layout) (here : row < t.capacity) (here' : row < t'.capacity)
    {slot : Slot} {width : Nat} (found : t.layout.slotOf? use = some (slot, width))
    (same : ∀ p < (t.layout.stride slot.segment).toNat,
      t'.bitAt slot.segment row p = t.bitAt slot.segment row p) :
    t'.bitsOf use row = t.bitsOf use row := by
  obtain ⟨-, fits⟩ := (stores_of_slotOf? stored.good found).inside stored.good.sound
  refine eq_of_bitOf fun i _ => ?_
  rw [bitOf_bitsOf stored' here' (layout ▸ found), bitOf_bitsOf stored here found]
  by_cases low : i < width
  · rw [same _ (by omega)]
  · simp [low]

/-- A slot reads as zero in a segment without any bits set. -/
theorem getBits_eq_zero (stored : t.Stored) (here : row < t.capacity) {slot : Slot} {width : Nat}
    (stores : t.layout.Stores use slot width)
    (blank : ∀ p < (t.layout.stride slot.segment).toNat, t.bitAt slot.segment row p = false) :
    t.getBits slot row width = 0 := by
  obtain ⟨-, fits⟩ := stores.inside stored.good.sound
  refine eq_of_bitOf fun i _ => ?_
  rw [stored.bitOf_getBits stores here, bitOf_zero]
  by_cases low : i < width
  · rw [blank _ (by omega), Bool.and_false]
  · simp [low]

theorem bitsOf_eq_zero_segment (stored : t.Stored) (here : row < t.capacity) {slot : Slot}
    {width : Nat} (found : t.layout.slotOf? use = some (slot, width))
    (blank : ∀ p < (t.layout.stride slot.segment).toNat, t.bitAt slot.segment row p = false) :
    t.bitsOf use row = 0 := by
  rw [bitsOf, found]
  exact getBits_eq_zero stored here (stores_of_slotOf? stored.good found) blank

theorem bitsOf_of_slotOf?_eq_none (absent : t.layout.slotOf? use = none) :
    t.bitsOf use row = 0 := by
  rw [bitsOf, absent]

/-- The table shows the same bits in all segments of a row. -/
theorem bitsOf_congr (stored : t.Stored) (stored' : t'.Stored) (layout : t'.layout = t.layout)
    (here : row < t.capacity) (here' : row < t'.capacity)
    (same : ∀ k p, p < (t.layout.stride k).toNat → t'.bitAt k row p = t.bitAt k row p) :
    t'.bitsOf use row = t.bitsOf use row := by
  cases found : t.layout.slotOf? use with
  | none => rw [bitsOf_of_slotOf?_eq_none found, bitsOf_of_slotOf?_eq_none (layout ▸ found)]
  | some place => exact bitsOf_congr_segment stored stored' layout here here' found (same _)

/-- A row without any bits set. -/
theorem bitsOf_eq_zero (stored : t.Stored) (here : row < t.capacity)
    (blank : ∀ k p, p < (t.layout.stride k).toNat → t.bitAt k row p = false) :
    t.bitsOf use row = 0 := by
  cases found : t.layout.slotOf? use with
  | none => exact bitsOf_of_slotOf?_eq_none found
  | some place => exact bitsOf_eq_zero_segment stored here found (blank _)

/-- Each segment of a row shows the same bits in both tables, or none. -/
theorem bitsOf_of_bitAt (stored : t.Stored) (stored' : t'.Stored) (layout : t'.layout = t.layout)
    (here : row < t.capacity) (here' : row < t'.capacity)
    (segments : ∀ k, (∀ p < (t.layout.stride k).toNat, t'.bitAt k row p = t.bitAt k row p) ∨
      ∀ p < (t.layout.stride k).toNat, t'.bitAt k row p = false) :
    t'.bitsOf use row = t.bitsOf use row ∨ t'.bitsOf use row = 0 := by
  cases found : t.layout.slotOf? use with
  | none => exact .inr (bitsOf_of_slotOf?_eq_none (layout ▸ found))
  | some place =>
    rcases segments place.1.segment with same | blank
    · exact .inl (bitsOf_congr_segment stored stored' layout here here' found same)
    · exact .inr (bitsOf_eq_zero_segment stored' here' (layout ▸ found) (layout ▸ blank))

/-- A table stays intact while each slot that a field still names keeps its
object. -/
theorem Intact.rebuild (intact : t.Intact) (stored : t'.Stored) (consistent : t'.objects.Consistent)
    (kept : ∀ id row, t'.ObjectCell id row → t'.bitsOf (.field id) row ≠ 0 →
      t.ObjectCell id row ∧ t'.bitsOf (.field id) row = t.bitsOf (.field id) row ∧
      (t'.objects.get? (t.bitsOf (.field id) row).toNat).isSome) :
    t'.Intact where
  stored := stored
  consistent := consistent
  occupied id row cell some := by
    obtain ⟨-, same, occupied⟩ := kept id row cell some
    rw [same]
    exact occupied
  distinct id row id' row' cell cell' some same := by
    obtain ⟨old, bits, -⟩ := kept id row cell some
    rw [same] at some
    obtain ⟨old', bits', -⟩ := kept id' row' cell' some
    rw [bits, bits'] at same
    rw [bits'] at some
    exact intact.distinct id row id' row' old old' (same ▸ some) same

/-- Bits that are all zero stand for the default value. -/
theorem value_blank (t : Table) {id : FieldId} {f : FieldLayout}
    (field : t.layout.field? id = some f) (row : UInt64) :
    (Contents.blank t.layout).value ⟨id, row⟩ = t.valueOf f.type 0 := by
  simp only [Contents.blank, field, Option.map_some, Option.getD_some, valueOf]
  cases f.type <;> rfl

/-- Rows without any bits set hold nothing. -/
theorem shows_blank (stored : t.Stored)
    (blank : ∀ k row p, row < t.capacity → p < (t.layout.stride k).toNat →
      t.bitAt k row p = false) :
    t.Shows (Contents.blank t.layout) := by
  have zero (use : Use) (row : UInt64) (here : row < t.capacity) : t.bitsOf use row = 0 :=
    bitsOf_eq_zero stored here fun k p => blank k row p here
  refine ⟨?_, ?_, ?_, ?_⟩
  · intro id row here slot _
    rw [zero _ row here]
    rfl
  · intro id row here s u _ _
    rw [zero _ row here]
    rfl
  · intro id row here s u _ _
    rw [zero _ row here]
    rfl
  · intro id row here f field _
    rw [zero _ row here]
    exact value_blank t field row

theorem segmentBits_eq_ok {l : Layout} {capacity stride bits : UInt64} :
    l.segmentBits capacity stride = .ok bits ↔
      capacity.toNat * stride.toNat < UInt64.size ∧ bits = capacity * stride := by
  unfold segmentBits
  split
  · next fits => simp [fits, eq_comm]
  · next wide => simp [wide]

theorem toNat_mul_exact {a b : UInt64} (fits : a.toNat * b.toNat < UInt64.size) :
    (a * b).toNat = a.toNat * b.toNat := by
  rw [UInt64.toNat_mul]
  exact Nat.mod_eq_of_lt fits

/-- The buffers of a fresh table. -/
theorem mapM_segmentBits {l : Layout} {capacity : UInt64} {segments : List Segment}
    {buffers : List BitBuffer}
    (ok : (segments.mapM fun s => do
      return BitBuffer.zeroed (← l.segmentBits capacity s.stride)) = .ok buffers) :
    buffers = segments.map (fun g => BitBuffer.zeroed (capacity * g.stride)) ∧
      ∀ g ∈ segments, capacity.toNat * g.stride.toNat < UInt64.size := by
  induction segments generalizing buffers with
  | nil =>
    cases ok
    simp
  | cons g rest ih =>
    simp only [List.mapM_cons, bind_eq_ok, pure_eq_ok, segmentBits_eq_ok] at ok
    obtain ⟨_, ⟨_, ⟨fits, rfl⟩, rfl⟩, others, othersOk, rfl⟩ := ok
    obtain ⟨rfl, all⟩ := ih (by simpa only [bind_eq_ok] using othersOk)
    exact ⟨rfl, List.forall_mem_cons.mpr ⟨fits, all⟩⟩

theorem stride_eq {l : Layout} {k : SegmentId} {g : Segment} (found : l.segments[k]? = some g) :
    l.stride k = g.stride := by
  rw [Layout.stride, found]

/-- Canonical buffers that end with the last row. -/
theorem stored_of_exact (good : t.layout.SoundTyped) (count : t.segments.size = t.layout.segments.length)
    (exact : ∀ (k : Nat) (b : BitBuffer) (g : Segment), t.segments[k]? = some b →
      t.layout.segments[k]? = some g →
      b.Canonical ∧ b.size.toNat = t.capacity.toNat * g.stride.toNat) : t.Stored := by
  have buffer (k : Nat) (b : BitBuffer) (found : t.segments[k]? = some b) :
      b.Canonical ∧ b.size.toNat = t.capacity.toNat * (t.layout.stride k).toNat := by
    have bound : k < t.layout.segments.length := by
      rw [← count]
      exact (Array.getElem?_eq_some_iff.mp found).1
    have segment : t.layout.segments[k]? = some t.layout.segments[k] :=
      List.getElem?_eq_getElem bound
    rw [stride_eq segment]
    exact exact k b _ found segment
  refine ⟨good, count, fun k b found => (buffer k b found).1, ?_, ?_⟩
  · intro k b found
    exact Nat.le_of_eq (buffer k b found).2.symm
  · intro k b found p past
    obtain ⟨canonical, size⟩ := buffer k b found
    exact canonical.tail p (size ▸ past)

/-- A table to which nothing has happened is valid, and its rows hold nothing. -/
theorem valid_of_fresh (stored : t.Stored) (elements : t.layout.Throughout SoundTyped)
    (blank : ∀ (k : Nat) (b : BitBuffer), t.segments[k]? = some b → ∀ p, b.bit p = false)
    (objects : t.objects = {}) (pending : t.pending = .empty) (active : t.activeUnion = none)
    (remembered : t.committedUnion = none) : t.Valid ∧ t.Shows (Contents.blank t.layout) := by
  have clear (k : SegmentId) (row : UInt64) (p : Nat) : t.bitAt k row p = false := by
    unfold bitAt
    split
    · next b found => exact blank k b found _
    · rfl
  have zero (use : Use) (row : UInt64) (here : row < t.capacity) : t.bitsOf use row = 0 :=
    bitsOf_eq_zero stored here fun k p _ => clear k row p
  refine ⟨⟨⟨stored, ?_, ?_, ?_⟩, ?_, ?_, ?_, elements⟩,
    shows_blank stored fun k row p _ _ => clear k row p⟩
  · rw [objects]
    exact ObjectTable.consistent_empty
  · intro id row cell some
    exact absurd (zero _ row cell.1) some
  · intro id row id' row' cell _ some
    exact absurd (zero _ row cell.1) some
  · rw [pending]
    exact .empty
  · intro id some
    rw [active] at some
    cases some
  · intro id some
    rw [remembered] at some
    cases some

/-- What an allocation gives. -/
theorem allocate_eq_ok {l : Layout} {capacity : UInt64} {growable : Bool}
    (ok : allocate l capacity growable = .ok t) :
    t = { layout := l, capacity, growable
          segments := (l.segments.map fun g => BitBuffer.zeroed (capacity * g.stride)).toArray } ∧
      ∀ g ∈ l.segments, capacity.toNat * g.stride.toNat < UInt64.size := by
  unfold allocate at ok
  obtain ⟨buffers, buffersOk, same⟩ := bind_eq_ok.mp ok
  cases same
  obtain ⟨rfl, fits⟩ := mapM_segmentBits buffersOk
  exact ⟨rfl, fits⟩

/-- A table that is allocated is valid and holds nothing. -/
theorem allocate_spec {l : Layout} {capacity : UInt64} {growable : Bool} (good : l.Throughout SoundTyped)
    (ok : allocate l capacity growable = .ok t) : t.Valid ∧ t.Shows (Contents.blank l) := by
  obtain ⟨rfl, fits⟩ := allocate_eq_ok ok
  have buffer (k : Nat) (b : BitBuffer)
      (found :
        (l.segments.map fun g => BitBuffer.zeroed (capacity * g.stride)).toArray[k]? = some b) :
      ∃ g, l.segments[k]? = some g ∧ b = BitBuffer.zeroed (capacity * g.stride) := by
    simp only [List.getElem?_toArray, List.getElem?_map, Option.map_eq_some_iff] at found
    obtain ⟨g, segment, rfl⟩ := found
    exact ⟨g, segment, rfl⟩
  refine valid_of_fresh (stored_of_exact good.here (by simp) ?_) good ?_ rfl rfl rfl rfl
  · intro k b g found segment
    obtain ⟨g', segment', rfl⟩ := buffer k b found
    cases segment.symm.trans segment'
    refine ⟨BitBuffer.canonical_zeroed _, ?_⟩
    rw [BitBuffer.size_zeroed, toNat_mul_exact (fits g (List.mem_of_getElem? segment))]
  · intro k b found p
    obtain ⟨g, -, rfl⟩ := buffer k b found
    exact BitBuffer.bit_zeroed _ _

end BitRecords.Table
