import BitRecords.Proofs.Table.Commit

/-!
# Tables with the same bits

Two tables of one layout may hold the same objects in other slots. Then their
buffers differ in the object fields, since these name the slots. What an operation
writes anywhere else is up to the operation, so the buffers differ nowhere else.
-/

namespace BitRecords

open Layout

/-- The bit is in an object field of some row. -/
def Layout.ObjectBit (l : Layout) (k : SegmentId) (p : Nat) : Prop :=
  ∃ f ∈ l.fields, f.type = .object ∧ f.segment = k ∧
    f.offset.toNat ≤ p % (l.stride k).toNat ∧
    p % (l.stride k).toNat < f.offset.toNat + f.width

/-- The buffers of a segment differ in object fields only. -/
structure Layout.SameBuffer (l : Layout) (k : SegmentId) (b b' : BitBuffer) : Prop where
  size : b'.size = b.size
  bit : ∀ p, ¬ l.ObjectBit k p → b'.bit p = b.bit p

namespace Table

/-- The tables have one layout and as many rows, and their buffers differ in object
fields only. -/
structure SameBits (t t' : Table) : Prop where
  layout : t'.layout = t.layout
  capacity : t'.capacity = t.capacity
  stored : t.Stored
  stored' : t'.Stored
  buffers : ∀ k : Nat, Option.Rel (t.layout.SameBuffer k) t.segments[k]? t'.segments[k]?

variable {t t' : Table}

/-- The buffers are what two tables with the same bits are about. -/
theorem SameBits.congr {u u' : Table} (same : t.SameBits t') (layout : u.layout = t.layout)
    (capacity : u.capacity = t.capacity) (segments : u.segments = t.segments)
    (layout' : u'.layout = t'.layout) (capacity' : u'.capacity = t'.capacity)
    (segments' : u'.segments = t'.segments) : u.SameBits u' where
  layout := by rw [layout, layout', same.layout]
  capacity := by rw [capacity, capacity', same.capacity]
  stored := same.stored.congr layout capacity segments
  stored' := same.stored'.congr layout' capacity' segments'
  buffers := by
    rw [layout, segments, segments']
    exact same.buffers

theorem SameBits.of_segments (stored : t.Stored) (stored' : t'.Stored)
    (layout : t'.layout = t.layout) (capacity : t'.capacity = t.capacity)
    (segments : t'.segments = t.segments) : t.SameBits t' where
  layout := layout
  capacity := capacity
  stored := stored
  stored' := stored'
  buffers k := by
    rw [segments]
    cases t.segments[k]? with
    | none => exact .none
    | some b => exact .some ⟨rfl, fun _ _ => rfl⟩

section Writing

variable {use : Use} {slot : Slot} {row : UInt64} {width : Nat}

/-- A slot gets the same bits in both tables, unless it is that of an object. -/
theorem SameBits.setBits (same : t.SameBits t') (stores : t.layout.Stores use slot width)
    (here : row < t.capacity) {bits bits' : UInt64}
    (agree : bits' = bits ∨
      ∃ f ∈ t.layout.fields, f.type = .object ∧ f.place = slot ∧ f.width = width) :
    (t.setBits slot row width bits).SameBits (t'.setBits slot row width bits') := by
  have stores' : t'.layout.Stores use slot width := same.layout ▸ stores
  have here' : row < t'.capacity := same.capacity ▸ here
  refine ⟨same.layout, same.capacity, same.stored.setBits stores here bits,
    same.stored'.setBits stores' here' bits', fun k => ?_⟩
  have related := same.buffers k
  by_cases segment : slot.segment = k
  · subst segment
    obtain ⟨b, found, address, fits, room⟩ := same.stored.buffer stores here
    obtain ⟨b', found', -, -, room'⟩ := same.stored'.buffer stores' here'
    have enough := (same.stored.canonical _ b found).size_le
    have enough' := (same.stored'.canonical _ b' found').size_le
    have start : t'.address slot row = t.address slot row := by
      rw [Table.address, Table.address, same.layout]
    rw [found, found'] at related
    obtain ⟨size, bit⟩ := Option.rel_some_some.mp related
    simp only [Table.setBits, Array.getElem?_modify, if_true, found, found', Option.map_some, start]
    refine .some ⟨by simp [size], fun p outside => ?_⟩
    have sizes := congrArg UInt64.toNat size
    rw [BitBuffer.bit_set b _ bits stores.narrow (by omega),
      BitBuffer.bit_set b' _ bits' stores.narrow (by omega), bit p outside]
    rcases agree with rfl | ⟨f, member, object, rfl, rfl⟩
    · rfl
    · obtain ⟨-, inside⟩ := stores.inside same.stored.good.sound
      have apart : ¬ ((t.address f.place row).toNat ≤ p ∧
          p < (t.address f.place row).toNat + f.width) := by
        rintro ⟨lower, upper⟩
        obtain ⟨q, rfl⟩ := Nat.exists_eq_add_of_le (Nat.le_trans (Nat.le_add_right _ _)
          (address ▸ lower))
        have position : (row.toNat * (t.layout.stride f.place.segment).toNat + q) %
            (t.layout.stride f.place.segment).toNat = q := by
          rw [Nat.mul_add_mod', Nat.mod_eq_of_lt (by omega)]
        refine outside ⟨f, member, object, rfl, ?_⟩
        change f.place.offset.toNat ≤ _ % (t.layout.stride f.place.segment).toNat ∧
          _ % (t.layout.stride f.place.segment).toNat < f.place.offset.toNat + f.width
        rw [position]
        omega
      rw [if_neg apart, if_neg apart]
  · simpa [Table.setBits, Array.getElem?_modify, segment] using related

end Writing

theorem SameBits.markPresent (same : t.SameBits t') (chain : List StructId) {row : UInt64}
    (here : row < t.capacity) :
    (t.markPresent chain row).SameBits (t'.markPresent chain row) := by
  unfold Table.markPresent
  induction chain generalizing t t' with
  | nil => exact same
  | cons id rest ih =>
    rw [List.foldl_cons, List.foldl_cons, same.layout]
    cases presence : t.layout.presence? id with
    | none => exact ih same here
    | some slot =>
      exact ih (same.setBits (same.stored.good.sound.stores_presence presence) here (.inl rfl)) here

theorem SameBits.setTag (same : t.SameBits t') {id : StructId} {s : StructLayout}
    {u : UnionRegion} (struct : t.layout.struct? id = some s) (union : s.union = some u)
    {row : UInt64} (here : row < t.capacity) (tag : Nat) :
    (t.setTag u row tag).SameBits (t'.setTag u row tag) :=
  have good := same.stored.good
  same.setBits (good.sound.stores_tag good.typed struct union) here (.inl rfl)

theorem SameBits.setContent (same : t.SameBits t') {id : FieldId} {f : FieldLayout}
    (field : t.layout.field? id = some f) {row : UInt64} (here : row < t.capacity) {bits : UInt64}
    {value : Value} (encoded : f.type.encode value = .ok bits) :
    (t.setContent f row bits value).SameBits (t'.setContent f row bits value) := by
  obtain ⟨use, stores⟩ := same.stored.good.stores_place field
  by_cases object : f.type = .object
  · rw [object] at encoded
    obtain ⟨ref, rfl⟩ := object_of_encode encoded
    rw [setContent_object object, setContent_object object]
    generalize t.objects.replace _ ref = replaced
    generalize t'.objects.replace _ ref = replaced'
    have others : SameBits { t with objects := replaced.2 } { t' with objects := replaced'.2 } :=
      same.congr rfl rfl rfl rfl rfl rfl
    exact others.setBits stores here (.inr ⟨f, List.mem_of_getElem? field, object, rfl, rfl⟩)
  · rw [setContent_of_ne_object object, setContent_of_ne_object object]
    exact same.setBits stores here (.inl rfl)

/-- An operation keeps the tables apart in object fields only. -/
theorem SameBits.apply (same : t.SameBits t') {op : PendingOp} (admits : t.layout.Admits op)
    (here : op.row < t.capacity) : (t.apply op).SameBits (t'.apply op) := by
  cases admits with
  | @write field row bits value f found encoded =>
    obtain ⟨s, struct, -, -⟩ := same.stored.good.sound.owner found
    have marked := same.markPresent s.chain here
    simp only [Table.apply, same.layout, found, struct]
    have layout : (t.markPresent s.chain row).layout = t.layout := layout_markPresent _ _ _
    have capacity : (t.markPresent s.chain row).capacity = t.capacity := capacity_markPresent _ _ _
    split
    · next u tag union _ =>
      have tagged := marked.setTag (layout ▸ struct) union (capacity ▸ here) tag
      exact tagged.setContent (layout ▸ found) (capacity ▸ here) encoded
    · exact marked.setContent (layout ▸ found) (capacity ▸ here) encoded
  | @select union row tag s u struct isUnion bound =>
    simp only [Table.apply, same.layout, struct, isUnion]
    have layout : (t.markPresent s.chain row).layout = t.layout := layout_markPresent _ _ _
    have capacity : (t.markPresent s.chain row).capacity = t.capacity := capacity_markPresent _ _ _
    exact (same.markPresent s.chain here).setTag (layout ▸ struct) isUnion (capacity ▸ here) tag

theorem SameBits.applyAll (same : t.SameBits t') (ops : List PendingOp)
    (admits : ∀ op ∈ ops, t.layout.Admits op) (here : ∀ op ∈ ops, op.row < t.capacity) :
    (ops.foldl Table.apply t).SameBits (ops.foldl Table.apply t') := by
  induction ops generalizing t t' with
  | nil => exact same
  | cons op rest ih =>
    obtain ⟨admitsHere, admits⟩ := List.forall_mem_cons.mp admits
    obtain ⟨inside, here⟩ := List.forall_mem_cons.mp here
    have apart : t.apply op = _ := sameApart_apply t op
    have layout : (t.apply op).layout = t.layout := by rw [apart]
    have capacity : (t.apply op).capacity = t.capacity := by rw [apart]
    refine ih (same.apply admitsHere inside) ?_ ?_
    · rwa [layout]
    · rwa [capacity]

end Table

end BitRecords
