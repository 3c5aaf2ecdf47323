import BitRecords.Proofs.Bits.Canonical
import BitRecords.Proofs.Layout.Uses

/-!
# Tables as bits

The buffers of a table hold one bit for each segment, row and position inside the
stride. Reading a slot of a row gives the number formed by its bits, and writing
it changes these bits and no others, so slots that are apart do not affect each
other, and neither do the rows.
-/

namespace BitRecords.Table

/-- The bit at a position of a row. -/
def bitAt (t : Table) (k : SegmentId) (row : UInt64) (p : Nat) : Bool :=
  match t.segments[k]? with
  | some b => b.bit (row.toNat * (t.layout.stride k).toNat + p)
  | none => false

/-- The buffers have room for all rows, and no bit is set past the last row. -/
structure Stored (t : Table) : Prop where
  good : t.layout.SoundTyped
  count : t.segments.size = t.layout.segments.length
  canonical : ∀ (k : Nat) (b : BitBuffer), t.segments[k]? = some b → b.Canonical
  room : ∀ (k : Nat) (b : BitBuffer), t.segments[k]? = some b →
    t.capacity.toNat * (t.layout.stride k).toNat ≤ b.size.toNat
  blank : ∀ (k : Nat) (b : BitBuffer), t.segments[k]? = some b → ∀ p,
    t.capacity.toNat * (t.layout.stride k).toNat ≤ p → b.bit p = false

section Fields

variable (t : Table) (slot : Slot) (row : UInt64) (width : Nat) (bits : UInt64)

@[simp] theorem layout_setBits : (t.setBits slot row width bits).layout = t.layout := rfl

@[simp] theorem capacity_setBits : (t.setBits slot row width bits).capacity = t.capacity := rfl

@[simp] theorem objects_setBits : (t.setBits slot row width bits).objects = t.objects := rfl

@[simp] theorem pending_setBits : (t.setBits slot row width bits).pending = t.pending := rfl

end Fields

variable {t : Table} {use use' : Use} {slot slot' : Slot} {row row' : UInt64} {width width' : Nat}

/-- A row ends where the rows that do not exist start, or before. -/
theorem row_end_le (k : SegmentId) (here : row < t.capacity) :
    row.toNat * (t.layout.stride k).toNat + (t.layout.stride k).toNat ≤
      t.capacity.toNat * (t.layout.stride k).toNat := by
  rw [← Nat.succ_mul]
  exact Nat.mul_le_mul_right _ (UInt64.lt_iff_toNat_lt.mp here)

namespace Stored

/-- The buffer that holds a slot, and the end of the slot in a row. -/
theorem buffer (stored : t.Stored) (stores : t.layout.Stores use slot width)
    (here : row < t.capacity) : ∃ b, t.segments[slot.segment]? = some b ∧
      (t.address slot row).toNat =
        row.toNat * (t.layout.stride slot.segment).toNat + slot.offset.toNat ∧
      (t.address slot row).toNat + width ≤
        t.capacity.toNat * (t.layout.stride slot.segment).toNat ∧
      t.capacity.toNat * (t.layout.stride slot.segment).toNat ≤ b.size.toNat := by
  obtain ⟨bound, fits⟩ := stores.inside stored.good.sound
  rw [← stored.count] at bound
  obtain ⟨b, found⟩ : ∃ b, t.segments[slot.segment]? = some b :=
    ⟨_, Array.getElem?_eq_getElem bound⟩
  have room := stored.room slot.segment b found
  have inside := row_end_le slot.segment here
  have small : b.size.toNat < UInt64.size := b.size.toNat_lt_size
  have product : (row * t.layout.stride slot.segment).toNat =
      row.toNat * (t.layout.stride slot.segment).toNat := by
    rw [UInt64.toNat_mul]
    exact Nat.mod_eq_of_lt (by simp only [UInt64.size] at small; omega)
  have address : (t.address slot row).toNat =
      row.toNat * (t.layout.stride slot.segment).toNat + slot.offset.toNat := by
    rw [Table.address, LayoutRules.toNat_add_exact (by omega), product]
  exact ⟨b, found, address, by omega, room⟩

/-- Reading a slot gives the number formed by its bits. -/
theorem bitOf_getBits (stored : t.Stored) (stores : t.layout.Stores use slot width)
    (here : row < t.capacity) (i : Nat) :
    bitOf (t.getBits slot row width) i =
      (decide (i < width) && t.bitAt slot.segment row (slot.offset.toNat + i)) := by
  obtain ⟨b, found, address, -, -⟩ := stored.buffer stores here
  simp only [getBits, bitAt, found]
  rw [BitBuffer.bitOf_get b _ stores.narrow, address, Nat.add_assoc]

/-- Writing a slot of a row makes its bits those of the number, and changes no
other bit. -/
theorem bitAt_setBits (stored : t.Stored) (stores : t.layout.Stores use slot width)
    (here : row < t.capacity) (bits : UInt64) {k : SegmentId} {p : Nat}
    (inside : p < (t.layout.stride k).toNat) :
    (t.setBits slot row width bits).bitAt k row' p =
      if k = slot.segment ∧ row' = row ∧ slot.offset.toNat ≤ p ∧ p < slot.offset.toNat + width
      then bitOf bits (p - slot.offset.toNat) else t.bitAt k row' p := by
  obtain ⟨b, found, address, fits, room⟩ := stored.buffer stores here
  have enough := (stored.canonical slot.segment b found).size_le
  obtain ⟨-, stride⟩ := stores.inside stored.good.sound
  by_cases segment : k = slot.segment
  · subst segment
    have changed : (t.setBits slot row width bits).segments[slot.segment]? =
        some (b.set (t.address slot row) width bits) := by
      simp [setBits, Array.getElem?_modify, found]
    simp only [bitAt, changed, found, layout_setBits, true_and]
    rw [BitBuffer.bit_set b _ bits stores.narrow (by omega), address]
    by_cases same : row' = row
    · subst same
      by_cases range : slot.offset.toNat ≤ p ∧ p < slot.offset.toNat + width
      · rw [if_pos ⟨by omega, by omega⟩, if_pos ⟨rfl, range⟩]
        congr 1
        omega
      · rw [if_neg (by omega), if_neg (fun both => range both.2)]
    · have rows : row'.toNat ≠ row.toNat := fun equal => same (UInt64.toNat_inj.mp equal)
      have outside : ¬ (row.toNat * (t.layout.stride slot.segment).toNat + slot.offset.toNat ≤
            row'.toNat * (t.layout.stride slot.segment).toNat + p ∧
          row'.toNat * (t.layout.stride slot.segment).toNat + p <
            row.toNat * (t.layout.stride slot.segment).toNat + slot.offset.toNat + width) := by
        rintro ⟨lower, upper⟩
        rcases Nat.lt_or_gt_of_ne rows with before | after
        · have gap := Nat.mul_le_mul_right (t.layout.stride slot.segment).toNat before
          rw [Nat.succ_mul] at gap
          omega
        · have gap := Nat.mul_le_mul_right (t.layout.stride slot.segment).toNat after
          rw [Nat.succ_mul] at gap
          omega
      rw [if_neg outside, if_neg (fun both => same both.1)]
  · have kept : (t.setBits slot row width bits).segments[k]? = t.segments[k]? := by
      simp [setBits, Array.getElem?_modify, Ne.symm segment]
    simp only [bitAt, kept, layout_setBits]
    rw [if_neg (fun both => segment both.1)]

theorem congr {t' : Table} (stored : t.Stored) (layout : t'.layout = t.layout)
    (capacity : t'.capacity = t.capacity) (segments : t'.segments = t.segments) : t'.Stored := by
  refine ⟨?_, ?_, ?_, ?_, ?_⟩
  · rw [layout]
    exact stored.good
  · rw [layout, segments]
    exact stored.count
  · rw [segments]
    exact stored.canonical
  · rw [segments, capacity, layout]
    exact stored.room
  · rw [segments, capacity, layout]
    exact stored.blank

theorem setBits (stored : t.Stored) (stores : t.layout.Stores use slot width)
    (here : row < t.capacity) (bits : UInt64) : (t.setBits slot row width bits).Stored := by
  obtain ⟨b, found, address, fits, room⟩ := stored.buffer stores here
  have canonical := stored.canonical slot.segment b found
  have enough := canonical.size_le
  have buffers (k : Nat) (b' : BitBuffer)
      (found' : (t.setBits slot row width bits).segments[k]? = some b') :
      (k = slot.segment ∧ b' = b.set (t.address slot row) width bits) ∨
        t.segments[k]? = some b' := by
    by_cases segment : k = slot.segment
    · subst segment
      refine .inl ⟨rfl, ?_⟩
      simp only [Table.setBits, Array.getElem?_modify, if_true, found, Option.map_some] at found'
      exact (Option.some.inj found').symm
    · refine .inr ?_
      simpa [Table.setBits, Array.getElem?_modify, Ne.symm segment] using found'
  refine ⟨stored.good, ?_, ?_, ?_, ?_⟩
  · simpa [Table.setBits] using stored.count
  · intro k b' found'
    rcases buffers k b' found' with ⟨rfl, rfl⟩ | old
    · exact canonical.set _ bits stores.narrow (by omega)
    · exact stored.canonical k b' old
  · intro k b' found'
    rcases buffers k b' found' with ⟨rfl, rfl⟩ | old
    · simpa using room
    · exact stored.room k b' old
  · intro k b' found' p past
    rcases buffers k b' found' with ⟨rfl, rfl⟩ | old
    · simp only [layout_setBits, capacity_setBits] at past
      rw [BitBuffer.bit_set b _ bits stores.narrow (by omega), if_neg (by omega)]
      exact stored.blank slot.segment b found p past
    · exact stored.blank k b' old p past

/-- A write does not affect other rows, nor slots that are apart. -/
theorem getBits_setBits_apart (stored : t.Stored) (stores : t.layout.Stores use slot width)
    (stores' : t.layout.Stores use' slot' width') (here : row < t.capacity)
    (here' : row' < t.capacity) (apart : row' ≠ row ∨ slot.Apart width slot' width')
    (bits : UInt64) :
    (t.setBits slot row width bits).getBits slot' row' width' = t.getBits slot' row' width' := by
  obtain ⟨-, stride⟩ := stores'.inside stored.good.sound
  apply eq_of_bitOf
  intro i _
  rw [(stored.setBits stores here bits).bitOf_getBits stores' here',
    stored.bitOf_getBits stores' here']
  by_cases low : i < width'
  · rw [stored.bitAt_setBits stores here bits (by omega), if_neg]
    rintro ⟨segment, rows, lower, upper⟩
    rcases apart with other | other | before | after
    · exact other rows
    · exact other segment.symm
    · omega
    · omega
  · simp [low]

/-- A write to the low bits of a slot leaves the others. -/
theorem getBits_setBits_wide (stored : t.Stored) (stores : t.layout.Stores use slot width')
    (here : row < t.capacity) (narrow : width ≤ width') (bits : UInt64) :
    (t.setBits slot row width bits).getBits slot row width' =
      overlayLow (t.getBits slot row width') width bits := by
  obtain ⟨-, stride⟩ := stores.inside stored.good.sound
  have part := stores.mono narrow
  apply eq_of_bitOf
  intro i _
  rw [(stored.setBits part here bits).bitOf_getBits stores here, bitOf_overlayLow,
    stored.bitOf_getBits stores here]
  by_cases wide : i < width'
  · rw [stored.bitAt_setBits part here bits (by omega)]
    by_cases low : i < width
    · rw [if_pos ⟨rfl, rfl, by omega, by omega⟩, if_pos low, Nat.add_sub_cancel_left]
      simp [wide]
    · rw [if_neg (by omega), if_neg low]
  · simp [wide, show ¬ i < width by omega]

/-- Reading a slot again gives the low bits of what was written. -/
theorem getBits_setBits (stored : t.Stored) (stores : t.layout.Stores use slot width)
    (here : row < t.capacity) (bits : UInt64) :
    (t.setBits slot row width bits).getBits slot row width = bits &&& lowMask width := by
  rw [stored.getBits_setBits_wide stores here (Nat.le_refl _)]
  apply eq_of_bitOf
  intro i bound
  rw [bitOf_overlayLow, bitOf_and, bitOf_lowMask, stored.bitOf_getBits stores here]
  by_cases low : i < width <;> simp [low, bound]

/-- Reading fewer bits of a slot gives the low bits. -/
theorem getBits_narrow (stored : t.Stored) (stores : t.layout.Stores use slot width')
    (here : row < t.capacity) (narrow : width ≤ width') :
    t.getBits slot row width = t.getBits slot row width' &&& lowMask width := by
  apply eq_of_bitOf
  intro i bound
  rw [bitOf_and, bitOf_lowMask, stored.bitOf_getBits stores here,
    stored.bitOf_getBits (stores.mono narrow) here]
  by_cases low : i < width
  · simp [low, bound, Nat.lt_of_lt_of_le low narrow]
  · simp [low]

end Stored

/-- The bits that a row has for a use. -/
def bitsOf (t : Table) (use : Use) (row : UInt64) : UInt64 :=
  match t.layout.slotOf? use with
  | some (slot, width) => t.getBits slot row width
  | none => 0

namespace Stored

/-- A write to the low bits that a row has for a use changes nothing else. -/
theorem bitsOf_setBits_low (stored : t.Stored) (found : t.layout.slotOf? use = some (slot, width'))
    (narrow : width ≤ width') (here : row < t.capacity) (here' : row' < t.capacity)
    (bits : UInt64) :
    (t.setBits slot row width bits).bitsOf use' row' =
      if use' = use ∧ row' = row then overlayLow (t.bitsOf use row) width bits
      else t.bitsOf use' row' := by
  have stores := Layout.stores_of_slotOf? stored.good found
  split
  · next same =>
    obtain ⟨rfl, rfl⟩ := same
    simp only [bitsOf, layout_setBits, found]
    exact stored.getBits_setBits_wide stores here narrow bits
  · next other =>
    cases found' : t.layout.slotOf? use' with
    | none => simp only [bitsOf, layout_setBits, found']
    | some place =>
      obtain ⟨slot', width''⟩ := place
      have stores' := Layout.stores_of_slotOf? stored.good found'
      simp only [bitsOf, layout_setBits, found']
      refine stored.getBits_setBits_apart (stores.mono narrow) stores' here here' ?_ bits
      by_cases uses : use' = use
      · exact .inl fun rows => other ⟨uses, rows⟩
      · exact .inr ((stores.mono narrow).apart stores' stored.good.sound (Ne.symm uses))

theorem bitsOf_setBits (stored : t.Stored) (found : t.layout.slotOf? use = some (slot, width))
    (here : row < t.capacity) (here' : row' < t.capacity) (bits : UInt64) :
    (t.setBits slot row width bits).bitsOf use' row' =
      if use' = use ∧ row' = row then bits &&& lowMask width else t.bitsOf use' row' := by
  rw [stored.bitsOf_setBits_low found (Nat.le_refl _) here here']
  split
  · rw [← stored.getBits_setBits (Layout.stores_of_slotOf? stored.good found) here,
      stored.getBits_setBits_wide (Layout.stores_of_slotOf? stored.good found) here (Nat.le_refl _),
      bitsOf, found]
  · rfl

end Stored

end BitRecords.Table
