import BitRecords.Proofs.Storage.Tidy

/-!
# Lengths that overflow

A change of a list's length succeeds if all of its segments have room for the rows.
Otherwise it is refused, and nothing is left of it but what it did to the segments
before the first one that overflows. It did nothing to any when the first segment
overflows, which is the one of the rows themselves.
-/

namespace BitRecords

open Table

namespace Storage

variable {s : Storage} {t : Table} {length : UInt64} {change : BitBuffer → UInt64 → BitBuffer}

theorem Sized.fits {sized : List BitBuffer} (stored : t.Stored)
    (sizes : Sized length change t.layout.segments t.segments.toList (.ok ()) sized) :
    ∀ g ∈ t.layout.segments, length.toNat * g.stride.toNat < UInt64.size := by
  intro g member
  obtain ⟨k, segment⟩ := List.mem_iff_getElem?.mp member
  have bound : k < sized.length := by
    rw [sizes.count, Array.length_toList, stored.count]
    exact (List.getElem?_eq_some_iff.mp segment).1
  obtain ⟨old, -, ⟨fits, -⟩ | ⟨failed, -⟩⟩ :=
    sizes.each k g sized[k] segment (List.getElem?_eq_getElem bound)
  · exact fits
  · exact absurd rfl failed

/-- Buffers that were given a size for each segment have that size. -/
theorem Sized.exact {sized : List BitBuffer} (stored : t.Stored)
    (sizes : Sized length change t.layout.segments t.segments.toList (.ok ()) sized)
    (size : ∀ b bits, (change b bits).size = bits) {after : Table}
    (layout : after.layout = t.layout) (capacity : after.capacity = length)
    (segments : after.segments = sized.toArray) : after.Exact := by
  intro k b found
  rw [segments] at found
  obtain ⟨old, -, ⟨fits, rfl⟩ | ⟨failed, -⟩⟩ := sizes.buffer stored found
  · rw [size, toNat_mul_exact fits, layout, capacity]
  · exact absurd rfl failed

/-- The segments of a table after a change of its length, and whether all fit. -/
def sizing (t : Table) (length : UInt64) (change : BitBuffer → UInt64 → BitBuffer) :
    Except Error Unit × List BitBuffer :=
  sizeSegments t.layout length change t.layout.segments t.segments.toList

/-- The pages of the second album. -/
def pageList : Storage := (filled.list? ⟨1, 1⟩).get (by decide +kernel)

open LayoutRules

/-- A shelf with a list of items that may have a note, and a list of empty marks. -/
def shelf : Schema where
  name := "shelf"
  children := [
    { name := "items", fields := [⟨"flag", .bool⟩], flags := { list := true }
      children := [
        { name := "extra", fields := [⟨"note", .int8⟩], flags := { optional := true } }] },
    { name := "marks", flags := { list := true } }]

/-- Strides of eight bits are rounded up to a sixteenth of the word range. -/
def wide : LayoutRules where
  strategy := { Strategy.packed with
    name := "wide"
    roundStride := fun extent => if extent = 8 then 0x1000000000000000 else extent }
  maxStride := 0x1000000000000000

def shelfLayout : Layout := (wide.layout shelf).toOption.get (by rfl)

/-- A shelf without items, and with as many marks as can be counted. -/
def shelves : Storage := (create shelfLayout (some 1)).toOption.get (by rfl)

/-- The lists of the shelf. -/
def stocked : Storage := shelves.run
  [.select 0, .createOrClearList ⟨shelfLayout.fingerprint, 1, { list := true }⟩ 0,
    .createOrClearList ⟨shelfLayout.fingerprint, 2, { list := true }⟩ 0xFFFFFFFFFFFFFFFF]

def marks : Storage := (stocked.list? ⟨2, 0⟩).get (by decide +kernel)

end Storage

end BitRecords
