import BitRecords.FieldType

/-!
# Object tables

An object field holds the number of a slot in an object table. Slots count from
one, and zero stands for no object. A slot that was freed last is used first.
-/

namespace BitRecords

/-- Slots with their objects, and the numbers of the free slots, the next one
first. -/
structure ObjectTable where
  slots : Array (Option ObjectRef) := #[]
  free : List Nat := []
deriving DecidableEq, Inhabited

namespace ObjectTable

/-- The number of slots that a slot number can tell apart, zero left out. -/
def maxSlots : Nat := (1 <<< objectSlotBits) - 1

/-- The object in a slot. -/
def get? (t : ObjectTable) (slot : Nat) : Option ObjectRef :=
  if slot = 0 then none else t.slots.getD (slot - 1) none

/-- Puts an object into a free slot, or into a new one while there are slot
numbers left. Zero is the slot of an object that found no place. -/
def insert (t : ObjectTable) (o : ObjectRef) : Nat × ObjectTable :=
  match t.free with
  | slot :: free => (slot, { slots := t.slots.setIfInBounds (slot - 1) (some o), free })
  | [] =>
    if t.slots.size < maxSlots then
      (t.slots.size + 1, { t with slots := t.slots.push (some o) })
    else (0, t)

/-- Frees a slot. Freeing an empty slot does nothing. -/
def release (t : ObjectTable) (slot : Nat) : ObjectTable :=
  if (t.get? slot).isSome then
    { slots := t.slots.setIfInBounds (slot - 1) none, free := slot :: t.free }
  else t

/-- The number of objects held. -/
def live (t : ObjectTable) : Nat := t.slots.size - t.free.length

/-- The table with these slots, the lowest free slot to be used first. -/
def ofSlots (slots : Array (Option ObjectRef)) : ObjectTable where
  slots
  free := (List.range slots.size).filterMap fun i =>
    if (slots.getD i none).isNone then some (i + 1) else none

end ObjectTable

end BitRecords
