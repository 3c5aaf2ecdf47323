import Mathlib.Data.List.Nodup
import BitRecords.Table.ObjectTable

/-!
# Object tables

The free list of a consistent object table holds the number of each empty slot
once. Inserting an object puts it into a slot that was empty, so it moves no
other object, and releasing a slot empties that slot only.
-/

namespace BitRecords.ObjectTable

/-- The free list is the empty slots, each once, and every slot number fits the
bits of an object field. -/
structure Consistent (o : ObjectTable) : Prop where
  free : ∀ slot, slot ∈ o.free ↔ 0 < slot ∧ slot ≤ o.slots.size ∧ o.get? slot = none
  nodup : o.free.Nodup
  bounded : o.slots.size ≤ maxSlots

theorem consistent_empty : Consistent {} where
  free slot := by
    simp only [List.not_mem_nil, false_iff]
    rintro ⟨positive, bound, -⟩
    exact Nat.not_le.mpr positive bound
  nodup := .nil
  bounded := Nat.zero_le _

@[simp] theorem get?_zero (o : ObjectTable) : o.get? 0 = none := rfl

theorem le_of_get? {o : ObjectTable} {slot : Nat} (occupied : (o.get? slot).isSome) :
    0 < slot ∧ slot ≤ o.slots.size := by
  unfold get? at occupied
  split at occupied
  · cases occupied
  · next positive =>
    rw [Array.getD_eq_getD_getElem?] at occupied
    have bound : slot - 1 < o.slots.size := by
      by_contra past
      rw [Array.getElem?_eq_none (Nat.le_of_not_lt past)] at occupied
      cases occupied
    omega

/-- Only the slot that is set gets other content. -/
theorem get?_setIfInBounds (o : ObjectTable) {slot : Nat} (positive : 0 < slot)
    (bound : slot ≤ o.slots.size) (entry : Option ObjectRef) (free : List Nat) (other : Nat) :
    ({ slots := o.slots.setIfInBounds (slot - 1) entry, free } : ObjectTable).get? other =
      if other = slot then entry else o.get? other := by
  unfold get?
  simp only [Array.getD_eq_getD_getElem?, Array.getElem?_setIfInBounds]
  by_cases zero : other = 0
  · rw [if_pos zero, if_pos zero, if_neg (by omega)]
  · rw [if_neg zero, if_neg zero]
    by_cases same : other = slot
    · subst same
      rw [if_pos rfl, if_pos rfl, if_pos (by omega)]
      rfl
    · rw [if_neg (by omega), if_neg same]

theorem get?_release (o : ObjectTable) (slot other : Nat) :
    (o.release slot).get? other = if other = slot then none else o.get? other := by
  unfold release
  split
  · next occupied =>
    obtain ⟨positive, bound⟩ := le_of_get? occupied
    exact get?_setIfInBounds o positive bound none _ other
  · next empty =>
    split
    · next same =>
      rw [same]
      exact Option.not_isSome_iff_eq_none.mp empty
    · rfl

@[simp] theorem size_release (o : ObjectTable) (slot : Nat) :
    (o.release slot).slots.size = o.slots.size := by
  unfold release
  split <;> simp

theorem Consistent.release {o : ObjectTable} (consistent : o.Consistent) (slot : Nat) :
    (o.release slot).Consistent := by
  by_cases occupied : (o.get? slot).isSome
  · obtain ⟨positive, bound⟩ := le_of_get? occupied
    refine ⟨fun other => ?_, ?_, ?_⟩
    · rw [get?_release, size_release]
      simp only [ObjectTable.release, if_pos occupied, List.mem_cons, consistent.free]
      by_cases same : other = slot
      · simp [same, positive, bound]
      · simp [same]
    · simp only [ObjectTable.release, if_pos occupied, List.nodup_cons]
      refine ⟨fun listed => ?_, consistent.nodup⟩
      rw [((consistent.free slot).mp listed).2.2] at occupied
      cases occupied
    · rw [size_release]
      exact consistent.bounded
  · simp only [ObjectTable.release, if_neg occupied]
    exact consistent

/-- What an insertion does while there is room: the object gets a slot that was
empty. -/
structure Inserted (o : ObjectTable) (ref : ObjectRef) (slot : Nat) (after : ObjectTable) :
    Prop where
  positive : 0 < slot
  empty : o.get? slot = none
  get? : ∀ other, after.get? other = if other = slot then some ref else o.get? other
  consistent : after.Consistent
  size_le : after.slots.size ≤ o.slots.size + 1

theorem Consistent.insert {o : ObjectTable} (consistent : o.Consistent) (ref : ObjectRef)
    (room : o.slots.size < maxSlots) :
    Inserted o ref (o.insert ref).1 (o.insert ref).2 := by
  obtain ⟨slots, free⟩ := o
  cases free with
  | cons slot free =>
    have listed := consistent.free
    obtain ⟨positive, bound, empty⟩ := (listed slot).mp List.mem_cons_self
    obtain ⟨fresh, nodup⟩ := List.nodup_cons.mp consistent.nodup
    have content := get?_setIfInBounds ⟨slots, slot :: free⟩ positive bound (some ref) free
    refine ⟨positive, empty, content, ⟨fun other => ?_, nodup, ?_⟩, ?_⟩
    · simp only [ObjectTable.insert, content, Array.size_setIfInBounds]
      by_cases same : other = slot
      · simp [same, fresh]
      · rw [if_neg same, ← listed other, List.mem_cons, or_iff_right same]
    · simpa [ObjectTable.insert] using consistent.bounded
    · simp [ObjectTable.insert]
  | nil =>
    have content (other : Nat) : (⟨slots.push (some ref), []⟩ : ObjectTable).get? other =
        if other = slots.size + 1 then some ref else (⟨slots, []⟩ : ObjectTable).get? other := by
      unfold ObjectTable.get?
      simp only [Array.getD_eq_getD_getElem?, Array.getElem?_push]
      by_cases zero : other = 0
      · rw [if_pos zero, if_pos zero, if_neg (by omega)]
      · rw [if_neg zero, if_neg zero]
        by_cases same : other = slots.size + 1
        · rw [if_pos (by omega), if_pos same]
          rfl
        · rw [if_neg (by omega), if_neg same]
    have empty : (⟨slots, []⟩ : ObjectTable).get? (slots.size + 1) = none := by
      simp [ObjectTable.get?, Array.getD_eq_getD_getElem?]
    have done : ObjectTable.insert ⟨slots, []⟩ ref =
        (slots.size + 1, ⟨slots.push (some ref), []⟩) := if_pos room
    rw [done]
    refine ⟨Nat.succ_pos _, empty, content, ⟨fun other => ?_, .nil, ?_⟩, ?_⟩
    · have listed := consistent.free other
      simp only [List.not_mem_nil, false_iff] at listed ⊢
      rw [content, Array.size_push]
      rintro ⟨positive, bound, clear⟩
      split at clear
      · cases clear
      · exact listed ⟨positive, by omega, clear⟩
    · simpa using Nat.succ_le_of_lt room
    · simp

/-- Puts another object, or none, into the field that names a slot. Returns the
slot that the field names then. -/
def replace (o : ObjectTable) (old : Nat) : Option ObjectRef → Nat × ObjectTable
  | some ref => (o.release old).insert ref
  | none => (0, o.release old)

/-- What replacing an object does: the field names the new object, the other slots
that are in use keep theirs, and no further slot is in use. -/
structure Replaced (o : ObjectTable) (old : Nat) (ref : Option ObjectRef) (slot : Nat)
    (after : ObjectTable) : Prop where
  consistent : after.Consistent
  get? : after.get? slot = ref
  absent : ref = none → slot = 0
  bounded : slot ≤ maxSlots
  other : ∀ s, s ≠ old → (o.get? s).isSome → s ≠ slot ∧ after.get? s = o.get? s
  occupied : ∀ s, (after.get? s).isSome → s = slot ∨ s ≠ old ∧ (o.get? s).isSome
  size_le : after.slots.size ≤ o.slots.size + 1

theorem Consistent.replace {o : ObjectTable} (consistent : o.Consistent) (old : Nat)
    (ref : Option ObjectRef) (room : o.slots.size < maxSlots) :
    Replaced o old ref (o.replace old ref).1 (o.replace old ref).2 := by
  have released := consistent.release old
  have kept (s : Nat) (differs : s ≠ old) : (o.release old).get? s = o.get? s := by
    rw [get?_release, if_neg differs]
  have left (s : Nat) (occupied : ((o.release old).get? s).isSome) :
      s ≠ old ∧ (o.get? s).isSome := by
    rw [get?_release] at occupied
    split at occupied
    · cases occupied
    · next differs => exact ⟨differs, occupied⟩
  cases ref with
  | none =>
    refine ⟨released, rfl, fun _ => rfl, Nat.zero_le _,
      fun s differs occupied => ⟨?_, kept s differs⟩, fun s occupied => .inr (left s occupied), ?_⟩
    · rintro rfl
      cases occupied
    · exact Nat.le_trans (Nat.le_of_eq (size_release o old)) (Nat.le_succ _)
  | some ref =>
    have inserted := released.insert ref (by rwa [size_release])
    have content := inserted.get?
    refine ⟨inserted.consistent, ?_, fun absent => (nomatch absent), ?_,
      fun s differs occupied => ?_, fun s occupied => ?_, ?_⟩
    · exact (content _).trans (if_pos rfl)
    · have present : (ObjectTable.get? ((o.release old).insert ref).2
          ((o.release old).insert ref).1).isSome := by rw [content, if_pos rfl]; rfl
      exact Nat.le_trans (le_of_get? present).2 inserted.consistent.bounded
    · have other : s ≠ ((o.release old).insert ref).1 := by
        rintro same
        rw [← kept s differs, same, inserted.empty] at occupied
        cases occupied
      exact ⟨other, (content s).trans ((if_neg other).trans (kept s differs))⟩
    · by_cases same : s = ((o.release old).insert ref).1
      · exact .inl same
      · refine .inr (left s ?_)
        rwa [ObjectTable.replace, content, if_neg same] at occupied
    · rw [← size_release o old]
      exact inserted.size_le

/-- A table that is rebuilt from its slots is consistent. -/
theorem consistent_ofSlots {slots : Array (Option ObjectRef)} (bounded : slots.size ≤ maxSlots) :
    (ofSlots slots).Consistent := by
  have number (i slot : Nat) :
      (if (slots.getD i none).isNone then some (i + 1) else none) = some slot ↔
        slots.getD i none = none ∧ slot = i + 1 := by
    cases slots.getD i none <;> simp [eq_comm]
  refine ⟨fun slot => ?_, ?_, bounded⟩
  · simp only [ofSlots, List.mem_filterMap, List.mem_range, number, get?]
    constructor
    · rintro ⟨i, bound, empty, rfl⟩
      exact ⟨Nat.succ_pos _, bound, by simpa using empty⟩
    · rintro ⟨positive, bound, empty⟩
      rw [if_neg (by omega)] at empty
      exact ⟨slot - 1, by omega, empty, by omega⟩
  · refine List.Nodup.filterMap ?_ List.nodup_range
    intro i j slot inI inJ
    have first := ((number i slot).mp inI).2
    have second := ((number j slot).mp inJ).2
    omega

end BitRecords.ObjectTable
