import BitRecords.Proofs.Storage.TwinLengths

/-!
# Resets of twins

A reset leaves blank rows. When its length overflows, the segments before the
first one that is too long have lost their bits. Which ones these are is up to the
layout, so the rows of twins of the same layout lose the same contents.
-/

namespace BitRecords

open Layout Table

/-- The contents without those of some uses, which are blank. -/
def Contents.wipe (c : Contents) (l : Layout) (gone : Use → Bool) : Contents where
  present cell := !gone (.presence cell.id) && c.present cell
  tag cell := if gone (.tag cell.id) then 0 else c.tag cell
  region cell := if gone (.region cell.id) then 0 else c.region cell
  value cell := if gone (.field cell.id) then (Contents.blank l).value cell else c.value cell

namespace Table

variable {t u : Table} {c : Contents} {gone : Use → Bool}

theorem Shows.wipe (shows : t.Shows c) (layout : u.layout = t.layout)
    (capacity : u.capacity = t.capacity) (objects : u.objects = t.objects)
    (bits : ∀ use row, row < t.capacity →
      u.bitsOf use row = if gone use then 0 else t.bitsOf use row) :
    u.Shows (c.wipe t.layout gone) := by
  refine ⟨?_, ?_, ?_, ?_⟩
  · intro id row here slot presence
    rw [capacity] at here
    rw [bits _ row here]
    cases wiped : gone (.presence id) with
    | true => simp [Contents.wipe, wiped]
    | false => simpa [Contents.wipe, wiped] using shows.present id row here slot (layout ▸ presence)
  · intro id row here s region struct union
    rw [capacity] at here
    rw [bits _ row here]
    cases wiped : gone (.tag id) with
    | true => simp [Contents.wipe, wiped]
    | false =>
      simpa [Contents.wipe, wiped] using shows.tag id row here s region (layout ▸ struct) union
  · intro id row here s region struct union
    rw [capacity] at here
    rw [bits _ row here]
    cases wiped : gone (.region id) with
    | true => simp [Contents.wipe, wiped]
    | false =>
      simpa [Contents.wipe, wiped] using shows.region id row here s region (layout ▸ struct) union
  · intro id row here f field plain
    rw [capacity] at here
    rw [bits _ row here]
    cases wiped : gone (.field id) with
    | true =>
      have blank := value_blank u field row
      rw [layout] at blank
      simpa [Contents.wipe, wiped] using blank
    | false =>
      have value := shows.value id row here f (layout ▸ field) plain
      simpa [Contents.wipe, wiped, valueOf, objects] using value

end Table

namespace Storage

variable {ρ : Fingerprint → Fingerprint} {fixed : Prop} {s s' : Storage} {t : Table}
variable {length : UInt64} {change : BitBuffer → UInt64 → BitBuffer}

/-- Whether a reset that fails takes the bits of a use. -/
def wipes (l : Layout) (length : UInt64) (use : Use) : Bool :=
  match l.slotOf? use with
  | some (slot, _) => decide (slot.segment < fitting length l.segments)
  | none => false

/-- The bits of the rows after a reset that fails. -/
theorem bitsOf_wiped {sized : List BitBuffer} (intact : t.Intact)
    (result : (sizeSegments t.layout length (fun _ => .zeroed) t.layout.segments
      t.segments.toList).2 = sized)
    (intact' : ({ t with segments := sized.toArray } : Table).Intact) {use : Use} {row : UInt64}
    (here : row < t.capacity) :
    ({ t with segments := sized.toArray } : Table).bitsOf use row =
      if wipes t.layout length use then 0 else t.bitsOf use row := by
  have stored := intact.stored
  have buffers (k : Nat) : sized.toArray[k]? =
      if k < fitting length t.layout.segments then
        t.segments[k]?.bind fun _ => t.layout.segments[k]?.map fun g => .zeroed (length * g.stride)
      else t.segments[k]? := by
    rw [List.getElem?_toArray, ← result,
      getElem?_sizeSegments (by rw [Array.length_toList, stored.count])]
    simp only [Array.getElem?_toList]
  unfold wipes
  cases found : t.layout.slotOf? use with
  | none =>
    rw [bitsOf_of_slotOf?_eq_none found]
    exact bitsOf_of_slotOf?_eq_none found
  | some place =>
    obtain ⟨slot, width⟩ := place
    by_cases before : slot.segment < fitting length t.layout.segments
    · rw [if_pos (by simpa using before)]
      refine bitsOf_eq_zero_segment intact'.stored here found fun p _ => ?_
      unfold bitAt
      dsimp only
      rw [buffers, if_pos before]
      split
      · next b zeroed =>
        obtain ⟨_, -, zeroed⟩ := Option.bind_eq_some_iff.mp zeroed
        obtain ⟨g, -, rfl⟩ := Option.map_eq_some_iff.mp zeroed
        exact BitBuffer.bit_zeroed _ _
      · rfl
    · rw [if_neg (by simpa using before)]
      refine bitsOf_congr_segment stored intact'.stored rfl here here found fun p _ => ?_
      unfold bitAt
      dsimp only
      rw [buffers, if_neg before]

theorem fst_reset (s : Storage) (length : UInt64) : (s.reset length).1 =
    (sizeSegments s.table.layout length (fun _ => .zeroed) s.table.layout.segments
      s.table.segments.toList).1 := by
  unfold reset
  dsimp only
  generalize sizeSegments s.table.layout length (fun _ => .zeroed) s.table.layout.segments
    s.table.segments.toList = sized
  obtain ⟨result, segments⟩ := sized
  cases result <;> rfl

/-- Twins stay twins when they are reset. -/
theorem Twins.reset (twins : s.Twins ρ fixed s') (length : UInt64)
    (fits : fixed ∨ overflowed (s.reset length).1 = false ∧
      overflowed (s'.reset length).1 = false) :
    Matches ρ (fun _ _ => True) (s.reset length).1 (s'.reset length).1 ∧
      (s.reset length).2.Twins ρ fixed (s'.reset length).2 := by
  have tables := twins.table
  have stored := tables.valid.intact.stored
  have stored' := tables.valid'.intact.stored
  have sizing : Sizing ρ fixed (s.reset length).1 (s'.reset length).1 := by
    rw [fst_reset, fst_reset] at fits ⊢
    exact sizing_of_twins tables length _ fits
  have valid := reset_valid tables.valid length
  have valid' := reset_valid tables.valid' length
  refine ⟨sizing.matches, ?_⟩
  rw [fst_reset, fst_reset] at sizing
  have sizes := sizeSegments_spec s.table.layout length (fun _ => .zeroed) s.table.layout.segments
    s.table.segments.toList
  have sizes' := sizeSegments_spec s'.table.layout length (fun _ => .zeroed)
    s'.table.layout.segments s'.table.segments.toList
  unfold Storage.reset at valid valid' ⊢
  dsimp only at valid valid' ⊢
  generalize sized : sizeSegments s.table.layout length (fun _ => .zeroed) s.table.layout.segments
    s.table.segments.toList = outcome at sizing sizes valid
  generalize sized' : sizeSegments s'.table.layout length (fun _ => .zeroed)
    s'.table.layout.segments s'.table.segments.toList = outcome' at sizing sizes' valid'
  obtain ⟨result, segments⟩ := outcome
  obtain ⟨result', segments'⟩ := outcome'
  dsimp only at sizing sizes sizes' valid valid' ⊢
  have buffers (same : fixed) (k : Nat) : Option.Rel (s.table.layout.SameBuffer k)
      segments.toArray[k]? segments'.toArray[k]? := by
    have zeros := sameBuffer_sizeSegments (tables.bits same) length (fun _ => .zeroed)
      (fun _ _ _ _ _ _ _ => ⟨rfl, fun _ _ => rfl⟩) k
    rwa [sized, sized'] at zeros
  cases sizing with
  | fits =>
    obtain ⟨-, shows⟩ := fresh_done stored tables.valid.elements sizes s.table.growable
      s.table.listeners
    obtain ⟨-, shows'⟩ := fresh_done stored' tables.valid'.elements sizes' s'.table.growable
      s'.table.listeners
    rw [tables.alike.blank] at shows'
    refine throughout₂_iff.mpr ⟨⟨tables.alike, ?_, valid, valid', ⟨_, shows, shows'⟩,
      ⟨.refl _, rfl⟩, fun same => ?_, fun _ => ?_⟩, .nil⟩
    · exact ⟨rfl, tables.state.growable, rfl, rfl, tables.state.listeners, rfl, rfl⟩
    · exact ⟨tables.layout same, rfl, valid.intact.stored, valid'.intact.stored, buffers same⟩
    · exact sameSlots_of_empty tables.alike rfl valid.intact valid'.intact rfl rfl
  | fails same =>
    obtain ⟨c, shows, shows'⟩ := tables.shows
    have wiped := shows.wipe (u := { s.table with segments := segments.toArray }) rfl rfl rfl
      fun use row here =>
        bitsOf_wiped tables.valid.intact (congrArg Prod.snd sized) valid.intact here
    have wiped' := shows'.wipe (u := { s'.table with segments := segments'.toArray }) rfl rfl rfl
      fun use row here =>
        bitsOf_wiped tables.valid'.intact (congrArg Prod.snd sized') valid'.intact here
    rw [tables.layout same] at wiped'
    exact twins.withTable ⟨tables.alike, { tables.state with }, valid, valid', ⟨_, wiped, wiped'⟩,
      tables.objects, fun same => ⟨tables.layout same, tables.state.capacity, valid.intact.stored,
        valid'.intact.stored, buffers same⟩, fun other => absurd same other⟩

end Storage

end BitRecords
