import BitRecords.Proofs.Storage.Resize

/-!
# Resetting a list

A list that is reset has blank rows only. When its new length overflows, some
segments have lost their bits and others have not, so the rows may hold less than
before, but no two fields share an object.
-/

namespace BitRecords.Storage

open Table

variable {t : Table} {length : UInt64} {result : Except Error Unit} {sized : List BitBuffer}

/-- What a reset does: it blanks some segments if it fails, and else all rows. -/
inductive Resets (s : Storage) (length : UInt64) : Except Error Unit → Storage → Prop where
  | failed {e : Error} {segments : List BitBuffer} : s.table.capacity < length →
      Sized length (fun _ => .zeroed) s.table.layout.segments s.table.segments.toList (.error e)
        segments →
      Resets s length (.error e) { s with table := { s.table with segments := segments.toArray } }
  | done {segments : List BitBuffer} :
      Sized length (fun _ => .zeroed) s.table.layout.segments s.table.segments.toList (.ok ())
        segments →
      Resets s length (.ok ())
        { table :=
            { layout := s.table.layout
              capacity := length
              growable := s.table.growable
              segments := segments.toArray
              listeners := s.table.listeners } }

/-- A reset that succeeds blanks all rows. -/
theorem Resets.of_ok {s after : Storage} {result : Except Error Unit}
    (step : Resets s length result after) (ok : result = .ok ()) :
    ∃ segments, Sized length (fun _ => .zeroed) s.table.layout.segments s.table.segments.toList
        (.ok ()) segments ∧
      after =
        { table :=
            { layout := s.table.layout
              capacity := length
              growable := s.table.growable
              segments := segments.toArray
              listeners := s.table.listeners } } := by
  cases step with
  | failed => cases ok
  | done sizes => exact ⟨_, sizes, rfl⟩

theorem resets {s : Storage} (stored : s.table.Stored) (length : UInt64) :
    Resets s length (s.reset length).1 (s.reset length).2 := by
  have sizes := sizeSegments_spec s.table.layout length (fun _ => .zeroed) s.table.layout.segments
    s.table.segments.toList
  simp only [reset]
  generalize sizeSegments s.table.layout length (fun _ => .zeroed) s.table.layout.segments
    s.table.segments.toList = sized at sizes
  obtain ⟨result, segments⟩ := sized
  cases result with
  | error e => exact .failed (sizes.grows stored fun ok => nomatch ok) sizes
  | ok => exact .done sizes

/-- Buffers of which some were blanked keep the objects of the others. -/
theorem intact_failed (intact : t.Intact) (grows : t.capacity < length)
    (sizes : Sized length (fun _ => .zeroed) t.layout.segments t.segments.toList result sized) :
    ({ t with segments := sized.toArray } : Table).Intact := by
  have stored := intact.stored
  have buffer (k : Nat) (b : BitBuffer) (found : sized.toArray[k]? = some b) :
      ∃ old, t.segments[k]? = some old ∧
        (b = old ∨ t.capacity.toNat * (t.layout.stride k).toNat ≤ b.size.toNat ∧ b.Canonical ∧
          ∀ p, b.bit p = false) := by
    obtain ⟨old, before, ⟨fits, rfl⟩ | ⟨-, rfl⟩⟩ := sizes.buffer stored found
    · refine ⟨old, before, .inr ⟨?_, BitBuffer.canonical_zeroed _, BitBuffer.bit_zeroed _⟩⟩
      rw [BitBuffer.size_zeroed, toNat_mul_exact fits]
      exact Nat.mul_le_mul_right _ (Nat.le_of_lt (UInt64.lt_iff_toNat_lt.mp grows))
    · exact ⟨b, before, .inl rfl⟩
  have stored' : ({ t with segments := sized.toArray } : Table).Stored := by
    refine ⟨stored.good, sizes.size stored, fun k b found => ?_, fun k b found => ?_,
      fun k b found p past => ?_⟩
    · obtain ⟨old, before, rfl | ⟨-, canonical, -⟩⟩ := buffer k b found
      · exact stored.canonical k b before
      · exact canonical
    · obtain ⟨old, before, rfl | ⟨room, -, -⟩⟩ := buffer k b found
      · exact stored.room k b before
      · exact room
    · obtain ⟨old, before, rfl | ⟨-, -, clear⟩⟩ := buffer k b found
      · exact stored.blank k b before p past
      · exact clear p
  have bits (use : Use) (row : UInt64) (here : row < t.capacity) :
      ({ t with segments := sized.toArray } : Table).bitsOf use row = t.bitsOf use row ∨
        ({ t with segments := sized.toArray } : Table).bitsOf use row = 0 := by
    refine bitsOf_of_bitAt stored stored' rfl here here fun k => ?_
    unfold bitAt
    cases found : sized.toArray[k]? with
    | none => exact .inr fun p _ => rfl
    | some b =>
      obtain ⟨old, before, rfl | ⟨-, -, clear⟩⟩ := buffer k b found
      · rw [before]
        exact .inl fun p _ => rfl
      · exact .inr fun p _ => clear _
  refine intact.rebuild stored' intact.consistent fun id row cell some => ?_
  have same := (bits (.field id) row cell.1).resolve_right some
  rw [same] at some
  exact ⟨cell, same, intact.occupied id row cell some⟩

/-- Buffers of zeros make a fresh table. -/
theorem fresh_done (stored : t.Stored) (elements : t.layout.Throughout Layout.SoundTyped)
    (sizes : Sized length (fun _ => .zeroed) t.layout.segments t.segments.toList (.ok ()) sized)
    (growable : Bool) (listeners : ListenerRegistry) :
    ({ layout := t.layout, capacity := length, growable, segments := sized.toArray, listeners } :
        Table).Valid ∧
      ({ layout := t.layout, capacity := length, growable, segments := sized.toArray, listeners } :
        Table).Shows (Contents.blank t.layout) := by
  have buffer (k : Nat) (b : BitBuffer) (found : sized.toArray[k]? = some b) :
      length.toNat * (t.layout.stride k).toNat < UInt64.size ∧
        b = .zeroed (length * t.layout.stride k) := by
    obtain ⟨-, -, cases | ⟨failed, -⟩⟩ := sizes.buffer stored found
    · exact cases
    · exact absurd rfl failed
  refine valid_of_fresh (stored_of_exact stored.good (sizes.size stored) ?_) elements ?_ rfl rfl rfl
    rfl
  · intro k b g found segment
    obtain ⟨fits, rfl⟩ := buffer k b found
    rw [stride_eq segment] at fits ⊢
    refine ⟨BitBuffer.canonical_zeroed _, ?_⟩
    rw [BitBuffer.size_zeroed, toNat_mul_exact fits]
  · intro k b found p
    obtain ⟨-, rfl⟩ := buffer k b found
    exact BitBuffer.bit_zeroed _ _

theorem reset_valid {s : Storage} (valid : s.table.Valid) (length : UInt64) :
    (s.reset length).2.table.Valid := by
  have step := resets valid.intact.stored length
  generalize s.reset length = outcome at step ⊢
  obtain ⟨result, after⟩ := outcome
  dsimp only at step ⊢
  cases step with
  | failed grows sizes =>
    exact ⟨intact_failed valid.intact grows sizes, valid.answers, valid.active, valid.remembered,
      valid.elements⟩
  | done sizes => exact (fresh_done valid.intact.stored valid.elements sizes _ _).1

/-- What comes of appending a row: nothing if it is refused beforehand, what a new length
leaves behind if that one fails, and else the new length and a cursor at the row. -/
inductive Pushes (s : Storage) : Except Error UInt64 → Storage → Prop where
  | refused {e : Error} : Pushes s (.error e) s
  | failed {e : Error} {after : Storage} :
      s.resize (s.table.capacity + 1) = (.error e, after) → Pushes s (.error e) after
  | done {after : Storage} : s.table.capacity + 1 ≠ 0 →
      s.resize (s.table.capacity + 1) = (.ok (), after) →
      Pushes s (.ok s.table.capacity)
        { after with table := { after.table with cursor := some s.table.capacity } }

theorem pushes (s : Storage) : Pushes s s.push.1 s.push.2 := by
  unfold push
  dsimp only
  split
  · exact .refused
  split
  · exact .refused
  · next counted =>
    split
    · next resized => exact .failed resized
    · next resized => exact .done counted resized

theorem push_valid {s : Storage} (valid : s.table.Valid) : s.push.2.table.Valid := by
  have grown := resize_valid valid (s.table.capacity + 1)
  have step := pushes s
  generalize s.push = outcome at step ⊢
  obtain ⟨result, after⟩ := outcome
  cases step with
  | refused => exact valid
  | failed resized =>
    rw [resized] at grown
    exact grown
  | done _ resized =>
    rw [resized] at grown
    exact grown.congr ⟨rfl, rfl, rfl, rfl⟩ rfl rfl rfl

end BitRecords.Storage
