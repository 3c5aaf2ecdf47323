import BitRecords.Proofs.Storage.Release

/-!
# Changing the length of a list

A list that changes its length keeps the rows that are in both sizes, and its new
rows are blank. Sizes can overflow only when a list grows; then some buffers have
room for more rows than there are, and the rows are as before.
-/

namespace BitRecords.Storage

open Table

/-- What sizing the buffers of segments does: each one is changed, or kept when a
segment would overflow. -/
structure Sized (length : UInt64) (change : BitBuffer → UInt64 → BitBuffer)
    (segments : List Segment) (buffers : List BitBuffer) (result : Except Error Unit)
    (sized : List BitBuffer) : Prop where
  count : sized.length = buffers.length
  each : ∀ (k : Nat) (g : Segment) (b : BitBuffer), segments[k]? = some g → sized[k]? = some b →
    ∃ old, buffers[k]? = some old ∧
      (length.toNat * g.stride.toNat < UInt64.size ∧ b = change old (length * g.stride) ∨
        result ≠ .ok () ∧ b = old)
  failed : result ≠ .ok () → ∃ g ∈ segments, UInt64.size ≤ length.toNat * g.stride.toNat

theorem sizeSegments_spec (l : Layout) (length : UInt64) (change : BitBuffer → UInt64 → BitBuffer)
    (segments : List Segment) (buffers : List BitBuffer) :
    Sized length change segments buffers (sizeSegments l length change segments buffers).1
      (sizeSegments l length change segments buffers).2 := by
  induction segments generalizing buffers with
  | nil =>
    exact ⟨rfl, fun k g b none => (by cases none), fun failed => absurd rfl failed⟩
  | cons g rest ih =>
    cases buffers with
    | nil => exact ⟨rfl, fun k g b _ none => (by cases none), fun failed => absurd rfl failed⟩
    | cons b others =>
      rw [sizeSegments]
      cases bits : l.segmentBits length g.stride with
      | error e =>
        have wide : UInt64.size ≤ length.toNat * g.stride.toNat := by
          unfold Layout.segmentBits at bits
          split at bits
          · cases bits
          · next wide => exact Nat.le_of_not_lt wide
        refine ⟨rfl, fun k g' b' _ found => ⟨b', found, .inr ⟨fun ok => (nomatch ok), rfl⟩⟩,
          fun _ => ⟨g, List.mem_cons_self, wide⟩⟩
      | ok count =>
        obtain ⟨fits, rfl⟩ := segmentBits_eq_ok.mp bits
        have sized := ih others
        refine ⟨by simp [sized.count], fun k g' b' segment found => ?_, fun failed => ?_⟩
        · cases k with
          | zero =>
            cases segment
            cases found
            exact ⟨b, rfl, .inl ⟨fits, rfl⟩⟩
          | succ k => exact sized.each k g' b' segment found
        · obtain ⟨g', member, wide⟩ := sized.failed failed
          exact ⟨g', List.mem_cons_of_mem _ member, wide⟩

variable {t : Table} {length : UInt64} {change : BitBuffer → UInt64 → BitBuffer}
variable {result : Except Error Unit} {sized : List BitBuffer}

namespace Sized

theorem buffer (sizes : Sized length change t.layout.segments t.segments.toList result sized)
    (stored : t.Stored) {k : Nat} {b : BitBuffer} (found : sized.toArray[k]? = some b) :
    ∃ old, t.segments[k]? = some old ∧
      (length.toNat * (t.layout.stride k).toNat < UInt64.size ∧
          b = change old (length * t.layout.stride k) ∨ result ≠ .ok () ∧ b = old) := by
  rw [List.getElem?_toArray] at found
  have bound : k < t.layout.segments.length := by
    rw [← stored.count, ← Array.length_toList, ← sizes.count]
    exact (List.getElem?_eq_some_iff.mp found).1
  have segment : t.layout.segments[k]? = some t.layout.segments[k] := List.getElem?_eq_getElem bound
  obtain ⟨old, before, cases⟩ := sizes.each k _ b segment found
  rw [Array.getElem?_toList] at before
  rw [stride_eq segment]
  exact ⟨old, before, cases⟩

theorem size (sizes : Sized length change t.layout.segments t.segments.toList result sized)
    (stored : t.Stored) : sized.toArray.size = t.layout.segments.length := by
  rw [List.size_toArray, sizes.count, Array.length_toList, stored.count]

/-- Sizes overflow only for more rows than there are. -/
theorem grows (sizes : Sized length change t.layout.segments t.segments.toList result sized)
    (stored : t.Stored) (failed : result ≠ .ok ()) : t.capacity < length := by
  obtain ⟨g, member, wide⟩ := sizes.failed failed
  obtain ⟨k, segment⟩ := List.mem_iff_getElem?.mp member
  have bound : k < t.segments.size := by
    rw [stored.count]
    exact (List.getElem?_eq_some_iff.mp segment).1
  have room := stored.room k _ (Array.getElem?_eq_getElem bound)
  have small : (t.segments[k]).size.toNat < UInt64.size := (t.segments[k]).size.toNat_lt
  rw [stride_eq segment] at room
  rw [UInt64.lt_iff_toNat_lt]
  exact Nat.lt_of_mul_lt_mul_right (a := g.stride.toNat) (by omega)

end Sized

/-- The rows of the first table that the second one has too are kept, and all
others of the second one are blank. -/
structure Keeps (t t' : Table) : Prop where
  layout : t'.layout = t.layout
  stored : t'.Stored
  consistent : t'.objects.Consistent
  kept : ∀ use row, row < t'.capacity → row < t.capacity → t'.bitsOf use row = t.bitsOf use row
  blank : ∀ use row, row < t'.capacity → t.capacity ≤ row → t'.bitsOf use row = 0
  objects : ∀ id row, t.ObjectCell id row → row < t'.capacity → t.bitsOf (.field id) row ≠ 0 →
    t'.objects.get? (t.bitsOf (.field id) row).toNat =
      t.objects.get? (t.bitsOf (.field id) row).toNat

namespace Keeps

variable {t' : Table}

theorem intact (keeps : Keeps t t') (intact : t.Intact) : t'.Intact := by
  refine intact.rebuild keeps.stored keeps.consistent fun id row cell some => ?_
  obtain ⟨here, f, field, object⟩ := cell
  have old : row < t.capacity := by
    by_contra past
    exact some (keeps.blank _ row here (UInt64.not_lt.mp past))
  have cell : t.ObjectCell id row := ⟨old, f, keeps.layout ▸ field, object⟩
  have same := keeps.kept (.field id) row here old
  rw [same] at some
  refine ⟨cell, same, ?_⟩
  rw [keeps.objects id row cell here some]
  exact intact.occupied id row cell some

theorem shows (keeps : Keeps t t') {c : Contents} (shows : t.Shows c) :
    t'.Shows (c.keep t.layout t.capacity) := by
  refine ⟨?_, ?_, ?_, ?_⟩
  · intro id row here slot presence
    rw [keeps.layout] at presence
    by_cases old : row < t.capacity
    · rw [keeps.kept _ row here old, ← shows.present id row old slot presence]
      exact if_pos old
    · rw [keeps.blank _ row here (UInt64.not_lt.mp old)]
      exact if_neg old
  · intro id row here s u struct union
    rw [keeps.layout] at struct
    by_cases old : row < t.capacity
    · rw [keeps.kept _ row here old, ← shows.tag id row old s u struct union]
      exact if_pos old
    · rw [keeps.blank _ row here (UInt64.not_lt.mp old)]
      exact if_neg old
  · intro id row here s u struct union
    rw [keeps.layout] at struct
    by_cases old : row < t.capacity
    · rw [keeps.kept _ row here old, ← shows.region id row old s u struct union]
      exact if_pos old
    · rw [keeps.blank _ row here (UInt64.not_lt.mp old)]
      exact if_neg old
  · intro id row here f field plain
    by_cases old : row < t.capacity
    · rw [keeps.kept _ row here old]
      rw [keeps.layout] at field
      refine (if_pos old).trans ((shows.value id row old f field plain).trans ?_)
      by_cases object : f.type = .object
      · simp only [object, valueOf]
        by_cases some : t.bitsOf (.field id) row = 0
        · rw [some]
          rfl
        · rw [keeps.objects id row ⟨old, f, field, object⟩ here some]
      · rw [valueOf_of_ne_object _ object, valueOf_of_ne_object _ object]
    · rw [keeps.blank _ row here (UInt64.not_lt.mp old), ← value_blank t' field row, keeps.layout]
      exact if_neg old

end Keeps

/-- Buffers of other sizes show the same bits in the rows that both tables have. -/
theorem bitAt_of_bit (t t' : Table) (layout : t'.layout = t.layout)
    (buffers : ∀ (k : Nat) (b : BitBuffer), t'.segments[k]? = some b →
      ∃ old, t.segments[k]? = some old ∧
        ∀ p < t'.capacity.toNat * (t.layout.stride k).toNat, b.bit p = old.bit p)
    (count : t'.segments.size = t.segments.size) {k : SegmentId} {row : UInt64} {p : Nat}
    (here : row < t'.capacity) (inside : p < (t.layout.stride k).toNat) :
    t'.bitAt k row p = t.bitAt k row p := by
  unfold bitAt
  rw [layout]
  cases found : t'.segments[k]? with
  | none =>
    have past : t.segments.size ≤ k := by
      rw [← count]
      exact Array.getElem?_eq_none_iff.mp found
    rw [Array.getElem?_eq_none past]
  | some b =>
    obtain ⟨old, before, same⟩ := buffers k b found
    rw [before]
    have fits := row_end_le (t := t') k here
    rw [layout] at fits
    exact same _ (by omega)

/-- A row that a table does not have shows no bits. -/
theorem bitAt_of_le (stored : t.Stored) {k : SegmentId} {row : UInt64} {p : Nat}
    (past : t.capacity ≤ row) : t.bitAt k row p = false := by
  unfold bitAt
  split
  · next b found =>
    refine stored.blank k b found _ ?_
    have rows := Nat.mul_le_mul_right (t.layout.stride k).toNat (UInt64.le_iff_toNat_le.mp past)
    omega
  · rfl

theorem keeps_of_bitAt {t' : Table} (stored : t.Stored) (stored' : t'.Stored)
    (layout : t'.layout = t.layout) (consistent : t'.objects.Consistent)
    (bits : ∀ k row p, row < t'.capacity → p < (t.layout.stride k).toNat →
      t'.bitAt k row p = t.bitAt k row p)
    (objects : ∀ id row, t.ObjectCell id row → row < t'.capacity → t.bitsOf (.field id) row ≠ 0 →
      t'.objects.get? (t.bitsOf (.field id) row).toNat =
        t.objects.get? (t.bitsOf (.field id) row).toNat) : Keeps t t' where
  layout := layout
  stored := stored'
  consistent := consistent
  kept _ row here old :=
    bitsOf_congr stored stored' layout old here fun k p inside => bits k row p here inside
  blank _ row here past := by
    refine bitsOf_eq_zero stored' here fun k p inside => ?_
    rw [layout] at inside
    rw [bits k row p here inside]
    exact bitAt_of_le stored past
  objects := objects

/-- Buffers with room for more rows than there are keep the rows. -/
theorem keeps_failed (intact : t.Intact) (grows : t.capacity < length)
    (sizes : Sized length BitBuffer.resize t.layout.segments t.segments.toList result sized) :
    Keeps t { t with segments := sized.toArray } := by
  have stored := intact.stored
  have rows (k : SegmentId) : t.capacity.toNat * (t.layout.stride k).toNat ≤
      length.toNat * (t.layout.stride k).toNat :=
    Nat.mul_le_mul_right _ (Nat.le_of_lt (UInt64.lt_iff_toNat_lt.mp grows))
  have buffer (k : Nat) (b : BitBuffer) (found : sized.toArray[k]? = some b) :
      b.Canonical ∧ t.capacity.toNat * (t.layout.stride k).toNat ≤ b.size.toNat ∧
        ∃ old, t.segments[k]? = some old ∧
          (∀ p < t.capacity.toNat * (t.layout.stride k).toNat, b.bit p = old.bit p) ∧
          ∀ p, old.bit p = false → b.bit p = false := by
    obtain ⟨old, before, ⟨fits, rfl⟩ | ⟨-, rfl⟩⟩ := sizes.buffer stored found
    · have canonical := stored.canonical k old before
      have size := toNat_mul_exact fits
      have more := rows k
      refine ⟨canonical.resize _, ?_, old, before, fun p inside => ?_, fun p clear => ?_⟩
      · rw [BitBuffer.size_resize, size]
        exact more
      · rw [BitBuffer.bit_resize canonical, size, if_pos (by omega)]
      · rw [BitBuffer.bit_resize canonical, clear, ite_self]
    · exact ⟨stored.canonical k b before, stored.room k b before, b, before, fun _ _ => rfl,
        fun _ clear => clear⟩
  have stored' : ({ t with segments := sized.toArray } : Table).Stored := by
    refine ⟨stored.good, sizes.size stored, fun k b found => (buffer k b found).1,
      fun k b found => (buffer k b found).2.1, fun k b found p past => ?_⟩
    obtain ⟨-, -, old, before, -, clear⟩ := buffer k b found
    exact clear p (stored.blank k old before p past)
  refine keeps_of_bitAt stored stored' rfl intact.consistent (fun k row p here inside => ?_)
    fun _ _ _ _ _ => rfl
  refine bitAt_of_bit t _ (by rfl) (fun k b found => ?_) ?_ here inside
  · obtain ⟨-, -, old, before, same, -⟩ := buffer k b found
    exact ⟨old, before, same⟩
  · exact (sizes.size stored).trans stored.count.symm

section Done

variable (stored : t.Stored)
  (sizes : Sized length BitBuffer.resize t.layout.segments t.segments.toList (.ok ()) sized)
include stored sizes

/-- Buffers that are sized without an overflow have the new length. -/
theorem buffer_done {k : Nat} {b : BitBuffer} (found : sized.toArray[k]? = some b) :
    ∃ old, t.segments[k]? = some old ∧
      length.toNat * (t.layout.stride k).toNat < UInt64.size ∧
      b = old.resize (length * t.layout.stride k) := by
  obtain ⟨old, before, ⟨fits, same⟩ | ⟨failed, -⟩⟩ := sizes.buffer stored found
  · exact ⟨old, before, fits, same⟩
  · exact absurd rfl failed

/-- The rows of the new length have the bits that they had before. -/
theorem bitAt_done {objects : ObjectTable} (cursor : Option UInt64) {k : SegmentId} {row : UInt64}
    {p : Nat} (here : row < length) (inside : p < (t.layout.stride k).toNat) :
    ({ t with objects, segments := sized.toArray, capacity := length, cursor } : Table).bitAt k row
        p = t.bitAt k row p := by
  refine bitAt_of_bit t _ (by rfl) (fun k b found => ?_) ?_ here inside
  · obtain ⟨old, before, fits, rfl⟩ := buffer_done stored sizes found
    refine ⟨old, before, fun p inside => ?_⟩
    rw [BitBuffer.bit_resize (stored.canonical k old before), toNat_mul_exact fits, if_pos inside]
  · exact (sizes.size stored).trans stored.count.symm

end Done

/-- Buffers of exactly the new length keep the rows, and none of these names a
slot that was released. -/
theorem keeps_done (intact : t.Intact) {objects : ObjectTable} (cursor : Option UInt64)
    (released : Released t (NamedFrom t length) { t with objects })
    (sizes : Sized length BitBuffer.resize t.layout.segments t.segments.toList (.ok ()) sized) :
    Keeps t { t with objects, segments := sized.toArray, capacity := length, cursor } := by
  have stored := intact.stored
  have stored' : ({ t with objects, segments := sized.toArray, capacity := length, cursor } :
      Table).Stored := by
    refine stored_of_exact stored.good (sizes.size stored) fun k b g found segment => ?_
    obtain ⟨old, before, fits, rfl⟩ := buffer_done stored sizes found
    rw [stride_eq segment] at fits ⊢
    refine ⟨(stored.canonical k old before).resize _, ?_⟩
    rw [BitBuffer.size_resize, toNat_mul_exact fits]
  refine keeps_of_bitAt stored stored' rfl released.consistent
    (fun k row p here inside => bitAt_done stored sizes cursor here inside) ?_
  intro id row cell here some
  refine released.kept _ ?_
  rintro ⟨id', row', cell', past, same⟩
  obtain ⟨-, rfl⟩ := intact.distinct id row id' row' cell cell' some (UInt64.toNat_inj.mp same)
  exact absurd here (UInt64.not_lt.mpr past)

/-- The storage after the rows from `length` on were released. -/
def trim (s : Storage) (length : UInt64) : Storage :=
  if length < s.table.capacity then s.releaseRows length else s

theorem trim_spec {s : Storage} (intact : s.table.Intact) (length : UInt64) :
    Released s.table (NamedFrom s.table length) (s.trim length).table := by
  unfold trim
  split
  · next shorter => exact releaseRows_spec intact (UInt64.le_of_lt shorter)
  · next longer =>
    refine (Released.refl intact.consistent).congr fun slot => ?_
    simp only [false_iff]
    rintro ⟨id, row, cell, past, -⟩
    exact longer (UInt64.lt_of_le_of_lt past cell.1)

/-- What a change of the length does: nothing if the capacity is fixed, more room
in some buffers if it fails, and else it cuts off rows or adds blank ones. -/
inductive Resizes (s : Storage) (length : UInt64) : Except Error Unit → Storage → Prop where
  | fixed : s.table.growable = false →
      Resizes s length (.error (.index length s.table.capacity)) s
  | failed {e : Error} {segments : List BitBuffer} : s.table.capacity < length →
      Sized length BitBuffer.resize s.table.layout.segments s.table.segments.toList (.error e)
        segments →
      Resizes s length (.error e) { s with table := { s.table with segments := segments.toArray } }
  | done {objects : ObjectTable} {segments : List BitBuffer} :
      Released s.table (NamedFrom s.table length) { s.table with objects } →
      Sized length BitBuffer.resize s.table.layout.segments s.table.segments.toList (.ok ())
        segments →
      Resizes s length (.ok ())
        { table :=
            { s.table with
              objects
              segments := segments.toArray
              capacity := length
              cursor := s.table.cursor.filter (· < length) }
          lists := (s.trim length).lists }

/-- A change of the length that succeeds cuts off rows or adds blank ones. -/
theorem Resizes.of_ok {s after : Storage} {length : UInt64} {result : Except Error Unit}
    (step : Resizes s length result after) (ok : result = .ok ()) :
    ∃ objects segments, Released s.table (NamedFrom s.table length) { s.table with objects } ∧
      Sized length BitBuffer.resize s.table.layout.segments s.table.segments.toList (.ok ())
        segments ∧
      after =
        { table :=
            { s.table with
              objects
              segments := segments.toArray
              capacity := length
              cursor := s.table.cursor.filter (· < length) }
          lists := (s.trim length).lists } := by
  cases step with
  | fixed | failed => cases ok
  | done released sizes => exact ⟨_, _, released, sizes, rfl⟩

theorem resizes {s : Storage} (intact : s.table.Intact) (length : UInt64) :
    Resizes s length (s.resize length).1 (s.resize length).2 := by
  cases growable : s.table.growable with
  | false =>
    simp only [resize, growable, Bool.not_false, if_true]
    exact .fixed growable
  | true =>
    have released := trim_spec intact length
    have sizes := sizeSegments_spec s.table.layout length BitBuffer.resize s.table.layout.segments
      s.table.segments.toList
    simp only [resize, growable, Bool.not_true, Bool.false_eq_true, if_false]
    generalize trimmed : (if length < s.table.capacity then s.releaseRows length else s) = s'
    change s.trim length = s' at trimmed
    have lists : s'.lists = (s.trim length).lists := by rw [trimmed]
    rw [trimmed] at released
    rw [released.same]
    dsimp only
    generalize sizeSegments s.table.layout length BitBuffer.resize s.table.layout.segments
      s.table.segments.toList = sized at sizes
    obtain ⟨result, segments⟩ := sized
    cases result with
    | error e =>
      have grows := sizes.grows intact.stored fun ok => nomatch ok
      have same : s' = s := by
        rw [← trimmed, trim, if_neg (UInt64.not_lt.mpr (UInt64.le_of_lt grows))]
      rw [same]
      exact .failed grows sizes
    | ok =>
      rw [released.same] at released
      rw [lists]
      exact .done released sizes

theorem resize_valid {s : Storage} (valid : s.table.Valid) (length : UInt64) :
    (s.resize length).2.table.Valid := by
  have step := resizes valid.intact length
  generalize s.resize length = outcome at step ⊢
  obtain ⟨result, after⟩ := outcome
  dsimp only at step ⊢
  cases step with
  | fixed => exact valid
  | failed grows sizes =>
    exact ⟨(keeps_failed valid.intact grows sizes).intact valid.intact, valid.answers, valid.active,
      valid.remembered, valid.elements⟩
  | done released sizes =>
    exact ⟨(keeps_done valid.intact _ released sizes).intact valid.intact, valid.answers,
      valid.active, valid.remembered, valid.elements⟩

end BitRecords.Storage
