import BitRecords.Proofs.Layout.Interchange

/-!
# Fields inside the bodies of structs

The bits of a field lie in the body of its owner. Of all other bodies they lie only in
those of the structs above the owner, since what is placed beside a struct or below a
sibling is kept apart from it. Which structs are above can be told from the path.
-/

namespace BitRecords

open Layout

/-- The bits of the field. Those of a union member are the first ones of the region. -/
def FieldLayout.bits (f : FieldLayout) : Span :=
  ⟨.field f.id, f.segment, f.offset.toNat, f.width⟩

/-- The body of the struct as one span. -/
def StructLayout.room (s : StructLayout) : Span :=
  ⟨.region s.id, s.segment, s.offset.toNat, s.stride.toNat⟩

/-- The path goes on below the struct. -/
def StructLayout.Leads (s : StructLayout) (path : String) : Prop :=
  ∃ name, pathNames s.path ++ [name] <+: pathNames path

/-- A field lies where the spans of its owner lie. -/
theorem StructLayout.Owns.bits_between {s : StructLayout} {f : FieldLayout} (owns : s.Owns f)
    {first last : Nat} (spans : ∀ x ∈ f.spans ++ unionSpans s.id s.segment s.union,
      x.Between s.segment first last) : f.bits.Between s.segment first last := by
  have lies := owns.lies
  cases union : s.union with
  | none =>
    rw [union] at lies
    obtain ⟨single, wide⟩ := lies
    have between := spans ⟨.field f.id, f.segment, f.offset.toNat, f.slot.toNat⟩
      (List.mem_append_left _ (by simp [FieldLayout.spans, single]))
    exact ⟨between.segment, between.start, Nat.le_trans (Nat.add_le_add_left wide _) between.finish⟩
  | some u =>
    rw [union] at lies spans
    obtain ⟨offset, narrow, -⟩ := lies
    have between := spans ⟨.region s.id, s.segment, u.offset.toNat, u.width⟩
      (List.mem_append_right _ List.mem_cons_self)
    have start := congrArg UInt64.toNat offset
    refine ⟨owns.segment, between.start.trans_eq start.symm, ?_⟩
    have finish := between.finish
    simp only [Span.finish, FieldLayout.bits] at finish ⊢
    omega

namespace Layout

theorem Zone.mono {segment : SegmentId} {first last first' last' base : Nat}
    {segments : List Segment} {x : Span} (zone : Zone segment first last base segments x)
    (lower : first' ≤ first) (upper : last ≤ last') :
    Zone segment first' last' base segments x := by
  cases zone with
  | body between => exact .body (between.mono lower upper)
  | added found fits => exact .added found fits

/-- The bodies and fields of the part keep to a zone. Each field lies in the body of its owner,
and in no other body but those that its path leads through. -/
structure Part.Settled (p : Part) (segment : SegmentId) (first last base : Nat)
    (segments : List Segment) : Prop where
  rooms : ∀ s ∈ p.structs, Zone segment first last base segments s.room
  bits : ∀ f ∈ p.fields, Zone segment first last base segments f.bits
  owned : ∀ f ∈ p.fields, ∃ s ∈ p.structs, ∃ name, PlainName name ∧
    f.path = joinPath s.path name ∧ s.Holds f.bits
  apart : ∀ s ∈ p.structs, ∀ f ∈ p.fields, s.Leads f.path ∨ s.room.Apart f.bits

namespace Part.Settled

variable {p q : Part} {segment : SegmentId} {first middle last base : Nat} {a b : List Segment}

theorem append (left : p.Settled segment first middle base a)
    (right : q.Settled segment middle last (base + a.length) b) (shared : segment < base)
    (lower : first ≤ middle) (upper : middle ≤ last) :
    (p ++ q).Settled segment first last base (a ++ b) where
  rooms s member := by
    rcases List.mem_append.mp member with member | member
    · exact (left.rooms s member).before upper b
    · exact (right.rooms s member).after lower
  bits f member := by
    rcases List.mem_append.mp member with member | member
    · exact (left.bits f member).before upper b
    · exact (right.bits f member).after lower
  owned f member := by
    rcases List.mem_append.mp member with member | member
    · obtain ⟨s, inside, owned⟩ := left.owned f member
      exact ⟨s, List.mem_append_left _ inside, owned⟩
    · obtain ⟨s, inside, owned⟩ := right.owned f member
      exact ⟨s, List.mem_append_right _ inside, owned⟩
  apart s member f inside := by
    rcases List.mem_append.mp member with member | member
    · rcases List.mem_append.mp inside with inside | inside
      · exact left.apart s member f inside
      · exact .inr ((left.rooms s member).apart shared (right.bits f inside))
    · rcases List.mem_append.mp inside with inside | inside
      · exact .inr ((left.bits f inside).apart shared (right.rooms s member)).symm
      · exact right.apart s member f inside

end Part.Settled

end Layout

namespace LayoutRules

variable {r : LayoutRules}

theorem bits_placesOwn {place : Place} {counts : Counts} {s : Schema} {own : OwnFields}
    (inner : Children) (stride : UInt64)
    (ownOk : PlacesOwn r place counts { s with flags := place.flagsOf s } s.flags.union own) :
    ∀ f ∈ own.fields,
      f.bits.Between place.segment place.offset.toNat own.finish.toNat := by
  intro f member
  have owns : (placed place counts s own inner stride).Owns f := owns_placed ownOk member
  obtain ⟨-, between⟩ := spans_placesOwn ownOk counts.structs
  rw [finish_placesOwn ownOk]
  refine owns.bits_between fun x inside => between x ?_
  rcases List.mem_append.mp inside with inside | inside
  · exact List.mem_append_left _ (List.mem_flatMap.mpr ⟨f, member, inside⟩)
  · exact List.mem_append_right _ inside

/-- The own fields lie before what is placed for the children, and all of it in the body. -/
theorem settled_struct {place : Place} {counts : Counts} {s : Schema} {own : OwnFields}
    {inner : Children} {stride : UInt64}
    (ok : r.placeStruct place counts s = .ok
      ({ structs := [placed place counts s own inner stride], fields := own.fields } ++
        inner.part, stride))
    (ownOk : PlacesOwn r place counts { s with flags := place.flagsOf s } s.flags.union own)
    (named : ∀ body ∈ s.bodies, body.Named) (shared : place.segment < counts.segments)
    (children : inner.part.Settled place.segment own.finish.toNat
      (own.finish.toNat + r.childrenExtent s.children) counts.segments inner.part.segments) :
    Part.Settled
      ({ structs := [placed place counts s own inner stride], fields := own.fields } ++ inner.part)
      place.segment place.offset.toNat (place.offset.toNat + stride.toNat) counts.segments
      inner.part.segments := by
  have here := named s (Schema.mem_bodies.mpr (.inl rfl))
  have enough := ((placement_exact r).1 _ _ _ _ _ ok).extent_le
  have ends := finish_placesOwn ownOk
  dsimp only at ends
  rw [extent_eq] at enough
  have ownBits := bits_placesOwn inner stride ownOk
  have upper : own.finish.toNat ≤ place.offset.toNat + stride.toNat := by omega
  refine ⟨List.forall_mem_cons.mpr ⟨.body ⟨rfl, Nat.le_refl _, Nat.le_refl _⟩, fun x member => ?_⟩,
    List.forall_mem_append.mpr ⟨fun f member => ?_, fun f member => ?_⟩,
    List.forall_mem_append.mpr ⟨fun f member => ?_, fun f member => ?_⟩,
    List.forall_mem_cons.mpr ⟨fun f member => .inl ?_, fun x member f inside => ?_⟩⟩
  · exact (children.rooms x member).mono (by omega) (by omega)
  · exact .body ((ownBits f member).mono (Nat.le_refl _) upper)
  · exact (children.bits f member).mono (by omega) (by omega)
  · obtain ⟨name, plain, path⟩ := path_placesOwn ownOk here.fields f member
    exact ⟨_, List.mem_cons_self, name, plain, path,
      (ownBits f member).mono (Nat.le_refl _) upper⟩
  · obtain ⟨x, inside, owned⟩ := children.owned f member
    exact ⟨x, List.mem_cons_of_mem _ inside, owned⟩
  · obtain ⟨_, top, name, before⟩ := (liesBelow named _ _ _ _ ok).fields f member
    cases List.mem_singleton.mp top
    exact ⟨name, before⟩
  · rcases List.mem_append.mp inside with inside | inside
    · have before : Zone place.segment place.offset.toNat own.finish.toNat counts.segments []
          f.bits := .body (ownBits f inside)
      exact .inr (before.apart shared (children.rooms x member)).symm
    · exact children.apart x member f inside

theorem placement_settled (r : LayoutRules) :
    (∀ s place counts part stride, r.placeStruct place counts s = .ok (part, stride) →
      (∀ body ∈ s.bodies, body.Named) → place.segment < counts.segments →
        part.Settled place.segment place.offset.toNat (place.offset.toNat + stride.toNat)
          counts.segments part.segments) ∧
    (∀ children below cursor counts result,
      r.placeChildren below cursor counts children = .ok result →
      (∀ child ∈ children, child.NamedChild) → below.segment < counts.segments →
        result.part.Settled below.segment cursor.toNat
          (cursor.toNat + r.childrenExtent children) counts.segments result.part.segments) := by
  refine placement_induction r
    (P := fun place counts s part stride => (∀ body ∈ s.bodies, body.Named) →
      place.segment < counts.segments → part.Settled place.segment place.offset.toNat
        (place.offset.toNat + stride.toNat) counts.segments part.segments)
    (Q := fun below cursor counts children result => (∀ child ∈ children, child.NamedChild) →
      below.segment < counts.segments → result.part.Settled below.segment cursor.toNat
        (cursor.toNat + r.childrenExtent children) counts.segments result.part.segments)
    ?struct ?none ?list ?optional ?plain
  case struct =>
    intro place counts s own inner stride ok ownOk ih _ named shared
    exact settled_struct ok ownOk named shared (ih (Schema.namedChild named) shared)
  case none =>
    intro below cursor counts _ _
    exact ⟨by simp, by simp, by simp, by simp⟩
  case list =>
    intro below cursor counts child rest inner stride others isList _ _ ih named shared
    rw [childrenExtent_list r isList]
    have others := ih (fun c inside => named c (List.mem_cons_of_mem _ inside)) shared
    have here : Part.Settled
        { structs := [r.placedList below cursor counts.structs child inner stride] }
        below.segment cursor.toNat cursor.toNat counts.segments [] := by
      refine ⟨fun x member => ?_, by simp, by simp, by simp⟩
      cases List.mem_singleton.mp member
      exact .body ⟨rfl, Nat.le_refl _, Nat.le_refl _⟩
    exact here.append others shared (Nat.le_refl _) (Nat.le_add_right _ _)
  case optional =>
    intro below cursor counts child rest slot inner stride others notList isOptional slotOk fits
      innerOk first ih named shared
    rw [childrenExtent_optional r notList isOptional]
    obtain ⟨rfl, wide⟩ := slot_eq_ok slotOk
    have others := ih (fun c inside => named c (List.mem_cons_of_mem _ inside))
      (Nat.lt_of_lt_of_le shared (Nat.le_add_right _ _))
    rw [toNat_add_exact fits, Nat.add_assoc] at others
    obtain ⟨rooms, bits, owned, apart⟩ :=
      first (named child List.mem_cons_self).2 (Nat.lt_succ_self _)
    -- The row of the new segment takes the body, so all of it is in added segments.
    have zone {x : Span} (zone : Zone counts.segments 0 (0 + stride.toNat) (counts.segments + 1)
        inner.segments x) : Zone below.segment cursor.toNat
          (cursor.toNat + (r.strategy.slotBits 1).toNat) counts.segments
          (⟨counts.structs, stride⟩ :: inner.segments) x := by
      cases zone with
      | body between =>
        refine .added (g := ⟨counts.structs, stride⟩) ⟨0, between.segment, rfl⟩ ?_
        exact between.finish.trans_eq (Nat.zero_add _)
      | added found fits => exact .added (found.cons _) fits
    exact Part.Settled.append ⟨fun x member => zone (rooms x member),
      fun f member => zone (bits f member), owned, apart⟩ others shared (Nat.le_add_right _ _)
      (by omega)
  case plain =>
    intro below cursor counts child rest part stride others notList notOptional partOk fits first
      ih named shared
    rw [childrenExtent_plain r notList notOptional, ← bodyStride,
      ← ((placement_exact r).1 _ _ _ _ _ partOk).rounded]
    have others := ih (fun c inside => named c (List.mem_cons_of_mem _ inside))
      (Nat.lt_of_lt_of_le shared (Nat.le_add_right _ _))
    rw [toNat_add_exact fits, Nat.add_assoc] at others
    have here : part.Settled below.segment cursor.toNat (cursor.toNat + stride.toNat)
        counts.segments part.segments := first (named child List.mem_cons_self).2 shared
    exact here.append others shared (Nat.le_add_right _ _) (by omega)

theorem le_offset_placeFields {place : Place} {owner : StructId} {fields : List Field}
    {id : FieldId} {cursor finish : UInt64} {placed : List FieldLayout}
    (ok : r.placeFields place owner id cursor fields = .ok (placed, finish)) :
    ∀ f ∈ placed, cursor.toNat ≤ f.offset.toNat := by
  induction fields generalizing id cursor placed with
  | nil =>
    cases ok
    simp
  | cons f rest ih =>
    obtain ⟨slot, others, -, fits, othersOk, rfl⟩ := placeFields_cons_eq_ok.mp ok
    refine List.forall_mem_cons.mpr ⟨Nat.le_refl _, fun g member => ?_⟩
    have later := ih othersOk g member
    rw [toNat_add_exact fits] at later
    exact Nat.le_trans (Nat.le_add_right _ _) later

/-- The first of the own fields starts the body. If it is no union member, the others lie
behind it. -/
theorem first_placesOwn {place : Place} {counts : Counts} {s : Schema} {union : Bool}
    {own : OwnFields} (step : PlacesOwn r place counts s union own) {f : FieldLayout}
    {rest : List FieldLayout} (fields : own.fields = f :: rest) :
    f.offset = place.offset ∧
      (f.tag = none → 0 < f.width → ∀ g ∈ rest, place.offset.toNat < g.offset.toNat) := by
  cases step with
  | union =>
    generalize s.fields = declared at fields
    cases declared with
    | nil => cases fields
    | cons field declared =>
      cases fields
      exact ⟨rfl, fun single => by cases single⟩
  | plain ok =>
    cases declared : s.fields with
    | nil =>
      rw [declared] at ok
      cases ok
      cases fields
    | cons field later =>
      rw [declared] at ok
      obtain ⟨slot, others, slotOk, fits, othersOk, placed⟩ := placeFields_cons_eq_ok.mp ok
      obtain ⟨rfl, rfl⟩ := List.cons.inj (fields.symm.trans placed)
      refine ⟨rfl, fun _ some g member => ?_⟩
      have after := le_offset_placeFields othersOk g member
      have wide : field.type.width ≤ slot.toNat := (slot_eq_ok slotOk).2
      have some : 0 < field.type.width := some
      rw [toNat_add_exact fits] at after
      omega

end LayoutRules

namespace Layout

variable {l : Layout}

/-- What is told of the bodies and fields of a layout that was placed. -/
structure Settled (l : Layout) : Prop where
  structs : ∀ s ∈ l.structs, s.segment < l.segments.length
  fields : ∀ f ∈ l.fields, f.segment < l.segments.length
  owned : ∀ f ∈ l.fields, ∃ s ∈ l.structs, ∃ name, PlainName name ∧
    f.path = joinPath s.path name ∧ s.Holds f.bits
  apart : ∀ s ∈ l.structs, ∀ f ∈ l.fields, s.Leads f.path ∨ s.room.Apart f.bits

theorem Placed.settled (placed : l.Placed) : l.Settled := by
  cases placed with
  | @intro r s part stride named ok =>
    obtain ⟨rooms, bits, owned, apart⟩ :=
      (LayoutRules.placement_settled r).1 _ _ _ _ _ ok named Nat.one_pos
    have bound {x : Span} (zone : Zone 0 0 (0 + stride.toNat) 1 part.segments x) :
        x.segment < (part.toLayout r.strategy.name stride).segments.length := by
      change x.segment < part.segments.length + 1
      cases zone with
      | body between => exact between.segment ▸ Nat.succ_pos _
      | added found _ =>
        obtain ⟨i, same, found⟩ := found
        rw [same, Nat.add_comm 1]
        exact Nat.succ_lt_succ (List.getElem?_eq_some_iff.mp found).1
    exact ⟨fun s member => bound (rooms s member), fun f member => bound (bits f member), owned,
      apart⟩

/-- A field whose place is in the body of a struct lies below the struct, also by its path. -/
theorem Settled.leads (settled : l.Settled) {s : StructLayout} {f : FieldLayout}
    (member : s ∈ l.structs) (inside : f ∈ l.fields) (some : 0 < f.width)
    (holds : s.Holds f.bits) : s.Leads f.path := by
  refine (settled.apart s member f inside).resolve_right fun apart => ?_
  obtain ⟨segment, start, finish⟩ := holds
  simp only [StructLayout.body, FieldLayout.bits, Span.finish] at segment start finish
  rcases apart with other | before | after
  · exact other segment.symm
  · simp only [StructLayout.room, FieldLayout.bits, Span.finish] at before
    omega
  · simp only [StructLayout.room, FieldLayout.bits, Span.finish] at after
    omega

/-- If the root has own fields, then these come first. They are told by their paths, and the
first one starts the row. -/
theorem Placed.first (placed : l.Placed) {first : FieldLayout} {rest : List FieldLayout}
    (fields : l.fields = first :: rest) :
    (∀ f ∈ l.fields, '.' ∉ f.path.toList → first.offset = 0) ∧
      (first.tag = none → 0 < first.width → ∀ f ∈ rest, '.' ∉ f.path.toList → f.offset ≠ 0) := by
  cases placed with
  | @intro r s part stride named ok =>
    obtain ⟨own, inner, ownOk, innerOk, -, rfl⟩ := LayoutRules.placeStruct_eq_ok.mp ok
    have step := LayoutRules.placesOwn_of_ok ownOk
    have deeper : ∀ f ∈ inner.part.fields, '.' ∈ f.path.toList := by
      intro f member
      by_contra dotless
      obtain ⟨start, inside, name, before⟩ :=
        (LayoutRules.below_of_named (Schema.namedChild named) innerOk).fields f member
      obtain ⟨child, -, rfl⟩ := List.mem_map.mp inside
      have short := Nat.le_trans before.length_le (length_pathNames_le dotless)
      simp [Schema.startBelow] at short
    change own.fields ++ inner.part.fields = first :: rest at fields
    change (∀ f ∈ own.fields ++ inner.part.fields, _) ∧ _
    cases split : own.fields with
    | nil =>
      rw [split, List.nil_append] at fields
      refine ⟨fun f member dotless => ?_, fun _ _ f member dotless => ?_⟩
      · exact absurd (deeper f member) dotless
      · exact absurd (deeper f (fields ▸ List.mem_cons_of_mem _ member)) dotless
    | cons f more =>
      rw [split] at fields
      obtain ⟨rfl, rfl⟩ := List.cons.inj fields
      obtain ⟨offset, later⟩ := LayoutRules.first_placesOwn step split
      refine ⟨fun _ _ _ => offset, fun single some g member dotless => ?_⟩
      rcases List.mem_append.mp member with member | member
      · intro start
        exact absurd (later single some g member) (by simp [start, Place.root])
      · exact absurd (deeper g member) dotless

/-- What is below a struct other than the root has its path with a dot after it. -/
theorem path_of_leads {s : StructLayout} {path : String} (leads : s.Leads path)
    (notRoot : s.path ≠ "") : ∃ rest, path = s.path ++ "." ++ rest := by
  obtain ⟨name, more, names⟩ := leads
  have some : (pathNames s.path).map String.ofList ≠ [] := by
    intro none
    refine notRoot ?_
    rw [← intercalate_pathNames s.path, none]
    rfl
  have joined := intercalate_pathNames path
  rw [← names, List.append_assoc, List.map_append,
    String.intercalate_append_of_ne_nil some (by simp), intercalate_pathNames] at joined
  exact ⟨_, joined.symm⟩

end Layout

end BitRecords
