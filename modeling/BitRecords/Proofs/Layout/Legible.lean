import BitRecords.Proofs.Layout.Bodies
import BitRecords.Proofs.Layout.Bytes

/-!
# What marks tell

The mark of a struct tells what follows it: its flags tell whether there are the places of
a union and the digest of list elements, and whether there can be a presence bit. There are
as many segments as presence bits, and one more. Of the members of a union the first one
comes first.
-/

namespace BitRecords

open Layout

/-- The flags of the struct tell whether it is a list and whether it has the region of a
union. Without the optional flag it has no presence bit. -/
structure StructLayout.Told (s : StructLayout) : Prop where
  list : s.isList = s.flags.list
  union : s.union.isSome = (s.flags.union && !s.flags.list)
  presence : s.presence.isSome = true → s.flags.optional = true

/-- The first union member among the fields is the first one of its union. -/
def FirstMember (fields : List FieldLayout) : Prop :=
  ∀ f, fields.find? (·.tag.isSome) = some f → f.tag = some 1

theorem FirstMember.append {xs ys : List FieldLayout} (left : FirstMember xs)
    (right : FirstMember ys) : FirstMember (xs ++ ys) := by
  intro f found
  rw [List.find?_append] at found
  cases here : xs.find? (·.tag.isSome) with
  | none =>
    rw [here] at found
    exact right f found
  | some g =>
    rw [here] at found
    exact left f (here.trans found)

theorem firstMember_nil : FirstMember [] := by
  intro f found
  cases found

/-- Fields that are no union members may be left out at the front. -/
theorem FirstMember.tail {f : FieldLayout} {fields : List FieldLayout}
    (first : FirstMember (f :: fields)) (single : f.tag = none) : FirstMember fields := by
  intro g found
  refine first g ?_
  rw [List.find?_cons_of_neg (by simp [single])]
  exact found

namespace Layout

/-- The part is told by its marks, of which some have the presence bits of segments that do
not belong to it. -/
structure Part.Told (p : Part) (others : Nat) : Prop where
  structs : ∀ s ∈ p.structs, s.Told
  members : FirstMember p.fields
  segments : p.structs.countP (·.presence.isSome) = p.segments.length + others

theorem Part.Told.append {p q : Part} {m n : Nat} (left : p.Told m) (right : q.Told n) :
    (p ++ q).Told (m + n) where
  structs := List.forall_mem_append.mpr ⟨left.structs, right.structs⟩
  members := left.members.append right.members
  segments := by
    rw [structs_append, segments_append, List.countP_append, List.length_append, left.segments,
      right.segments]
    omega

end Layout

namespace LayoutRules

variable {r : LayoutRules} {place : Place} {counts : Counts} {s : Schema} {union : Bool}
variable {own : OwnFields}

theorem isSome_union (step : PlacesOwn r place counts s union own) :
    own.union.isSome = union := by
  cases step <;> rfl

theorem find?_placeFields {owner : StructId} {fields : List Field} {id : FieldId}
    {cursor finish : UInt64} {placed : List FieldLayout}
    (ok : r.placeFields place owner id cursor fields = .ok (placed, finish)) :
    placed.find? (·.tag.isSome) = none := by
  induction fields generalizing id cursor placed with
  | nil =>
    cases ok
    rfl
  | cons f rest ih =>
    obtain ⟨slot, others, -, -, othersOk, rfl⟩ := placeFields_cons_eq_ok.mp ok
    rw [List.find?_cons_of_neg (by simp [placedField])]
    exact ih othersOk

theorem firstMember_placesOwn (step : PlacesOwn r place counts s union own) :
    FirstMember own.fields := by
  intro f found
  cases step with
  | union =>
    cases fields : s.fields with
    | nil =>
      rw [fields] at found
      cases found
    | cons field rest =>
      rw [fields] at found
      cases found
      rfl
  | plain ok =>
    rw [find?_placeFields ok] at found
    cases found

/-- A struct that is not a list is told by its flags, and so is all that lies below it. -/
theorem placement_told (r : LayoutRules) :
    (∀ s place counts part stride, r.placeStruct place counts s = .ok (part, stride) →
      (place.flagsOf s).list = false →
      (place.presence.isSome = true → (place.flagsOf s).optional = true) →
        part.Told (if place.presence.isSome then 1 else 0)) ∧
    (∀ children below cursor counts result,
      r.placeChildren below cursor counts children = .ok result →
      below.presence = none → below.parent.isSome = true → result.part.Told 0) := by
  refine placement_induction r
    (P := fun place _ s part _ => (place.flagsOf s).list = false →
      (place.presence.isSome = true → (place.flagsOf s).optional = true) →
        part.Told (if place.presence.isSome then 1 else 0))
    (Q := fun below _ _ _ result => below.presence = none → below.parent.isSome = true →
      result.part.Told 0) ?struct ?none ?list ?optional ?plain
  case struct =>
    intro place counts s own inner stride _ ownOk ih _ single shown
    refine Part.Told.append (n := 0) ⟨?_, firstMember_placesOwn ownOk, ?_⟩ (ih rfl rfl)
    · intro x member
      cases List.mem_singleton.mp member
      refine ⟨single.symm, ?_, shown⟩
      change own.union.isSome = ((place.flagsOf s).union && !(place.flagsOf s).list)
      rw [isSome_union ownOk, single, Place.union_flagsOf]
      simp
    · rw [List.countP_singleton]
      exact (Nat.zero_add _).symm
  case none =>
    intro below cursor counts _ _
    exact ⟨by simp, firstMember_nil, rfl⟩
  case list =>
    intro below cursor counts child rest inner stride others isList _ _ ih single nested
    refine Part.Told.append (m := 0) ⟨?_, firstMember_nil, rfl⟩ (ih single nested)
    intro x member
    cases List.mem_singleton.mp member
    refine ⟨isList.symm, by simp [placedList, isList], fun some => ?_⟩
    cases some
  case optional =>
    intro below cursor counts child rest slot inner stride others notList isOptional _ _ _ first ih
      single nested
    have flags : (below.optional cursor counts.segments child).flagsOf child = child.flags := by
      rw [Place.flagsOf, if_neg]
      exact fun root => Option.isSome_iff_ne_none.mp nested (Option.isNone_iff_eq_none.mp root)
    obtain ⟨structs, members, segments⟩ :=
      first (by rw [flags, notList]) (fun _ => by rw [flags, isOptional])
    have here : Part.Told { inner with segments := ⟨counts.structs, stride⟩ :: inner.segments } 0 :=
      ⟨structs, members, by simpa [Place.optional] using segments⟩
    exact here.append (ih single nested)
  case plain =>
    intro below cursor counts child rest part stride others notList notOptional _ _ first ih single
      nested
    have flags : (below.child cursor child).flagsOf child = child.flags := by
      rw [Place.flagsOf, if_neg]
      exact fun root => Option.isSome_iff_ne_none.mp nested (Option.isNone_iff_eq_none.mp root)
    have here := first (by rw [flags, notList]) (fun some => by
      simp [Place.child, single] at some)
    simp only [Place.child, single] at here
    exact here.append (ih single nested)

end LayoutRules

namespace Layout

variable {l : Layout}

/-- What the marks of a layout tell. -/
structure Legible (l : Layout) : Prop where
  structs : ∀ s ∈ l.structs, s.Told
  members : FirstMember l.fields
  segments : l.segments.length = l.structs.countP (·.presence.isSome) + 1

theorem Placed.legible (placed : l.Placed) : l.Legible := by
  cases placed with
  | @intro r s part stride named ok =>
    obtain ⟨structs, members, segments⟩ :=
      (LayoutRules.placement_told r).1 _ _ _ _ _ ok rfl (fun some => by cases some)
    exact ⟨structs, members, congrArg (· + 1) segments.symm⟩

/-- The numbers of all structs fit their bytes if the ids of the segments are words. -/
theorem Legible.narrow_struct (legible : l.Legible) (sound : l.Sound) (settled : l.Settled)
    (words : l.segments.length ≤ UInt64.size) {s : StructLayout} (member : s ∈ l.structs) :
    s.mark.Narrow := by
  have word {k : SegmentId} (inside : k < l.segments.length) : k < UInt64.size :=
    Nat.lt_of_lt_of_le inside words
  refine ⟨word (settled.structs s member), fun slot presence => ?_, fun u union => ?_, ?_⟩
  · have span : ⟨.presence s.id, slot.segment, slot.offset.toNat, 1⟩ ∈ l.spans := by
      refine List.mem_append_right _ (List.mem_flatMap.mpr ⟨s, member, ?_⟩)
      have presence : s.presence = some slot := presence
      simp [StructLayout.spans, presenceSpans, presence]
    obtain ⟨g, found, -⟩ := sound.inside _ span
    exact word (List.getElem?_eq_some_iff.mp found).1
  · obtain ⟨region, here, rfl⟩ := Option.map_eq_some_iff.mp union
    have unites := (sound.unions s member region here).1
    exact ⟨unites.narrow, unites.segment ▸ word (settled.structs s member)⟩
  · rw [StructLayout.mark, Option.isSome_map]
    exact (legible.structs s member).union

theorem Settled.narrow_field (settled : l.Settled) (typed : l.Typed)
    (words : l.segments.length ≤ UInt64.size) {f : FieldLayout} (member : f ∈ l.fields) :
    f.mark.Narrow :=
  ⟨typed.fields f member, Nat.lt_of_lt_of_le (settled.fields f member) words⟩

end Layout

end BitRecords
