import BitRecords.Proofs.Layout.Extent
import BitRecords.Proofs.Schema

/-!
# Ids and owners

The ids of a layout are positions in its lists, and they lead to where they
should: a field to the struct that owns it, a union to its members, a segment to
the struct that lies at its start. Parts of a layout are linked in the same way,
counted on from the parts before them, so linked parts may be appended.
-/

namespace BitRecords

open Layout

/-- How a field lies in its struct. A union member lies at the start of the
region and knows its member number, and any other field has a slot of its own. -/
def FieldLayout.LiesIn (f : FieldLayout) : Option UnionRegion → Prop
  | none => f.tag = none ∧ f.width ≤ f.slot.toNat
  | some u =>
    f.offset = u.offset ∧ f.width ≤ u.width ∧ f.type ≠ .object ∧
      ∃ n, f.tag = some (n + 1) ∧ u.members[n]? = some f.id

/-- A struct and one of its own fields. -/
structure StructLayout.Owns (s : StructLayout) (f : FieldLayout) : Prop where
  owner : f.owner = s.id
  listed : f.id ∈ s.fields
  single : s.element = none
  segment : f.segment = s.segment
  lies : f.LiesIn s.union

/-- The region of a union fits a word, its tag tells all members apart, and its
members are fields of the union. -/
structure StructLayout.Unites (s : StructLayout) (u : UnionRegion) (fields : List FieldLayout) :
    Prop where
  narrow : u.width ≤ 64
  tag : u.members.length < 2 ^ u.tagWidth
  segment : u.tag.segment = s.segment
  members : ∀ n id, u.members[n]? = some id →
    ∃ f ∈ fields, f.id = id ∧ s.Owns f ∧ f.tag = some (n + 1)

namespace Layout

/-- A part whose ids count on from the parts before it. -/
structure Part.Linked (p : Part) (counts : Counts) : Prop where
  structs : ∀ i s, p.structs[i]? = some s → s.id = counts.structs + i
  fields : ∀ i f, p.fields[i]? = some f → f.id = counts.fields + i
  owners : ∀ f ∈ p.fields, ∃ s ∈ p.structs, s.Owns f
  unions : ∀ s ∈ p.structs, ∀ u, s.union = some u → s.Unites u p.fields
  segments : ∀ g ∈ p.segments, ∃ s ∈ p.structs, s.id = g.owner ∧ s.element = none

namespace Part.Linked

variable {counts : Counts}

theorem empty : ({} : Part).Linked counts where
  structs := by simp
  fields := by simp
  owners := by simp
  unions := by simp
  segments := by simp

theorem append {a b : Part} (left : a.Linked counts) (right : b.Linked (counts.after a)) :
    (a ++ b).Linked counts where
  structs i s found := by
    rw [structs_append, List.getElem?_append] at found
    split at found
    · exact left.structs i s found
    · have id := right.structs _ s found
      simp only [Counts.after] at id
      omega
  fields i f found := by
    rw [fields_append, List.getElem?_append] at found
    split at found
    · exact left.fields i f found
    · have id := right.fields _ f found
      simp only [Counts.after] at id
      omega
  owners f member := by
    rw [fields_append, List.mem_append] at member
    rcases member with member | member
    · obtain ⟨s, inside, owns⟩ := left.owners f member
      exact ⟨s, List.mem_append_left _ inside, owns⟩
    · obtain ⟨s, inside, owns⟩ := right.owners f member
      exact ⟨s, List.mem_append_right _ inside, owns⟩
  unions s member u union := by
    rw [structs_append, List.mem_append] at member
    rcases member with member | member
    · have unites := left.unions s member u union
      refine { unites with members := fun n id found => ?_ }
      obtain ⟨f, inside, same⟩ := unites.members n id found
      exact ⟨f, List.mem_append_left _ inside, same⟩
    · have unites := right.unions s member u union
      refine { unites with members := fun n id found => ?_ }
      obtain ⟨f, inside, same⟩ := unites.members n id found
      exact ⟨f, List.mem_append_right _ inside, same⟩
  segments g member := by
    rw [segments_append, List.mem_append] at member
    rcases member with member | member
    · obtain ⟨s, inside, same⟩ := left.segments g member
      exact ⟨s, List.mem_append_left _ inside, same⟩
    · obtain ⟨s, inside, same⟩ := right.segments g member
      exact ⟨s, List.mem_append_right _ inside, same⟩

theorem eq_of_id {p : Part} (linked : p.Linked counts) {a b : StructLayout} (inA : a ∈ p.structs)
    (inB : b ∈ p.structs) (same : a.id = b.id) : a = b := by
  obtain ⟨i, foundA⟩ := List.mem_iff_getElem?.mp inA
  obtain ⟨j, foundB⟩ := List.mem_iff_getElem?.mp inB
  have idA := linked.structs i a foundA
  have idB := linked.structs j b foundB
  obtain rfl : i = j := Nat.add_left_cancel (idA.symm.trans (same.trans idB))
  exact Option.some.inj (foundA.symm.trans foundB)

/-- A list owns no field and no segment. -/
theorem unowned {p : Part} (linked : p.Linked counts) {s : StructLayout} (member : s ∈ p.structs)
    (isList : s.isList = true) :
    (∀ f ∈ p.fields, f.owner ≠ s.id) ∧ ∀ g ∈ p.segments, g.owner ≠ s.id := by
  have other {t : StructLayout} (inside : t ∈ p.structs) (single : t.element = none) :
      t.id ≠ s.id := by
    intro same
    rw [StructLayout.isList, ← linked.eq_of_id inside member same, single] at isList
    cases isList
  constructor
  · intro f inside
    obtain ⟨t, inside, owns⟩ := linked.owners f inside
    rw [owns.owner]
    exact other inside owns.single
  · intro g inside
    obtain ⟨t, inside, owner, single⟩ := linked.segments g inside
    rw [← owner]
    exact other inside single

end Part.Linked

end Layout

namespace LayoutRules

theorem lt_two_pow_tagWidth (members : Nat) : members < 2 ^ tagWidth members := by
  unfold tagWidth
  split
  · next none => simp [none]
  · exact Nat.lt_log2_self

theorem width_le_widest {fields : List Field} {f : Field} (member : f ∈ fields) :
    f.type.width ≤ widest fields := by
  have grows : ∀ (fields : List Field) (width : Nat),
      width ≤ fields.foldl (fun width f => max width f.type.width) width ∧
      ∀ f ∈ fields, f.type.width ≤ fields.foldl (fun width f => max width f.type.width) width := by
    intro fields
    induction fields with
    | nil => simp
    | cons first rest ih =>
      intro width
      obtain ⟨start, others⟩ := ih (max width first.type.width)
      refine ⟨Nat.le_trans (Nat.le_max_left _ _) start, ?_⟩
      intro f member
      rcases List.mem_cons.mp member with rfl | member
      · exact Nat.le_trans (Nat.le_max_right _ _) start
      · exact others f member
  exact (grows fields 0).2 f member

/-- A schema that passes the union check has no object field in a union. -/
theorem not_object_of_checkUnion {s : Schema} (union : s.flags.union = true)
    (checked : s.checkUnion = .ok ()) {f : Field} (member : f ∈ s.fields) : f.type ≠ .object := by
  obtain ⟨rule, -⟩ := (Schema.judged_checkUnion s).ok_iff.mp checked
  exact (rule union).2 f member

theorem getElem?_placeMembers (place : Place) (owner : StructId) (region : UInt64) (id : FieldId)
    (tag : Nat) (fields : List Field) (i : Nat) :
    (placeMembers place owner region id tag fields)[i]? = fields[i]?.map fun f =>
      { id := id + i, name := f.name, path := joinPath place.path f.name, owner, type := f.type
        segment := place.segment, offset := place.offset, slot := region
        tag := some (tag + i) } := by
  induction fields generalizing id tag i with
  | nil => simp [placeMembers]
  | cons f rest ih =>
    cases i with
    | zero => simp [placeMembers]
    | succ i =>
      simp only [placeMembers, List.getElem?_cons_succ, ih]
      cases rest[i]? with
      | none => rfl
      | some g => simp [Nat.add_assoc, Nat.add_comm 1 i]

theorem length_placeMembers (place : Place) (owner : StructId) (region : UInt64) (id : FieldId)
    (tag : Nat) (fields : List Field) :
    (placeMembers place owner region id tag fields).length = fields.length := by
  induction fields generalizing id tag with
  | nil => rfl
  | cons f rest ih => simp [placeMembers, ih]

theorem placeFields_spec {r : LayoutRules} {place : Place} {owner : StructId} {fields : List Field}
    {id : Nat} {cursor finish : UInt64} {placed : List FieldLayout}
    (ok : r.placeFields place owner id cursor fields = .ok (placed, finish)) (i : Nat)
    (f : FieldLayout) (found : placed[i]? = some f) :
    f.id = id + i ∧ f.owner = owner ∧ f.segment = place.segment ∧ f.tag = none ∧
      f.width ≤ f.slot.toNat := by
  induction fields generalizing id cursor placed i with
  | nil =>
    cases ok
    simp at found
  | cons first rest ih =>
    obtain ⟨slot, others, slotOk, -, othersOk, rfl⟩ := placeFields_cons_eq_ok.mp ok
    cases i with
    | zero =>
      simp only [List.getElem?_cons_zero, Option.some.injEq] at found
      subst found
      exact ⟨rfl, rfl, rfl, rfl, (slot_eq_ok slotOk).2⟩
    | succ i =>
      obtain ⟨number, rest⟩ := ih othersOk i found
      exact ⟨number.trans (by rw [Nat.add_assoc, Nat.add_comm 1]), rest⟩

variable {r : LayoutRules} {place : Place} {counts : Counts} {s : Schema}

theorem fieldIds_placesOwn {union : Bool} {own : OwnFields}
    (step : PlacesOwn r place counts s union own) (i : Nat) (f : FieldLayout)
    (found : own.fields[i]? = some f) : f.id = counts.fields + i := by
  cases step with
  | union _ _ _ _ =>
    rw [getElem?_placeMembers] at found
    obtain ⟨field, _, rfl⟩ := Option.map_eq_some_iff.mp found
    rfl
  | plain fieldsOk => exact (placeFields_spec fieldsOk i f found).1

/-- The struct owns the fields that are placed for it. -/
theorem owns_placed {own : OwnFields} {inner : Children} {stride : UInt64}
    (step : PlacesOwn r place counts { s with flags := place.flagsOf s } s.flags.union own)
    {f : FieldLayout} (member : f ∈ own.fields) :
    (placed place counts s own inner stride).Owns f := by
  obtain ⟨i, found⟩ := List.mem_iff_getElem?.mp member
  have listed : f.id ∈ own.fields.map (·.id) := List.mem_map_of_mem member
  generalize union : s.flags.union = isUnion at step
  cases step with
  | union checked _ _ _ =>
    simp only at found listed
    rw [getElem?_placeMembers] at found
    obtain ⟨field, fieldFound, rfl⟩ := Option.map_eq_some_iff.mp found
    have fieldMember : field ∈ s.fields := List.mem_of_getElem? fieldFound
    have kept : (place.flagsOf s).union = true := by
      rw [Place.flagsOf]
      split <;> exact union
    refine ⟨rfl, listed, rfl, rfl, rfl, width_le_widest fieldMember,
      not_object_of_checkUnion kept checked fieldMember, i, ?_, ?_⟩
    · simp [Nat.add_comm]
    · simp [getElem?_placeMembers, fieldFound]
  | plain fieldsOk =>
    obtain ⟨-, owner, segment, lies⟩ := placeFields_spec fieldsOk i f found
    exact ⟨owner, listed, rfl, segment, lies⟩

theorem unites_placed {own : OwnFields} {inner : Children} {stride : UInt64}
    (step : PlacesOwn r place counts { s with flags := place.flagsOf s } s.flags.union own)
    {u : UnionRegion} (union : own.union = some u) :
    (placed place counts s own inner stride).Unites u own.fields := by
  have owns : ∀ f ∈ own.fields, (placed place counts s own inner stride).Owns f :=
    fun f member => owns_placed step member
  generalize s.flags.union = isUnion at step
  cases step with
  | union checked narrow _ _ =>
    cases union
    refine ⟨narrow, ?_, rfl, ?_⟩
    · simp only [List.length_map, length_placeMembers]
      exact lt_two_pow_tagWidth _
    · intro n id found
      rw [List.getElem?_map, Option.map_eq_some_iff] at found
      obtain ⟨f, found, rfl⟩ := found
      have member := List.mem_of_getElem? found
      refine ⟨f, member, rfl, owns f member, ?_⟩
      rw [getElem?_placeMembers] at found
      obtain ⟨field, _, rfl⟩ := Option.map_eq_some_iff.mp found
      simp [Nat.add_comm]
  | plain => cases union

theorem placement_linked (r : LayoutRules) :
    (∀ s place counts part stride, r.placeStruct place counts s = .ok (part, stride) →
      part.Linked counts ∧
        ∃ top rest, part.structs = top :: rest ∧ top.id = counts.structs ∧ top.element = none) ∧
    (∀ children below cursor counts result,
      r.placeChildren below cursor counts children = .ok result → result.part.Linked counts) := by
  refine placement_induction r
    (P := fun place counts _ part _ => part.Linked counts ∧
      ∃ top rest, part.structs = top :: rest ∧ top.id = counts.structs ∧ top.element = none)
    (Q := fun _ _ counts _ result => result.part.Linked counts)
    ?struct ?none ?list ?optional ?plain
  case struct =>
    intro place counts s own inner stride _ ownOk children _
    refine ⟨Part.Linked.append ?_ children, _, _, rfl, rfl, rfl⟩
    refine ⟨?_, fieldIds_placesOwn ownOk, ?_, ?_, by simp⟩
    · intro i s found
      rw [List.getElem?_singleton] at found
      split at found
      · next first =>
        cases found
        simp [first, placed]
      · cases found
    · intro f member
      exact ⟨_, List.mem_singleton_self _, owns_placed ownOk member⟩
    · intro s member u union
      cases List.mem_singleton.mp member
      exact unites_placed ownOk union
  case none =>
    intro below cursor counts
    exact Part.Linked.empty
  case list =>
    intro below cursor counts child rest inner stride others _ _ _ ih
    refine Part.Linked.append ?_ ih
    refine ⟨?_, by simp, by simp, ?_, by simp⟩
    · intro i s found
      rw [List.getElem?_singleton] at found
      split at found
      · next first =>
        cases found
        simp [first, placedList]
      · cases found
    · intro s member u union
      cases List.mem_singleton.mp member
      cases union
  case optional =>
    intro below cursor counts child rest slot inner stride others _ _ _ _ _ first ih
    obtain ⟨linked, top, below, split, id, single⟩ := first
    refine Part.Linked.append ?_ ih
    refine ⟨linked.structs, linked.fields, linked.owners, linked.unions, ?_⟩
    intro g member
    rcases List.mem_cons.mp member with rfl | member
    · exact ⟨top, by simp [split], id, single⟩
    · exact linked.segments g member
  case plain =>
    intro below cursor counts child rest part stride others _ _ _ _ first ih
    exact Part.Linked.append first.1 ih

end LayoutRules

end BitRecords
