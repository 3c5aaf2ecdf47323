import BitRecords.Proofs.Layout.Soundness
import BitRecords.Proofs.Schema

/-!
# Layouts of built schemas

A schema that was built has only fields of admissible types, so that every field,
region and tag fits a word. A compiled layout is the layout of a built schema, or
the layout of list elements in a compiled layout.
-/

namespace BitRecords

open Layout

namespace Schema

/-- The schemas that can be built, where the fields of a struct are counted by a
64-bit number. -/
inductive Buildable : Schema → Prop where
  | build {name : String} {fields : List Field} {children : List Schema} {flags : Flags}
      {s : Schema} : (∀ child ∈ children, Buildable child) → fields.length < UInt64.size →
      Schema.build name fields children flags = .ok s → Buildable s
  | renamed {s t : Schema} {name : String} : Buildable s → s.renamed name = .ok t → Buildable t
  | withFlags {s t : Schema} {flags : Flags} : Buildable s → s.withFlags flags = .ok t →
      Buildable t
  | asOptional {s : Schema} : Buildable s → Buildable s.asOptional
  | asList {s : Schema} : Buildable s → Buildable s.asList

theorem Buildable.rebuilt {s : Schema} (children : ∀ child ∈ s.children, child.Buildable)
    (counted : s.fields.length < UInt64.size)
    (ok : Schema.build s.name s.fields s.children s.flags = .ok s) : s.Buildable :=
  .build children counted ok

/-- The own fields of the struct have admissible types. -/
structure Typed (s : Schema) : Prop where
  counted : s.fields.length < UInt64.size
  admissible : ∀ f ∈ s.fields, f.type.Admissible

/-- Built schemas are constructed: the number of their fields does not matter here. -/
theorem Buildable.constructed {s : Schema} (buildable : s.Buildable) : s.Constructed := by
  induction buildable with
  | build _ _ ok children => exact .build children ok
  | @renamed s t name _ ok constructed => exact .transform (f := .renamed name) constructed ok
  | @withFlags s t flags _ ok constructed => exact .transform (f := .withFlags flags) constructed ok
  | asOptional _ constructed => exact .transform (f := .optional) constructed rfl
  | asList _ constructed => exact .transform (f := .list) constructed rfl

theorem Buildable.wellFormed {s : Schema} (buildable : s.Buildable) : s.WellFormed :=
  buildable.constructed.wellFormed

theorem WellFormed.bodies {s : Schema} (wellFormed : s.WellFormed) :
    ∀ body ∈ s.bodies, body.WellFormed := by
  induction wellFormed with
  | intro regular children ih =>
    intro body member
    rcases mem_bodies.mp member with rfl | ⟨child, inside, below⟩
    · exact .intro regular children
    · exact ih child inside body below

/-- All structs of a built schema keep the rules. -/
theorem Buildable.regular {s : Schema} (buildable : s.Buildable) :
    ∀ body ∈ s.bodies, body.Regular := by
  intro body member
  exact (wellFormed_iff.mp (buildable.wellFormed.bodies body member)).1

/-- Names and flags may be changed after a struct was built, but not its fields. -/
theorem Buildable.counted {s : Schema} (buildable : s.Buildable) :
    ∀ body ∈ s.bodies, body.fields.length < UInt64.size := by
  have kept {s t : Schema} (counted : ∀ body ∈ s.bodies, body.fields.length < UInt64.size)
      (fields : t.fields = s.fields) (children : t.children = s.children) :
      ∀ body ∈ t.bodies, body.fields.length < UInt64.size := by
    intro body member
    rcases mem_bodies.mp member with rfl | ⟨child, inside, below⟩
    · rw [fields]
      exact counted s (mem_bodies.mpr (.inl rfl))
    · rw [children] at inside
      exact counted body (mem_bodies.mpr (.inr ⟨child, inside, below⟩))
  induction buildable with
  | build _ counted ok ih =>
    obtain ⟨-, rfl⟩ := (judged_build _ _ _ _).ok_iff.mp ok
    intro body member
    rcases mem_bodies.mp member with rfl | ⟨child, inside, below⟩
    · exact counted
    · exact ih child inside body below
  | @renamed s t name buildable ok ih =>
    obtain ⟨-, rfl⟩ := (judged_transform buildable.wellFormed (.renamed name)).ok_iff.mp ok
    exact kept ih rfl rfl
  | @withFlags s t flags buildable ok ih =>
    obtain ⟨-, rfl⟩ := (judged_transform buildable.wellFormed (.withFlags flags)).ok_iff.mp ok
    exact kept ih rfl rfl
  | asOptional _ ih => exact kept ih rfl rfl
  | asList _ ih => exact kept ih rfl rfl

theorem Buildable.typed {s : Schema} (buildable : s.Buildable) :
    ∀ body ∈ s.bodies, body.Typed := by
  intro body member
  have regular := buildable.regular body member
  exact ⟨buildable.counted body member, fun f inside => (regular.fields f inside).2⟩

end Schema

namespace Layout

/-- Every field has an admissible type, and the tag of every union fits a word. -/
structure Typed (l : Layout) : Prop where
  fields : ∀ f ∈ l.fields, f.type.Admissible
  tags : ∀ s ∈ l.structs, ∀ u, s.union = some u → u.tagWidth ≤ 64 ∧ u.members.length < UInt64.size

/-- A layout that a table can be trusted with. -/
structure SoundTyped (l : Layout) : Prop where
  sound : l.Sound
  typed : l.Typed

/-- The layouts of built schemas and of the list elements in them. -/
inductive Compiled : Layout → Prop where
  | root {r : LayoutRules} {s : Schema} {l : Layout} : s.Buildable → r.layout s = .ok l →
      Compiled l
  | element {l element : Layout} {s : StructLayout} : Compiled l → s ∈ l.structs →
      s.element = some element → Compiled element

end Layout

namespace LayoutRules

variable {r : LayoutRules}

theorem tagWidth_le {members : Nat} (counted : members < UInt64.size) : tagWidth members ≤ 64 := by
  unfold tagWidth
  split
  · exact Nat.zero_le _
  · next some =>
    exact (Nat.log2_lt some).mpr counted

theorem types_placeFields {place : Place} {owner : StructId} {fields : List Field} {id : FieldId}
    {cursor finish : UInt64} {placed : List FieldLayout}
    (ok : r.placeFields place owner id cursor fields = .ok (placed, finish)) :
    placed.map (·.type) = fields.map (·.type) := by
  induction fields generalizing id cursor placed with
  | nil =>
    cases ok
    rfl
  | cons f rest ih =>
    obtain ⟨slot, others, -, -, othersOk, rfl⟩ := placeFields_cons_eq_ok.mp ok
    rw [List.map_cons, List.map_cons, ih othersOk]
    rfl

theorem typed_placesOwn {place : Place} {counts : Counts} {s : Schema} {union : Bool}
    {own : OwnFields} (step : PlacesOwn r place counts s union own) (typed : s.Typed) :
    (∀ f ∈ own.fields, f.type.Admissible) ∧
      ∀ u, own.union = some u → u.tagWidth ≤ 64 ∧ u.members.length < UInt64.size := by
  cases step with
  | union _ _ _ _ =>
    constructor
    · intro f member
      obtain ⟨i, found⟩ := List.mem_iff_getElem?.mp member
      rw [getElem?_placeMembers] at found
      obtain ⟨field, fieldFound, rfl⟩ := Option.map_eq_some_iff.mp found
      exact typed.admissible field (List.mem_of_getElem? fieldFound)
    · intro u union
      cases union
      refine ⟨tagWidth_le typed.counted, ?_⟩
      simpa [length_placeMembers] using typed.counted
  | plain ok =>
    refine ⟨?_, fun u union => nomatch union⟩
    intro f member
    have member : f.type ∈ s.fields.map (·.type) := by
      rw [← types_placeFields ok]
      exact List.mem_map_of_mem member
    obtain ⟨field, inside, same⟩ := List.mem_map.mp member
    rw [← same]
    exact typed.admissible field inside

/-- The part has fields of admissible types, and tags that fit a word. -/
def TypedPart (p : Part) : Prop :=
  (∀ f ∈ p.fields, f.type.Admissible) ∧
    ∀ s ∈ p.structs, ∀ u, s.union = some u → u.tagWidth ≤ 64 ∧ u.members.length < UInt64.size

theorem TypedPart.append {a b : Part} (left : TypedPart a) (right : TypedPart b) :
    TypedPart (a ++ b) := by
  constructor
  · intro f member
    rcases List.mem_append.mp member with member | member
    · exact left.1 f member
    · exact right.1 f member
  · intro s member
    rcases List.mem_append.mp member with member | member
    · exact left.2 s member
    · exact right.2 s member

theorem placement_typed (r : LayoutRules) :
    (∀ s place counts part stride, r.placeStruct place counts s = .ok (part, stride) →
      (∀ body ∈ s.bodies, body.Typed) → TypedPart part) ∧
    (∀ children below cursor counts result,
      r.placeChildren below cursor counts children = .ok result →
      (∀ child ∈ children, ∀ body ∈ child.bodies, body.Typed) → TypedPart result.part) := by
  refine placement_induction r
    (P := fun _ _ s part _ => (∀ body ∈ s.bodies, body.Typed) → TypedPart part)
    (Q := fun _ _ _ children result =>
      (∀ child ∈ children, ∀ body ∈ child.bodies, body.Typed) → TypedPart result.part)
    ?struct ?none ?list ?optional ?plain
  case struct =>
    intro place counts s own inner stride _ ownOk ih _ typed
    obtain ⟨counted, admissible⟩ := typed s (Schema.mem_bodies.mpr (.inl rfl))
    obtain ⟨fields, unions⟩ := typed_placesOwn ownOk ⟨counted, admissible⟩
    refine TypedPart.append ⟨fields, ?_⟩ (ih fun child inside body below =>
      typed body (Schema.mem_bodies.mpr (.inr ⟨child, inside, below⟩)))
    intro s member
    cases List.mem_singleton.mp member
    exact unions
  case none =>
    intro _ _ _ _
    exact ⟨by simp, by simp⟩
  case list =>
    intro below cursor counts child rest inner stride others _ _ _ ih typed
    refine TypedPart.append ⟨by simp, ?_⟩
      (ih fun c inside => typed c (List.mem_cons_of_mem _ inside))
    intro s member u union
    cases List.mem_singleton.mp member
    cases union
  case optional =>
    intro below cursor counts child rest slot inner stride others _ _ _ _ _ first ih typed
    exact TypedPart.append (first (typed child List.mem_cons_self))
      (ih fun c inside => typed c (List.mem_cons_of_mem _ inside))
  case plain =>
    intro below cursor counts child rest part stride others _ _ _ _ first ih typed
    exact TypedPart.append (first (typed child List.mem_cons_self))
      (ih fun c inside => typed c (List.mem_cons_of_mem _ inside))

end LayoutRules

/-- Every layout of list elements in a compiled layout can be trusted, as can the
compiled layout. -/
theorem Layout.Compiled.soundTyped {l : Layout} (compiled : l.Compiled) : l.Throughout SoundTyped := by
  induction compiled with
  | root buildable ok =>
    obtain ⟨-, part, stride, placed, rfl⟩ := LayoutRules.layout_eq_ok.mp ok
    refine LayoutRules.throughout_toLayout (fun s part stride placed typed => ?_) placed
      buildable.typed
    obtain ⟨fields, tags⟩ := (LayoutRules.placement_typed _).1 _ _ _ _ _ placed typed
    exact ⟨LayoutRules.sound_toLayout placed, fields, tags⟩
  | element _ member found ih => exact ih.element member found

namespace LayoutRules

theorem order_buildable : order.Buildable := by
  refine .rebuilt (fun child member => ?_) (by decide) (by rfl)
  simp only [order, List.mem_cons, List.not_mem_nil, or_false] at member
  rcases member with rfl | rfl | rfl
  · exact .rebuilt (by simp) (by decide) (by rfl)
  · exact .rebuilt (by simp) (by decide) (by rfl)
  · exact .rebuilt (by simp) (by decide) (by rfl)

def orderLayout : Layout :=
  (LayoutRules.layout { strategy := .aligned .bits8 } order).toOption.get (by rfl)

theorem orderLayout_compiled : orderLayout.Compiled :=
  .root (r := { strategy := .aligned .bits8 }) order_buildable (by rfl)

end LayoutRules

end BitRecords
