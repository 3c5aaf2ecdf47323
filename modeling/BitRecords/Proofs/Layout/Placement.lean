import BitRecords.Layout.Placement
import BitRecords.Proofs.Result

/-!
# Induction over placements

A placement that succeeds is a tree of steps: the own fields of a struct, its
children one after another, and the stride of its body. The functions that place
structs and children are opened here once. What holds of every placement is
proved by `LayoutRules.placement_induction`, with one case for a struct, one for
no children, and one for each kind of child.
-/

namespace BitRecords

open Layout

namespace Layout.Place

/-- The flags that a struct keeps. A root is neither a list nor optional. -/
def flagsOf (place : Place) (s : Schema) : Flags :=
  if place.parent.isNone then { union := s.flags.union } else s.flags

theorem union_flagsOf (place : Place) (s : Schema) :
    (place.flagsOf s).union = s.flags.union := by
  rw [flagsOf]
  split <;> rfl

/-- The optional structs around the struct that gets the id, itself included. -/
def chainOf (place : Place) (id : StructId) (s : Schema) : List StructId :=
  if (place.flagsOf s).optional then place.chain ++ [id] else place.chain

/-- The place of the children of the struct that gets the id, without a path of
their own. -/
def below (place : Place) (id : StructId) (s : Schema) : Place :=
  { place with parent := some id, chain := place.chainOf id s, presence := none }

/-- The place of a plain child at a cursor. -/
def child (below : Place) (cursor : UInt64) (s : Schema) : Place :=
  { below with path := joinPath below.path s.name, offset := cursor }

/-- The place of an optional child with its presence bit at a cursor and a
segment of its own. -/
def optional (below : Place) (cursor : UInt64) (segment : SegmentId) (s : Schema) : Place :=
  { below with
    path := joinPath below.path s.name, segment, offset := 0
    presence := some ⟨below.segment, cursor⟩ }

end Layout.Place

namespace LayoutRules

/-- The field that is placed in a slot at a cursor. -/
def placedField (place : Place) (owner : StructId) (id : FieldId) (cursor slot : UInt64)
    (f : Field) : FieldLayout :=
  { id, name := f.name, path := joinPath place.path f.name, owner, type := f.type
    segment := place.segment, offset := cursor, slot, tag := none }

/-- The struct that is placed, with its own fields and children. -/
def placed (place : Place) (counts : Counts) (s : Schema) (own : OwnFields) (inner : Children)
    (stride : UInt64) : StructLayout :=
  { id := counts.structs, name := s.name, path := place.path, parent := place.parent
    flags := place.flagsOf s, segment := place.segment, offset := place.offset, stride
    presence := place.presence, chain := place.chainOf counts.structs s, union := own.union
    children := inner.ids, fields := own.fields.map (·.id), element := none }

/-- The struct that stands for a list, with the layout of its elements. -/
def placedList (r : LayoutRules) (below : Place) (cursor : UInt64) (id : StructId) (s : Schema)
    (part : Part) (stride : UInt64) : StructLayout :=
  { id, name := s.name, path := joinPath below.path s.name, parent := below.parent, flags := s.flags
    segment := below.segment, offset := cursor, stride := 0, presence := none, chain := below.chain
    union := none, children := [], fields := []
    element := some (part.toLayout r.strategy.name stride) }

/-- The counts before the children of a struct are placed. -/
def countsBelow (counts : Counts) (own : OwnFields) : Counts :=
  ⟨counts.structs + 1, counts.fields + own.fields.length, counts.segments⟩

variable {r : LayoutRules} {place below : Place} {counts : Counts} {cursor : UInt64}
variable {s child : Schema} {rest : List Schema}

/-- The cursor advances if it stays in the word range, and then it is the exact sum. -/
theorem advance_eq_ok {bits next : UInt64} : advance cursor bits = .ok next ↔
    cursor.toNat + bits.toNat < UInt64.size ∧ next = cursor + bits := by
  rw [advance]
  split
  · next fits => simp [fits, eq_comm]
  · next exceeds => simp [exceeds]

/-- One field is placed, and the others after it. -/
theorem placeFields_cons_eq_ok {owner : StructId} {id : FieldId} {f : Field} {fields : List Field}
    {placed : List FieldLayout} {finish : UInt64} :
    r.placeFields place owner id cursor (f :: fields) = .ok (placed, finish) ↔
      ∃ slot others, r.slot place.path f.type.width = .ok slot ∧
        cursor.toNat + slot.toNat < UInt64.size ∧
        r.placeFields place owner (id + 1) (cursor + slot) fields = .ok (others, finish) ∧
        placed = placedField place owner id cursor slot f :: others := by
  simp only [placeFields, bind_eq_ok, advance_eq_ok, Prod.exists, pure_eq_ok, Prod.mk.injEq]
  constructor
  · rintro ⟨slot, slotOk, _, ⟨fits, rfl⟩, others, _, othersOk, rfl, rfl⟩
    exact ⟨slot, others, slotOk, fits, othersOk, rfl⟩
  · rintro ⟨slot, others, slotOk, fits, othersOk, rfl⟩
    exact ⟨slot, slotOk, _, ⟨fits, rfl⟩, others, finish, othersOk, rfl, rfl⟩

/-- A struct is placed in four steps. -/
theorem placeStruct_eq : r.placeStruct place counts s = (do
    let own ← r.placeOwn place counts { s with flags := place.flagsOf s } s.flags.union
    let inner ← r.placeChildren (place.below counts.structs s) own.finish (countsBelow counts own)
      s.children
    let stride ← r.stride place.path s.name (inner.finish - place.offset)
    return ({ structs := [placed place counts s own inner stride], fields := own.fields } ++
      inner.part, stride)) := by
  obtain ⟨name, fields, children, flags⟩ := s
  have union : (if place.parent.isNone = true then ({ union := flags.union } : Flags)
      else flags).union = flags.union := by
    split <;> rfl
  rw [placeStruct]
  simp only [union]
  rfl

theorem placeStruct_eq_ok {part : Part} {stride : UInt64} :
    r.placeStruct place counts s = .ok (part, stride) ↔
      ∃ own inner,
        r.placeOwn place counts { s with flags := place.flagsOf s } s.flags.union = .ok own ∧
        r.placeChildren (place.below counts.structs s) own.finish (countsBelow counts own)
          s.children = .ok inner ∧
        r.stride place.path s.name (inner.finish - place.offset) = .ok stride ∧
        part = { structs := [placed place counts s own inner stride], fields := own.fields } ++
          inner.part := by
  rw [placeStruct_eq]
  simp only [bind_eq_ok, pure_eq_ok, Prod.mk.injEq]
  constructor
  · rintro ⟨own, ownOk, inner, innerOk, stride', strideOk, rfl, rfl⟩
    exact ⟨own, inner, ownOk, innerOk, strideOk, rfl⟩
  · rintro ⟨own, inner, ownOk, innerOk, strideOk, rfl⟩
    exact ⟨own, ownOk, inner, innerOk, stride, strideOk, rfl, rfl⟩

theorem placeChildren_nil {children : Children} :
    r.placeChildren below cursor counts [] = .ok children ↔
      children = { ids := [], part := {}, finish := cursor } := by
  rw [placeChildren]
  exact ⟨fun h => (Except.ok.inj h).symm, fun h => h ▸ rfl⟩

/-- The ways in which the own fields of a struct are placed. -/
inductive PlacesOwn (r : LayoutRules) (place : Place) (counts : Counts) (s : Schema) :
    Bool → OwnFields → Prop where
  | union {region slot : UInt64} : s.checkUnion = .ok () → widest s.fields ≤ 64 →
      r.slot place.path (widest s.fields) = .ok region →
      r.slot place.path (tagWidth s.fields.length) = .ok slot →
      place.offset.toNat + region.toNat < UInt64.size →
      (place.offset + region).toNat + slot.toNat < UInt64.size →
      PlacesOwn r place counts s true
        { fields := placeMembers place counts.structs region counts.fields 1 s.fields
          union := some
            { offset := place.offset, width := widest s.fields
              tag := ⟨place.segment, place.offset + region⟩, tagWidth := tagWidth s.fields.length
              members :=
                (placeMembers place counts.structs region counts.fields 1 s.fields).map (·.id) }
          finish := place.offset + region + slot }
  | plain {fields : List FieldLayout} {finish : UInt64} :
      r.placeFields place counts.structs counts.fields place.offset s.fields =
        .ok (fields, finish) →
      PlacesOwn r place counts s false { fields, union := none, finish }

theorem placesOwn_of_ok {union : Bool} {own : OwnFields}
    (ok : r.placeOwn place counts s union = .ok own) : PlacesOwn r place counts s union own := by
  cases union with
  | true =>
    simp only [placeOwn, placeUnion, if_true, bind_eq_ok] at ok
    obtain ⟨⟨⟩, checked, ok⟩ := ok
    split at ok
    · obtain ⟨_, thrown, _⟩ := bind_eq_ok.mp ok
      cases thrown
    · next narrow =>
      simp only [bind_eq_ok, pure_eq_ok, advance_eq_ok] at ok
      obtain ⟨region, regionOk, _, ⟨regionFits, rfl⟩, slot, slotOk, _, ⟨slotFits, rfl⟩, rfl⟩ := ok
      exact .union checked (Nat.le_of_not_lt narrow) regionOk slotOk regionFits slotFits
  | false =>
    simp only [placeOwn, Bool.false_eq_true, if_false, bind_eq_ok, Prod.exists, pure_eq_ok] at ok
    obtain ⟨fields, finish, fieldsOk, rfl⟩ := ok
    exact .plain fieldsOk

/-- The other way around. -/
theorem PlacesOwn.placeOwn_eq {union : Bool} {own : OwnFields}
    (step : PlacesOwn r place counts s union own) : r.placeOwn place counts s union = .ok own := by
  cases step with
  | union checked narrow regionOk slotOk regionFits slotFits =>
    refine bind_eq_ok.mpr ⟨(), checked, ?_⟩
    rw [placeUnion, if_neg (Nat.not_lt.mpr narrow)]
    simp only [bind_eq_ok, pure_eq_ok, advance_eq_ok]
    exact ⟨_, regionOk, _, ⟨regionFits, rfl⟩, _, slotOk, _, ⟨slotFits, rfl⟩, rfl⟩
  | plain fieldsOk => exact bind_eq_ok.mpr ⟨_, fieldsOk, rfl⟩

/-- The ways in which one child is placed. The part and the cursor after it are
the result. -/
inductive PlacesChild (r : LayoutRules) (below : Place) (cursor : UInt64) (counts : Counts)
    (child : Schema) : Part → UInt64 → Prop where
  | list {inner : Part} {stride : UInt64} : child.flags.list = true →
      r.placeStruct .root .root child = .ok (inner, stride) →
      PlacesChild r below cursor counts child
        { structs := [r.placedList below cursor counts.structs child inner stride] } cursor
  | optional {slot stride : UInt64} {inner : Part} : child.flags.list = false →
      child.flags.optional = true → r.slot below.path 1 = .ok slot →
      cursor.toNat + slot.toNat < UInt64.size →
      r.placeStruct (below.optional cursor counts.segments child)
        { counts with segments := counts.segments + 1 } child = .ok (inner, stride) →
      PlacesChild r below cursor counts child
        { inner with segments := ⟨counts.structs, stride⟩ :: inner.segments } (cursor + slot)
  | plain {part : Part} {stride : UInt64} : child.flags.list = false →
      child.flags.optional = false →
      r.placeStruct (below.child cursor child) counts child = .ok (part, stride) →
      cursor.toNat + stride.toNat < UInt64.size →
      PlacesChild r below cursor counts child part (cursor + stride)

/-- One child is placed, and the others after it. -/
theorem placesChild_of_cons {children : Children}
    (ok : r.placeChildren below cursor counts (child :: rest) = .ok children) :
    ∃ part finish others, PlacesChild r below cursor counts child part finish ∧
      r.placeChildren below finish (counts.after part) rest = .ok others ∧
      children = { ids := counts.structs :: others.ids, part := part ++ others.part
                   finish := others.finish } := by
  rw [placeChildren] at ok
  cases list : child.flags.list with
  | true =>
    simp only [list, if_true, bind_eq_ok, Prod.exists, pure_eq_ok] at ok
    obtain ⟨inner, stride, innerOk, part, finish, same, others, othersOk, result⟩ := ok
    cases same
    exact ⟨_, _, others, .list list innerOk, othersOk, result.symm⟩
  | false =>
    cases optional : child.flags.optional with
    | true =>
      simp only [list, optional, if_true, Bool.false_eq_true, if_false, bind_eq_ok, Prod.exists,
        pure_eq_ok, advance_eq_ok] at ok
      obtain ⟨slot, slotOk, _, ⟨fits, rfl⟩, inner, stride, innerOk, part, finish, same, others,
        othersOk, result⟩ := ok
      cases same
      exact ⟨_, _, others, .optional list optional slotOk fits innerOk, othersOk, result.symm⟩
    | false =>
      simp only [list, optional, Bool.false_eq_true, if_false, bind_eq_ok, Prod.exists,
        pure_eq_ok, advance_eq_ok] at ok
      obtain ⟨inner, stride, innerOk, _, ⟨fits, rfl⟩, part, finish, same, others, othersOk,
        result⟩ := ok
      cases same
      exact ⟨_, _, others, .plain list optional innerOk fits, othersOk, result.symm⟩

/-- The other way around. -/
theorem placeChildren_cons {part : Part} {finish : UInt64} {others : Children}
    (step : PlacesChild r below cursor counts child part finish)
    (othersOk : r.placeChildren below finish (counts.after part) rest = .ok others) :
    r.placeChildren below cursor counts (child :: rest) = .ok
      { ids := counts.structs :: others.ids, part := part ++ others.part
        finish := others.finish } := by
  rw [placeChildren]
  cases step with
  | list isList innerOk =>
    simp only [isList, if_true, bind_eq_ok, Prod.exists]
    exact ⟨_, _, innerOk, _, _, rfl, others, othersOk, rfl⟩
  | optional notList isOptional slotOk fits innerOk =>
    simp only [notList, isOptional, Bool.false_eq_true, if_false, if_true, bind_eq_ok, Prod.exists,
      advance_eq_ok]
    exact ⟨_, slotOk, _, ⟨fits, rfl⟩, _, _, innerOk, _, _, rfl, others, othersOk, rfl⟩
  | plain notList notOptional partOk fits =>
    simp only [notList, notOptional, Bool.false_eq_true, if_false, bind_eq_ok, Prod.exists,
      advance_eq_ok]
    exact ⟨_, _, partOk, _, ⟨fits, rfl⟩, _, _, rfl, others, othersOk, rfl⟩

/-- What holds of a struct when it holds of its children, and of children when it
holds of the first and of the others, holds of every placement. A list is placed
as a root of its own. -/
theorem placement_induction (r : LayoutRules)
    {P : Place → Counts → Schema → Part → UInt64 → Prop}
    {Q : Place → UInt64 → Counts → List Schema → Children → Prop}
    (struct : ∀ place counts s own inner stride,
      r.placeStruct place counts s = .ok
        ({ structs := [placed place counts s own inner stride], fields := own.fields } ++
          inner.part, stride) →
      PlacesOwn r place counts { s with flags := place.flagsOf s } s.flags.union own →
      Q (place.below counts.structs s) own.finish (countsBelow counts own) s.children inner →
      r.stride place.path s.name (inner.finish - place.offset) = .ok stride →
      P place counts s
        ({ structs := [placed place counts s own inner stride], fields := own.fields } ++
          inner.part) stride)
    (none : ∀ below cursor counts,
      Q below cursor counts [] { ids := [], part := {}, finish := cursor })
    (list : ∀ below cursor counts child rest inner stride others, child.flags.list = true →
      r.placeStruct .root .root child = .ok (inner, stride) → P .root .root child inner stride →
      Q below cursor (counts.after
        { structs := [r.placedList below cursor counts.structs child inner stride] }) rest others →
      Q below cursor counts (child :: rest)
        { ids := counts.structs :: others.ids
          part := { structs := [r.placedList below cursor counts.structs child inner stride] } ++
            others.part
          finish := others.finish })
    (optional : ∀ below cursor counts child rest slot inner stride others,
      child.flags.list = false → child.flags.optional = true → r.slot below.path 1 = .ok slot →
      cursor.toNat + slot.toNat < UInt64.size →
      r.placeStruct (below.optional cursor counts.segments child)
        { counts with segments := counts.segments + 1 } child = .ok (inner, stride) →
      P (below.optional cursor counts.segments child)
        { counts with segments := counts.segments + 1 } child inner stride →
      Q below (cursor + slot) (counts.after
        { inner with segments := ⟨counts.structs, stride⟩ :: inner.segments }) rest others →
      Q below cursor counts (child :: rest)
        { ids := counts.structs :: others.ids
          part :=
            { inner with segments := ⟨counts.structs, stride⟩ :: inner.segments } ++ others.part
          finish := others.finish })
    (plain : ∀ below cursor counts child rest part stride others,
      child.flags.list = false → child.flags.optional = false →
      r.placeStruct (below.child cursor child) counts child = .ok (part, stride) →
      cursor.toNat + stride.toNat < UInt64.size →
      P (below.child cursor child) counts child part stride →
      Q below (cursor + stride) (counts.after part) rest others →
      Q below cursor counts (child :: rest)
        { ids := counts.structs :: others.ids, part := part ++ others.part
          finish := others.finish }) :
    (∀ s place counts part stride,
      r.placeStruct place counts s = .ok (part, stride) → P place counts s part stride) ∧
    (∀ children below cursor counts result,
      r.placeChildren below cursor counts children = .ok result →
      Q below cursor counts children result) := by
  let OfStruct (s : Schema) : Prop := ∀ place counts part stride,
    r.placeStruct place counts s = .ok (part, stride) → P place counts s part stride
  let OfChildren (children : List Schema) : Prop := ∀ below cursor counts result,
    r.placeChildren below cursor counts children = .ok result →
      Q below cursor counts children result
  have ofStruct (name : String) (fields : List Field) (children : List Schema) (flags : Flags)
      (ih : OfChildren children) : OfStruct ⟨name, fields, children, flags⟩ := by
    intro place counts part stride ok
    obtain ⟨own, inner, ownOk, innerOk, strideOk, rfl⟩ := placeStruct_eq_ok.mp ok
    exact struct _ _ _ _ _ _ ok (placesOwn_of_ok ownOk) (ih _ _ _ _ innerOk) strideOk
  have ofNil : OfChildren [] := by
    intro below cursor counts result ok
    cases placeChildren_nil.mp ok
    exact none below cursor counts
  have ofCons (child : Schema) (rest : List Schema) (first : OfStruct child)
      (others : OfChildren rest) : OfChildren (child :: rest) := by
    intro below cursor counts result ok
    obtain ⟨part, finish, after, step, othersOk, rfl⟩ := placesChild_of_cons ok
    cases step with
    | list isList innerOk =>
      exact list _ _ _ _ _ _ _ _ isList innerOk (first _ _ _ _ innerOk)
        (others _ _ _ _ othersOk)
    | optional notList isOptional slotOk fits innerOk =>
      exact optional _ _ _ _ _ _ _ _ _ notList isOptional slotOk fits innerOk
        (first _ _ _ _ innerOk) (others _ _ _ _ othersOk)
    | plain notList notOptional partOk fits =>
      exact plain _ _ _ _ _ _ _ _ notList notOptional partOk fits (first _ _ _ _ partOk)
        (others _ _ _ _ othersOk)
  exact ⟨@Schema.rec OfStruct OfChildren ofStruct ofNil ofCons,
    @Schema.rec_1 OfStruct OfChildren ofStruct ofNil ofCons⟩

end LayoutRules

end BitRecords
