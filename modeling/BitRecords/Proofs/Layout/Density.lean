import BitRecords.Proofs.Layout.Cursor
import BitRecords.Proofs.Layout.Outline

/-!
# The densest layout

The packed strategy takes no more bits than any other one. Whatever is laid out by rules is
laid out by the packed strategy under the same limit, with the same ids, and nothing of it
lies at a later bit or in a longer row.

The two placements are followed side by side. The packed cursor may start earlier and moves
on by no more at each step, so that it never gets ahead, and the body that it leaves behind
is no longer than the other one.
-/

namespace BitRecords

open Layout

namespace Layout

/-- The second slot is in the same segment, and not later. -/
structure SlotNearer (x x' : Slot) : Prop where
  segment : x'.segment = x.segment
  offset : x'.offset ≤ x.offset

/-- The second region and its tag are not later. -/
structure UnionNearer (u u' : UnionRegion) : Prop where
  outline : u'.outline = u.outline
  offset : u'.offset ≤ u.offset
  tag : SlotNearer u.tag u'.tag

/-- The second field is not later, and its slot not wider. -/
structure FieldNearer (f f' : FieldLayout) : Prop where
  outline : f'.outline = f.outline
  segment : f'.segment = f.segment
  offset : f'.offset ≤ f.offset
  slot : f'.slot ≤ f.slot

/-- The second struct is not later and not longer, nor are its presence bit and its union. -/
structure StructNearer (x x' : StructLayout) : Prop where
  outline : x'.outline = x.outline
  segment : x'.segment = x.segment
  offset : x'.offset ≤ x.offset
  stride : x'.stride ≤ x.stride
  presence : Option.Rel SlotNearer x.presence x'.presence
  union : Option.Rel UnionNearer x.union x'.union

/-- The rows of the second segment are not longer. -/
structure SegmentShorter (g g' : Segment) : Prop where
  owner : g'.owner = g.owner
  stride : g'.stride ≤ g.stride

/-- The second layout differs from the first in offsets, slots and strides at most, and none
of them is greater, nor are those in the layouts of list elements. -/
inductive Denser : Layout → Layout → Prop where
  | intro {l l' : Layout} : List.Forall₂ StructNearer l.structs l'.structs →
      List.Forall₂ FieldNearer l.fields l'.fields →
      List.Forall₂ SegmentShorter l.segments l'.segments →
      List.Forall₂ (Option.Rel Denser) (l.structs.map (·.element)) (l'.structs.map (·.element)) →
      Denser l l'

/-- The same of parts that are placed. -/
structure PartNearer (p p' : Part) : Prop where
  structs : List.Forall₂ StructNearer p.structs p'.structs
  fields : List.Forall₂ FieldNearer p.fields p'.fields
  segments : List.Forall₂ SegmentShorter p.segments p'.segments
  elements : List.Forall₂ (Option.Rel Denser) (p.structs.map (·.element))
    (p'.structs.map (·.element))

namespace PartNearer

variable {p p' q q' : Part}

theorem append (first : PartNearer p p') (second : PartNearer q q') :
    PartNearer (p ++ q) (p' ++ q') where
  structs := List.rel_append first.structs second.structs
  fields := List.rel_append first.fields second.fields
  segments := List.rel_append first.segments second.segments
  elements := by
    rw [Part.structs_append, Part.structs_append, List.map_append, List.map_append]
    exact List.rel_append first.elements second.elements

/-- What follows the parts gets the same ids. -/
theorem after (near : PartNearer p p') (counts : Counts) : counts.after p' = counts.after p := by
  rw [Counts.after, near.structs.length_eq.symm, near.fields.length_eq.symm,
    near.segments.length_eq.symm]
  rfl

theorem toLayout (near : PartNearer p p') {stride stride' : UInt64} (shorter : stride' ≤ stride)
    (strategy strategy' : String) :
    Denser (p.toLayout strategy stride) (p'.toLayout strategy' stride') :=
  .intro near.structs near.fields (.cons ⟨rfl, shorter⟩ near.segments) near.elements

end PartNearer

theorem ids_of_nearer {fields fields' : List FieldLayout}
    (near : List.Forall₂ FieldNearer fields fields') :
    fields'.map (·.id) = fields.map (·.id) := by
  induction near with
  | nil => rfl
  | cons first _ ih => exact congrArg₂ List.cons (congrArg FieldOutline.id first.outline) ih

theorem isSome_of_rel {α β : Type} {R : α → β → Prop} {x : Option α} {y : Option β}
    (related : Option.Rel R x y) : y.isSome = x.isSome := by
  cases related <;> rfl

theorem union_of_nearer {x y : Option UnionRegion} (near : Option.Rel UnionNearer x y) :
    y.map (·.outline) = x.map (·.outline) := by
  cases near with
  | none => rfl
  | some near => exact congrArg some near.outline

/-- The same place with another offset and another presence bit. -/
def Place.moved (place : Place) (offset : UInt64) (presence : Option Slot) : Place :=
  { place with offset, presence }

end Layout

namespace LayoutRules

/-- The packed strategy under the same limit. -/
def packed (r : LayoutRules) : LayoutRules := { r with strategy := .packed }

variable {r : LayoutRules}

/-- From its start the second cursor has moved on by no more than the first from its own. -/
structure Trails (start start' finish finish' : UInt64) : Prop where
  forward : start.toNat ≤ finish.toNat
  forward' : start'.toNat ≤ finish'.toNat
  gap : finish'.toNat + start.toNat ≤ finish.toNat + start'.toNat

namespace Trails

variable {start start' middle middle' finish finish' : UInt64}

theorem refl (start start' : UInt64) : Trails start start' start start' :=
  ⟨Nat.le_refl _, Nat.le_refl _, Nat.le_of_eq (Nat.add_comm _ _)⟩

theorem trans (first : Trails start start' middle middle')
    (second : Trails middle middle' finish finish') : Trails start start' finish finish' := by
  obtain ⟨forward, forward', gap⟩ := first
  obtain ⟨onward, onward', gap'⟩ := second
  exact ⟨by omega, by omega, by omega⟩

/-- A cursor that starts behind stays behind. -/
theorem behind (trails : Trails start start' finish finish') (before : start' ≤ start) :
    finish' ≤ finish := by
  have gap := trails.gap
  rw [UInt64.le_iff_toNat_le] at before ⊢
  omega

/-- A cursor behind has room for fewer bits. -/
theorem fits_behind {bits bits' : UInt64} (room : start.toNat + bits.toNat < UInt64.size)
    (before : start' ≤ start) (fewer : bits' ≤ bits) :
    start'.toNat + bits'.toNat < UInt64.size := by
  rw [UInt64.le_iff_toNat_le] at before fewer
  omega

theorem step {bits bits' : UInt64} (room : start.toNat + bits.toNat < UInt64.size)
    (before : start' ≤ start) (fewer : bits' ≤ bits) :
    Trails start start' (start + bits) (start' + bits') := by
  rw [UInt64.le_iff_toNat_le] at before fewer
  have sum := toNat_add_exact room
  have sum' : (start' + bits').toNat = start'.toNat + bits'.toNat := toNat_add_exact (by omega)
  exact ⟨by omega, by omega, by omega⟩

/-- What the second cursor leaves behind is not longer. -/
theorem extent (trails : Trails start start' finish finish') :
    finish' - start' ≤ finish - start := by
  obtain ⟨forward, forward', gap⟩ := trails
  rw [UInt64.le_iff_toNat_le, UInt64.toNat_sub_of_le _ _ (UInt64.le_iff_toNat_le.mpr forward),
    UInt64.toNat_sub_of_le _ _ (UInt64.le_iff_toNat_le.mpr forward')]
  omega

end Trails

/-- Where some strategy has a slot that holds the payload, the packed one has a slot that is
not wider. -/
theorem slot_packed {path : String} {width : Nat} {slot : UInt64}
    (ok : r.slot path width = .ok slot) :
    ∃ least, r.packed.slot path width = .ok least ∧ least ≤ slot := by
  obtain ⟨-, enough⟩ := slot_eq_ok ok
  have exact : (UInt64.ofNat width).toNat = width :=
    UInt64.toNat_ofNat_of_lt' (Nat.lt_of_le_of_lt enough slot.toNat_lt)
  refine ⟨UInt64.ofNat width, if_neg ?_, ?_⟩
  · exact Nat.not_lt.mpr (Nat.le_of_eq exact.symm)
  · rw [UInt64.le_iff_toNat_le, exact]
    exact enough

/-- The stride of a packed body is its extent, within any limit that holds for a longer one. -/
theorem stride_packed {path name : String} {extent extent' stride : UInt64}
    (ok : r.stride path name extent = .ok stride) (shorter : extent' ≤ extent) :
    r.packed.stride path name extent' = .ok extent' ∧ extent' ≤ stride := by
  obtain ⟨-, enough, bounded⟩ := stride_eq_ok ok
  rw [UInt64.le_iff_toNat_le] at shorter
  have within : ¬ r.maxStride < extent' := by
    rw [UInt64.lt_iff_toNat_lt]
    omega
  refine ⟨(if_neg (UInt64.lt_irrefl extent')).trans (if_neg within), ?_⟩
  rw [UInt64.le_iff_toNat_le]
  omega

variable {place : Place} {counts : Counts} {s : Schema} {offset : UInt64} {presence : Option Slot}

theorem fields_packed {owner : StructId} {fields : List Field} {id : FieldId}
    {cursor cursor' finish : UInt64} {placed : List FieldLayout}
    (ok : r.placeFields place owner id cursor fields = .ok (placed, finish))
    (before : cursor' ≤ cursor) :
    ∃ placed' finish', r.packed.placeFields (place.moved offset presence) owner id cursor' fields =
        .ok (placed', finish') ∧
      List.Forall₂ FieldNearer placed placed' ∧ Trails cursor cursor' finish finish' := by
  induction fields generalizing id cursor cursor' placed with
  | nil =>
    cases ok
    exact ⟨[], cursor', rfl, .nil, .refl _ _⟩
  | cons f rest ih =>
    obtain ⟨slot, others, slotOk, fits, othersOk, rfl⟩ := placeFields_cons_eq_ok.mp ok
    obtain ⟨least, leastOk, fewer⟩ := slot_packed slotOk
    have moved : Trails cursor cursor' (cursor + slot) (cursor' + least) := .step fits before fewer
    obtain ⟨others', finish', othersOk', near, onward⟩ := ih othersOk (moved.behind before)
    exact ⟨_, finish', placeFields_cons_eq_ok.mpr
      ⟨least, others', leastOk, Trails.fits_behind fits before fewer, othersOk', rfl⟩,
      .cons ⟨rfl, rfl, before, fewer⟩ near, moved.trans onward⟩

theorem members_nearer {region region' : UInt64} (before : offset ≤ place.offset)
    (fewer : region' ≤ region) (owner : StructId) (id : FieldId) (tag : Nat)
    (fields : List Field) :
    List.Forall₂ FieldNearer (placeMembers place owner region id tag fields)
      (placeMembers (place.moved offset presence) owner region' id tag fields) := by
  induction fields generalizing id tag with
  | nil => exact .nil
  | cons f rest ih => exact .cons ⟨rfl, rfl, before, fewer⟩ (ih _ _)

theorem own_packed {union : Bool} {own : OwnFields} (step : PlacesOwn r place counts s union own)
    (before : offset ≤ place.offset) :
    ∃ own', r.packed.placeOwn (place.moved offset presence) counts s union = .ok own' ∧
      List.Forall₂ FieldNearer own.fields own'.fields ∧
      Option.Rel UnionNearer own.union own'.union ∧
      Trails place.offset offset own.finish own'.finish := by
  cases step with
  | plain fieldsOk =>
    obtain ⟨fields, finish, ok, near, moved⟩ := fields_packed fieldsOk before
    exact ⟨_, (PlacesOwn.plain ok).placeOwn_eq, near, .none, moved⟩
  | @union region slot checked narrow regionOk slotOk regionFits slotFits =>
    obtain ⟨region', regionOk', fewer⟩ := slot_packed regionOk
    obtain ⟨slot', slotOk', fewer'⟩ := slot_packed slotOk
    have moved : Trails place.offset offset (place.offset + region) (offset + region') :=
      .step regionFits before fewer
    have onward : Trails (place.offset + region) (offset + region')
        (place.offset + region + slot) (offset + region' + slot') :=
      .step slotFits (moved.behind before) fewer'
    have near : List.Forall₂ FieldNearer _
        (placeMembers (place.moved offset presence) counts.structs region' counts.fields 1
          s.fields) :=
      members_nearer before fewer counts.structs counts.fields 1 s.fields
    have placed : PlacesOwn r.packed (place.moved offset presence) counts s true _ :=
      .union checked narrow regionOk' slotOk' (Trails.fits_behind regionFits before fewer)
        (Trails.fits_behind slotFits (moved.behind before) fewer')
    refine ⟨_, placed.placeOwn_eq, near, .some ⟨?_, before, rfl, moved.behind before⟩,
      moved.trans onward⟩
    exact congrArg (UnionOutline.mk _ _) (ids_of_nearer near)

theorem placed_nearer {own own' : OwnFields} {inner inner' : Children} {stride stride' : UInt64}
    (before : offset ≤ place.offset) (shorter : stride' ≤ stride)
    (slot : Option.Rel SlotNearer place.presence presence)
    (fields : List.Forall₂ FieldNearer own.fields own'.fields)
    (union : Option.Rel UnionNearer own.union own'.union) (ids : inner'.ids = inner.ids)
    (counts : Counts) (s : Schema) :
    StructNearer (placed place counts s own inner stride)
      (placed (place.moved offset presence) counts s own' inner' stride') := by
  have present : (place.moved offset presence).presence.isSome = place.presence.isSome :=
    isSome_of_rel slot
  refine ⟨?_, rfl, before, shorter, slot, union⟩
  simp only [StructLayout.outline, placed, present, union_of_nearer union, ids,
    ids_of_nearer fields]
  rfl

/-- The packed strategy places the struct from any earlier bit on, with the same ids, and
nothing of it later or longer. -/
def PacksStruct (r : LayoutRules) (place : Place) (counts : Counts) (s : Schema) (part : Part)
    (stride : UInt64) : Prop :=
  ∀ offset ≤ place.offset, ∀ presence, Option.Rel SlotNearer place.presence presence →
    ∃ part' stride',
      r.packed.placeStruct (place.moved offset presence) counts s = .ok (part', stride') ∧
      PartNearer part part' ∧ stride' ≤ stride

/-- The packed strategy places children as these were placed, and none later or longer. -/
def Follows (r : LayoutRules) (below' : Place) (cursor cursor' : UInt64) (counts : Counts)
    (children : List Schema) (result : Children) : Prop :=
  ∃ result', r.packed.placeChildren below' cursor' counts children = .ok result' ∧
    PartNearer result.part result'.part ∧ result'.ids = result.ids ∧
    Trails cursor cursor' result.finish result'.finish

/-- The packed strategy places children from any earlier bit on. -/
def PacksChildren (r : LayoutRules) (below : Place) (cursor : UInt64) (counts : Counts)
    (children : List Schema) (result : Children) : Prop :=
  ∀ cursor' ≤ cursor, ∀ offset presence, Option.Rel SlotNearer below.presence presence →
    r.Follows (below.moved offset presence) cursor cursor' counts children result

theorem Follows.cons {below' : Place} {cursor cursor' finish finish' : UInt64} {child : Schema}
    {rest : List Schema} {part part' : Part} {others : Children}
    (step : PlacesChild r.packed below' cursor' counts child part' finish')
    (near : PartNearer part part') (moved : Trails cursor cursor' finish finish')
    (follows : r.Follows below' finish finish' (counts.after part) rest others) :
    r.Follows below' cursor cursor' counts (child :: rest)
      { ids := counts.structs :: others.ids, part := part ++ others.part
        finish := others.finish } := by
  obtain ⟨others', othersOk, after, ids, onward⟩ := follows
  rw [← near.after] at othersOk
  exact ⟨_, placeChildren_cons step othersOk, near.append after,
    congrArg (counts.structs :: ·) ids, moved.trans onward⟩

/-- Whatever is placed by rules is placed by the packed strategy. -/
theorem placement_packs (r : LayoutRules) :
    (∀ s place counts part stride, r.placeStruct place counts s = .ok (part, stride) →
      r.PacksStruct place counts s part stride) ∧
    (∀ children below cursor counts result,
      r.placeChildren below cursor counts children = .ok result →
      r.PacksChildren below cursor counts children result) := by
  refine placement_induction r ?struct ?none ?list ?optional ?plain
  case struct =>
    intro place counts s own inner stride _ ownOk ih strideOk offset before presence slot
    obtain ⟨own', ownOk', fields, union, moved⟩ := own_packed ownOk before
    obtain ⟨inner', innerOk', parts, ids, onward⟩ :=
      ih own'.finish (moved.behind before) offset none .none
    obtain ⟨strideOk', shorter⟩ := stride_packed strideOk (moved.trans onward).extent
    have counted : countsBelow counts own' = countsBelow counts own := by
      rw [countsBelow, countsBelow, fields.length_eq]
    rw [← counted] at innerOk'
    have top := placed_nearer before shorter slot fields union ids counts s
    exact ⟨_, _, placeStruct_eq_ok.mpr ⟨own', inner', ownOk', innerOk', strideOk', rfl⟩,
      PartNearer.append ⟨.cons top .nil, fields, .nil, .cons .none .nil⟩ parts, shorter⟩
  case none =>
    intro below cursor counts cursor' before offset presence _
    exact ⟨_, placeChildren_nil.mpr rfl, ⟨.nil, .nil, .nil, .nil⟩, rfl, .refl _ _⟩
  case list =>
    intro below cursor counts child rest inner stride others isList _ first ih cursor' before offset
      presence slot
    obtain ⟨inner', stride', innerOk', parts, shorter⟩ := first 0 (UInt64.le_refl _) none .none
    refine Follows.cons (.list isList innerOk') ?_ (.refl _ _)
      (ih cursor' before offset presence slot)
    exact ⟨.cons ⟨rfl, rfl, before, UInt64.le_refl _, .none, .none⟩ .nil, .nil, .nil,
      .cons (.some (parts.toLayout shorter _ _)) .nil⟩
  case optional =>
    intro below cursor counts child rest bit inner stride others notList isOptional bitOk fits _
      first ih cursor' before offset presence slot
    obtain ⟨least, leastOk, fewer⟩ := slot_packed bitOk
    have moved : Trails cursor cursor' (cursor + bit) (cursor' + least) := .step fits before fewer
    -- Both rows of the segment start at bit 0, whatever the cursors are.
    obtain ⟨inner', stride', innerOk', parts, shorter⟩ :=
      first 0 (UInt64.le_refl _) (some ⟨below.segment, cursor'⟩) (.some ⟨rfl, before⟩)
    refine Follows.cons
      (.optional notList isOptional leastOk (Trails.fits_behind fits before fewer) innerOk') ?_
      moved (ih _ (moved.behind before) offset presence slot)
    exact ⟨parts.structs, parts.fields, .cons ⟨rfl, shorter⟩ parts.segments, parts.elements⟩
  case plain =>
    intro below cursor counts child rest part stride others notList notOptional _ fits first ih
      cursor' before offset presence slot
    obtain ⟨part', stride', partOk', near, shorter⟩ := first cursor' before presence slot
    have moved : Trails cursor cursor' (cursor + stride) (cursor' + stride') :=
      .step fits before shorter
    exact Follows.cons
      (.plain notList notOptional partOk' (Trails.fits_behind fits before shorter)) near moved
      (ih _ (moved.behind before) offset presence slot)

/-- Whatever is laid out by rules is laid out by the packed strategy under the same limit, and
no other layout is denser. -/
theorem layout_denser {l : Layout} (ok : r.layout s = .ok l) :
    ∃ l', r.packed.layout s = .ok l' ∧ Denser l l' := by
  obtain ⟨checked, part, stride, placed, rfl⟩ := layout_eq_ok.mp ok
  obtain ⟨part', stride', placed', near, shorter⟩ :=
    (placement_packs r).1 _ _ _ _ _ placed 0 (UInt64.le_refl _) none .none
  exact ⟨_, layout_eq_ok.mpr ⟨checked, part', stride', placed', rfl⟩,
    near.toLayout shorter _ _⟩

/-- Rows of orders that are packed take 51 bits instead of 72. -/
theorem layout_denser_order :
    LayoutRules.layout { strategy := .aligned .bits8 } order = .ok orderLayout ∧
      orderLayout.rowStride = 72 ∧
      ∃ l', (packed { strategy := .aligned .bits8 }).layout order = .ok l' ∧
        Denser orderLayout l' ∧ l'.rowStride = 51 := by
  have ok : LayoutRules.layout { strategy := .aligned .bits8 } order = .ok orderLayout := rfl
  obtain ⟨l', packedOk, denser⟩ := layout_denser ok
  have row : ((packed { strategy := .aligned .bits8 }).layout order).map (·.rowStride) = .ok 51 :=
    rfl
  rw [packedOk] at row
  exact ⟨ok, rfl, l', packedOk, denser, Except.ok.inj row⟩

end LayoutRules

end BitRecords
