import BitRecords.Proofs.Layout.Names

/-!
# Cursors in the word range

Strides are rounded from the extents of bodies as words hold them, so that a body which is
laid out is at most its stride and the limit. A body beyond the word range has no such
extent. It is not refused for its size: the placement stops where a cursor would leave the
word range, and it may stop there too inside a body that the strategy rounds down.
-/

namespace BitRecords

open Layout

namespace LayoutRules

/-- The cursor does not leave the word range on the way to the outcome. -/
def InRange {α : Type} (x : Except Error α) : Prop := x ≠ .error .overflow

section Steps

variable {α β : Type} {x : Except Error α} {cursor bits : UInt64}

theorem inRange_ok (a : α) : InRange (.ok a) := by
  intro same
  cases same

theorem InRange.bind {f : α → Except Error β} (first : InRange x)
    (next : ∀ a, x = .ok a → InRange (f a)) : InRange (x >>= f) := by
  cases x with
  | error e =>
    intro same
    exact first (congrArg Except.error (Except.error.inj same))
  | ok a => exact next a rfl

/-- What returns something after a step is in range with the step. -/
theorem InRange.map {f : α → Except Error β} (first : InRange x)
    (total : ∀ a, ∃ b, f a = .ok b) : InRange (x >>= f) := by
  refine first.bind fun a _ => ?_
  obtain ⟨b, returned⟩ := total a
  rw [returned]
  exact inRange_ok b

theorem inRange_checkUnion (s : Schema) : InRange s.checkUnion := by
  have judged := s.judged_checkUnion
  intro same
  rw [same] at judged
  cases judged

/-- There is a cursor after the bits if the word range has room for them. -/
theorem advance_ok (fits : cursor.toNat + bits.toNat < UInt64.size) :
    advance cursor bits = .ok (cursor + bits) :=
  advance_eq_ok.mpr ⟨fits, rfl⟩

end Steps

variable {r : LayoutRules} {place below : Place} {counts : Counts} {cursor : UInt64}
variable {s child : Schema} {children rest : List Schema}

theorem inRange_slot (path : String) (width : Nat) : InRange (r.slot path width) := by
  rw [slot]
  split <;> simp [InRange]

theorem inRange_stride (path name : String) (extent : UInt64) :
    InRange (r.stride path name extent) := by
  rw [stride]
  split
  · simp [InRange]
  · split <;> simp [InRange]

theorem inRange_placeFields {owner : StructId} {id : FieldId} {fields : List Field}
    (room : cursor.toNat + r.ownExtent fields false < UInt64.size) :
    InRange (r.placeFields place owner id cursor fields) := by
  induction fields generalizing id cursor with
  | nil => exact inRange_ok _
  | cons f rest ih =>
    rw [placeFields]
    refine (inRange_slot _ _).bind fun slot slotOk => ?_
    obtain ⟨rfl, -⟩ := slot_eq_ok slotOk
    rw [ownExtent_cons] at room
    have fits : cursor.toNat + (r.strategy.slotBits f.type.width).toNat < UInt64.size := by omega
    rw [advance_ok fits]
    exact (ih (by rw [toNat_add_exact fits]; omega)).map fun _ => ⟨_, rfl⟩

/-- Where there is room for a union, there is room for its region and for its tag. -/
theorem room_union {fields : List Field}
    (room : place.offset.toNat + r.ownExtent fields true < UInt64.size) :
    place.offset.toNat + (r.strategy.slotBits (widest fields)).toNat < UInt64.size ∧
      (place.offset + r.strategy.slotBits (widest fields)).toNat +
        (r.strategy.slotBits (tagWidth fields.length)).toNat < UInt64.size := by
  have sum : r.ownExtent fields true = (r.strategy.slotBits (widest fields)).toNat +
      (r.strategy.slotBits (tagWidth fields.length)).toNat := rfl
  have region : place.offset.toNat + (r.strategy.slotBits (widest fields)).toNat < UInt64.size := by
    omega
  exact ⟨region, by rw [toNat_add_exact region]; omega⟩

theorem inRange_placeUnion {fields : List Field}
    (room : place.offset.toNat + r.ownExtent fields true < UInt64.size) :
    InRange (r.placeUnion place counts fields) := by
  obtain ⟨regionFits, tagFits⟩ := room_union room
  rw [placeUnion]
  dsimp only
  split
  · intro same
    cases same
  · refine (inRange_slot _ _).bind fun region regionOk => ?_
    obtain ⟨rfl, -⟩ := slot_eq_ok regionOk
    rw [advance_ok regionFits]
    refine (inRange_slot _ _).bind fun slot slotOk => ?_
    obtain ⟨rfl, -⟩ := slot_eq_ok slotOk
    rw [advance_ok tagFits]
    exact inRange_ok _

theorem inRange_placeOwn {union : Bool}
    (room : place.offset.toNat + r.ownExtent s.fields union < UInt64.size) :
    InRange (r.placeOwn place counts s union) := by
  cases union with
  | true => exact (inRange_checkUnion s).bind fun _ _ => inRange_placeUnion room
  | false => exact (inRange_placeFields room).map fun _ => ⟨_, rfl⟩

/-- A row of its own has room for a body. -/
theorem Fits.room (fits : r.Fits s) : (0 : UInt64).toNat + r.extent s < UInt64.size := by
  rw [UInt64.toNat_zero, Nat.zero_add]
  exact fits.extent_lt

/-- A plain child has room for its stride, and so for its body, and leaves the rest of the
room to the children after it. -/
structure RoomForPlain (r : LayoutRules) (cursor : UInt64) (child : Schema) (rest : List Schema) :
    Prop where
  stride : cursor.toNat + (r.bodyStride child).toNat < UInt64.size
  body : cursor.toNat + r.extent child < UInt64.size
  others : (cursor + r.bodyStride child).toNat + r.childrenExtent rest < UInt64.size

theorem room_plain (fits : r.Fits child) (notList : child.flags.list = false)
    (notOptional : child.flags.optional = false)
    (room : cursor.toNat + r.childrenExtent (child :: rest) < UInt64.size) :
    r.RoomForPlain cursor child rest := by
  rw [childrenExtent_plain r notList notOptional, ← bodyStride] at room
  have covered := fits.extent_le
  have stride : cursor.toNat + (r.bodyStride child).toNat < UInt64.size := by omega
  exact ⟨stride, by omega, by rw [toNat_add_exact stride]; omega⟩

/-- The same of an optional child, which takes a bit. -/
structure RoomForBit (r : LayoutRules) (cursor : UInt64) (rest : List Schema) : Prop where
  bit : cursor.toNat + (r.strategy.slotBits 1).toNat < UInt64.size
  others : (cursor + r.strategy.slotBits 1).toNat + r.childrenExtent rest < UInt64.size

theorem room_optional (notList : child.flags.list = false)
    (isOptional : child.flags.optional = true)
    (room : cursor.toNat + r.childrenExtent (child :: rest) < UInt64.size) :
    r.RoomForBit cursor rest := by
  rw [childrenExtent_optional r notList isOptional] at room
  have bit : cursor.toNat + (r.strategy.slotBits 1).toNat < UInt64.size := by omega
  exact ⟨bit, by rw [toNat_add_exact bit]; omega⟩

theorem inRange_placeChildren
    (each : ∀ child ∈ children, ∀ place counts,
      place.offset.toNat + r.extent child < UInt64.size →
      InRange (r.placeStruct place counts child))
    (fits : ∀ child ∈ children, r.Fits child)
    (room : cursor.toNat + r.childrenExtent children < UInt64.size) :
    InRange (r.placeChildren below cursor counts children) := by
  induction children generalizing cursor counts with
  | nil =>
    rw [placeChildren]
    exact inRange_ok _
  | cons child rest ih =>
    obtain ⟨first, others⟩ := List.forall_mem_cons.mp each
    obtain ⟨inside, insides⟩ := List.forall_mem_cons.mp fits
    rw [placeChildren]
    cases list : child.flags.list with
    | true =>
      rw [childrenExtent_list r list] at room
      simp only [if_true]
      refine (first .root .root inside.room).bind fun _ _ => ?_
      exact (ih others insides room).map fun _ => ⟨_, rfl⟩
    | false =>
      simp only [Bool.false_eq_true, if_false]
      cases optional : child.flags.optional with
      | true =>
        have left := room_optional list optional room
        simp only [if_true]
        refine (inRange_slot _ _).bind fun slot slotOk => ?_
        obtain ⟨rfl, -⟩ := slot_eq_ok slotOk
        rw [advance_ok left.bit]
        refine (first (below.optional cursor counts.segments child) _ inside.room).bind
          fun _ _ => ?_
        exact (ih others insides left.others).map fun _ => ⟨_, rfl⟩
      | false =>
        have left := room_plain inside list optional room
        simp only [Bool.false_eq_true, if_false]
        refine (first (below.child cursor child) counts left.body).bind fun placed ok => ?_
        obtain ⟨part, stride⟩ := placed
        obtain rfl := ((placement_exact r).1 _ _ _ _ _ ok).rounded
        show InRange (advance cursor (r.bodyStride child) >>= _)
        rw [advance_ok left.stride]
        exact (ih others insides left.others).map fun _ => ⟨_, rfl⟩

/-- No cursor leaves the word range in a struct that is placed with room for its body. -/
theorem inRange_placeStruct (fits : r.Fits s) (place : Place) (counts : Counts)
    (room : place.offset.toNat + r.extent s < UInt64.size) :
    InRange (r.placeStruct place counts s) := by
  induction s using Schema.children_induction generalizing place counts with
  | step s each =>
    rw [extent_eq] at room
    rw [placeStruct_eq]
    refine (inRange_placeOwn (by dsimp only; omega)).bind fun own ownOk => ?_
    have start := finish_placesOwn (placesOwn_of_ok ownOk)
    dsimp only at start
    refine InRange.bind ?_ fun inner _ => (inRange_stride _ _ _).map fun _ => ⟨_, rfl⟩
    exact inRange_placeChildren (fun child member => each child member (fits.child member))
      (fun child member => fits.child member) (by omega)

theorem inRange_layout (fits : r.Fits s) : InRange (r.layout s) := by
  refine InRange.bind ?_ fun _ _ => InRange.map ?_ fun _ => ⟨_, rfl⟩
  · rw [Schema.checkRoot]
    split <;> simp [InRange]
  · exact inRange_placeStruct fits .root .root fits.room

end LayoutRules

/-- The strides of the structs in their order, with those of the elements of a list in its
place. -/
inductive Layout.Strides : List StructLayout → List UInt64 → Prop where
  | nil : Strides [] []
  | struct {x : StructLayout} {rest : List StructLayout} {strides : List UInt64} :
      x.element = none → Strides rest strides → Strides (x :: rest) (x.stride :: strides)
  | list {x : StructLayout} {element : Layout} {rest : List StructLayout}
      {inner strides : List UInt64} : x.element = some element → Strides element.structs inner →
      Strides rest strides → Strides (x :: rest) (inner ++ strides)

theorem Layout.Strides.append {xs ys : List StructLayout} {as bs : List UInt64}
    (first : Strides xs as) (second : Strides ys bs) : Strides (xs ++ ys) (as ++ bs) := by
  induction first with
  | nil => exact second
  | struct plain _ ih => exact .struct plain ih
  | list found inner _ _ ih =>
    rw [List.append_assoc]
    exact .list found inner ih

namespace LayoutRules

/-- The structs have the strides that the strategy answers for the extents of their bodies. -/
theorem placement_strides (r : LayoutRules) :
    (∀ s place counts part stride, r.placeStruct place counts s = .ok (part, stride) →
      Strides part.structs (s.bodies.map r.bodyStride)) ∧
    (∀ children below cursor counts result,
      r.placeChildren below cursor counts children = .ok result →
      Strides result.part.structs ((Schema.bodiesOf children).map r.bodyStride)) := by
  refine placement_induction r
    (P := fun _ _ s part _ => Strides part.structs (s.bodies.map r.bodyStride))
    (Q := fun _ _ _ children result =>
      Strides result.part.structs ((Schema.bodiesOf children).map r.bodyStride))
    ?struct ?none ?list ?optional ?plain
  case struct =>
    intro place counts s own inner stride ok _ strides _
    obtain rfl := ((placement_exact r).1 _ _ _ _ _ ok).rounded
    obtain ⟨name, fields, children, flags⟩ := s
    exact .struct rfl strides
  case none =>
    intro below cursor counts
    exact .nil
  case list =>
    intro below cursor counts child rest inner stride others _ _ first ih
    rw [Schema.bodiesOf, List.map_append]
    exact .list rfl first ih
  case optional =>
    intro below cursor counts child rest slot inner stride others _ _ _ _ _ first ih
    rw [Schema.bodiesOf, List.map_append]
    exact first.append ih
  case plain =>
    intro below cursor counts child rest part stride others _ _ _ _ first ih
    rw [Schema.bodiesOf, List.map_append]
    exact first.append ih

/-- The layout of a schema has the strides that the strategy answers for its bodies, and in
unbounded numbers every body is at most its stride, which is at most the limit. No cursor
leaves the word range if the stride that the strategy answers covers each body. -/
theorem layout_within (r : LayoutRules) (s : Schema) :
    (∀ l, r.layout s = .ok l → Strides l.structs (s.bodies.map r.bodyStride) ∧
      ∀ body ∈ s.bodies, r.Bounded body) ∧
    (r.Fits s → r.layout s ≠ .error .overflow) := by
  refine ⟨fun l ok => ?_, inRange_layout⟩
  obtain ⟨-, part, stride, placed, same⟩ := layout_eq_ok.mp ok
  exact ⟨same ▸ (placement_strides r).1 _ _ _ _ _ placed,
    ((placement_exact r).1 _ _ _ _ _ placed).bounded⟩

theorem layout_within_order :
    layout { strategy := .aligned .bits8 } order = .ok orderLayout ∧
      Strides orderLayout.structs [72, 24, 72, 16] ∧
      (∀ body ∈ order.bodies, Bounded { strategy := .aligned .bits8 } body) ∧
      Fits { strategy := .aligned .bits8 } order ∧
      layout { strategy := .aligned .bits8 } order ≠ .error .overflow := by
  have laid : layout { strategy := .aligned .bits8 } order = .ok orderLayout := by rfl
  obtain ⟨within, inRange⟩ := layout_within { strategy := .aligned .bits8 } order
  have fits : Fits { strategy := .aligned .bits8 } order := by decide
  exact ⟨laid, (within _ laid).1, (within _ laid).2, fits, inRange fits⟩

/-- Slots that take half of the word range each. -/
def halves : LayoutRules where
  strategy := { name := "halves", slotBits := fun _ => 0x8000000000000000, roundStride := id }

/-- Two fields. -/
def couple : Schema where
  name := "couple"
  fields := [⟨"left", .int8⟩, ⟨"right", .int8⟩]

/-- Slots that take a quarter of the word range each, and strides without bits. -/
def quarters : LayoutRules where
  strategy :=
    { name := "quarters", slotBits := fun _ => 0x4000000000000000, roundStride := fun _ => 0 }

/-- Two fields, and below them two more. -/
def couples : Schema where
  name := "couples"
  fields := couple.fields
  children := [couple]

/-- A body beyond the word range is not refused for its size, and a body within it that is
rounded down need not be refused for that: in both of them a cursor leaves the word range. -/
theorem layout_not_within :
    (couple.Buildable ∧ halves.extent couple = UInt64.size ∧
      halves.layout couple = .error .overflow) ∧
    couples.Buildable ∧ (∀ body ∈ couples.bodies, quarters.extent body < UInt64.size) ∧
      quarters.layout couples = .error .overflow := by
  have built : couple.Buildable := .rebuilt (by simp [couple]) (by decide) (by rfl)
  refine ⟨⟨built, by rfl, by rfl⟩, ?_, by decide, by rfl⟩
  exact .rebuilt (fun child member => List.mem_singleton.mp member ▸ built) (by decide) (by rfl)

end LayoutRules

end BitRecords
