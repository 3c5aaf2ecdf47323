import Mathlib.Data.List.Perm.Basic
import BitRecords.Proofs.Layout.Links

/-!
# Spans of bits

Every row of a segment is cut into spans: the reserved slot of each field that
is no union member, the region and the tag of each union, and the presence bit
of each optional struct. A placement keeps the spans of a body between the two
ends of its cursor, and those of the segments below it inside their strides. Two
zones of a placement share no bit, so all spans are apart.
-/

namespace BitRecords

open Layout

/-- What a span of bits is for. -/
inductive Use where
  | field (id : FieldId)
  | region (id : StructId)
  | tag (id : StructId)
  | presence (id : StructId)
deriving DecidableEq

/-- A run of bits in every row of a segment. -/
structure Span where
  use : Use
  segment : SegmentId
  start : Nat
  width : Nat
deriving DecidableEq

namespace Span

/-- The first bit after the span. -/
def finish (x : Span) : Nat := x.start + x.width

/-- Two spans share no bit. -/
def Apart (x y : Span) : Prop :=
  x.segment ≠ y.segment ∨ x.finish ≤ y.start ∨ y.finish ≤ x.start

instance (x y : Span) : Decidable (x.Apart y) :=
  inferInstanceAs (Decidable (_ ∨ _ ∨ _))

theorem Apart.symm {x y : Span} (apart : x.Apart y) : y.Apart x := by
  rcases apart with segments | before | after
  · exact .inl (Ne.symm segments)
  · exact .inr (.inr before)
  · exact .inr (.inl after)

/-- The span lies between two bits of a segment. -/
structure Between (x : Span) (segment : SegmentId) (first last : Nat) : Prop where
  segment : x.segment = segment
  start : first ≤ x.start
  finish : x.finish ≤ last

theorem Between.mono {x : Span} {segment : SegmentId} {first last first' last' : Nat}
    (between : x.Between segment first last) (lower : first' ≤ first) (upper : last ≤ last') :
    x.Between segment first' last' :=
  ⟨between.segment, Nat.le_trans lower between.start, Nat.le_trans between.finish upper⟩

end Span

/-- The slot of a field. A union member has no bits of its own. -/
def FieldLayout.spans (f : FieldLayout) : List Span :=
  match f.tag with
  | none => [⟨.field f.id, f.segment, f.offset.toNat, f.slot.toNat⟩]
  | some _ => []

/-- The region and the tag of a union. -/
def unionSpans (id : StructId) (segment : SegmentId) : Option UnionRegion → List Span
  | none => []
  | some u =>
    [⟨.region id, segment, u.offset.toNat, u.width⟩,
      ⟨.tag id, u.tag.segment, u.tag.offset.toNat, u.tagWidth⟩]

/-- The presence bit of an optional struct. -/
def presenceSpans (id : StructId) : Option Slot → List Span
  | none => []
  | some slot => [⟨.presence id, slot.segment, slot.offset.toNat, 1⟩]

def StructLayout.spans (s : StructLayout) : List Span :=
  presenceSpans s.id s.presence ++ unionSpans s.id s.segment s.union

namespace Layout

/-- All spans of a layout. -/
def spans (l : Layout) : List Span :=
  l.fields.flatMap (·.spans) ++ l.structs.flatMap (·.spans)

def Part.spans (p : Part) : List Span :=
  p.fields.flatMap (·.spans) ++ p.structs.flatMap (·.spans)

theorem Part.spans_append (a b : Part) : (a ++ b).spans.Perm (a.spans ++ b.spans) := by
  simp only [Part.spans, structs_append, fields_append, List.flatMap_append, List.append_assoc]
  refine List.Perm.append_left _ ?_
  rw [← List.append_assoc, ← List.append_assoc]
  exact List.Perm.append_right _ List.perm_append_comm

/-- Segment `k` is one of those that are added after the first `base` ones. -/
def SegmentAt (base : Nat) (segments : List Segment) (k : SegmentId) (g : Segment) : Prop :=
  ∃ i, k = base + i ∧ segments[i]? = some g

theorem SegmentAt.append_left {base : Nat} {a : List Segment} {k : SegmentId} {g : Segment}
    (found : SegmentAt base a k g) (b : List Segment) : SegmentAt base (a ++ b) k g := by
  obtain ⟨i, same, found⟩ := found
  refine ⟨i, same, ?_⟩
  rw [List.getElem?_append_left (List.getElem?_eq_some_iff.mp found).1]
  exact found

theorem SegmentAt.append_right {base : Nat} {a b : List Segment} {k : SegmentId} {g : Segment}
    (found : SegmentAt (base + a.length) b k g) : SegmentAt base (a ++ b) k g := by
  obtain ⟨i, same, found⟩ := found
  refine ⟨a.length + i, same.trans (Nat.add_assoc _ _ _), ?_⟩
  rw [List.getElem?_append_right (Nat.le_add_right _ _), Nat.add_sub_cancel_left]
  exact found

theorem SegmentAt.cons {base : Nat} {a : List Segment} {k : SegmentId} {g : Segment}
    (found : SegmentAt (base + 1) a k g) (first : Segment) : SegmentAt base (first :: a) k g :=
  SegmentAt.append_right (a := [first]) found

/-- The zone of a run of placements: some bits of one segment, and the segments
that are added. -/
inductive Zone (segment : SegmentId) (first last base : Nat) (segments : List Segment)
    (x : Span) : Prop where
  | body : x.Between segment first last → Zone segment first last base segments x
  | added {g : Segment} : SegmentAt base segments x.segment g → x.finish ≤ g.stride.toNat →
      Zone segment first last base segments x

namespace Zone

variable {segment : SegmentId} {first middle last base : Nat} {a b : List Segment} {x y : Span}

theorem before (zone : Zone segment first middle base a x) (later : middle ≤ last)
    (b : List Segment) : Zone segment first last base (a ++ b) x := by
  cases zone with
  | body between => exact .body (between.mono (Nat.le_refl _) later)
  | added found fits => exact .added (found.append_left b) fits

theorem after (zone : Zone segment middle last (base + a.length) b x) (earlier : first ≤ middle) :
    Zone segment first last base (a ++ b) x := by
  cases zone with
  | body between => exact .body (between.mono earlier (Nat.le_refl _))
  | added found fits => exact .added found.append_right fits

/-- Zones that follow each other share no bit, as the segments that are added
come after the one that is shared. -/
theorem apart (shared : segment < base) (left : Zone segment first middle base a x)
    (right : Zone segment middle last (base + a.length) b y) : x.Apart y := by
  cases left with
  | body left =>
    cases right with
    | body right => exact .inr (.inl (Nat.le_trans left.finish right.start))
    | added right _ =>
      obtain ⟨j, same, _⟩ := right
      refine .inl (Nat.ne_of_lt ?_)
      rw [left.segment, same]
      exact Nat.lt_of_lt_of_le shared (Nat.le_trans (Nat.le_add_right _ _) (Nat.le_add_right _ _))
  | added left _ =>
    obtain ⟨i, same, found⟩ := left
    have bound : i < a.length := (List.getElem?_eq_some_iff.mp found).1
    cases right with
    | body right =>
      refine .inl (Nat.ne_of_gt ?_)
      rw [right.segment, same]
      exact Nat.lt_of_lt_of_le shared (Nat.le_add_right _ _)
    | added right _ =>
      obtain ⟨j, same', _⟩ := right
      refine .inl (Nat.ne_of_lt ?_)
      rw [same, same']
      exact Nat.lt_of_lt_of_le (Nat.add_lt_add_left bound _) (Nat.le_add_right _ _)

end Zone

/-- The spans keep to a zone and share no bit with each other. -/
structure Packs (spans : List Span) (segment : SegmentId) (first last base : Nat)
    (segments : List Segment) : Prop where
  apart : spans.Pairwise Span.Apart
  zone : ∀ x ∈ spans, Zone segment first last base segments x

namespace Packs

variable {segment : SegmentId} {first middle last base : Nat} {a b : List Segment}
variable {xs ys : List Span}

theorem nil : Packs [] segment first last base a where
  apart := .nil
  zone _ member := nomatch member

theorem perm (packs : Packs xs segment first last base a) (perm : ys.Perm xs) :
    Packs ys segment first last base a where
  apart := (perm.pairwise_iff Span.Apart.symm).mpr packs.apart
  zone x member := packs.zone x (perm.mem_iff.mp member)

/-- Zones that follow each other are one zone. -/
theorem append (left : Packs xs segment first middle base a)
    (right : Packs ys segment middle last (base + a.length) b) (shared : segment < base)
    (lower : first ≤ middle) (upper : middle ≤ last) :
    Packs (xs ++ ys) segment first last base (a ++ b) where
  apart := List.pairwise_append.mpr ⟨left.apart, right.apart, fun x inLeft y inRight =>
    (left.zone x inLeft).apart shared (right.zone y inRight)⟩
  zone x member := by
    rcases List.mem_append.mp member with member | member
    · exact (left.zone x member).before upper b
    · exact (right.zone x member).after lower

end Packs

end Layout

namespace LayoutRules

variable {r : LayoutRules}

theorem spans_placeFields {place : Place} {owner : StructId} {fields : List Field} {id : FieldId}
    {cursor finish : UInt64} {placed : List FieldLayout}
    (ok : r.placeFields place owner id cursor fields = .ok (placed, finish)) :
    (placed.flatMap (·.spans)).Pairwise Span.Apart ∧
      ∀ x ∈ placed.flatMap (·.spans), x.Between place.segment cursor.toNat
        (cursor.toNat + r.ownExtent fields false) := by
  induction fields generalizing id cursor placed with
  | nil =>
    cases ok
    simp
  | cons f rest ih =>
    obtain ⟨slot, others, slotOk, fits, othersOk, rfl⟩ := placeFields_cons_eq_ok.mp ok
    obtain ⟨rfl, -⟩ := slot_eq_ok slotOk
    have sum : r.ownExtent (f :: rest) false =
        (r.strategy.slotBits f.type.width).toNat + r.ownExtent rest false := by
      simp [ownExtent]
    obtain ⟨apart, between⟩ := ih othersOk
    rw [toNat_add_exact fits] at between
    have here : (placedField place owner id cursor (r.strategy.slotBits f.type.width) f).spans =
        [⟨.field id, place.segment, cursor.toNat, (r.strategy.slotBits f.type.width).toNat⟩] := rfl
    constructor
    · simp only [List.flatMap_cons, here, List.singleton_append, List.pairwise_cons]
      exact ⟨fun x member => .inr (.inl (between x member).start), apart⟩
    · intro x member
      simp only [List.flatMap_cons, here, List.singleton_append, List.mem_cons] at member
      rcases member with rfl | member
      · refine ⟨rfl, Nat.le_refl _, ?_⟩
        simp only [Span.finish]
        omega
      · exact (between x member).mono (by omega) (by omega)

theorem spans_placeMembers (place : Place) (owner : StructId) (region : UInt64) (id : FieldId)
    (tag : Nat) (fields : List Field) :
    (placeMembers place owner region id tag fields).flatMap (·.spans) = [] := by
  induction fields generalizing id tag with
  | nil => rfl
  | cons f rest ih =>
    rw [placeMembers, List.flatMap_cons, ih]
    rfl

/-- The own fields of a struct lie between the start of the body and the cursor
after them. -/
theorem spans_placesOwn {place : Place} {counts : Counts} {s : Schema} {union : Bool}
    {own : OwnFields} (step : PlacesOwn r place counts s union own) (id : StructId) :
    (own.fields.flatMap (·.spans) ++ unionSpans id place.segment own.union).Pairwise Span.Apart ∧
      ∀ x ∈ own.fields.flatMap (·.spans) ++ unionSpans id place.segment own.union,
        x.Between place.segment place.offset.toNat
          (place.offset.toNat + r.ownExtent s.fields union) := by
  cases step with
  | union _ _ regionOk slotOk regionFits _ =>
    obtain ⟨rfl, wide⟩ := slot_eq_ok regionOk
    obtain ⟨rfl, tagWide⟩ := slot_eq_ok slotOk
    have tag := toNat_add_exact regionFits
    simp only [ownExtent, if_true]
    simp only [spans_placeMembers, List.nil_append, unionSpans, List.pairwise_cons,
      List.forall_mem_cons]
    refine ⟨⟨⟨.inr (.inl ?_), by simp⟩, by simp⟩, ⟨rfl, Nat.le_refl _, ?_⟩, ⟨rfl, ?_, ?_⟩, by simp⟩
    all_goals
      simp only [Span.finish]
      omega
  | plain fieldsOk =>
    simpa [unionSpans] using spans_placeFields fieldsOk

/-- The spans of a struct, apart from its own presence bit, keep to the zone of
its body. -/
def StructSpans (r : LayoutRules) (place : Place) (counts : Counts) (s : Schema) (part : Part) :
    Prop :=
  place.segment < counts.segments →
    ∃ body, part.spans.Perm (presenceSpans counts.structs place.presence ++ body) ∧
      Packs body place.segment place.offset.toNat (place.offset.toNat + r.extent s) counts.segments
        part.segments

/-- The spans of children keep to their zone. -/
def ChildrenSpans (r : LayoutRules) (below : Place) (cursor : UInt64) (counts : Counts)
    (children : List Schema) (part : Part) : Prop :=
  below.segment < counts.segments → below.presence = none →
    Packs part.spans below.segment cursor.toNat (cursor.toNat + r.childrenExtent children)
      counts.segments part.segments

/-- The body of an optional struct lies in its own segment, away from the
presence bit. -/
theorem spans_optional {below : Place} {cursor slot stride : UInt64} {counts : Counts}
    {child : Schema} {inner : Part} (wide : 1 ≤ slot.toNat)
    (shared : below.segment < counts.segments) (enough : r.extent child ≤ stride.toNat)
    (first : StructSpans r (below.optional cursor counts.segments child)
      { counts with segments := counts.segments + 1 } child inner) :
    Packs inner.spans below.segment cursor.toNat (cursor.toNat + slot.toNat) counts.segments
      (⟨counts.structs, stride⟩ :: inner.segments) := by
  obtain ⟨body, perm, packs⟩ := first (Nat.lt_succ_self _)
  have zone : ∀ x ∈ body, ∃ g,
      SegmentAt counts.segments (⟨counts.structs, stride⟩ :: inner.segments) x.segment g ∧
        x.finish ≤ g.stride.toNat := by
    intro x member
    cases packs.zone x member with
    | body between =>
      refine ⟨⟨counts.structs, stride⟩, ⟨0, between.segment, rfl⟩, ?_⟩
      refine Nat.le_trans between.finish ?_
      simpa [Place.optional] using enough
    | added found fits => exact ⟨_, found.cons _, fits⟩
  refine Packs.perm ⟨?_, ?_⟩ perm
  · refine List.pairwise_cons.mpr ⟨fun x member => .inl (Nat.ne_of_lt ?_), packs.apart⟩
    obtain ⟨_, ⟨i, same, _⟩, _⟩ := zone x member
    rw [same]
    exact Nat.lt_of_lt_of_le shared (Nat.le_add_right _ _)
  · intro x member
    rcases List.mem_cons.mp member with rfl | member
    · exact .body ⟨rfl, Nat.le_refl _, Nat.add_le_add_left wide _⟩
    · obtain ⟨_, found, fits⟩ := zone x member
      exact .added found fits

/-- The spans of a struct are its presence bit, its own fields, and the spans of
its children. -/
theorem spans_struct (place : Place) (counts : Counts) (s : Schema) (own : OwnFields)
    (inner : Children) (stride : UInt64) :
    (({ structs := [placed place counts s own inner stride], fields := own.fields } : Part) ++
        inner.part).spans.Perm
      (presenceSpans counts.structs place.presence ++
        (own.fields.flatMap (·.spans) ++ unionSpans counts.structs place.segment own.union ++
          inner.part.spans)) := by
  refine (Part.spans_append _ _).trans ?_
  rw [← List.append_assoc]
  refine List.Perm.append_right _ ?_
  simp only [Part.spans, List.flatMap_singleton, StructLayout.spans, placed]
  rw [← List.append_assoc, ← List.append_assoc]
  exact List.Perm.append_right _ List.perm_append_comm

theorem placement_spans (r : LayoutRules) :
    (∀ s place counts part stride, r.placeStruct place counts s = .ok (part, stride) →
      StructSpans r place counts s part) ∧
    (∀ children below cursor counts result,
      r.placeChildren below cursor counts children = .ok result →
      ChildrenSpans r below cursor counts children result.part) := by
  refine placement_induction r (P := fun place counts s part _ => StructSpans r place counts s part)
    (Q := fun below cursor counts children result =>
      ChildrenSpans r below cursor counts children result.part)
    ?struct ?none ?list ?optional ?plain
  case struct =>
    intro place counts s own inner stride _ ownOk children _ shared
    rw [extent_eq]
    obtain ⟨apart, between⟩ := spans_placesOwn ownOk counts.structs
    have first : Packs _ place.segment place.offset.toNat
        (place.offset.toNat + r.ownExtent s.fields s.flags.union) counts.segments [] :=
      ⟨apart, fun x member => .body (between x member)⟩
    have rest := children shared rfl
    rw [finish_placesOwn ownOk, Nat.add_assoc] at rest
    exact ⟨_, spans_struct place counts s own inner stride,
      first.append rest shared (Nat.le_add_right _ _) (by omega)⟩
  case none =>
    intro below cursor counts _ _
    exact .nil
  case list =>
    intro below cursor counts child rest inner stride others isList _ _ ih shared own
    rw [childrenExtent_list r isList]
    have nothing : Packs [] below.segment cursor.toNat cursor.toNat counts.segments [] := .nil
    exact nothing.append (ih shared own) shared (Nat.le_refl _) (Nat.le_add_right _ _)
  case optional =>
    intro below cursor counts child rest slot inner stride others notList isOptional slotOk fits
      innerOk first ih shared own
    rw [childrenExtent_optional r notList isOptional]
    obtain ⟨rfl, wide⟩ := slot_eq_ok slotOk
    have enough := ((placement_exact r).1 _ _ _ _ _ innerOk).extent_le
    have rest := ih (Nat.lt_of_lt_of_le shared (Nat.le_add_right _ _)) own
    rw [toNat_add_exact fits, Nat.add_assoc] at rest
    exact (Packs.append (spans_optional wide shared enough first) rest shared
      (Nat.le_add_right _ _) (by omega)).perm (Part.spans_append _ _)
  case plain =>
    intro below cursor counts child rest part stride others notList notOptional partOk fits first
      ih shared own
    rw [childrenExtent_plain r notList notOptional]
    have exactly := (placement_exact r).1 _ _ _ _ _ partOk
    have enough := exactly.extent_le
    change Packs _ _ _ (cursor.toNat + ((r.bodyStride child).toNat + _)) _ _
    rw [← exactly.rounded]
    have rest := ih (Nat.lt_of_lt_of_le shared (Nat.le_add_right _ _)) own
    rw [toNat_add_exact fits, Nat.add_assoc] at rest
    obtain ⟨body, perm, packs⟩ := first shared
    simp only [Place.child, own, presenceSpans, List.nil_append] at perm packs
    have inside : Packs part.spans below.segment cursor.toNat (cursor.toNat + stride.toNat)
        counts.segments part.segments :=
      ⟨(packs.perm perm).apart, fun x member => by
        simpa using ((packs.perm perm).zone x member).before (Nat.add_le_add_left enough _) []⟩
    exact (inside.append rest shared (Nat.le_add_right _ _) (by omega)).perm
      (Part.spans_append _ _)

end LayoutRules

end BitRecords
