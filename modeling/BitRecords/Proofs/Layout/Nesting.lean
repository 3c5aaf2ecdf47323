import BitRecords.Proofs.Layout.Spans

/-!
# Structs inside their parents

A struct that is placed has a body: the bits of one segment from its offset to
its stride. Its own fields, and the presence bits of its optional children, lie
in the body. So do the bodies of its plain children, while an optional child has
a segment whose row is its body, and a list child has no bits at all.
-/

namespace BitRecords

open Layout

/-- The bits around the children of a struct. `chain` lists the optional structs
that hold them. -/
structure Body where
  id : StructId
  segment : SegmentId
  chain : List StructId
  first : Nat
  last : Nat

def StructLayout.body (s : StructLayout) : Body where
  id := s.id
  segment := s.segment
  chain := s.chain
  first := s.offset.toNat
  last := s.offset.toNat + s.stride.toNat

/-- How a struct lies in the body of its parent, where `segmentAt` tells the
segments. -/
inductive StructLayout.Fits (segmentAt : SegmentId → Segment → Prop) (b : Body)
    (s : StructLayout) : Prop where
  /-- A list struct only carries the layout of its elements. -/
  | list {element : Layout} : s.element = some element → s.flags.list = true →
      s.presence = none → s.union = none → s.fields = [] → s.stride = 0 → s.chain = b.chain →
      Fits segmentAt b s
  /-- An optional struct has its presence bit in the parent, and its body is the
  row of a segment. -/
  | optional {cursor : UInt64} : s.element = none → s.flags.list = false →
      s.flags.optional = true → s.presence = some ⟨b.segment, cursor⟩ → b.first ≤ cursor.toNat →
      cursor.toNat + 1 ≤ b.last → s.offset = 0 → segmentAt s.segment ⟨s.id, s.stride⟩ →
      s.segment ≠ b.segment → s.chain = b.chain ++ [s.id] → Fits segmentAt b s
  | plain : s.element = none → s.flags.list = false → s.flags.optional = false →
      s.presence = none → s.segment = b.segment → b.first ≤ s.offset.toNat →
      s.offset.toNat + s.stride.toNat ≤ b.last → s.chain = b.chain → Fits segmentAt b s

/-- The struct is a child of the one that has the body. -/
structure StructLayout.Nests (segmentAt : SegmentId → Segment → Prop) (b : Body)
    (s : StructLayout) : Prop where
  parent : s.parent = some b.id
  later : b.id < s.id
  fits : s.Fits segmentAt b

/-- The body of the struct holds the span. -/
def StructLayout.Holds (s : StructLayout) (x : Span) : Prop :=
  x.Between s.body.segment s.body.first s.body.last

theorem StructLayout.Nests.mono {now later : SegmentId → Segment → Prop} {b : Body}
    {s : StructLayout} (nests : s.Nests now b) (kept : ∀ k g, now k g → later k g) :
    s.Nests later b := by
  refine ⟨nests.parent, nests.later, ?_⟩
  cases nests.fits with
  | list element isList presence union fields stride chain =>
    exact .list element isList presence union fields stride chain
  | optional single notList isOptional presence lower upper start own other chain =>
    exact .optional single notList isOptional presence lower upper start (kept _ _ own) other chain
  | plain single notList notOptional presence segment lower upper chain =>
    exact .plain single notList notOptional presence segment lower upper chain

/-- A list takes no bits of its parent. -/
theorem StructLayout.Nests.spans_of_list {segmentAt : SegmentId → Segment → Prop} {b : Body}
    {s : StructLayout} (nests : s.Nests segmentAt b) (isList : s.isList = true) :
    s.spans = [] ∧ s.stride = 0 := by
  cases nests.fits with
  | list _ _ presence union _ stride _ =>
    exact ⟨by simp [spans, presenceSpans, unionSpans, presence, union], stride⟩
  | optional single => simp [StructLayout.isList, single] at isList
  | plain single => simp [StructLayout.isList, single] at isList

namespace Layout

/-- Each struct is a child of one that has the given body, or of another of these
structs. -/
def NestedUnder (b : Body) (base : Nat) (segments : List Segment) (structs : List StructLayout) :
    Prop :=
  ∀ s ∈ structs, s.Nests (SegmentAt base segments) b ∨
    ∃ p ∈ structs, p.element = none ∧ s.Nests (SegmentAt base segments) p.body

namespace NestedUnder

variable {b : Body} {base : Nat} {segments others : List Segment} {xs ys : List StructLayout}

theorem mono {base' : Nat} (nested : NestedUnder b base segments xs)
    (kept : ∀ k g, SegmentAt base segments k g → SegmentAt base' others k g) :
    NestedUnder b base' others xs := by
  intro s member
  rcases nested s member with here | ⟨p, inside, single, nests⟩
  · exact .inl (here.mono kept)
  · exact .inr ⟨p, inside, single, nests.mono kept⟩

theorem append (left : NestedUnder b base segments xs)
    (right : NestedUnder b (base + segments.length) others ys) :
    NestedUnder b base (segments ++ others) (xs ++ ys) := by
  have before := left.mono fun k g found => SegmentAt.append_left found others
  have after := right.mono fun k g found => SegmentAt.append_right found
  intro s member
  rcases List.mem_append.mp member with member | member
  · rcases before s member with here | ⟨p, inside, found⟩
    · exact .inl here
    · exact .inr ⟨p, List.mem_append_left _ inside, found⟩
  · rcases after s member with here | ⟨p, inside, found⟩
    · exact .inl here
    · exact .inr ⟨p, List.mem_append_right _ inside, found⟩

/-- A struct is put before the structs below it. -/
theorem cons {top : StructLayout} (single : top.element = none)
    (nests : top.Nests (SegmentAt base segments) b)
    (nested : NestedUnder top.body base segments xs) :
    NestedUnder b base segments (top :: xs) := by
  intro s member
  rcases List.mem_cons.mp member with rfl | member
  · exact .inl nests
  · rcases nested s member with here | ⟨p, inside, found⟩
    · exact .inr ⟨top, List.mem_cons_self, single, here⟩
    · exact .inr ⟨p, List.mem_cons_of_mem _ inside, found⟩

end NestedUnder

/-- The spans of all fields and unions lie in the bodies of their structs. -/
structure Part.Held (p : Part) : Prop where
  fields : ∀ f ∈ p.fields, ∃ s ∈ p.structs, f.owner = s.id ∧ ∀ x ∈ f.spans, s.Holds x
  unions : ∀ s ∈ p.structs, ∀ x ∈ unionSpans s.id s.segment s.union, s.Holds x

theorem Part.Held.append {a b : Part} (left : a.Held) (right : b.Held) : (a ++ b).Held where
  fields f member := by
    rcases List.mem_append.mp member with member | member
    · obtain ⟨s, inside, holds⟩ := left.fields f member
      exact ⟨s, List.mem_append_left _ inside, holds⟩
    · obtain ⟨s, inside, holds⟩ := right.fields f member
      exact ⟨s, List.mem_append_right _ inside, holds⟩
  unions s member := by
    rcases List.mem_append.mp member with member | member
    · exact left.unions s member
    · exact right.unions s member

end Layout

namespace LayoutRules

variable {r : LayoutRules}

/-- The struct that is placed comes first, and those below it are nested in it. -/
def StructNested (place : Place) (counts : Counts) (s : Schema) (part : Part)
    (stride : UInt64) : Prop :=
  place.segment < counts.segments →
    part.Held ∧ ∃ own inner rest, part.structs = placed place counts s own inner stride :: rest ∧
      NestedUnder (placed place counts s own inner stride).body counts.segments part.segments rest

/-- Children are nested in every body that holds all of them. -/
def ChildrenNested (r : LayoutRules) (below : Place) (cursor : UInt64) (counts : Counts)
    (children : List Schema) (part : Part) : Prop :=
  below.segment < counts.segments → below.presence = none →
    part.Held ∧ ∀ b : Body, below.parent = some b.id → below.segment = b.segment →
      below.chain = b.chain → b.first ≤ cursor.toNat →
      cursor.toNat + r.childrenExtent children ≤ b.last → b.id < counts.structs →
      NestedUnder b counts.segments part.segments part.structs

section Placed

variable {place below : Place} {counts : Counts} {cursor stride : UInt64} {s child : Schema}
variable {own : OwnFields} {inner : Children} {segments : List Segment} {b : Body}

/-- The own fields of a struct, and its union, lie in its body. -/
theorem holds_placed {union : Bool}
    (ok : PlacesOwn r place counts { s with flags := place.flagsOf s } union own)
    (enough : place.offset.toNat + r.ownExtent s.fields union ≤
      place.offset.toNat + stride.toNat) :
    ∀ x ∈ own.fields.flatMap (·.spans) ++ unionSpans counts.structs place.segment own.union,
      (placed place counts s own inner stride).Holds x := by
  intro x member
  obtain ⟨-, between⟩ := spans_placesOwn ok counts.structs
  exact (between x member).mono (Nat.le_refl _) enough

theorem nests_optional (notList : child.flags.list = false)
    (isOptional : child.flags.optional = true) (parent : below.parent = some b.id)
    (segment : below.segment = b.segment) (chain : below.chain = b.chain)
    (shared : below.segment < counts.segments) (earlier : b.id < counts.structs)
    (lower : b.first ≤ cursor.toNat) (upper : cursor.toNat + 1 ≤ b.last) :
    (placed (below.optional cursor counts.segments child)
      { counts with segments := counts.segments + 1 } child own inner stride).Nests
      (SegmentAt counts.segments (⟨counts.structs, stride⟩ :: segments)) b := by
  have flags : (below.optional cursor counts.segments child).flagsOf child = child.flags := by
    simp [Place.flagsOf, Place.optional, parent]
  refine ⟨parent, earlier, @StructLayout.Fits.optional _ _ _ cursor rfl ?_ ?_ ?_ lower upper rfl
    ⟨0, rfl, rfl⟩ ?_ ?_⟩
  · simp [placed, flags, notList]
  · simp [placed, flags, isOptional]
  · simp [placed, Place.optional, segment]
  · rw [← segment]
    exact Nat.ne_of_gt shared
  · simp only [placed, Place.chainOf, flags, isOptional, if_true]
    rw [← chain]
    rfl

theorem nests_plain (notList : child.flags.list = false)
    (notOptional : child.flags.optional = false) (parent : below.parent = some b.id)
    (segment : below.segment = b.segment) (chain : below.chain = b.chain)
    (single : below.presence = none) (earlier : b.id < counts.structs)
    (lower : b.first ≤ cursor.toNat) (upper : cursor.toNat + stride.toNat ≤ b.last) :
    (placed (below.child cursor child) counts child own inner stride).Nests
      (SegmentAt counts.segments segments) b := by
  have flags : (below.child cursor child).flagsOf child = child.flags := by
    simp [Place.flagsOf, Place.child, parent]
  refine ⟨parent, earlier, .plain rfl ?_ ?_ single segment lower upper ?_⟩
  · simp [placed, flags, notList]
  · simp [placed, flags, notOptional]
  · simp only [placed, Place.chainOf, flags, notOptional, Bool.false_eq_true, if_false]
    exact chain

end Placed

theorem placement_nested (r : LayoutRules) :
    (∀ s place counts part stride, r.placeStruct place counts s = .ok (part, stride) →
      StructNested place counts s part stride) ∧
    (∀ children below cursor counts result,
      r.placeChildren below cursor counts children = .ok result →
      ChildrenNested r below cursor counts children result.part) := by
  refine placement_induction r
    (P := fun place counts s part stride => StructNested place counts s part stride)
    (Q := fun below cursor counts children result =>
      ChildrenNested r below cursor counts children result.part)
    ?struct ?none ?list ?optional ?plain
  case struct =>
    intro place counts s own inner stride ok ownOk children _ shared
    have enough := ((placement_exact r).1 _ _ _ _ _ ok).extent_le
    rw [extent_eq] at enough
    have finish := finish_placesOwn ownOk
    dsimp only at finish
    have holds : ∀ x ∈ own.fields.flatMap (·.spans) ++
        unionSpans counts.structs place.segment own.union,
        (placed place counts s own inner stride).Holds x :=
      holds_placed ownOk (by omega)
    obtain ⟨held, nested⟩ := children shared rfl
    refine ⟨Part.Held.append ⟨?_, ?_⟩ held, own, inner, inner.part.structs, rfl, ?_⟩
    · intro f member
      exact ⟨_, List.mem_singleton_self _, (owns_placed ownOk member).owner, fun x inside =>
        holds x (List.mem_append_left _ (List.mem_flatMap.mpr ⟨f, member, inside⟩))⟩
    · intro s' member x inside
      cases List.mem_singleton.mp member
      exact holds x (List.mem_append_right _ inside)
    · refine nested _ rfl rfl rfl ?_ ?_ (Nat.lt_succ_self _)
      · simp only [StructLayout.body, placed]
        omega
      · simp only [StructLayout.body, placed]
        omega
  case none =>
    intro below cursor counts _ _
    exact ⟨⟨by simp, by simp⟩, fun _ _ _ _ _ _ _ s member => absurd member List.not_mem_nil⟩
  case list =>
    intro below cursor counts child rest inner stride others isList _ _ ih shared own
    rw [childrenExtent_list r isList]
    obtain ⟨held, nested⟩ := ih shared own
    refine ⟨Part.Held.append ⟨by simp, ?_⟩ held, ?_⟩
    · intro s member x inside
      cases List.mem_singleton.mp member
      cases inside
    · intro b parent segment chain lower upper earlier
      refine @NestedUnder.append _ _ [] _ _ _ ?_
        (nested b parent segment chain lower upper (Nat.lt_succ_of_lt earlier))
      intro s member
      cases List.mem_singleton.mp member
      exact .inl ⟨parent, earlier, .list rfl isList rfl rfl rfl rfl chain⟩
  case optional =>
    intro below cursor counts child rest slot inner stride others notList isOptional slotOk fits
      innerOk first ih shared own
    rw [childrenExtent_optional r notList isOptional]
    obtain ⟨rfl, wide⟩ := slot_eq_ok slotOk
    obtain ⟨held, nested⟩ := ih (Nat.lt_of_lt_of_le shared (Nat.le_add_right _ _)) own
    obtain ⟨firstHeld, own', inner', rest', split, firstNested⟩ := first (Nat.lt_succ_self _)
    refine ⟨Part.Held.append ⟨firstHeld.fields, firstHeld.unions⟩ held, ?_⟩
    intro b parent segment chain lower upper earlier
    rw [toNat_add_exact fits, Nat.add_assoc] at nested
    have top : (placed (below.optional cursor counts.segments child)
        { counts with segments := counts.segments + 1 } child own' inner' stride).Nests
        (SegmentAt counts.segments (⟨counts.structs, stride⟩ :: inner.segments)) b :=
      nests_optional notList isOptional parent segment chain shared earlier lower (by omega)
    refine NestedUnder.append ?_ (nested b parent segment chain (by omega) upper
      (Nat.lt_of_lt_of_le earlier (Nat.le_add_right _ _)))
    dsimp only
    rw [split]
    exact NestedUnder.cons rfl top (firstNested.mono fun k g found => found.cons _)
  case plain =>
    intro below cursor counts child rest part stride others notList notOptional partOk fits first
      ih shared own
    rw [childrenExtent_plain r notList notOptional, ← bodyStride]
    rw [← ((placement_exact r).1 _ _ _ _ _ partOk).rounded]
    obtain ⟨held, nested⟩ := ih (Nat.lt_of_lt_of_le shared (Nat.le_add_right _ _)) own
    obtain ⟨firstHeld, own', inner', rest', split, firstNested⟩ := first shared
    refine ⟨firstHeld.append held, ?_⟩
    intro b parent segment chain lower upper earlier
    rw [toNat_add_exact fits, Nat.add_assoc] at nested
    have top : (placed (below.child cursor child) counts child own' inner' stride).Nests
        (SegmentAt counts.segments part.segments) b :=
      nests_plain notList notOptional parent segment chain own earlier lower (by omega)
    refine NestedUnder.append ?_ (nested b parent segment chain (by omega) upper
      (Nat.lt_of_lt_of_le earlier (Nat.le_add_right _ _)))
    rw [split]
    exact NestedUnder.cons rfl top firstNested

end LayoutRules

end BitRecords
