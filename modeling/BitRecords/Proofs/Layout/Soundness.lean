import BitRecords.Proofs.Layout.Nesting

/-!
# Sound layouts

In a sound layout every span lies inside the stride of its segment and no two
spans share a bit, so a write to one of them leaves all others as they were.
Every layout that is made is sound, and so are the layouts of its list elements,
at any depth.
-/

namespace BitRecords

open Layout

namespace Layout

/-- The first struct is the root of the layout. It lies at the start of segment 0
and is always present. -/
structure HasRoot (l : Layout) (root : StructLayout) (rest : List StructLayout) : Prop where
  structs : l.structs = root :: rest
  parent : root.parent = none
  single : root.element = none
  notOptional : root.flags.optional = false
  presence : root.presence = none
  chain : root.chain = []
  segment : root.segment = 0
  offset : root.offset = 0
  row : l.segments[0]? = some ⟨0, root.stride⟩

/-- A layout that keeps all its spans apart and inside their segments. -/
structure Sound (l : Layout) : Prop where
  structIds : ∀ (i : Nat) (s : StructLayout), l.structs[i]? = some s → s.id = i
  fieldIds : ∀ (i : Nat) (f : FieldLayout), l.fields[i]? = some f → f.id = i
  /-- Every span lies inside the stride of its segment. -/
  inside : ∀ x ∈ l.spans, ∃ g, l.segments[x.segment]? = some g ∧ x.finish ≤ g.stride.toNat
  apart : l.spans.Pairwise Span.Apart
  /-- Every field lies in the body of its struct: in a slot of its own, or as a
  member at the start of a region that is wide enough. -/
  fields : ∀ f ∈ l.fields, ∃ s ∈ l.structs, s.Owns f ∧ ∀ x ∈ f.spans, s.Holds x
  /-- Every union has a region of at most 64 bits and a tag that tells all its
  members apart, both in the body of its struct. -/
  unions : ∀ s ∈ l.structs, ∀ u, s.union = some u →
    s.Unites u l.fields ∧ ∀ x ∈ unionSpans s.id s.segment s.union, s.Holds x
  root : ∃ root rest, l.HasRoot root rest
  /-- Every other struct lies in its parent as its kind demands. -/
  nested : ∀ s ∈ l.structs, s.id ≠ 0 →
    ∃ p ∈ l.structs, p.element = none ∧ s.Nests (fun k g => l.segments[k]? = some g) p.body
  /-- A list takes no bits. -/
  lists : ∀ s ∈ l.structs, s.isList = true →
    s.spans = [] ∧ s.stride = 0 ∧ (∀ f ∈ l.fields, f.owner ≠ s.id) ∧
      ∀ g ∈ l.segments, g.owner ≠ s.id

/-- The layout has the property, and so have all layouts of list elements in it. -/
inductive Throughout (P : Layout → Prop) : Layout → Prop where
  | intro {l : Layout} : P l →
      (∀ s ∈ l.structs, ∀ element, s.element = some element → Throughout P element) →
      Throughout P l

theorem Throughout.here {P : Layout → Prop} {l : Layout} (all : l.Throughout P) : P l := by
  cases all with
  | intro holds _ => exact holds

theorem Throughout.element {P : Layout → Prop} {l : Layout} {s : StructLayout} {element : Layout}
    (all : l.Throughout P) (member : s ∈ l.structs) (found : s.element = some element) :
    element.Throughout P := by
  cases all with
  | intro _ elements => exact elements s member element found

theorem Throughout.mono {P Q : Layout → Prop} (more : ∀ l, P l → Q l) {l : Layout}
    (all : l.Throughout P) : l.Throughout Q := by
  induction all with
  | intro here _ ih => exact .intro (more _ here) ih

end Layout

namespace LayoutRules

variable {r : LayoutRules} {s : Schema} {part : Part} {stride : UInt64}

theorem getElem?_of_segmentAt {segments : List Segment} {k : SegmentId} {g : Segment}
    (found : SegmentAt 0 segments k g) : segments[k]? = some g := by
  obtain ⟨i, same, found⟩ := found
  rw [same, Nat.zero_add]
  exact found

/-- A part that is placed as a root makes a sound layout. -/
theorem sound_toLayout (ok : r.placeStruct .root .root s = .ok (part, stride)) :
    (part.toLayout r.strategy.name stride).Sound := by
  have enough := ((placement_exact r).1 _ _ _ _ _ ok).extent_le
  obtain ⟨linked, -⟩ := (placement_linked r).1 _ _ _ _ _ ok
  obtain ⟨body, perm, packs⟩ := (placement_spans r).1 _ _ _ _ _ ok Nat.one_pos
  obtain ⟨held, own, inner, rest, split, nested⟩ :=
    (placement_nested r).1 _ _ _ _ _ ok Nat.one_pos
  have structIds (i : Nat) (s : StructLayout) (found : part.structs[i]? = some s) : s.id = i :=
    (linked.structs i s found).trans (Nat.zero_add i)
  have owned (f : FieldLayout) (member : f ∈ part.fields) :
      ∃ s ∈ part.structs, s.Owns f ∧ ∀ x ∈ f.spans, s.Holds x := by
    obtain ⟨s, inside, owns⟩ := linked.owners f member
    obtain ⟨s', inside', owner, holds⟩ := held.fields f member
    obtain rfl := linked.eq_of_id inside inside' (owns.owner.symm.trans owner)
    exact ⟨s, inside, owns, holds⟩
  have nests (s : StructLayout) (member : s ∈ rest) : ∃ p ∈ part.structs, p.element = none ∧
      s.Nests (SegmentAt 0 (⟨0, stride⟩ :: part.segments)) p.body := by
    rw [split]
    rcases nested s member with top | ⟨p, inside, single, found⟩
    · exact ⟨_, List.mem_cons_self, rfl, top.mono fun k g found => found.cons _⟩
    · exact ⟨p, List.mem_cons_of_mem _ inside, single, found.mono fun k g found => found.cons _⟩
  refine
    { structIds, fields := owned, apart := (packs.perm perm).apart
      fieldIds := fun i f found => (linked.fields i f found).trans (Nat.zero_add i)
      unions := fun s member u union =>
        ⟨linked.unions s member u union, held.unions s member⟩
      root := ⟨_, rest, split, rfl, rfl, rfl, rfl, rfl, rfl, rfl, rfl⟩
      inside := ?_, nested := ?_, lists := ?_ }
  · intro x member
    cases (packs.perm perm).zone x member with
    | body between =>
      refine ⟨⟨0, stride⟩, ?_, Nat.le_trans between.finish ?_⟩
      · rw [between.segment]
        rfl
      · simpa [Place.root] using enough
    | added found fits => exact ⟨_, getElem?_of_segmentAt (found.cons ⟨0, stride⟩), fits⟩
  · intro s member notRoot
    have member : s ∈ part.structs := member
    rw [split] at member
    rcases List.mem_cons.mp member with rfl | member
    · exact absurd rfl notRoot
    · obtain ⟨p, inside, single, found⟩ := nests s member
      exact ⟨p, inside, single, found.mono fun k g => getElem?_of_segmentAt⟩
  · intro s member isList
    have member : s ∈ part.structs := member
    have below : s ∈ rest := by
      rw [split] at member
      rcases List.mem_cons.mp member with rfl | member
      · cases isList
      · exact member
    obtain ⟨p, -, -, nested⟩ := nests s below
    obtain ⟨spans, noStride⟩ := nested.spans_of_list isList
    obtain ⟨fields, segments⟩ := linked.unowned member isList
    refine ⟨spans, noStride, fields, List.forall_mem_cons.mpr ⟨?_, segments⟩⟩
    exact Nat.ne_of_lt (Nat.zero_lt_of_lt nested.later)

/-- What holds of the layout of every root whose structs are of some kind holds
throughout the layouts of list elements in a part, if the structs placed there
are of that kind. -/
theorem placement_elements (r : LayoutRules) {G : Schema → Prop} {Q : Layout → Prop}
    (root : ∀ s part stride, r.placeStruct .root .root s = .ok (part, stride) →
      (∀ body ∈ s.bodies, G body) → Q (part.toLayout r.strategy.name stride)) :
    (∀ s place counts part stride, r.placeStruct place counts s = .ok (part, stride) →
      (∀ body ∈ s.bodies, G body) → ∀ t ∈ part.structs, ∀ element, t.element = some element →
        element.Throughout Q) ∧
    (∀ children below cursor counts result,
      r.placeChildren below cursor counts children = .ok result →
      (∀ child ∈ children, ∀ body ∈ child.bodies, G body) →
        ∀ t ∈ result.part.structs, ∀ element, t.element = some element → element.Throughout Q) := by
  refine placement_induction r
    (P := fun _ _ s part _ => (∀ body ∈ s.bodies, G body) → ∀ t ∈ part.structs, ∀ element,
      t.element = some element → element.Throughout Q)
    (Q := fun _ _ _ children result => (∀ child ∈ children, ∀ body ∈ child.bodies, G body) →
      ∀ t ∈ result.part.structs, ∀ element, t.element = some element → element.Throughout Q)
    ?struct ?none ?list ?optional ?plain
  case struct =>
    intro place counts s own inner stride _ _ ih _ good t member element found
    rcases List.mem_cons.mp member with rfl | member
    · cases found
    · refine ih (fun child inside body below => good body ?_) t member element found
      exact Schema.mem_bodies.mpr (.inr ⟨child, inside, below⟩)
  case none =>
    intro _ _ _ _ t member
    cases member
  case list =>
    intro below cursor counts child rest inner stride others _ innerOk first ih good t member
      element found
    have childGood := good child List.mem_cons_self
    rcases List.mem_cons.mp member with rfl | member
    · cases found
      exact .intro (root _ _ _ innerOk childGood) (first childGood)
    · exact ih (fun c inside => good c (List.mem_cons_of_mem _ inside)) t member element found
  case optional =>
    intro below cursor counts child rest slot inner stride others _ _ _ _ _ first ih good t
      member element found
    rcases List.mem_append.mp member with member | member
    · exact first (good child List.mem_cons_self) t member element found
    · exact ih (fun c inside => good c (List.mem_cons_of_mem _ inside)) t member element found
  case plain =>
    intro below cursor counts child rest part stride others _ _ _ _ first ih good t member
      element found
    rcases List.mem_append.mp member with member | member
    · exact first (good child List.mem_cons_self) t member element found
    · exact ih (fun c inside => good c (List.mem_cons_of_mem _ inside)) t member element found

theorem throughout_toLayout {G : Schema → Prop} {Q : Layout → Prop}
    (root : ∀ s part stride, r.placeStruct .root .root s = .ok (part, stride) →
      (∀ body ∈ s.bodies, G body) → Q (part.toLayout r.strategy.name stride))
    (ok : r.placeStruct .root .root s = .ok (part, stride)) (good : ∀ body ∈ s.bodies, G body) :
    (part.toLayout r.strategy.name stride).Throughout Q :=
  .intro (root _ _ _ ok good) ((placement_elements r root).1 _ _ _ _ _ ok good)

theorem layout_eq_ok {l : Layout} : r.layout s = .ok l ↔ s.checkRoot = .ok () ∧
    ∃ part stride, r.placeStruct .root .root s = .ok (part, stride) ∧
      l = part.toLayout r.strategy.name stride := by
  simp only [layout, bind_eq_ok, Prod.exists, pure_eq_ok]
  constructor
  · rintro ⟨⟨⟩, checked, part, stride, placed, rfl⟩
    exact ⟨checked, part, stride, placed, rfl⟩
  · rintro ⟨checked, part, stride, placed, rfl⟩
    exact ⟨(), checked, part, stride, placed, rfl⟩

/-- Every layout that is made is sound, and so are the layouts of its list elements. -/
theorem layout_sound {l : Layout} (ok : r.layout s = .ok l) : l.Throughout Sound := by
  obtain ⟨-, part, stride, placed, rfl⟩ := layout_eq_ok.mp ok
  exact throughout_toLayout (G := fun _ => True)
    (fun _ _ _ placed _ => sound_toLayout placed) placed fun _ _ => trivial

/-- An order with a plain address, an optional price that is a union, and a list
of lines. -/
def order : Schema where
  name := "order"
  fields := [⟨"id", .int32⟩, ⟨"paid", .bool⟩]
  children := [
    { name := "address", fields := [⟨"zip", .unsigned 17⟩] },
    { name := "price", fields := [⟨"cents", .int64⟩, ⟨"rate", .float32⟩]
      flags := { optional := true, union := true } },
    { name := "lines", fields := [⟨"count", .int16⟩], flags := { list := true } }]

theorem layout_sound_order :
    ∃ l, LayoutRules.layout { strategy := .aligned .bits8 } order = .ok l ∧ l.Throughout Sound :=
  ⟨_, rfl, layout_sound (r := { strategy := .aligned .bits8 }) (s := order) rfl⟩

end LayoutRules

end BitRecords
