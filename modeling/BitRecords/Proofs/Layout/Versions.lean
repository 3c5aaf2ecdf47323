import BitRecords.Proofs.Layout.Traces

/-!
# Layouts of one schema by different rules

Rules decide widths of slots and strides, so the layouts of one schema by two rules
are versions of each other: they have the same outline and so have the elements of
their lists. Versions of schemas that cannot be told apart under one of the rules
cannot be told apart under the other one, hence some renaming takes the
fingerprints of the one layout to those of the other.
-/

namespace BitRecords

open Layout

namespace LayoutRules

variable {r r' : LayoutRules}

/-- Two layouts of one schema, by these rules. -/
inductive Versions (r r' : LayoutRules) : Layout → Layout → Prop where
  | intro {s : Schema} {part part' : Part} {stride stride' : UInt64} :
      (∀ body ∈ s.bodies, body.Named) → r.placeStruct .root .root s = .ok (part, stride) →
      r'.placeStruct .root .root s = .ok (part', stride') →
      Versions r r' (part.toLayout r.strategy.name stride) (part'.toLayout r'.strategy.name stride')

/-- The same struct in parts that are placed by these rules. -/
structure VersionsStruct (r r' : LayoutRules) (x x' : StructLayout) : Prop where
  outline : x'.outline = x.outline
  element : Option.Rel (Versions r r') x.element x'.element

structure VersionsPart (r r' : LayoutRules) (p p' : Part) : Prop where
  structs : List.Forall₂ (VersionsStruct r r') p.structs p'.structs
  fields : p'.fields.map (·.outline) = p.fields.map (·.outline)
  owners : p'.segments.map (·.owner) = p.segments.map (·.owner)

/-- Places that differ in segments and offsets at most. -/
structure SamePlace (place place' : Place) : Prop where
  parent : place'.parent = place.parent
  path : place'.path = place.path
  chain : place'.chain = place.chain
  presence : place'.presence.isSome = place.presence.isSome

/-- As many structs and fields have been placed. -/
structure SameCounts (counts counts' : Counts) : Prop where
  structs : counts'.structs = counts.structs
  fields : counts'.fields = counts.fields

variable {place place' : Place} {counts counts' : Counts} {p p' q q' : Part}

theorem VersionsPart.append (first : VersionsPart r r' p p') (second : VersionsPart r r' q q') :
    VersionsPart r r' (p ++ q) (p' ++ q') where
  structs := List.rel_append first.structs second.structs
  fields := by
    rw [Part.fields_append, Part.fields_append, List.map_append, List.map_append, first.fields,
      second.fields]
  owners := by
    rw [Part.segments_append, Part.segments_append, List.map_append, List.map_append,
      first.owners, second.owners]

theorem SameCounts.after (same : SameCounts counts counts') (parts : VersionsPart r r' p p') :
    SameCounts (counts.after p) (counts'.after p') where
  structs := by
    rw [Counts.after, Counts.after, same.structs, parts.structs.length_eq]
  fields := by
    have count : p'.fields.length = p.fields.length := by
      simpa using congrArg List.length parts.fields
    rw [Counts.after, Counts.after, same.fields, count]

theorem SamePlace.flagsOf (same : SamePlace place place') (s : Schema) :
    place'.flagsOf s = place.flagsOf s := by
  rw [Place.flagsOf, same.parent]
  rfl

theorem SamePlace.chainOf (same : SamePlace place place') (id : StructId) (s : Schema) :
    place'.chainOf id s = place.chainOf id s := by
  rw [Place.chainOf, same.flagsOf, same.chain]
  rfl

theorem SamePlace.below (same : SamePlace place place') (id : StructId) (s : Schema) :
    SamePlace (place.below id s) (place'.below id s) :=
  ⟨rfl, same.path, same.chainOf id s, rfl⟩

/-- A union has the same members and widths by both rules. -/
theorem outline_union {s : Schema} {union : Bool} {own own' : OwnFields}
    (step : PlacesOwn r place counts s union own)
    (step' : PlacesOwn r' place' counts' s union own')
    (outlines : own'.fields.map (·.outline) = own.fields.map (·.outline)) :
    own'.union.map (·.outline) = own.union.map (·.outline) := by
  have ids := congrArg (List.map (·.id)) outlines
  simp only [List.map_map] at ids
  cases step with
  | plain =>
    cases step'
    rfl
  | union =>
    cases step'
    exact congrArg (fun ids => some (UnionOutline.mk _ _ ids)) ids

/-- Parts that are placed by two rules are versions of each other. -/
theorem placement_versions (r r' : LayoutRules) :
    (∀ s place counts part stride, r.placeStruct place counts s = .ok (part, stride) →
      (∀ body ∈ s.bodies, body.Named) → ∀ place' counts' part' stride',
        r'.placeStruct place' counts' s = .ok (part', stride') → SamePlace place place' →
        SameCounts counts counts' → VersionsPart r r' part part') ∧
    (∀ children below cursor counts result,
      r.placeChildren below cursor counts children = .ok result →
      (∀ child ∈ children, ∀ body ∈ child.bodies, body.Named) → ∀ below' cursor' counts' result',
        r'.placeChildren below' cursor' counts' children = .ok result' → SamePlace below below' →
        SameCounts counts counts' →
        VersionsPart r r' result.part result'.part ∧ result'.ids = result.ids) := by
  refine placement_induction r
    (P := fun place counts s part _ => (∀ body ∈ s.bodies, body.Named) →
      ∀ place' counts' part' stride',
        r'.placeStruct place' counts' s = .ok (part', stride') → SamePlace place place' →
        SameCounts counts counts' → VersionsPart r r' part part')
    (Q := fun below cursor counts children result =>
      (∀ child ∈ children, ∀ body ∈ child.bodies, body.Named) → ∀ below' cursor' counts' result',
        r'.placeChildren below' cursor' counts' children = .ok result' → SamePlace below below' →
        SameCounts counts counts' →
        VersionsPart r r' result.part result'.part ∧ result'.ids = result.ids)
    ?struct ?none ?list ?optional ?plain
  case struct =>
    intro place counts s own inner stride _ ownOk ih _ named place' counts' part' stride' ok' same
      counted
    obtain ⟨own', inner', ownOk', innerOk', -, rfl⟩ := placeStruct_eq_ok.mp ok'
    have ownOk' := placesOwn_of_ok ownOk'
    rw [same.flagsOf] at ownOk'
    have outlines : own'.fields.map (·.outline) = own.fields.map (·.outline) := by
      rw [outlines_own ownOk', outlines_own ownOk, same.path, counted.structs, counted.fields]
    have ids : own'.fields.map (·.id) = own.fields.map (·.id) := by
      simpa [FieldLayout.outline, Function.comp_def] using congrArg (List.map (·.id)) outlines
    have below : SamePlace (place.below counts.structs s) (place'.below counts'.structs s) := by
      rw [counted.structs]
      exact same.below counts.structs s
    have countsInside : SameCounts (countsBelow counts own) (countsBelow counts' own') := by
      refine ⟨congrArg Nat.succ counted.structs, ?_⟩
      have count := congrArg List.length ids
      simp only [List.length_map] at count
      rw [countsBelow, countsBelow, counted.fields, count]
    obtain ⟨parts, children⟩ := ih (fun child member body inside =>
      named body (Schema.mem_bodies.mpr (.inr ⟨child, member, inside⟩))) _ _ _ _ innerOk' below
      countsInside
    refine VersionsPart.append ⟨.cons ⟨?_, .none⟩ .nil, outlines, rfl⟩ parts
    simp only [StructLayout.outline, placed, same.flagsOf, same.chainOf, same.path, same.parent,
      same.presence, counted.structs, outline_union ownOk ownOk' outlines, children, ids]
    rfl
  case none =>
    intro below cursor counts _ below' cursor' counts' result' ok' _ _
    cases placeChildren_nil.mp ok'
    exact ⟨⟨.nil, rfl, rfl⟩, rfl⟩
  case list =>
    intro below cursor counts child rest inner stride others single innerOk _ ih named below'
      cursor' counts' result' ok' same counted
    obtain ⟨here, named⟩ := List.forall_mem_cons.mp named
    obtain ⟨part', finish', others', step', othersOk', rfl⟩ := placesChild_of_cons ok'
    cases step' with
    | optional notList | plain notList => simp [single] at notList
    | @list inner' stride' _ innerOk' =>
      have first : VersionsPart r r'
          { structs := [r.placedList below cursor counts.structs child inner stride] }
          { structs := [r'.placedList below' cursor' counts'.structs child inner' stride'] } := by
        refine ⟨.cons ⟨?_, .some (.intro here innerOk innerOk')⟩ .nil, rfl, rfl⟩
        simp only [StructLayout.outline, placedList, same.chain, same.path, same.parent,
          counted.structs]
        rfl
      obtain ⟨parts, ids⟩ := ih named _ _ _ _ othersOk' same (counted.after first)
      exact ⟨first.append parts, by rw [ids, counted.structs]⟩
  case optional =>
    intro below cursor counts child rest slot inner stride others notList single _ _ _ first ih
      named below' cursor' counts' result' ok' same counted
    obtain ⟨here, named⟩ := List.forall_mem_cons.mp named
    obtain ⟨part', finish', others', step', othersOk', rfl⟩ := placesChild_of_cons ok'
    cases step' with
    | list isList => simp [notList] at isList
    | plain _ notOptional => simp [single] at notOptional
    | @optional _ stride' inner' _ _ _ _ innerOk' =>
      have versions := first here _ _ _ _ innerOk'
        ⟨same.parent, congrArg (joinPath · child.name) same.path, same.chain, rfl⟩
        ⟨counted.structs, counted.fields⟩
      have first : VersionsPart r r'
          { inner with segments := ⟨counts.structs, stride⟩ :: inner.segments }
          { inner' with segments := ⟨counts'.structs, stride'⟩ :: inner'.segments } :=
        ⟨versions.structs, versions.fields, by
          rw [List.map_cons, List.map_cons, versions.owners, counted.structs]⟩
      obtain ⟨parts, ids⟩ := ih named _ _ _ _ othersOk' same (counted.after first)
      exact ⟨first.append parts, by rw [ids, counted.structs]⟩
  case plain =>
    intro below cursor counts child rest part stride others notList notOptional _ _ first ih
      named below' cursor' counts' result' ok' same counted
    obtain ⟨here, named⟩ := List.forall_mem_cons.mp named
    obtain ⟨part', finish', others', step', othersOk', rfl⟩ := placesChild_of_cons ok'
    cases step' with
    | list isList => simp [notList] at isList
    | optional _ single => simp [notOptional] at single
    | plain _ _ partOk' =>
      have first := first here _ _ _ _ partOk'
        ⟨same.parent, congrArg (joinPath · child.name) same.path, same.chain, same.presence⟩ counted
      obtain ⟨parts, ids⟩ := ih named _ _ _ _ othersOk' same (counted.after first)
      exact ⟨first.append parts, by rw [ids, counted.structs]⟩

namespace Versions

variable {l l' m m' : Layout}

theorem parts (versions : Versions r r' l l') :
    List.Forall₂ (VersionsStruct r r') l.structs l'.structs ∧
      l'.fields.map (·.outline) = l.fields.map (·.outline) ∧
      l'.segments.map (·.owner) = l.segments.map (·.owner) := by
  cases versions with
  | intro named ok ok' =>
    obtain ⟨structs, fields, owners⟩ := (placement_versions r r').1 _ _ _ _ _ ok named _ _ _ _ ok'
      ⟨rfl, rfl, rfl, rfl⟩ ⟨rfl, rfl⟩
    refine ⟨structs, fields, ?_⟩
    rw [Part.toLayout, Part.toLayout, List.map_cons, List.map_cons, owners]

theorem struct? (versions : Versions r r' l l') (id : StructId) :
    Option.Rel (VersionsStruct r r') (l.struct? id) (l'.struct? id) := by
  have structs := versions.parts.1
  unfold Layout.struct?
  generalize l.structs = xs at structs
  generalize l'.structs = ys at structs
  induction structs generalizing id with
  | nil => exact .none
  | cons first _ ih =>
    cases id with
    | zero => exact .some first
    | succ id => exact ih id

theorem element? (versions : Versions r r' l l') (id : StructId) :
    Option.Rel (Versions r r') (l.element? id) (l'.element? id) := by
  have related := versions.struct? id
  unfold Layout.element?
  generalize l.struct? id = x at related
  generalize l'.struct? id = y at related
  cases related with
  | none => exact .none
  | some same => exact same.element

end Versions

theorem versions_layout {s : Schema} {l l' : Layout} (named : ∀ body ∈ s.bodies, body.Named)
    (ok : r.layout s = .ok l) (ok' : r'.layout s = .ok l') : Versions r r' l l' := by
  obtain ⟨-, part, stride, placed, rfl⟩ := layout_eq_ok.mp ok
  obtain ⟨-, part', stride', placed', rfl⟩ := layout_eq_ok.mp ok'
  exact .intro named placed placed'

theorem PlacesOwn.eq {s : Schema} {union : Bool} {own own' : OwnFields} {name : String}
    (step : PlacesOwn r place counts s union own)
    (step' : PlacesOwn r place counts { s with name } union own') : own' = own := by
  cases step with
  | union _ _ regionOk slotOk _ _ =>
    cases step' with
    | union _ _ regionOk' slotOk' _ _ =>
      cases regionOk.symm.trans regionOk'
      cases slotOk.symm.trans slotOk'
      rfl
  | plain ok =>
    cases step' with
    | plain ok' =>
      cases ok.symm.trans ok'
      rfl

/-- The name and the flags of a root are no part of its fingerprint, except that it
is a union. -/
theorem fingerprint_of_sameBody {s s' : Schema} {part part' : Part} {stride stride' : UInt64}
    (same : s.SameBody s') (ok : r.placeStruct .root .root s = .ok (part, stride))
    (ok' : r.placeStruct .root .root s' = .ok (part', stride')) :
    (part'.toLayout r.strategy.name stride').fingerprint =
      (part.toLayout r.strategy.name stride).fingerprint := by
  obtain ⟨name', fields', children', flags'⟩ := s'
  obtain ⟨fields, children, union⟩ := same
  dsimp only at fields children union
  subst fields children
  obtain ⟨own, inner, ownOk, innerOk, strideOk, rfl⟩ := placeStruct_eq_ok.mp ok
  obtain ⟨own', inner', ownOk', innerOk', strideOk', rfl⟩ := placeStruct_eq_ok.mp ok'
  have flags : Place.root.flagsOf ⟨name', s.fields, s.children, flags'⟩ = Place.root.flagsOf s :=
    congrArg (fun union => ({ union } : Flags)) union
  have ownOk' := placesOwn_of_ok ownOk'
  dsimp only at ownOk'
  rw [flags, union] at ownOk'
  obtain rfl := (placesOwn_of_ok ownOk).eq ownOk'
  cases innerOk.symm.trans innerOk'
  rw [(stride_eq_ok strideOk).1, (stride_eq_ok strideOk').1, Part.toLayout, Part.toLayout,
    Layout.fingerprint, Layout.fingerprint]
  simp only [Part.structs_append, List.singleton_append, List.map_cons, elementFingerprints_cons,
    StructLayout.mark, placed, flags]
  rfl

/-- Schemas with one fingerprint by some rules have one by all other rules. -/
theorem Versions.fingerprint_eq {l l' m m' : Layout} (versions : Versions r r' l l')
    (versions' : Versions r r' m m') (same : l.fingerprint = m.fingerprint) :
    l'.fingerprint = m'.fingerprint := by
  cases versions with
  | intro named ok okBeside =>
    cases versions' with
    | intro named' ok' okBeside' =>
      have body := toldByTrace named _ _ _ _ _ _ _ _ _ ok ok' named' rfl
        (sameTrace_of_fingerprint ok' ok same.symm)
      exact (fingerprint_of_sameBody body okBeside okBeside').symm

theorem Versions.symm {l l' : Layout} (versions : Versions r r' l l') : Versions r' r l' l := by
  cases versions with
  | intro named ok ok' => exact .intro named ok' ok

end LayoutRules

namespace Layout

variable {l l' m m' : Layout}

/-- Layouts in the same position of two layouts: these themselves, or elements of
the same lists in them. -/
inductive Counterpart : Layout → Layout → Layout → Layout → Prop where
  | here {l l' : Layout} : Counterpart l l' l l'
  | element {l l' e e' m m' : Layout} {id : StructId} : l.element? id = some e →
      l'.element? id = some e' → Counterpart e e' m m' → Counterpart l l' m m'

/-- The renaming takes the fingerprint of each layout in `l`, and no other, to that
of its counterpart in `l'`. -/
def Translates (ρ : Fingerprint → Fingerprint) (l l' : Layout) : Prop :=
  ∀ m m', Counterpart l l' m m' → ∀ print, ρ print = m'.fingerprint ↔ print = m.fingerprint

end Layout

namespace LayoutRules

variable {r r' : LayoutRules} {l l' m m' : Layout}

theorem Versions.counterpart (versions : Versions r r' l l') (counterpart : Counterpart l l' m m') :
    Versions r r' m m' := by
  induction counterpart with
  | here => exact versions
  | @element _ _ _ _ _ _ id found found' _ ih =>
    have related := versions.element? id
    rw [found, found'] at related
    cases related with
    | some inner => exact ih inner

theorem Versions.structs_fingerprint (versions : Versions r r' l l') :
    l'.fingerprint.structs ≠ [] := by
  cases versions with
  | intro _ _ ok =>
    obtain ⟨own, inner, -, -, -, rfl⟩ := placeStruct_eq_ok.mp ok
    rw [Layout.structs_fingerprint]
    simp [Part.toLayout]

/-- A fingerprint that belongs to no first version is taken to one that belongs to
no second version. -/
theorem exists_image (r r' : LayoutRules) (print : Fingerprint) : ∃ image, ∀ m m',
    Versions r r' m m' → (image = m'.fingerprint ↔ print = m.fingerprint) := by
  by_cases known : ∃ m m', Versions r r' m m' ∧ m.fingerprint = print
  · obtain ⟨m, m', versions, rfl⟩ := known
    exact ⟨m'.fingerprint, fun n n' other =>
      ⟨versions.symm.fingerprint_eq other.symm, versions.fingerprint_eq other⟩⟩
  · refine ⟨⟨"", [], [], [], []⟩, fun m m' versions => ⟨fun same => ?_, fun same => ?_⟩⟩
    · exact absurd (congrArg Fingerprint.structs same).symm versions.structs_fingerprint
    · exact absurd ⟨m, m', versions, same.symm⟩ known

/-- Some renaming is right for all versions of schemas at once. -/
theorem exists_translates (versions : Versions r r' l l') : ∃ ρ, Translates ρ l l' := by
  choose ρ right using exists_image r r'
  exact ⟨ρ, fun m m' counterpart print => right print m m' (versions.counterpart counterpart)⟩

theorem Versions.outlines (versions : Versions r r' l l') :
    l'.structs.map (·.outline) = l.structs.map (·.outline) := by
  have structs := versions.parts.1
  generalize l.structs = xs at structs
  generalize l'.structs = ys at structs
  induction structs with
  | nil => rfl
  | cons first _ ih => rw [List.map_cons, List.map_cons, first.outline, ih]

/-- Versions of a schema have the same outline, at every level. -/
theorem Versions.alike {ρ : Fingerprint → Fingerprint} (versions : Versions r r' l l')
    (sound : l.Throughout Sound) (sound' : l'.Throughout Sound) (right : Translates ρ l l') :
    l.Alike ρ l' := by
  induction sound generalizing l' with
  | @intro l sound _ ih =>
    refine .intro (right l l' .here) versions.outlines versions.parts.2.1
      fun s s' same e e' found found' => ?_
    have element : l.element? s.id = some e :=
      element?_eq_some.mpr ⟨s, sound.struct?_of_mem same.member, found⟩
    have element' : l'.element? s.id = some e' :=
      element?_eq_some.mpr ⟨s', same.id ▸ sound'.here.struct?_of_mem same.member', found'⟩
    have related := versions.element? s.id
    rw [element, element'] at related
    cases related with
    | some inner =>
      exact ih s same.member e found inner (sound'.element same.member' found')
        fun m m' counterpart => right m m' (.element element element' counterpart)

end LayoutRules

end BitRecords
