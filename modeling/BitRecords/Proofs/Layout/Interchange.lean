import BitRecords.Proofs.Layout.Versions

/-!
# Layouts with one fingerprint

Two layouts with the same fingerprint are layouts of one schema, up to the name of
its root. So what the fingerprint leaves out is the same in both of them: owners and
parents, chains, members of unions and owners of segments follow from the schema, and
the places follow from the fingerprint. The slots that are reserved for fields are all
that the rules can still decide.
-/

namespace BitRecords

open Layout

def FieldLayout.unslotted (f : FieldLayout) : FieldLayout := { f with slot := 0 }

namespace Layout

mutual

/-- The layout without the sizes of the slots that are reserved for its fields, at every
level. -/
def unslotted : Layout → Layout
  | { strategy, structs, fields, segments } =>
    { strategy, structs := unslottedStructs structs, fields := fields.map (·.unslotted), segments }

def unslottedStructs : List StructLayout → List StructLayout
  | [] => []
  | ⟨id, name, path, parent, flags, segment, offset, stride, presence, chain, union, children,
      fields, none⟩ :: rest =>
    ⟨id, name, path, parent, flags, segment, offset, stride, presence, chain, union, children,
      fields, none⟩ :: unslottedStructs rest
  | ⟨id, name, path, parent, flags, segment, offset, stride, presence, chain, union, children,
      fields, some element⟩ :: rest =>
    ⟨id, name, path, parent, flags, segment, offset, stride, presence, chain, union, children,
      fields, some element.unslotted⟩ :: unslottedStructs rest

end

/-- The layout with another name for its root. -/
def withRootName (l : Layout) (name : String) : Layout :=
  { l with
    structs := match l.structs with
      | root :: rest => { root with name } :: rest
      | [] => [] }

/-- The layouts are the same but for the name of the root and for the sizes of the slots
that are reserved for fields. -/
def Interchangeable (l l' : Layout) : Prop := l'.unslotted = l.unslotted.withRootName l'.rootName

end Layout

def StructLayout.unslotted (s : StructLayout) : StructLayout :=
  { s with element := s.element.map Layout.unslotted }

namespace Layout

variable {l l' : Layout}

theorem unslottedStructs_eq (structs : List StructLayout) :
    unslottedStructs structs = structs.map (·.unslotted) := by
  induction structs with
  | nil => rw [unslottedStructs, List.map_nil]
  | cons s rest ih =>
    obtain ⟨id, name, path, parent, flags, segment, offset, stride, presence, chain, union,
      children, fields, element⟩ := s
    cases element <;> rw [unslottedStructs, ih] <;> rfl

@[simp] theorem strategy_unslotted (l : Layout) : l.unslotted.strategy = l.strategy := by
  cases l
  rw [unslotted]

@[simp] theorem structs_unslotted (l : Layout) :
    l.unslotted.structs = l.structs.map (·.unslotted) := by
  cases l
  rw [unslotted, unslottedStructs_eq]

@[simp] theorem fields_unslotted (l : Layout) :
    l.unslotted.fields = l.fields.map (·.unslotted) := by
  cases l
  rw [unslotted]

@[simp] theorem segments_unslotted (l : Layout) : l.unslotted.segments = l.segments := by
  cases l
  rw [unslotted]

theorem unslotted_eq (strategy : l'.strategy = l.strategy)
    (structs : l'.structs.map (·.unslotted) = l.structs.map (·.unslotted))
    (fields : l'.fields.map (·.unslotted) = l.fields.map (·.unslotted))
    (segments : l'.segments = l.segments) : l'.unslotted = l.unslotted := by
  cases l
  cases l'
  rw [unslotted, unslotted, unslottedStructs_eq, unslottedStructs_eq]
  dsimp only at strategy structs fields segments
  rw [strategy, structs, fields, segments]

theorem unslotted_withRootName (l : Layout) (name : String) :
    (l.withRootName name).unslotted = l.unslotted.withRootName name := by
  obtain ⟨strategy, structs, fields, segments⟩ := l
  rw [withRootName, withRootName, unslotted, unslotted, unslottedStructs_eq, unslottedStructs_eq]
  cases structs <;> rfl

end Layout

theorem FieldLayout.unslotted_eq {f f' : FieldLayout} (outline : f'.outline = f.outline)
    (mark : f'.mark = f.mark) : f'.unslotted = f.unslotted := by
  cases f
  cases f'
  simp_all [FieldLayout.outline, FieldLayout.mark, unslotted]

theorem UnionRegion.eq_of_outline {u u' : UnionRegion} (outline : u'.outline = u.outline)
    (mark : (⟨u'.offset, u'.width, u'.tag⟩ : UnionMark) = ⟨u.offset, u.width, u.tag⟩) :
    u' = u := by
  cases u
  cases u'
  simp_all [UnionRegion.outline]

theorem StructLayout.eq_of_outline {s s' : StructLayout} (outline : s'.outline = s.outline)
    (mark : s'.mark = s.mark) (element : s'.element = s.element) : s' = s := by
  have unions : s'.union = s.union := by
    have outlines := congrArg StructOutline.union outline
    have marks := congrArg StructMark.union mark
    simp only [StructLayout.outline, StructLayout.mark] at outlines marks
    cases union : s.union with
    | none =>
      rw [union] at outlines
      exact Option.map_eq_none_iff.mp outlines
    | some u =>
      rw [union] at outlines marks
      obtain ⟨u', union', outlines⟩ := Option.map_eq_some_iff.mp outlines
      rw [union'] at marks ⊢
      rw [UnionRegion.eq_of_outline outlines (Option.some.inj marks)]
  cases s
  cases s'
  simp_all [StructLayout.outline, StructLayout.mark]

namespace LayoutRules

variable {r r' : LayoutRules} {s s' : Schema} {l l' : Layout}

theorem VersionsStruct.unslotted_eq {x x' : StructLayout} (both : VersionsStruct r r' x x')
    (mark : x'.mark = x.mark)
    (elements : x.element.map fingerprint = x'.element.map fingerprint)
    (inner : ∀ e e', x.element = some e → x'.element = some e' → Versions r r' e e' →
      e.fingerprint = e'.fingerprint → e'.unslotted = e.unslotted) :
    x'.unslotted = x.unslotted := by
  obtain ⟨outline, versions⟩ := both
  refine StructLayout.eq_of_outline ?_ mark ?_
  · simp only [StructLayout.outline, StructLayout.unslotted, StructLayout.isList,
      Option.isSome_map] at outline ⊢
    exact outline
  · simp only [StructLayout.unslotted]
    cases found : x.element with
    | none =>
      rw [found] at elements
      rw [Option.map_eq_none_iff.mp elements.symm]
    | some e =>
      cases found' : x'.element with
      | none => simp [found, found'] at elements
      | some e' =>
        rw [found, found'] at versions
        simp only [found, found', Option.map_some, Option.some.injEq] at elements ⊢
        cases versions with
        | some versions => exact inner e e' found found' versions elements

/-- Versions of a schema that have the same fingerprint differ in slots only. -/
theorem Versions.unslotted_eq (versions : Versions r r' l l') (flagged : l.Throughout Flagged)
    (flagged' : l'.Throughout Flagged) (same : l.fingerprint = l'.fingerprint) :
    l'.unslotted = l.unslotted := by
  induction flagged generalizing l' with
  | @intro l flagged _ ih =>
    obtain ⟨-, fields, owners⟩ := versions.parts
    have strategy : l'.strategy = l.strategy := by
      rw [← strategy_fingerprint, ← strategy_fingerprint, same]
    have marks : l'.structs.map (·.mark) = l.structs.map (·.mark) := by
      rw [← Layout.structs_fingerprint, ← Layout.structs_fingerprint, same]
    have fieldMarks : l'.fields.map (·.mark) = l.fields.map (·.mark) := by
      rw [← fields_fingerprint, ← fields_fingerprint, same]
    have strides : l'.segments.map (·.stride) = l.segments.map (·.stride) := by
      rw [← strides_fingerprint, ← strides_fingerprint, same]
    have elements := elements_of_fingerprint flagged flagged'.here same
    refine Layout.unslotted_eq strategy (List.ext_getElem? fun i => ?_) ?_ ?_
    · have mark := congrArg (·[i]?) marks
      have element := congrArg (·[i]?) elements
      have related := versions.struct? i
      change Option.Rel (VersionsStruct r r') l.structs[i]? l'.structs[i]? at related
      simp only [List.getElem?_map] at mark element ⊢
      cases found : l.structs[i]? with
      | none =>
        rw [found] at mark
        rw [Option.map_eq_none_iff.mp mark]
      | some x =>
        cases found' : l'.structs[i]? with
        | none => simp [found, found'] at mark
        | some x' =>
          rw [found, found'] at related
          simp only [found, found', Option.map_some, Option.some.injEq] at mark element ⊢
          cases related with
          | some both =>
            refine both.unslotted_eq mark element fun e e' here there versions => ?_
            exact ih x (List.mem_of_getElem? found) e here versions
              (flagged'.element (List.mem_of_getElem? found') there)
    · exact map_eq_of_map_eq (fun _ _ => FieldLayout.unslotted_eq) fields fieldMarks
    · have whole := map_eq_of_map_eq (h := id) (fun g g' owner stride => by
        cases g
        cases g'
        simp_all) owners strides
      simpa using whole

theorem checkUnion_renamed {name : String} (ok : s.checkUnion = .ok ()) :
    { s with name }.checkUnion = .ok () := by
  unfold Schema.checkUnion at ok ⊢
  dsimp only
  split
  · rfl
  · next union =>
    rw [if_neg union] at ok
    split
    · next empty =>
      rw [if_pos empty] at ok
      cases ok
    · next some =>
      rw [if_neg some] at ok
      cases found : s.fields.find? (·.type.isObject) with
      | none => rfl
      | some f =>
        rw [found] at ok
        cases ok

theorem placeOwn_renamed {place : Place} {counts : Counts} {union : Bool} {own : OwnFields}
    {name : String} (ok : r.placeOwn place counts s union = .ok own) :
    r.placeOwn place counts { s with name } union = .ok own := by
  cases union with
  | false => exact ok
  | true =>
    simp only [placeOwn, if_true, bind_eq_ok] at ok ⊢
    obtain ⟨⟨⟩, checked, ok⟩ := ok
    exact ⟨(), checkUnion_renamed checked, ok⟩

theorem stride_renamed {path name other : String} {extent stride : UInt64}
    (ok : r.stride path name extent = .ok stride) : r.stride path other extent = .ok stride := by
  unfold LayoutRules.stride at ok ⊢
  dsimp only at ok ⊢
  split
  · next small =>
    rw [if_pos small] at ok
    cases ok
  · next enough =>
    rw [if_neg enough] at ok
    split
    · next large =>
      rw [if_pos large] at ok
      cases ok
    · next bounded =>
      rw [if_neg bounded] at ok
      exact ok

/-- A schema with the same body is placed in the same way, as a root of another name. -/
theorem placeStruct_of_sameBody {part : Part} {stride : UInt64} (same : s.SameBody s')
    (ok : r.placeStruct .root .root s' = .ok (part, stride)) :
    ∃ part', r.placeStruct .root .root s = .ok (part', stride) ∧
      part.toLayout r.strategy.name stride =
        (part'.toLayout r.strategy.name stride).withRootName s'.name := by
  obtain ⟨name, fields, children, flags⟩ := s
  obtain ⟨name', fields', children', flags'⟩ := s'
  obtain ⟨hasFields, hasChildren, union⟩ := same
  dsimp only at hasFields hasChildren union ⊢
  subst hasFields hasChildren
  obtain ⟨own, inner, ownOk, innerOk, strideOk, rfl⟩ := placeStruct_eq_ok.mp ok
  have flagged : Place.root.flagsOf ⟨name', fields', children', flags'⟩ =
      Place.root.flagsOf ⟨name, fields', children', flags⟩ :=
    congrArg (fun union => ({ union } : Flags)) union
  dsimp only at ownOk
  rw [flagged, union] at ownOk
  have ownOk : r.placeOwn .root .root ⟨name, fields', children',
      Place.root.flagsOf ⟨name, fields', children', flags⟩⟩ flags.union = .ok own :=
    placeOwn_renamed ownOk
  refine ⟨_, placeStruct_eq_ok.mpr ⟨own, inner, ownOk, ?_, stride_renamed strideOk, rfl⟩, ?_⟩
  · rw [Place.below, Place.chainOf, ← flagged]
    exact innerOk
  · simp only [Part.toLayout, withRootName, placed, Place.chainOf, flagged]
    rfl

end LayoutRules

namespace Layout

/-- The layouts that schemas with proper names are given, by any rules. -/
inductive Placed : Layout → Prop where
  | intro {r : LayoutRules} {s : Schema} {part : Part} {stride : UInt64} :
      (∀ body ∈ s.bodies, body.Named) → r.placeStruct .root .root s = .ok (part, stride) →
      Placed (part.toLayout r.strategy.name stride)

variable {l l' : Layout}

theorem placed_layout {r : LayoutRules} {s : Schema} (buildable : s.Buildable)
    (ok : r.layout s = .ok l) : l.Placed := by
  obtain ⟨-, part, stride, placed, rfl⟩ := LayoutRules.layout_eq_ok.mp ok
  exact .intro buildable.named placed

theorem placed_of_versions {r r' : LayoutRules} (versions : LayoutRules.Versions r r' l l') :
    l.Placed := by
  cases versions with
  | intro named ok _ => exact .intro named ok

/-- The layouts of list elements are placed by themselves. -/
theorem closed_placed : Closed Placed := by
  intro l element x placed member found
  obtain ⟨named, ok⟩ := placed
  obtain ⟨i, here⟩ := List.mem_iff_getElem?.mp member
  have related := (LayoutRules.Versions.intro named ok ok).element? i
  have inner : Layout.element? _ i = some element := element?_eq_some.mpr ⟨x, here, found⟩
  rw [inner] at related
  cases related with
  | some versions => exact placed_of_versions versions

theorem Compiled.placed (compiled : l.Compiled) : l.Placed := by
  induction compiled with
  | root buildable ok => exact placed_layout buildable ok
  | element _ member found ih => exact closed_placed ih member found

theorem Placed.flagged (placed : l.Placed) : l.Throughout Flagged := by
  cases placed with
  | intro _ ok =>
    exact LayoutRules.throughout_toLayout (G := fun _ => True)
      (fun s part stride placed _ => flagged_toLayout placed) ok fun _ _ => trivial

/-- Layouts with the same fingerprint can stand in for each other. -/
theorem Placed.interchangeable (placed : l.Placed) (placed' : l'.Placed)
    (same : l.fingerprint = l'.fingerprint) : l.Interchangeable l' := by
  have flagged := placed.flagged
  cases placed with
  | @intro r s part stride named ok =>
    cases placed' with
    | @intro r' s' part' stride' named' ok' =>
      have body : s.SameBody s' := LayoutRules.toldByTrace named _ _ _ _ _ _ _ _ _ ok ok' named' rfl
        (LayoutRules.sameTrace_of_fingerprint ok' ok same.symm)
      obtain ⟨beside, okBeside, renamed⟩ := LayoutRules.placeStruct_of_sameBody body ok'
      have prints : (part'.toLayout r'.strategy.name stride').fingerprint =
          (beside.toLayout r'.strategy.name stride').fingerprint :=
        LayoutRules.fingerprint_of_sameBody body okBeside ok'
      have unslotted := (LayoutRules.Versions.intro named ok okBeside).unslotted_eq flagged
        (Placed.intro named okBeside).flagged (same.trans prints)
      obtain ⟨own, inner, -, -, -, rfl⟩ := LayoutRules.placeStruct_eq_ok.mp okBeside
      rw [Interchangeable, renamed, unslotted_withRootName, unslotted]
      rfl

end Layout

end BitRecords
