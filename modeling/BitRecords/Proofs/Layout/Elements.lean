import BitRecords.Proofs.Layout.Compiled

/-!
# Layouts of list elements

A fingerprint holds the fingerprints of the element layouts without the ids of
their list structs. The flags of the structs tell which of them are lists, so
layouts with the same fingerprint have element layouts for the same structs, and
these have the same fingerprints again. This does not depend on the offsets.
-/

namespace BitRecords.Layout

variable {l l' : Layout} {id : StructId}

/-- The layout of the elements of a list struct. -/
def element? (l : Layout) (id : StructId) : Option Layout := (l.struct? id).bind (·.element)

theorem element?_eq_some {element : Layout} :
    l.element? id = some element ↔ ∃ s, l.struct? id = some s ∧ s.element = some element :=
  Option.bind_eq_some_iff

theorem structs_fingerprint (l : Layout) : l.fingerprint.structs = l.structs.map (·.mark) := by
  cases l
  rw [fingerprint]

theorem strategy_fingerprint (l : Layout) : l.fingerprint.strategy = l.strategy := by
  cases l
  rw [fingerprint]

theorem fields_fingerprint (l : Layout) : l.fingerprint.fields = l.fields.map (·.mark) := by
  cases l
  rw [fingerprint]

theorem strides_fingerprint (l : Layout) : l.fingerprint.strides = l.segments.map (·.stride) := by
  cases l
  rw [fingerprint]

theorem elements_fingerprint (l : Layout) :
    l.fingerprint.elements = elementFingerprints l.structs := by
  cases l
  rw [fingerprint]

theorem elementFingerprints_cons (s : StructLayout) (rest : List StructLayout) :
    elementFingerprints (s :: rest) =
      (s.element.map fingerprint).toList ++ elementFingerprints rest := by
  obtain ⟨id, name, path, parent, flags, segment, offset, stride, presence, chain, union, children,
    fields, element⟩ := s
  cases element <;> rw [elementFingerprints] <;> rfl

/-- Structs that are lists at the same positions have the same elements there. -/
theorem elements_eq {xs ys : List StructLayout}
    (lists : xs.map (·.isList) = ys.map (·.isList))
    (same : elementFingerprints xs = elementFingerprints ys) :
    xs.map (·.element.map fingerprint) = ys.map (·.element.map fingerprint) := by
  induction xs generalizing ys with
  | nil =>
    cases ys with
    | nil => rfl
    | cons => cases lists
  | cons x xs ih =>
    cases ys with
    | nil => cases lists
    | cons y ys =>
      obtain ⟨first, others⟩ := List.cons.inj lists
      simp only [StructLayout.isList] at first
      rw [elementFingerprints_cons, elementFingerprints_cons] at same
      cases inX : x.element <;> cases inY : y.element <;> simp only [inX, inY] at first same
      · simp [inX, inY, ih others same]
      · cases first
      · cases first
      · obtain ⟨here, same⟩ := List.cons.inj same
        simp [inX, inY, here, ih others same]

/-- Apart from the root, which is never a list, the flags tell which structs are
lists. -/
def Flagged (l : Layout) : Prop :=
  ∀ id s, l.struct? id = some s → s.isList = (decide (id ≠ 0) && s.flags.list)

theorem Sound.flagged (sound : l.Sound) : l.Flagged := by
  intro id s found
  have member := List.mem_of_getElem? found
  have number := sound.structIds id s found
  by_cases root : id = 0
  · obtain ⟨top, rest, hasRoot⟩ := sound.root
    rw [root, struct?, hasRoot.structs] at found
    cases found
    simp [root, StructLayout.isList, hasRoot.single]
  · obtain ⟨p, -, -, nests⟩ := sound.nested s member (number ▸ root)
    cases nests.fits with
    | list element isList => simp [root, StructLayout.isList, element, isList]
    | optional single notList => simp [root, StructLayout.isList, single, notList]
    | plain single notList => simp [root, StructLayout.isList, single, notList]

/-- The layouts that are made of schemas, built ones or not, and those of the list
elements in them. -/
inductive LaidOut : Layout → Prop where
  | root {r : LayoutRules} {s : Schema} {l : Layout} : r.layout s = .ok l → LaidOut l
  | element {l element : Layout} {s : StructLayout} : LaidOut l → s ∈ l.structs →
      s.element = some element → LaidOut element

/-- With a layout, the property has the layouts of its list elements. -/
def Closed (L : Layout → Prop) : Prop :=
  ∀ {l element : Layout} {s : StructLayout}, L l → s ∈ l.structs → s.element = some element →
    L element

theorem closed_throughout (P : Layout → Prop) : Closed (Throughout P) := .element

theorem closed_laidOut : Closed LaidOut := .element

theorem closed_compiled : Closed Compiled := .element

theorem Compiled.laidOut (compiled : l.Compiled) : l.LaidOut := by
  induction compiled with
  | root _ ok => exact .root ok
  | element _ member found ih => exact ih.element member found

theorem Place.list_flagsOf (place : Place) {s : Schema} (single : s.flags.list = false) :
    (place.flagsOf s).list = false := by
  unfold Place.flagsOf
  split
  · rfl
  · exact single

/-- A struct that is placed by itself has no list flag, and the others have it
together with the layout of their elements. -/
theorem placement_flagged (r : LayoutRules) :
    (∀ s place counts part stride, r.placeStruct place counts s = .ok (part, stride) →
      (place.flagsOf s).list = false → ∀ x ∈ part.structs, x.isList = x.flags.list) ∧
    (∀ children below cursor counts result,
      r.placeChildren below cursor counts children = .ok result →
      ∀ x ∈ result.part.structs, x.isList = x.flags.list) := by
  refine LayoutRules.placement_induction r
    (P := fun place _ s part _ => (place.flagsOf s).list = false →
      ∀ x ∈ part.structs, x.isList = x.flags.list)
    (Q := fun _ _ _ _ result => ∀ x ∈ result.part.structs, x.isList = x.flags.list)
    ?struct ?none ?list ?optional ?plain
  case struct =>
    intro place counts s own inner stride _ _ ih _ single
    exact List.forall_mem_cons.mpr ⟨single.symm, ih⟩
  case none =>
    intro _ _ _ x member
    cases member
  case list =>
    intro below cursor counts child rest inner stride others isList _ _ ih
    exact List.forall_mem_cons.mpr ⟨isList.symm, ih⟩
  case optional =>
    intro below cursor counts child rest slot inner stride others single _ _ _ _ first ih x
      member
    rcases List.mem_append.mp member with member | member
    · exact first (Place.list_flagsOf _ single) x member
    · exact ih x member
  case plain =>
    intro below cursor counts child rest part stride others single _ _ _ first ih x member
    rcases List.mem_append.mp member with member | member
    · exact first (Place.list_flagsOf _ single) x member
    · exact ih x member

theorem flagged_toLayout {r : LayoutRules} {s : Schema} {part : Part} {stride : UInt64}
    (placed : r.placeStruct .root .root s = .ok (part, stride)) :
    (part.toLayout r.strategy.name stride).Flagged := by
  intro id x found
  have told := (placement_flagged _).1 s .root .root part stride placed rfl x
    (List.mem_of_getElem? found)
  cases id with
  | succ id => simpa using told
  | zero =>
    obtain ⟨own, inner, -, -, -, rfl⟩ := LayoutRules.placeStruct_eq_ok.mp placed
    cases found
    rfl

/-- What holds of all layouts that are made of schemas holds of those of list elements. -/
theorem LaidOut.throughout {Q : Layout → Prop}
    (all : ∀ (r : LayoutRules) (s : Schema) (part : Part) (stride : UInt64),
      r.placeStruct .root .root s = .ok (part, stride) → Q (part.toLayout r.strategy.name stride))
    (laid : l.LaidOut) : l.Throughout Q := by
  induction laid with
  | @root r _ _ ok =>
    obtain ⟨-, part, stride, placed, rfl⟩ := LayoutRules.layout_eq_ok.mp ok
    exact LayoutRules.throughout_toLayout (G := fun _ => True)
      (fun s part stride placed _ => all r s part stride placed) placed fun _ _ => trivial
  | element _ member found ih => exact ih.element member found

theorem LaidOut.flagged (laid : l.LaidOut) : l.Throughout Flagged :=
  laid.throughout fun _ _ _ _ => flagged_toLayout

theorem map_element? (l : Layout) (id : StructId) : (l.element? id).map fingerprint =
    ((l.structs.map (·.element.map fingerprint))[id]?).join := by
  rw [element?, struct?, List.getElem?_map]
  cases l.structs[id]? <;> rfl

/-- Layouts with the same fingerprint have lists at the same positions. -/
theorem lists_of_fingerprint (flagged : l.Flagged) (flagged' : l'.Flagged)
    (same : l.fingerprint = l'.fingerprint) :
    l.structs.map (·.isList) = l'.structs.map (·.isList) := by
  have marks : l.structs.map (·.mark) = l'.structs.map (·.mark) := by
    rw [← structs_fingerprint, ← structs_fingerprint, same]
  refine List.ext_getElem? fun i => ?_
  have mark := congrArg (fun marks => (marks[i]?).map (·.flags.list)) marks
  simp only [List.getElem?_map, Option.map_map] at mark ⊢
  cases found : l.structs[i]? with
  | none =>
    rw [found] at mark
    rw [Option.map_eq_none_iff.mp mark.symm]
  | some s =>
    rw [found] at mark
    obtain ⟨s', found', flags⟩ := Option.map_eq_some_iff.mp mark.symm
    simp only [Function.comp, StructLayout.mark] at flags
    rw [found', Option.map_some, Option.map_some, flagged i s found, flagged' i s' found', flags]

/-- Layouts with the same fingerprint have elements of the same fingerprints. -/
theorem elements_of_fingerprint (flagged : l.Flagged) (flagged' : l'.Flagged)
    (same : l.fingerprint = l'.fingerprint) :
    l.structs.map (·.element.map fingerprint) = l'.structs.map (·.element.map fingerprint) := by
  refine elements_eq (lists_of_fingerprint flagged flagged' same) ?_
  rw [← elements_fingerprint, ← elements_fingerprint, same]

theorem element?_of_fingerprint (flagged : l.Flagged) (flagged' : l'.Flagged)
    (same : l.fingerprint = l'.fingerprint) (id : StructId) :
    (l.element? id).map fingerprint = (l'.element? id).map fingerprint := by
  rw [map_element?, map_element?, elements_of_fingerprint flagged flagged' same]

theorem Throughout.element? {P : Layout → Prop} (all : l.Throughout P) {element : Layout}
    (found : l.element? id = some element) : element.Throughout P := by
  obtain ⟨s, struct, found⟩ := element?_eq_some.mp found
  exact all.element (List.mem_of_getElem? struct) found

end BitRecords.Layout
