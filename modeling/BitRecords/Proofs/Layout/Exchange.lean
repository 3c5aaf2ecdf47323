import BitRecords.Proofs.Layout.Interchange

/-!
# Layouts that stand in for each other

Interchangeable layouts have the same structs and fields under the same ids and paths,
so a path gives the same handle in both of them and a handle leads to the same place.
The only thing that a name of a struct or the size of a slot is good for is the text of
an error.
-/

namespace BitRecords

open Layout

/-- The same field, with a slot of its own. -/
structure FieldLayout.Stands (f f' : FieldLayout) : Prop where
  same : f' = { f with slot := f'.slot }

/-- The same struct, with a name of its own and with elements that can stand in for those
of the other. -/
structure StructLayout.Stands (s s' : StructLayout) : Prop where
  same : s' = { s with name := s'.name, element := s'.element }
  element : Option.Rel Interchangeable s.element s'.element

theorem StructLayout.Stands.isList {s s' : StructLayout} (stands : s.Stands s') :
    s'.isList = s.isList := by
  have elements := stands.element
  unfold StructLayout.isList
  generalize s.element = x at elements
  generalize s'.element = y at elements
  cases elements <;> rfl

namespace Layout

/-- The same field or struct. -/
inductive Target.Stands : Target → Target → Prop where
  | field {f f' : FieldLayout} : f.Stands f' → Stands (.field f) (.field f')
  | struct {s s' : StructLayout} : s.Stands s' → Stands (.struct s) (.struct s')

variable {l l' : Layout}

/-- What holds of a layout when it holds of the elements of its lists holds of all
layouts. -/
theorem elements_induction {P : Layout → Prop}
    (step : ∀ l : Layout, (∀ s ∈ l.structs, ∀ e, s.element = some e → P e) → P l) (l : Layout) :
    P l :=
  @Layout.rec P (fun s => ∀ e, s.element = some e → P e)
    (fun structs => ∀ s ∈ structs, ∀ e, s.element = some e → P e)
    (fun element => ∀ e, element = some e → P e)
    (fun strategy structs fields segments ih => step ⟨strategy, structs, fields, segments⟩ ih)
    (fun _ _ _ _ _ _ _ _ _ _ _ _ _ _ ih => ih)
    (fun _ member => absurd member List.not_mem_nil)
    (fun _ _ first others => List.forall_mem_cons.mpr ⟨first, others⟩)
    (fun _ none => absurd none (by simp))
    (fun _ holds _ same => Option.some.inj same ▸ holds) l

@[simp] theorem fingerprint_withRootName (l : Layout) (name : String) :
    (l.withRootName name).fingerprint = l.fingerprint := by
  obtain ⟨strategy, structs, fields, segments⟩ := l
  cases structs with
  | nil => rfl
  | cons root rest =>
    rw [withRootName, fingerprint, fingerprint, elementFingerprints_cons, elementFingerprints_cons]
    rfl

@[simp] theorem fingerprint_unslotted (l : Layout) : l.unslotted.fingerprint = l.fingerprint := by
  induction l using elements_induction with
  | step l ih =>
    have elements : elementFingerprints (l.structs.map (·.unslotted)) =
        elementFingerprints l.structs := by
      generalize l.structs = structs at ih
      induction structs with
      | nil => rfl
      | cons s rest inner =>
        obtain ⟨here, ih⟩ := List.forall_mem_cons.mp ih
        rw [List.map_cons, elementFingerprints_cons, elementFingerprints_cons, inner ih]
        cases found : s.element with
        | none => simp [StructLayout.unslotted, found]
        | some e => simp [StructLayout.unslotted, found, here e found]
    obtain ⟨strategy, structs, fields, segments⟩ := l
    rw [unslotted, unslottedStructs_eq, fingerprint, fingerprint, elements]
    simp only [List.map_map, Function.comp_def]
    rfl

theorem withRootName_rootName (l : Layout) : l.unslotted.withRootName l.rootName = l.unslotted := by
  obtain ⟨strategy, structs, fields, segments⟩ := l
  rw [unslotted, unslottedStructs_eq]
  cases structs <;> rfl

namespace Interchangeable

theorem of_unslotted (same : l'.unslotted = l.unslotted) : l.Interchangeable l' := by
  rw [Interchangeable, ← same, withRootName_rootName]

theorem refl (l : Layout) : l.Interchangeable l := of_unslotted rfl

variable (same : l.Interchangeable l')
include same

theorem fingerprint : l'.fingerprint = l.fingerprint := by
  have prints := congrArg Layout.fingerprint same
  rwa [fingerprint_unslotted, fingerprint_withRootName, fingerprint_unslotted] at prints

theorem segments : l'.segments = l.segments := by
  have segments := congrArg Layout.segments same
  rwa [segments_unslotted, withRootName, segments_unslotted] at segments

theorem stride (k : SegmentId) : l'.stride k = l.stride k := by
  rw [Layout.stride, Layout.stride, same.segments]

theorem fields : l'.fields.map (·.unslotted) = l.fields.map (·.unslotted) := by
  have fields := congrArg Layout.fields same
  rwa [fields_unslotted, withRootName, fields_unslotted] at fields

theorem structs : l'.structs.map (fun s => { s.unslotted with name := "" }) =
    l.structs.map fun s => { s.unslotted with name := "" } := by
  have structs := congrArg (fun l => l.structs.map fun s => { s with name := "" }) same
  simp only [structs_unslotted, withRootName, List.map_map] at structs
  refine structs.trans ?_
  cases l.structs <;> simp

omit same in
theorem stands_field {f f' : FieldLayout} (same : f'.unslotted = f.unslotted) : f.Stands f' := by
  cases f
  cases f'
  simp only [FieldLayout.unslotted, FieldLayout.mk.injEq] at same
  exact ⟨by simp [same]⟩

omit same in
theorem stands_struct {s s' : StructLayout}
    (same : { s'.unslotted with name := "" } = { s.unslotted with name := "" }) : s.Stands s' := by
  have element : s'.element.map unslotted = s.element.map unslotted :=
    congrArg StructLayout.element same
  constructor
  · cases s
    cases s'
    simp only [StructLayout.unslotted, StructLayout.mk.injEq] at same ⊢
    simp [same]
  · exact rel_imp (rel_of_map_eq element) fun _ _ _ _ => of_unslotted

theorem struct? (id : StructId) :
    Option.Rel StructLayout.Stands (l.struct? id) (l'.struct? id) := by
  have structs := congrArg (·[id]?) same.structs
  simp only [List.getElem?_map] at structs
  exact rel_imp (rel_of_map_eq structs) fun _ _ _ _ => stands_struct

theorem field? (id : FieldId) :
    Option.Rel FieldLayout.Stands (l.field? id) (l'.field? id) := by
  have fields := congrArg (·[id]?) same.fields
  simp only [List.getElem?_map] at fields
  exact rel_imp (rel_of_map_eq fields) fun _ _ _ _ => stands_field

end Interchangeable

/-- The struct that the layout has in the place of one with that id. -/
def standIn (l : Layout) (id : StructId) (s : StructLayout) : StructLayout :=
  { s with name := ((l.struct? id).map (·.name)).getD "", element := l.element? id }

/-- The field that the layout has in the place of one with that id. -/
def standInField (l : Layout) (id : FieldId) (f : FieldLayout) : FieldLayout :=
  { f with slot := ((l.field? id).map (·.slot)).getD 0 }

namespace Interchangeable

variable (same : l.Interchangeable l')
include same

theorem struct?_eq (id : StructId) : l'.struct? id = (l.struct? id).map (l'.standIn id) := by
  have related := same.struct? id
  unfold standIn Layout.element?
  generalize l.struct? id = x at related
  generalize l'.struct? id = y at related
  cases related with
  | none => rfl
  | some stands => exact congrArg some stands.same

theorem field?_eq (id : FieldId) : l'.field? id = (l.field? id).map (l'.standInField id) := by
  have related := same.field? id
  unfold standInField
  generalize l.field? id = x at related
  generalize l'.field? id = y at related
  cases related with
  | none => rfl
  | some stands => exact congrArg some stands.same

theorem element? (id : StructId) :
    Option.Rel Interchangeable (l.element? id) (l'.element? id) := by
  have related := same.struct? id
  unfold Layout.element?
  generalize l.struct? id = x at related
  generalize l'.struct? id = y at related
  cases related with
  | none => exact .none
  | some stands => exact stands.element

/-- A handle is refused by both layouts, or it leads to the same place. -/
theorem fieldOf (handle : FieldHandle) :
    l'.fieldOf handle = (l.fieldOf handle).map (l'.standInField handle.id) := by
  rw [Layout.fieldOf, Layout.fieldOf, same.fingerprint, same.field?_eq]
  split
  · rfl
  · cases l.field? handle.id <;> rfl

theorem structOf (handle : StructHandle) :
    l'.structOf handle = (l.structOf handle).map (l'.standIn handle.id) := by
  rw [Layout.structOf, Layout.structOf, same.fingerprint, same.struct?_eq]
  split
  · rfl
  · cases l.struct? handle.id <;> rfl

theorem stands_standIn {id : StructId} {s : StructLayout} (struct : l.struct? id = some s) :
    s.Stands (l'.standIn id s) := by
  have related := same.struct? id
  rw [same.struct?_eq, struct] at related
  cases related with
  | some stands => exact stands

theorem presence? (id : StructId) : l'.presence? id = l.presence? id := by
  rw [Layout.presence?, Layout.presence?, same.struct?_eq]
  cases l.struct? id <;> rfl

theorem slotOf? (use : Use) : l'.slotOf? use = l.slotOf? use := by
  cases use with
  | field id =>
    rw [Layout.slotOf?, Layout.slotOf?, same.field?_eq]
    cases l.field? id <;> rfl
  | region id =>
    rw [Layout.slotOf?, Layout.slotOf?, same.struct?_eq]
    cases l.struct? id <;> rfl
  | tag id =>
    rw [Layout.slotOf?, Layout.slotOf?, same.struct?_eq]
    cases l.struct? id <;> rfl
  | presence id => rw [Layout.slotOf?, Layout.slotOf?, same.presence?]

theorem chainOf (id : StructId) :
    ((l'.struct? id).map (·.chain)).getD [] = ((l.struct? id).map (·.chain)).getD [] := by
  rw [same.struct?_eq]
  cases l.struct? id <;> rfl

theorem ancestors (id : StructId) : l'.ancestors id = l.ancestors id := by
  induction id using Nat.strong_induction_on with
  | _ id ih =>
    have related := same.struct? id
    rw [Layout.ancestors, Layout.ancestors]
    generalize l.struct? id = x at related
    generalize l'.struct? id = y at related
    cases related with
    | none => rfl
    | @some s s' stands =>
      have parent : s'.parent = s.parent := by rw [stands.same]
      dsimp only
      rw [parent]
      cases s.parent with
      | none => rfl
      | some parent =>
        dsimp only
        split
        · next later => rw [ih parent later]
        · rfl

theorem isWithin (field : FieldId) (struct : StructId) :
    l'.isWithin field struct = l.isWithin field struct := by
  rw [Layout.isWithin, Layout.isWithin, same.field?_eq]
  cases l.field? field with
  | none => rfl
  | some f => exact congrArg (List.contains · struct) (same.ancestors f.owner)

theorem handleOf {id : FieldId} (f : FieldLayout) :
    l'.handleOf (l'.standInField id f) = l.handleOf f := by
  rw [Layout.handleOf, Layout.handleOf, same.fingerprint]
  rfl

theorem target? (path : String) :
    Option.Rel Target.Stands (l.target? path) (l'.target? path) := by
  have structs := congrArg (·.find? fun s => s.path == path) same.structs
  have fields := congrArg (·.find? fun f => f.path == path) same.fields
  simp only [List.find?_map, Function.comp_def] at structs fields
  have struct := rel_imp (rel_of_map_eq structs) fun _ _ _ _ => stands_struct
  have field := rel_imp (rel_of_map_eq fields) fun _ _ _ _ => stands_field
  unfold Layout.target?
  change Option.Rel StructLayout.Stands (l.structs.find? fun s => s.path == path)
    (l'.structs.find? fun s => s.path == path) at struct
  change Option.Rel FieldLayout.Stands (l.fields.find? fun f => f.path == path)
    (l'.fields.find? fun f => f.path == path) at field
  generalize (l.structs.find? fun s => s.path == path) = x at struct ⊢
  generalize (l'.structs.find? fun s => s.path == path) = y at struct ⊢
  cases struct with
  | some stands => exact .some (.struct stands)
  | none =>
    generalize (l.fields.find? fun f => f.path == path) = x at field ⊢
    generalize (l'.fields.find? fun f => f.path == path) = y at field ⊢
    cases field with
    | some stands => exact .some (.field stands)
    | none => exact .none

theorem elementAt? (path : String) :
    Option.Rel Interchangeable (l.elementAt? path) (l'.elementAt? path) := by
  have related := same.target? path
  unfold Layout.elementAt?
  generalize l.target? path = x at related
  generalize l'.target? path = y at related
  cases related with
  | none => exact .none
  | some target =>
    cases target with
    | field => exact .none
    | struct stands => exact stands.element

theorem splitAtList? (read rest : List Char) :
    Option.Rel (fun a b => a.1.Interchangeable b.1 ∧ b.2 = a.2) (l.splitAtList? read rest)
      (l'.splitAtList? read rest) := by
  induction rest generalizing read with
  | nil => exact .none
  | cons c rest ih =>
    rw [Layout.splitAtList?, Layout.splitAtList?]
    have related : Option.Rel Interchangeable
        (if c = '.' then l.elementAt? (String.ofList read.reverse) else none)
        (if c = '.' then l'.elementAt? (String.ofList read.reverse) else none) := by
      split
      · exact same.elementAt? _
      · exact .none
    generalize (if c = '.' then l.elementAt? (String.ofList read.reverse) else none) = x at related
    generalize (if c = '.' then l'.elementAt? (String.ofList read.reverse) else none) = y at related
    cases related with
    | none => exact ih _
    | some inner => exact .some ⟨inner, rfl⟩

omit same in
/-- A path leads to the same struct or field. -/
theorem resolve? (same : l.Interchangeable l') (path : List Char) :
    Option.Rel (fun a b => a.1.Interchangeable b.1 ∧ a.2.Stands b.2) (l.resolve? path)
      (l'.resolve? path) := by
  induction size : path.length using Nat.strong_induction_on generalizing l l' path with
  | _ n ih =>
    have target := same.target? (String.ofList path)
    have inner := same.splitAtList? [] path
    rw [Layout.resolve?, Layout.resolve?]
    generalize l.target? (String.ofList path) = x at target
    generalize l'.target? (String.ofList path) = y at target
    cases target with
    | some stands => exact .some ⟨same, stands⟩
    | none =>
      dsimp only
      split
      · next element rest found =>
        rw [found] at inner
        split
        · next element' rest' found' =>
          rw [found'] at inner
          cases inner with
          | some both =>
            obtain ⟨elements, rfl⟩ := both
            exact ih _ (size ▸ length_lt_of_splitAtList? found) elements _ rfl
        · next found' =>
          rw [found'] at inner
          cases inner
      · next found =>
        rw [found] at inner
        split
        · next element' rest' found' =>
          rw [found'] at inner
          cases inner
        · exact .none

/-- A path gives the same handle of a field, or the same refusal. -/
theorem fieldHandle (path : String) : l'.fieldHandle path = l.fieldHandle path := by
  have related := same.resolve? path.toList
  unfold Layout.fieldHandle
  generalize l.resolve? path.toList = x at related
  generalize l'.resolve? path.toList = y at related
  cases related with
  | none => rfl
  | @some a b both =>
    obtain ⟨owner, target⟩ := a
    obtain ⟨owner', target'⟩ := b
    obtain ⟨owners, targets⟩ := both
    cases targets with
    | struct => rfl
    | field stands =>
      dsimp only
      rw [stands.same, Layout.handleOf, Layout.handleOf, owners.fingerprint]

theorem fieldHandleOfType (path : String) (expected : FieldType) :
    l'.fieldHandleOfType path expected = l.fieldHandleOfType path expected := by
  rw [Layout.fieldHandleOfType, Layout.fieldHandleOfType, same.fieldHandle]

theorem structHandle (path : String) : l'.structHandle path = l.structHandle path := by
  have related := same.resolve? path.toList
  unfold Layout.structHandle
  generalize l.resolve? path.toList = x at related
  generalize l'.resolve? path.toList = y at related
  cases related with
  | none => rfl
  | @some a b both =>
    obtain ⟨owner, target⟩ := a
    obtain ⟨owner', target'⟩ := b
    obtain ⟨owners, targets⟩ := both
    cases targets with
    | field => rfl
    | struct stands =>
      dsimp only
      rw [stands.same, owners.fingerprint]

end Interchangeable

end Layout

end BitRecords
