import Mathlib.Data.List.Forall2
import Mathlib.Data.Option.Basic
import BitRecords.Proofs.Layout.Ancestors
import BitRecords.Proofs.Layout.Elements
import BitRecords.Proofs.Layout.Renaming

/-!
# Layouts of one outline

The outline of a layout is what does not depend on a strategy: the ids, names,
paths, flags and types, but no offsets and no strides. Layouts with the same
outline, down to the elements of lists, name the same structs and fields by the
same paths. A renaming is right for them when it takes the fingerprint of the one,
and no other, to that of the other one.
-/

namespace BitRecords

structure UnionOutline where
  width : Nat
  tagWidth : Nat
  members : List FieldId

structure StructOutline where
  id : StructId
  name : String
  path : String
  parent : Option StructId
  flags : Flags
  /-- Whether there is a presence bit. -/
  optional : Bool
  chain : List StructId
  union : Option UnionOutline
  children : List StructId
  fields : List FieldId
  list : Bool

structure FieldOutline where
  id : FieldId
  name : String
  path : String
  owner : StructId
  type : FieldType
  tag : Option Nat

def UnionRegion.outline (u : UnionRegion) : UnionOutline := ⟨u.width, u.tagWidth, u.members⟩

def StructLayout.outline (s : StructLayout) : StructOutline where
  id := s.id
  name := s.name
  path := s.path
  parent := s.parent
  flags := s.flags
  optional := s.presence.isSome
  chain := s.chain
  union := s.union.map (·.outline)
  children := s.children
  fields := s.fields
  list := s.isList

def FieldLayout.outline (f : FieldLayout) : FieldOutline :=
  ⟨f.id, f.name, f.path, f.owner, f.type, f.tag⟩

namespace Layout

/-- Structs of two layouts that have the same outline. -/
structure SameStruct (l l' : Layout) (s s' : StructLayout) : Prop where
  member : s ∈ l.structs
  member' : s' ∈ l'.structs
  outline : s'.outline = s.outline

/-- Fields of two layouts that have the same outline. -/
structure SameField (l l' : Layout) (f f' : FieldLayout) : Prop where
  member : f ∈ l.fields
  member' : f' ∈ l'.fields
  outline : f'.outline = f.outline

/-- Layouts of the same outline, where the renaming is right for the layouts and
for those of the list elements in them. -/
inductive Alike (ρ : Fingerprint → Fingerprint) : Layout → Layout → Prop where
  | intro {l l' : Layout} : (∀ print, ρ print = l'.fingerprint ↔ print = l.fingerprint) →
      l'.structs.map (·.outline) = l.structs.map (·.outline) →
      l'.fields.map (·.outline) = l.fields.map (·.outline) →
      (∀ s s', SameStruct l l' s s' → ∀ element element', s.element = some element →
        s'.element = some element' → Alike ρ element element') →
      Alike ρ l l'

variable {ρ : Fingerprint → Fingerprint} {l l' : Layout}

namespace SameStruct

variable {s s' : StructLayout} (same : SameStruct l l' s s')
include same

theorem id : s'.id = s.id := congrArg StructOutline.id same.outline

theorem path : s'.path = s.path := congrArg StructOutline.path same.outline

theorem parent : s'.parent = s.parent := congrArg StructOutline.parent same.outline

theorem flags : s'.flags = s.flags := congrArg StructOutline.flags same.outline

theorem chain : s'.chain = s.chain := congrArg StructOutline.chain same.outline

theorem isList : s'.isList = s.isList := congrArg StructOutline.list same.outline

theorem union : s'.union.map (·.outline) = s.union.map (·.outline) :=
  congrArg StructOutline.union same.outline

end SameStruct

namespace SameField

variable {f f' : FieldLayout} (same : SameField l l' f f')
include same

theorem id : f'.id = f.id := congrArg FieldOutline.id same.outline

theorem path : f'.path = f.path := congrArg FieldOutline.path same.outline

theorem owner : f'.owner = f.owner := congrArg FieldOutline.owner same.outline

theorem type : f'.type = f.type := congrArg FieldOutline.type same.outline

theorem tag : f'.tag = f.tag := congrArg FieldOutline.tag same.outline

theorem width : f'.width = f.width := congrArg FieldType.width same.type

end SameField

theorem rel_of_map_eq {α β γ : Type} {f : α → γ} {g : β → γ} {x : Option α} {y : Option β}
    (same : y.map g = x.map f) : Option.Rel (fun a b => g b = f a) x y := by
  cases x with
  | none =>
    rw [Option.map_eq_none_iff.mp same]
    exact .none
  | some a =>
    obtain ⟨b, rfl, related⟩ := Option.map_eq_some_iff.mp same
    exact .some related

/-- Two searches that give both something or both nothing. -/
theorem rel_imp {α β : Type} {P Q : α → β → Prop} {x : Option α} {y : Option β}
    (related : Option.Rel P x y) (more : ∀ a b, x = some a → y = some b → P a b → Q a b) :
    Option.Rel Q x y := by
  cases related with
  | none => exact .none
  | some here => exact .some (more _ _ rfl rfl here)

namespace Alike

variable (alike : l.Alike ρ l')
include alike

theorem right (print : Fingerprint) : ρ print = l'.fingerprint ↔ print = l.fingerprint := by
  cases alike with
  | intro right => exact right print

theorem fingerprint : ρ l.fingerprint = l'.fingerprint := (alike.right _).mpr rfl

theorem structs : l'.structs.map (·.outline) = l.structs.map (·.outline) := by
  cases alike with
  | intro _ structs => exact structs

theorem fields : l'.fields.map (·.outline) = l.fields.map (·.outline) := by
  cases alike with
  | intro _ _ fields => exact fields

theorem element {s s' : StructLayout} (same : SameStruct l l' s s') :
    Option.Rel (Alike ρ) s.element s'.element := by
  have lists := same.isList
  unfold StructLayout.isList at lists
  cases alike with
  | intro _ _ _ elements =>
    have inner := elements s s' same
    generalize s.element = x at lists inner ⊢
    generalize s'.element = y at lists inner ⊢
    cases x with
    | none =>
      rw [Option.isSome_none, Option.isSome_eq_false_iff, Option.isNone_iff_eq_none] at lists
      rw [lists]
      exact .none
    | some e =>
      obtain ⟨e', rfl⟩ := Option.isSome_iff_exists.mp lists
      exact .some (inner e e' rfl rfl)

theorem struct? (id : StructId) :
    Option.Rel (SameStruct l l') (l.struct? id) (l'.struct? id) := by
  have same := congrArg (·[id]?) alike.structs
  simp only [List.getElem?_map] at same
  exact rel_imp (rel_of_map_eq same) fun s s' found found' outline =>
    ⟨List.mem_of_getElem? found, List.mem_of_getElem? found', outline⟩

theorem field? (id : FieldId) :
    Option.Rel (SameField l l') (l.field? id) (l'.field? id) := by
  have same := congrArg (·[id]?) alike.fields
  simp only [List.getElem?_map] at same
  exact rel_imp (rel_of_map_eq same) fun f f' found found' outline =>
    ⟨List.mem_of_getElem? found, List.mem_of_getElem? found', outline⟩

/-- The same field, where one layout is known to have it. -/
theorem field?_eq_some {id : FieldId} {f : FieldLayout} (found : l.field? id = some f) :
    ∃ f', l'.field? id = some f' ∧ SameField l l' f f' := by
  have related := alike.field? id
  rw [found] at related
  generalize l'.field? id = y at related
  cases related with
  | some same => exact ⟨_, rfl, same⟩

theorem forall₂_fields : List.Forall₂ (fun f f' => ∃ id, l.field? id = some f ∧
    l'.field? id = some f' ∧ f'.type = f.type) l.fields l'.fields := by
  have count : l.fields.length = l'.fields.length := by
    simpa using (congrArg List.length alike.fields).symm
  refine List.forall₂_iff_get.mpr ⟨count, fun i here here' => ?_⟩
  have field : l.field? i = some l.fields[i] := List.getElem?_eq_getElem here
  have field' : l'.field? i = some l'.fields[i] := List.getElem?_eq_getElem here'
  obtain ⟨f', found, same⟩ := alike.field?_eq_some field
  cases field'.symm.trans found
  exact ⟨i, field, field', same.type⟩

theorem ancestors (id : StructId) : l'.ancestors id = l.ancestors id := by
  induction id using Nat.strong_induction_on with
  | _ id ih =>
    have related := alike.struct? id
    rw [Layout.ancestors, Layout.ancestors]
    generalize l.struct? id = x at related
    generalize l'.struct? id = y at related
    cases related with
    | none => rfl
    | @some s s' same =>
      dsimp only
      rw [same.parent]
      cases s.parent with
      | none => rfl
      | some parent =>
        dsimp only
        split
        · next later => rw [ih parent later]
        · rfl

theorem isWithin (field : FieldId) (struct : StructId) :
    l'.isWithin field struct = l.isWithin field struct := by
  have related := alike.field? field
  unfold Layout.isWithin
  generalize l.field? field = x at related
  generalize l'.field? field = y at related
  cases related with
  | none => rfl
  | some same =>
    dsimp only
    rw [same.owner, alike.ancestors]

end Alike

/-- In a sound layout the outline tells a struct from all others. -/
theorem SameStruct.eq {l : Layout} (sound : l.Sound) {s s' : StructLayout}
    (same : SameStruct l l s s') : s' = s := by
  have found' := sound.struct?_of_mem same.member'
  rw [same.id, sound.struct?_of_mem same.member] at found'
  exact (Option.some.inj found').symm

theorem Alike.refl {l : Layout} (sound : l.Throughout Sound) : l.Alike id l := by
  induction sound with
  | intro sound _ ih =>
    refine .intro (fun _ => Iff.rfl) rfl rfl fun s s' same element element' found found' => ?_
    obtain rfl := same.eq sound
    cases found.symm.trans found'
    exact ih _ same.member _ found

/-- Targets in two layouts that have the same outline. -/
inductive Target.Alike (l l' : Layout) : Target → Target → Prop where
  | field {f f' : FieldLayout} : SameField l l' f f' → Alike l l' (.field f) (.field f')
  | struct {s s' : StructLayout} : SameStruct l l' s s' → Alike l l' (.struct s) (.struct s')

namespace Alike

theorem target? (alike : l.Alike ρ l') (path : String) :
    Option.Rel (Target.Alike l l') (l.target? path) (l'.target? path) := by
  have structs := congrArg (·.find? fun o => o.path == path) alike.structs
  have fields := congrArg (·.find? fun o => o.path == path) alike.fields
  simp only [List.find?_map, Function.comp_def] at structs fields
  have struct := rel_imp (rel_of_map_eq structs) fun s s' found found' outline =>
    show SameStruct l l' s s' from
      ⟨List.mem_of_find?_eq_some found, List.mem_of_find?_eq_some found', outline⟩
  have field := rel_imp (rel_of_map_eq fields) fun f f' found found' outline =>
    show SameField l l' f f' from
      ⟨List.mem_of_find?_eq_some found, List.mem_of_find?_eq_some found', outline⟩
  unfold Layout.target?
  change Option.Rel (SameStruct l l') (l.structs.find? fun s => s.path == path)
    (l'.structs.find? fun s => s.path == path) at struct
  change Option.Rel (SameField l l') (l.fields.find? fun f => f.path == path)
    (l'.fields.find? fun f => f.path == path) at field
  generalize (l.structs.find? fun s => s.path == path) = x at struct ⊢
  generalize (l'.structs.find? fun s => s.path == path) = y at struct ⊢
  cases struct with
  | some same => exact .some (.struct same)
  | none =>
    generalize (l.fields.find? fun f => f.path == path) = x at field ⊢
    generalize (l'.fields.find? fun f => f.path == path) = y at field ⊢
    cases field with
    | some same => exact .some (.field same)
    | none => exact .none

theorem elementAt? (alike : l.Alike ρ l') (path : String) :
    Option.Rel (Alike ρ) (l.elementAt? path) (l'.elementAt? path) := by
  have related := alike.target? path
  unfold Layout.elementAt?
  generalize l.target? path = x at related
  generalize l'.target? path = y at related
  cases related with
  | none => exact .none
  | some target =>
    cases target with
    | field => exact .none
    | struct same => exact alike.element same

theorem splitAtList? (alike : l.Alike ρ l') (read rest : List Char) :
    Option.Rel (fun a b => a.1.Alike ρ b.1 ∧ b.2 = a.2) (l.splitAtList? read rest)
      (l'.splitAtList? read rest) := by
  induction rest generalizing read with
  | nil => exact .none
  | cons c rest ih =>
    rw [Layout.splitAtList?, Layout.splitAtList?]
    have related : Option.Rel (Alike ρ)
        (if c = '.' then l.elementAt? (String.ofList read.reverse) else none)
        (if c = '.' then l'.elementAt? (String.ofList read.reverse) else none) := by
      split
      · exact alike.elementAt? _
      · exact .none
    generalize (if c = '.' then l.elementAt? (String.ofList read.reverse) else none) = x at related
    generalize (if c = '.' then l'.elementAt? (String.ofList read.reverse) else none) = y at related
    cases related with
    | none => exact ih _
    | some inner => exact .some ⟨inner, rfl⟩

/-- A path leads to the same struct or field, in layouts of the same outline. -/
theorem resolve? (alike : l.Alike ρ l') (path : List Char) :
    Option.Rel (fun a b => a.1.Alike ρ b.1 ∧ Target.Alike a.1 b.1 a.2 b.2) (l.resolve? path)
      (l'.resolve? path) := by
  induction size : path.length using Nat.strong_induction_on generalizing l l' path with
  | _ n ih =>
    have target := alike.target? (String.ofList path)
    have inner := alike.splitAtList? [] path
    rw [Layout.resolve?, Layout.resolve?]
    generalize l.target? (String.ofList path) = x at target
    generalize l'.target? (String.ofList path) = y at target
    cases target with
    | some same => exact .some ⟨alike, same⟩
    | none =>
      dsimp only
      split
      · next element rest found =>
        rw [found] at inner
        split
        · next element' rest' found' =>
          rw [found'] at inner
          cases inner with
          | some both =>
            obtain ⟨elements, rfl⟩ := both
            exact ih _ (size ▸ length_lt_of_splitAtList? found) elements _ rfl
        · next found' =>
          rw [found'] at inner
          cases inner
      · next found =>
        rw [found] at inner
        split
        · next element' rest' found' =>
          rw [found'] at inner
          cases inner
        · exact .none

variable (alike : l.Alike ρ l')
include alike

theorem handleOf {f f' : FieldLayout} (same : SameField l l' f f') :
    l'.handleOf f' = (l.handleOf f).rename ρ := by
  rw [Layout.handleOf, Layout.handleOf, FieldHandle.rename, alike.fingerprint, same.id, same.type]

theorem fieldHandle (path : String) :
    Matches ρ (fun h h' => h' = h.rename ρ) (l.fieldHandle path) (l'.fieldHandle path) := by
  have related := alike.resolve? path.toList
  unfold Layout.fieldHandle
  generalize l.resolve? path.toList = x at related
  generalize l'.resolve? path.toList = y at related
  cases related with
  | none => exact .error (.unknown (.path path))
  | @some a b both =>
    obtain ⟨owner, target⟩ := a
    obtain ⟨owner', target'⟩ := b
    obtain ⟨owners, targets⟩ := both
    cases targets with
    | field same => exact .ok (owners.handleOf same)
    | struct => exact .error (.mismatch path .field .struct)

theorem fieldHandleOfType (path : String) (expected : FieldType) :
    Matches ρ (fun h h' => h' = h.rename ρ) (l.fieldHandleOfType path expected)
      (l'.fieldHandleOfType path expected) := by
  refine (alike.fieldHandle path).bind fun handle handle' same => ?_
  rw [same]
  change Matches ρ _ _ (if handle.type = expected then _ else _)
  split
  · exact .ok rfl
  · exact .error (.mismatch path (.fieldType expected) (.fieldType handle.type))

theorem structHandle (path : String) :
    Matches ρ (fun h h' => h' = h.rename ρ) (l.structHandle path) (l'.structHandle path) := by
  have related := alike.resolve? path.toList
  unfold Layout.structHandle
  generalize l.resolve? path.toList = x at related
  generalize l'.resolve? path.toList = y at related
  cases related with
  | none => exact .error (.unknown (.path path))
  | @some a b both =>
    obtain ⟨owner, target⟩ := a
    obtain ⟨owner', target'⟩ := b
    obtain ⟨owners, targets⟩ := both
    cases targets with
    | field => exact .error (.mismatch path .struct .field)
    | struct same =>
      refine .ok ?_
      rw [StructHandle.rename, owners.fingerprint, same.id, same.flags]

/-- A handle is refused by both layouts, or it names the same field. -/
theorem fieldOf (handle : FieldHandle) :
    Matches ρ (fun f f' => l.field? handle.id = some f ∧ l'.field? handle.id = some f' ∧
      SameField l l' f f') (l.fieldOf handle) (l'.fieldOf (handle.rename ρ)) := by
  unfold Layout.fieldOf
  change Matches ρ _ _ (if ρ handle.layout ≠ l'.fingerprint then _ else _)
  by_cases own : handle.layout = l.fingerprint
  · rw [if_neg (not_not.mpr own), if_neg (not_not.mpr ((alike.right _).mpr own))]
    have related := alike.field? handle.id
    have number : (handle.rename ρ).id = handle.id := rfl
    rw [number]
    generalize l.field? handle.id = x at related
    generalize l'.field? handle.id = y at related
    cases related with
    | none => exact .error (.unknown (.field handle.id))
    | some same => exact .ok ⟨rfl, rfl, same⟩
  · rw [if_pos own, if_pos fun own' => own ((alike.right _).mp own')]
    exact .error (.unknown (.foreignField handle.id handle.layout))

theorem structOf (handle : StructHandle) :
    Matches ρ (fun s s' => l.struct? handle.id = some s ∧ l'.struct? handle.id = some s' ∧
      SameStruct l l' s s') (l.structOf handle) (l'.structOf (handle.rename ρ)) := by
  unfold Layout.structOf
  change Matches ρ _ _ (if ρ handle.layout ≠ l'.fingerprint then _ else _)
  by_cases own : handle.layout = l.fingerprint
  · rw [if_neg (not_not.mpr own), if_neg (not_not.mpr ((alike.right _).mpr own))]
    have related := alike.struct? handle.id
    have number : (handle.rename ρ).id = handle.id := rfl
    rw [number]
    generalize l.struct? handle.id = x at related
    generalize l'.struct? handle.id = y at related
    cases related with
    | none => exact .error (.unknown (.struct handle.id))
    | some same => exact .ok ⟨rfl, rfl, same⟩
  · rw [if_pos own, if_pos fun own' => own ((alike.right _).mp own')]
    exact .error (.unknown (.foreignStruct handle.id handle.layout))

end Alike

end Layout

end BitRecords
