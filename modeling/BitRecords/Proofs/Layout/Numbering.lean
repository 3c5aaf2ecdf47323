import BitRecords.Proofs.Layout.Ancestors
import BitRecords.Proofs.Layout.Elements

/-!
# Structs around a field

Ids are positions, and a struct comes after the one that it is in. So the walk from a
struct to the root ends, and it meets the structs around it and no others. None of this
depends on offsets.
-/

namespace BitRecords

open Layout

namespace LayoutRules

/-- Structs come after the ones that they are in. -/
theorem placement_later (r : LayoutRules) :
    (∀ s place counts part stride, r.placeStruct place counts s = .ok (part, stride) →
      (∀ parent, place.parent = some parent → parent < counts.structs) →
      ∀ x ∈ part.structs, ∀ parent, x.parent = some parent → parent < x.id) ∧
    (∀ children below cursor counts result,
      r.placeChildren below cursor counts children = .ok result →
      (∀ parent, below.parent = some parent → parent < counts.structs) →
      ∀ x ∈ result.part.structs, ∀ parent, x.parent = some parent → parent < x.id) := by
  refine placement_induction r
    (P := fun place counts _ part _ =>
      (∀ parent, place.parent = some parent → parent < counts.structs) →
      ∀ x ∈ part.structs, ∀ parent, x.parent = some parent → parent < x.id)
    (Q := fun below _ counts _ result =>
      (∀ parent, below.parent = some parent → parent < counts.structs) →
      ∀ x ∈ result.part.structs, ∀ parent, x.parent = some parent → parent < x.id)
    ?struct ?none ?list ?optional ?plain
  case struct =>
    intro place counts s own inner stride _ _ ih _ before
    refine List.forall_mem_cons.mpr ⟨before, ih fun parent same => ?_⟩
    cases same
    exact Nat.lt_succ_self _
  case none =>
    intro _ _ _ _ x member
    cases member
  case list =>
    intro below cursor counts child rest inner stride others _ _ _ ih before
    exact List.forall_mem_cons.mpr ⟨before, ih fun parent same =>
      Nat.lt_add_right _ (before parent same)⟩
  case optional =>
    intro below cursor counts child rest slot inner stride others _ _ _ _ _ first ih before
    exact List.forall_mem_append.mpr ⟨first before, ih fun parent same =>
      Nat.lt_add_right _ (before parent same)⟩
  case plain =>
    intro below cursor counts child rest part stride others _ _ _ _ first ih before
    exact List.forall_mem_append.mpr ⟨first before, ih fun parent same =>
      Nat.lt_add_right _ (before parent same)⟩

end LayoutRules

namespace Layout

/-- Ids are positions, fields are in structs, and structs come after the ones that they
are in. -/
structure Numbered (l : Layout) : Prop where
  structs : ∀ id s, l.struct? id = some s → s.id = id
  fields : ∀ id f, l.field? id = some f → f.id = id
  owners : ∀ id f, l.field? id = some f → ∃ s, l.struct? f.owner = some s
  later : ∀ id s, l.struct? id = some s → ∀ parent, s.parent = some parent → parent < id

theorem numbered_toLayout {r : LayoutRules} {s : Schema} {part : Part} {stride : UInt64}
    (placed : r.placeStruct .root .root s = .ok (part, stride)) :
    (part.toLayout r.strategy.name stride).Numbered := by
  obtain ⟨linked, -⟩ := (LayoutRules.placement_linked r).1 _ _ _ _ _ placed
  have later := (LayoutRules.placement_later r).1 _ _ _ _ _ placed fun parent none => by
    cases none
  have structs (i : Nat) (x : StructLayout) (found : part.structs[i]? = some x) : x.id = i :=
    (linked.structs i x found).trans (Nat.zero_add i)
  refine ⟨structs, fun i f found => (linked.fields i f found).trans (Nat.zero_add i), ?_, ?_⟩
  · intro i f found
    obtain ⟨x, member, owns⟩ := linked.owners f (List.mem_of_getElem? found)
    obtain ⟨j, here⟩ := List.mem_iff_getElem?.mp member
    refine ⟨x, ?_⟩
    rw [owns.owner, structs j x here]
    exact here
  · intro i x found parent below
    rw [← structs i x found]
    exact later x (List.mem_of_getElem? found) parent below

variable {l : Layout} {id outer : StructId}

theorem LaidOut.numbered (laid : l.LaidOut) : l.Numbered :=
  (laid.throughout fun _ _ _ _ => numbered_toLayout).here

/-- A struct encloses itself and whatever is in a struct that it encloses. -/
inductive Encloses (l : Layout) (outer : StructId) : StructId → Prop where
  | self : Encloses l outer outer
  | inside {id parent : StructId} {s : StructLayout} : l.struct? id = some s →
      s.parent = some parent → Encloses l outer parent → Encloses l outer id

namespace Numbered

variable (numbered : l.Numbered)
include numbered

/-- The walk from a struct up to the root meets what encloses it. -/
theorem mem_ancestors {s : StructLayout} (found : l.struct? id = some s) :
    outer ∈ l.ancestors id ↔ l.Encloses outer id := by
  induction id using Nat.strong_induction_on generalizing s with
  | _ id ih =>
    cases below : s.parent with
    | none =>
      rw [ancestors_root found below, List.mem_singleton]
      constructor
      · rintro rfl
        exact .self
      · intro encloses
        cases encloses with
        | self => rfl
        | inside found' below' =>
          cases found.symm.trans found'
          cases below.symm.trans below'
    | some parent =>
      have later := numbered.later id s found parent below
      have bound : parent < l.structs.length :=
        Nat.lt_trans later (List.getElem?_eq_some_iff.mp found).1
      have up := ih parent later (List.getElem?_eq_getElem bound)
      rw [ancestors_child found below later, List.mem_cons, up]
      constructor
      · rintro (rfl | encloses)
        · exact .self
        · exact .inside found below encloses
      · intro encloses
        cases encloses with
        | self => exact .inl rfl
        | inside found' below' encloses =>
          cases found.symm.trans found'
          cases below.symm.trans below'
          exact .inr encloses

/-- A field is within the structs that enclose its owner. -/
theorem isWithin_iff {field : FieldId} : l.isWithin field outer = true ↔
    ∃ f, l.field? field = some f ∧ l.Encloses outer f.owner := by
  unfold isWithin
  cases found : l.field? field with
  | none => simp
  | some f =>
    obtain ⟨s, struct⟩ := numbered.owners field f found
    simp [numbered.mem_ancestors struct]

end Numbered

end Layout

end BitRecords
