import Mathlib.Algebra.GroupWithZero.Nat
import BitRecords.Proofs.Layout.Placement

/-!
# Extents in unbounded numbers

The extent of a body is the sum of the slots of its own fields and of what its
children take in it, as the strategy answers them. The cursor of a placement is
a word, which holds the start of the body and the part of the sum so far. It is
not moved out of the word range, so that every cursor of a placement that
succeeds is the exact sum.
-/

namespace BitRecords

open Layout

namespace Schema

mutual

/-- The struct and all structs below it, those of list elements included. -/
def bodies : Schema → List Schema
  | { name, fields, children, flags } => { name, fields, children, flags } :: bodiesOf children

/-- The structs of a list and all structs below them. -/
def bodiesOf : List Schema → List Schema
  | [] => []
  | child :: rest => child.bodies ++ bodiesOf rest

end

theorem mem_bodiesOf {s : Schema} {children : List Schema} :
    s ∈ bodiesOf children ↔ ∃ child ∈ children, s ∈ child.bodies := by
  induction children with
  | nil => simp [bodiesOf]
  | cons child rest ih => simp [bodiesOf, ih]

theorem mem_bodies {s t : Schema} :
    s ∈ t.bodies ↔ s = t ∨ ∃ child ∈ t.children, s ∈ child.bodies := by
  obtain ⟨name, fields, children, flags⟩ := t
  rw [bodies, List.mem_cons, mem_bodiesOf]

end Schema

namespace LayoutRules

/-- The bits that the own fields of a struct take. -/
def ownExtent (r : LayoutRules) (fields : List Field) (union : Bool) : Nat :=
  if union then
    (r.strategy.slotBits (widest fields)).toNat +
      (r.strategy.slotBits (tagWidth fields.length)).toNat
  else (fields.map fun f => (r.strategy.slotBits f.type.width).toNat).sum

mutual

/-- The bits of a body before its stride is rounded. -/
def extent (r : LayoutRules) : Schema → Nat
  | { fields, children, flags, .. } => r.ownExtent fields flags.union + r.childrenExtent children

/-- The bits that children take in the body around them: nothing for a list, a
presence bit for an optional struct, and the stride for a plain one. -/
def childrenExtent (r : LayoutRules) : List Schema → Nat
  | [] => 0
  | child :: rest =>
    (if child.flags.list then 0
      else if child.flags.optional then (r.strategy.slotBits 1).toNat
      else (r.strategy.roundStride (UInt64.ofNat (r.extent child))).toNat) +
    r.childrenExtent rest

end

theorem extent_eq (r : LayoutRules) (s : Schema) :
    r.extent s = r.ownExtent s.fields s.flags.union + r.childrenExtent s.children := by
  cases s
  rw [extent]

theorem ownExtent_cons (r : LayoutRules) (f : Field) (fields : List Field) :
    r.ownExtent (f :: fields) false =
      (r.strategy.slotBits f.type.width).toNat + r.ownExtent fields false := by
  simp [ownExtent]

theorem childrenExtent_list (r : LayoutRules) {child : Schema} (isList : child.flags.list = true)
    (rest : List Schema) : r.childrenExtent (child :: rest) = r.childrenExtent rest := by
  simp [childrenExtent, isList]

theorem childrenExtent_optional (r : LayoutRules) {child : Schema}
    (notList : child.flags.list = false) (isOptional : child.flags.optional = true)
    (rest : List Schema) : r.childrenExtent (child :: rest) =
      (r.strategy.slotBits 1).toNat + r.childrenExtent rest := by
  simp [childrenExtent, notList, isOptional]

theorem childrenExtent_plain (r : LayoutRules) {child : Schema} (notList : child.flags.list = false)
    (notOptional : child.flags.optional = false) (rest : List Schema) :
    r.childrenExtent (child :: rest) =
      (r.strategy.roundStride (UInt64.ofNat (r.extent child))).toNat + r.childrenExtent rest := by
  simp [childrenExtent, notList, notOptional]

/-- The stride that the strategy answers for the extent of a body, as a word holds it. -/
def bodyStride (r : LayoutRules) (body : Schema) : UInt64 :=
  r.strategy.roundStride (UInt64.ofNat (r.extent body))

/-- The strides of all bodies hold their extents, which are words for that reason. -/
def Fits (r : LayoutRules) (s : Schema) : Prop :=
  ∀ body ∈ s.bodies, r.extent body ≤ (r.bodyStride body).toNat

instance (r : LayoutRules) (s : Schema) : Decidable (r.Fits s) :=
  inferInstanceAs (Decidable (∀ body ∈ s.bodies, r.extent body ≤ (r.bodyStride body).toNat))

theorem Fits.extent_le {r : LayoutRules} {s : Schema} (fits : r.Fits s) :
    r.extent s ≤ (r.bodyStride s).toNat :=
  fits s (Schema.mem_bodies.mpr (.inl rfl))

theorem Fits.extent_lt {r : LayoutRules} {s : Schema} (fits : r.Fits s) :
    r.extent s < UInt64.size :=
  Nat.lt_of_le_of_lt fits.extent_le (UInt64.toNat_lt_size _)

theorem Fits.child {r : LayoutRules} {s child : Schema} (fits : r.Fits s)
    (member : child ∈ s.children) : r.Fits child :=
  fun body below => fits body (Schema.mem_bodies.mpr (.inr ⟨child, member, below⟩))

variable {r : LayoutRules}

theorem toNat_add_exact {a b : UInt64} (fits : a.toNat + b.toNat < UInt64.size) :
    (a + b).toNat = a.toNat + b.toNat := by
  rw [UInt64.toNat_add]
  exact Nat.mod_eq_of_lt fits

theorem slot_eq_ok {path : String} {width : Nat} {slot : UInt64}
    (ok : r.slot path width = .ok slot) :
    slot = r.strategy.slotBits width ∧ width ≤ slot.toNat := by
  unfold LayoutRules.slot at ok
  dsimp only at ok
  split at ok
  · cases ok
  · next enough =>
    cases ok
    exact ⟨rfl, Nat.le_of_not_lt enough⟩

theorem stride_eq_ok {path name : String} {extent stride : UInt64}
    (ok : r.stride path name extent = .ok stride) :
    stride = r.strategy.roundStride extent ∧ extent.toNat ≤ stride.toNat ∧
      stride.toNat ≤ r.maxStride.toNat := by
  unfold LayoutRules.stride at ok
  dsimp only at ok
  split at ok
  · cases ok
  · next enough =>
    split at ok
    · cases ok
    · next bounded =>
      cases ok
      rw [UInt64.lt_iff_toNat_lt] at enough bounded
      exact ⟨rfl, Nat.le_of_not_lt enough, Nat.le_of_not_lt bounded⟩

/-- Slots take their sum from the cursor on, which stays in the word range. -/
theorem finish_placeFields {place : Place} {owner : StructId} {fields : List Field} {id : FieldId}
    {cursor finish : UInt64} {placed : List FieldLayout}
    (ok : r.placeFields place owner id cursor fields = .ok (placed, finish)) :
    finish.toNat = cursor.toNat + r.ownExtent fields false := by
  induction fields generalizing id cursor placed with
  | nil =>
    cases ok
    simp [ownExtent]
  | cons f rest ih =>
    obtain ⟨slot, others, slotOk, fits, othersOk, rfl⟩ := placeFields_cons_eq_ok.mp ok
    obtain ⟨rfl, -⟩ := slot_eq_ok slotOk
    rw [ih othersOk, toNat_add_exact fits, ownExtent_cons, Nat.add_assoc]

theorem finish_placesOwn {place : Place} {counts : Counts} {s : Schema} {union : Bool}
    {own : OwnFields} (step : PlacesOwn r place counts s union own) :
    own.finish.toNat = place.offset.toNat + r.ownExtent s.fields union := by
  cases step with
  | union _ _ regionOk slotOk regionFits slotFits =>
    obtain ⟨rfl, -⟩ := slot_eq_ok regionOk
    obtain ⟨rfl, -⟩ := slot_eq_ok slotOk
    rw [toNat_add_exact slotFits, toNat_add_exact regionFits, Nat.add_assoc]
    rfl
  | plain fieldsOk => exact finish_placeFields fieldsOk

/-- The start of a body cancels out of its extent, wherever the body starts. -/
theorem finish_sub_offset {place : Place} {counts : Counts} {s : Schema} {own : OwnFields}
    {finish : UInt64}
    (ownOk : PlacesOwn r place counts { s with flags := place.flagsOf s } s.flags.union own)
    (last : finish.toNat = own.finish.toNat + r.childrenExtent s.children) :
    finish - place.offset = UInt64.ofNat (r.extent s) ∧ r.extent s < UInt64.size := by
  have first := finish_placesOwn ownOk
  dsimp only at first
  have ends : finish.toNat = place.offset.toNat + r.extent s := by
    rw [last, first, extent_eq, Nat.add_assoc]
  have word := finish.toNat_lt_size
  have small : r.extent s < UInt64.size := by omega
  have before : place.offset ≤ finish := by
    rw [UInt64.le_iff_toNat_le]
    omega
  refine ⟨UInt64.toNat_inj.mp ?_, small⟩
  rw [UInt64.toNat_sub_of_le _ _ before, UInt64.toNat_ofNat_of_lt' small, ends,
    Nat.add_sub_cancel_left]

/-- The body is no longer than its stride, and the stride is no greater than the limit. -/
structure Bounded (r : LayoutRules) (body : Schema) : Prop where
  extent_le : r.extent body ≤ (r.bodyStride body).toNat
  stride_le : r.bodyStride body ≤ r.maxStride

/-- The stride of a struct is its rounded extent, and all bodies keep within their bounds. -/
structure StrideExact (r : LayoutRules) (s : Schema) (stride : UInt64) : Prop where
  rounded : stride = r.bodyStride s
  bounded : ∀ body ∈ s.bodies, r.Bounded body

theorem StrideExact.extent_le {s : Schema} {stride : UInt64} (holds : r.StrideExact s stride) :
    r.extent s ≤ stride.toNat := by
  rw [holds.rounded]
  exact (holds.bounded s (Schema.mem_bodies.mpr (.inl rfl))).extent_le

/-- After children the cursor has advanced by their extent. -/
structure FinishExact (r : LayoutRules) (cursor : UInt64) (children : List Schema)
    (finish : UInt64) : Prop where
  sum : finish.toNat = cursor.toNat + r.childrenExtent children
  bounded : ∀ body ∈ Schema.bodiesOf children, r.Bounded body

/-- A placement never leaves the word range, so what it adds up are exact sums. -/
theorem placement_exact (r : LayoutRules) :
    (∀ s place counts part stride,
      r.placeStruct place counts s = .ok (part, stride) → StrideExact r s stride) ∧
    (∀ children below cursor counts result,
      r.placeChildren below cursor counts children = .ok result →
      FinishExact r cursor children result.finish) := by
  refine placement_induction r ?struct ?none ?list ?optional ?plain
  case struct =>
    intro place counts s own inner stride _ ownOk children strideOk
    obtain ⟨extent, word⟩ := finish_sub_offset ownOk children.sum
    obtain ⟨rounded, enough, small⟩ := stride_eq_ok strideOk
    rw [extent] at rounded enough
    rw [UInt64.toNat_ofNat_of_lt' word] at enough
    subst rounded
    refine ⟨rfl, ?_⟩
    obtain ⟨name, fields, below, flags⟩ := s
    exact List.forall_mem_cons.mpr ⟨⟨enough, UInt64.le_iff_toNat_le.mpr small⟩, children.bounded⟩
  case none =>
    intro below cursor counts
    exact ⟨rfl, fun _ member => absurd member List.not_mem_nil⟩
  case list =>
    intro below cursor counts child rest inner stride others isList _ first ih
    refine ⟨?_, List.forall_mem_append.mpr ⟨first.bounded, ih.bounded⟩⟩
    rw [ih.sum, childrenExtent_list r isList]
  case optional =>
    intro below cursor counts child rest slot inner stride others notList isOptional slotOk fits _
      first ih
    obtain ⟨rfl, -⟩ := slot_eq_ok slotOk
    refine ⟨?_, List.forall_mem_append.mpr ⟨first.bounded, ih.bounded⟩⟩
    rw [ih.sum, childrenExtent_optional r notList isOptional, toNat_add_exact fits, Nat.add_assoc]
  case plain =>
    intro below cursor counts child rest part stride others notList notOptional _ fits first ih
    refine ⟨?_, List.forall_mem_append.mpr ⟨first.bounded, ih.bounded⟩⟩
    rw [ih.sum, childrenExtent_plain r notList notOptional, toNat_add_exact fits, first.rounded,
      Nat.add_assoc]
    rfl

end LayoutRules

end BitRecords
