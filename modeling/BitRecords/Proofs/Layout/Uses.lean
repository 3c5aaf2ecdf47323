import Mathlib.Data.List.Pairwise
import BitRecords.Proofs.FieldType
import BitRecords.Proofs.Layout.Compiled
import BitRecords.Table

/-!
# Where contents are stored

A layout stores the presence bit of each optional struct, the tag and the region
of each union, and every other field, each in at most 64 bits of a row. Different
uses of a row have no bit in common. A union member has the low bits of the
region.
-/

namespace BitRecords

/-- The slots have no bit in common. -/
def Slot.Apart (a : Slot) (width : Nat) (b : Slot) (width' : Nat) : Prop :=
  a.segment ≠ b.segment ∨ a.offset.toNat + width ≤ b.offset.toNat ∨
    b.offset.toNat + width' ≤ a.offset.toNat

namespace Layout

variable {l : Layout}

/-- The struct is a union. -/
def IsUnion (l : Layout) (id : StructId) : Prop :=
  ∃ s u, l.struct? id = some s ∧ s.union = some u

/-- In each row, the layout has `width` bits from the slot on for the use. -/
structure Stores (l : Layout) (use : Use) (slot : Slot) (width : Nat) : Prop where
  span : ∃ x ∈ l.spans, x.use = use ∧ x.segment = slot.segment ∧ x.start = slot.offset.toNat ∧
    width ≤ x.width
  narrow : width ≤ 64

namespace Stores

variable {use use' : Use} {slot slot' : Slot} {width width' : Nat}

/-- The bits lie inside the stride of their segment. -/
theorem inside (stores : l.Stores use slot width) (sound : l.Sound) :
    slot.segment < l.segments.length ∧
      slot.offset.toNat + width ≤ (l.stride slot.segment).toNat := by
  obtain ⟨x, member, -, segment, start, wide⟩ := stores.span
  obtain ⟨g, found, fits⟩ := sound.inside x member
  rw [segment] at found
  refine ⟨(List.getElem?_eq_some_iff.mp found).1, ?_⟩
  have fits : x.start + x.width ≤ g.stride.toNat := fits
  rw [stride, found]
  dsimp only
  omega

/-- Different uses share no bit. -/
theorem apart (stores : l.Stores use slot width) (stores' : l.Stores use' slot' width')
    (sound : l.Sound) (other : use ≠ use') : slot.Apart width slot' width' := by
  obtain ⟨x, member, is, segment, start, wide⟩ := stores.span
  obtain ⟨y, member', is', segment', start', wide'⟩ := stores'.span
  have different : x ≠ y := by
    rintro rfl
    exact other (is.symm.trans is')
  have symmetric : Std.Symm Span.Apart := ⟨fun _ _ => Span.Apart.symm⟩
  rcases sound.apart.forall member member' different with
    segments | before | after
  · rw [segment, segment'] at segments
    exact .inl segments
  · simp only [Span.finish] at before
    exact .inr (.inl (by omega))
  · simp only [Span.finish] at after
    exact .inr (.inr (by omega))

theorem mono (stores : l.Stores use slot width) (less : width' ≤ width) :
    l.Stores use slot width' := by
  obtain ⟨x, member, is, segment, start, wide⟩ := stores.span
  exact ⟨⟨x, member, is, segment, start, Nat.le_trans less wide⟩,
    Nat.le_trans less stores.narrow⟩

end Stores

theorem presence?_eq_some {l : Layout} {id : StructId} {slot : Slot} :
    l.presence? id = some slot ↔ ∃ s, l.struct? id = some s ∧ s.presence = some slot :=
  Option.bind_eq_some_iff

namespace Sound

variable {id : Nat} {s : StructLayout} {u : UnionRegion} {f : FieldLayout}

theorem struct?_id (sound : l.Sound) (found : l.struct? id = some s) : s.id = id :=
  sound.structIds id s found

theorem struct?_of_mem (sound : l.Sound) (member : s ∈ l.structs) : l.struct? s.id = some s := by
  obtain ⟨i, found⟩ := List.mem_iff_getElem?.mp member
  rw [sound.structIds i s found]
  exact found

/-- A struct is the root or lies in its parent. -/
theorem root_or_nested (sound : l.Sound) (found : l.struct? id = some s) :
    (id = 0 ∧ ∃ rest, l.HasRoot s rest) ∨ ∃ p, l.struct? p.id = some p ∧ p.id < id ∧
      p.element = none ∧ s.Nests (fun k g => l.segments[k]? = some g) p.body := by
  have number := sound.struct?_id found
  by_cases root : id = 0
  · obtain ⟨top, rest, hasRoot⟩ := sound.root
    have first : l.struct? 0 = some top := by
      rw [struct?, hasRoot.structs]
      rfl
    rw [root] at found
    cases first.symm.trans found
    exact .inl ⟨root, rest, hasRoot⟩
  · obtain ⟨p, inside, single, nests⟩ :=
      sound.nested s (List.mem_of_getElem? found) (number ▸ root)
    exact .inr ⟨p, sound.struct?_of_mem inside, number ▸ nests.later, single, nests⟩

theorem field?_id (sound : l.Sound) (found : l.field? id = some f) : f.id = id :=
  sound.fieldIds id f found

theorem field?_of_mem (sound : l.Sound) (member : f ∈ l.fields) : l.field? f.id = some f := by
  obtain ⟨i, found⟩ := List.mem_iff_getElem?.mp member
  rw [sound.field?_id found]
  exact found

/-- The struct that owns a field. -/
theorem owner (sound : l.Sound) (found : l.field? id = some f) :
    ∃ s, l.struct? f.owner = some s ∧ s.id = f.owner ∧ s.Owns f := by
  obtain ⟨s, member, owns, -⟩ := sound.fields f (List.mem_of_getElem? found)
  rw [owns.owner]
  exact ⟨s, sound.struct?_of_mem member, rfl, owns⟩

theorem stores_presence (sound : l.Sound) {slot : Slot} (found : l.presence? id = some slot) :
    l.Stores (.presence id) slot 1 := by
  obtain ⟨s, struct, presence⟩ := Option.bind_eq_some_iff.mp found
  refine ⟨⟨⟨.presence s.id, slot.segment, slot.offset.toNat, 1⟩, ?_, ?_, rfl, rfl, Nat.le_refl _⟩,
    by decide⟩
  · refine List.mem_append_right _ (List.mem_flatMap.mpr ⟨s, List.mem_of_getElem? struct, ?_⟩)
    simp [StructLayout.spans, presenceSpans, presence]
  · rw [sound.struct?_id struct]

theorem stores_tag (sound : l.Sound) (typed : l.Typed) (found : l.struct? id = some s)
    (union : s.union = some u) : l.Stores (.tag id) u.tag u.tagWidth := by
  have member : s ∈ l.structs := List.mem_of_getElem? found
  refine ⟨⟨⟨.tag s.id, u.tag.segment, u.tag.offset.toNat, u.tagWidth⟩, ?_, ?_, rfl, rfl,
    Nat.le_refl _⟩, (typed.tags s member u union).1⟩
  · refine List.mem_append_right _ (List.mem_flatMap.mpr ⟨s, member, ?_⟩)
    simp [StructLayout.spans, unionSpans, union]
  · rw [sound.struct?_id found]

theorem stores_region (sound : l.Sound) (found : l.struct? id = some s)
    (union : s.union = some u) : l.Stores (.region id) (u.place s.segment) u.width := by
  have member : s ∈ l.structs := List.mem_of_getElem? found
  refine ⟨⟨⟨.region s.id, s.segment, u.offset.toNat, u.width⟩, ?_, ?_, rfl, rfl, Nat.le_refl _⟩,
    (sound.unions s member u union).1.narrow⟩
  · refine List.mem_append_right _ (List.mem_flatMap.mpr ⟨s, member, ?_⟩)
    simp [StructLayout.spans, unionSpans, union]
  · rw [sound.struct?_id found]

theorem stores_field (sound : l.Sound) (typed : l.Typed) (found : l.field? id = some f)
    (plain : f.tag = none) : l.Stores (.field id) f.place f.width := by
  have member : f ∈ l.fields := List.mem_of_getElem? found
  obtain ⟨s, -, owns, -⟩ := sound.fields f member
  have wide : f.width ≤ f.slot.toNat := by
    have lies := owns.lies
    cases union : s.union with
    | none =>
      rw [union] at lies
      exact lies.2
    | some u =>
      rw [union] at lies
      obtain ⟨-, -, -, n, tag, -⟩ := lies
      rw [plain] at tag
      cases tag
  refine ⟨⟨⟨.field f.id, f.segment, f.offset.toNat, f.slot.toNat⟩, ?_, ?_, rfl, rfl, wide⟩,
    FieldType.width_le_of_admissible (typed.fields f member)⟩
  · refine List.mem_append_left _ (List.mem_flatMap.mpr ⟨f, member, ?_⟩)
    simp [FieldLayout.spans, plain]
  · rw [sound.field?_id found]

/-- A union member is the low bits of the region of its union. -/
theorem member (sound : l.Sound) (found : l.field? id = some f) {tag : Nat}
    (isMember : f.tag = some tag) :
    ∃ s u, l.struct? f.owner = some s ∧ s.union = some u ∧ f.place = u.place s.segment ∧
      f.width ≤ u.width ∧ f.type ≠ .object ∧ 0 < tag ∧ tag ≤ u.members.length := by
  obtain ⟨s, struct, -, owns⟩ := sound.owner found
  have lies := owns.lies
  cases union : s.union with
  | none =>
    rw [union] at lies
    cases isMember.symm.trans lies.1
  | some u =>
    rw [union] at lies
    obtain ⟨offset, narrow, plain, n, tagged, listed⟩ := lies
    have number : tag = n + 1 := Option.some.inj (isMember.symm.trans tagged)
    have bound : n < u.members.length := (List.getElem?_eq_some_iff.mp listed).1
    refine ⟨s, u, struct, union, ?_, narrow, plain, by omega, by omega⟩
    rw [FieldLayout.place, UnionRegion.place, owns.segment, offset]

/-- An object field is no union member. -/
theorem single_of_object (sound : l.Sound) (found : l.field? id = some f)
    (object : f.type = .object) : f.tag = none := by
  cases tag : f.tag with
  | none => rfl
  | some n =>
    obtain ⟨-, -, -, -, -, -, plain, -⟩ := sound.member found tag
    exact absurd object plain

/-- A field of a struct that is no union is no union member. -/
theorem plain_of_union (sound : l.Sound) (found : l.field? id = some f)
    (struct : l.struct? f.owner = some s) : s.union = none ↔ f.tag = none := by
  obtain ⟨s', struct', -, owns⟩ := sound.owner found
  obtain rfl : s = s' := Option.some.inj (struct.symm.trans struct')
  have lies := owns.lies
  cases union : s.union with
  | none =>
    rw [union] at lies
    exact ⟨fun _ => lies.1, fun _ => rfl⟩
  | some u =>
    rw [union] at lies
    obtain ⟨-, -, -, n, tagged, -⟩ := lies
    rw [tagged]
    exact ⟨fun none => (nomatch none), fun none => (nomatch none)⟩

/-- Each struct in the chain of a struct has a presence bit and is the struct or
comes before it. -/
theorem chain (sound : l.Sound) (found : l.struct? id = some s) :
    ∀ o ∈ s.chain, o ≤ id ∧ ∃ slot, l.presence? o = some slot := by
  induction id using Nat.strong_induction_on generalizing s with
  | _ id ih =>
    have number := sound.struct?_id found
    rcases sound.root_or_nested found with ⟨-, rest, hasRoot⟩ | ⟨p, inside, earlier, -, nests⟩
    · simp [hasRoot.chain]
    · have above := ih p.id earlier inside
      have kept (o : StructId) (member : o ∈ p.chain) :
          o ≤ id ∧ ∃ slot, l.presence? o = some slot :=
        ⟨Nat.le_trans (above o member).1 (Nat.le_of_lt earlier), (above o member).2⟩
      cases nests.fits with
      | list _ _ _ _ _ _ chain =>
        rw [chain]
        exact kept
      | plain _ _ _ _ _ _ _ chain =>
        rw [chain]
        exact kept
      | optional _ _ _ presence _ _ _ _ _ chain =>
        intro o member
        rw [chain] at member
        rcases List.mem_append.mp member with member | member
        · exact kept o member
        · cases List.mem_singleton.mp member
          exact ⟨Nat.le_of_eq number, _, presence?_eq_some.mpr ⟨s, number ▸ found, presence⟩⟩

end Sound

/-- The slot and width for a use. A union member has none, as it shares those of
the region. -/
def slotOf? (l : Layout) : Use → Option (Slot × Nat)
  | .field id =>
    (l.field? id).bind fun f => if f.tag.isNone then some (f.place, f.width) else none
  | .region id =>
    (l.struct? id).bind fun s => s.union.map fun u => (u.place s.segment, u.width)
  | .tag id => (l.struct? id).bind fun s => s.union.map fun u => (u.tag, u.tagWidth)
  | .presence id => (l.presence? id).map (·, 1)

theorem stores_of_slotOf? {use : Use} {slot : Slot} {width : Nat} (good : l.SoundTyped)
    (found : l.slotOf? use = some (slot, width)) : l.Stores use slot width := by
  cases use with
  | field id =>
    obtain ⟨f, field, found⟩ := Option.bind_eq_some_iff.mp found
    split at found
    · next plain =>
      cases found
      exact good.sound.stores_field good.typed field (Option.isNone_iff_eq_none.mp plain)
    · cases found
  | region id =>
    obtain ⟨s, struct, found⟩ := Option.bind_eq_some_iff.mp found
    obtain ⟨u, union, same⟩ := Option.map_eq_some_iff.mp found
    cases same
    exact good.sound.stores_region struct union
  | tag id =>
    obtain ⟨s, struct, found⟩ := Option.bind_eq_some_iff.mp found
    obtain ⟨u, union, same⟩ := Option.map_eq_some_iff.mp found
    cases same
    exact good.sound.stores_tag good.typed struct union
  | presence id =>
    obtain ⟨slot, presence, same⟩ := Option.map_eq_some_iff.mp found
    cases same
    exact good.sound.stores_presence presence

/-- The slot of a field, or the low bits of the region if it is in a union. -/
theorem SoundTyped.stores_place (good : l.SoundTyped) {id : FieldId}
    {f : FieldLayout} (field : l.field? id = some f) : ∃ use, l.Stores use f.place f.width := by
  cases single : f.tag with
  | none => exact ⟨_, good.sound.stores_field good.typed field single⟩
  | some tag =>
    obtain ⟨s, u, struct, union, place, narrow, -⟩ := good.sound.member field single
    rw [place]
    exact ⟨_, (good.sound.stores_region struct union).mono narrow⟩

end Layout

end BitRecords
