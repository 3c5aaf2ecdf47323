import BitRecords.Proofs.Table.Sizes

/-!
# Releasing rows

Rows that are cut off release the slots that their object fields name. No other
row names one of these slots, so the objects of the rows that remain stay where
they are.
-/

namespace BitRecords.Storage

/-- The tables differ only in their objects, and those in the slots that are
named are gone. -/
structure Released (t : Table) (named : Nat → Prop) (after : Table) : Prop where
  same : after = { t with objects := after.objects }
  consistent : after.objects.Consistent
  emptied : ∀ slot, named slot → after.objects.get? slot = none
  kept : ∀ slot, ¬ named slot → after.objects.get? slot = t.objects.get? slot

variable {t : Table}

namespace Released

theorem refl (consistent : t.objects.Consistent) : Released t (fun _ => False) t :=
  ⟨rfl, consistent, fun _ named => named.elim, fun _ _ => rfl⟩

theorem one (consistent : t.objects.Consistent) (slot : Nat) :
    Released t (· = slot) { t with objects := t.objects.release slot } where
  same := rfl
  consistent := consistent.release slot
  emptied other named := by rw [ObjectTable.get?_release, if_pos named]
  kept other apart := by rw [ObjectTable.get?_release, if_neg apart]

theorem trans {a b : Nat → Prop} {t₁ t₂ : Table} (first : Released t a t₁)
    (second : Released t₁ b t₂) : Released t (fun slot => a slot ∨ b slot) t₂ where
  same := by rw [second.same, first.same]
  consistent := second.consistent
  emptied slot named := by
    by_cases later : b slot
    · exact second.emptied slot later
    · rw [second.kept slot later]
      exact first.emptied slot (named.resolve_right later)
  kept slot apart := by
    rw [second.kept slot fun later => apart (.inr later),
      first.kept slot fun sooner => apart (.inl sooner)]

theorem congr {a b : Nat → Prop} {after : Table} (released : Released t a after)
    (equal : ∀ slot, a slot ↔ b slot) : Released t b after where
  same := released.same
  consistent := released.consistent
  emptied slot named := released.emptied slot ((equal slot).mpr named)
  kept slot apart := released.kept slot fun named => apart ((equal slot).mp named)

theorem getBits {named : Nat → Prop} {after : Table} (released : Released t named after)
    (slot : Slot) (row : UInt64) (width : Nat) :
    after.getBits slot row width = t.getBits slot row width := by
  rw [released.same]
  rfl

end Released

/-- The slots that a field names in the rows from `first` up to `last`. -/
def NamedBy (t : Table) (f : FieldLayout) (first last : Nat) (slot : Nat) : Prop :=
  ∃ row : UInt64, first ≤ row.toNat ∧ row.toNat < last ∧
    slot = (t.getBits f.place row f.width).toNat

theorem toNat_succ_row {row : UInt64} (noWrap : row.toNat + 1 < UInt64.size) :
    (row + 1).toNat = row.toNat + 1 := by
  rw [UInt64.toNat_add]
  exact Nat.mod_eq_of_lt noWrap

theorem succ_eq_zero_iff {row : UInt64} : row + 1 = 0 ↔ UInt64.size ≤ row.toNat + 1 := by
  have bound : row.toNat < UInt64.size := row.toNat_lt
  rw [← UInt64.toNat_inj, UInt64.toNat_add]
  change (row.toNat + 1) % UInt64.size = 0 ↔ _
  refine ⟨fun zero => Nat.not_lt.mp fun counted => ?_, fun past => ?_⟩
  · rw [Nat.mod_eq_of_lt counted] at zero
    cases zero
  · have last : row.toNat + 1 = UInt64.size := Nat.le_antisymm bound past
    rw [last, Nat.mod_self]

theorem succ_ne_zero_iff {row : UInt64} : row + 1 ≠ 0 ↔ row.toNat + 1 < UInt64.size :=
  succ_eq_zero_iff.not.trans Nat.not_le

theorem lt_succ_row {row : UInt64} (counted : row + 1 ≠ 0) : row < row + 1 := by
  rw [UInt64.lt_iff_toNat_lt, toNat_succ_row (succ_ne_zero_iff.mp counted)]
  exact Nat.lt_succ_self _

theorem releaseField_spec {f : FieldLayout} {count : Nat} {row : UInt64}
    (consistent : t.objects.Consistent) (noWrap : row.toNat + count < UInt64.size) :
    Released t (NamedBy t f row.toNat (row.toNat + count)) (releaseField t f count row) := by
  induction count generalizing t row with
  | zero =>
    refine (Released.refl consistent).congr fun slot => ?_
    simp only [false_iff]
    rintro ⟨_, lower, upper, -⟩
    omega
  | succ count ih =>
    have next : (row + 1).toNat = row.toNat + 1 := toNat_succ_row (by omega)
    have first := Released.one consistent (t.getBits f.place row f.width).toNat
    refine (first.trans (ih first.consistent (by omega))).congr fun slot => ?_
    constructor
    · rintro (rfl | ⟨other, lower, upper, rfl⟩)
      · exact ⟨row, Nat.le_refl _, by omega, rfl⟩
      · exact ⟨other, by omega, by omega, rfl⟩
    · rintro ⟨other, lower, upper, rfl⟩
      by_cases same : other = row
      · exact .inl (by rw [same])
      · have apart : other.toNat ≠ row.toNat := fun equal => same (UInt64.toNat_inj.mp equal)
        exact .inr ⟨other, by omega, by omega, rfl⟩

theorem releaseFields_spec (fields : List FieldLayout) {count : Nat} {row : UInt64}
    (consistent : t.objects.Consistent) (noWrap : row.toNat + count < UInt64.size) :
    Released t (fun slot => ∃ f ∈ fields, NamedBy t f row.toNat (row.toNat + count) slot)
      (fields.foldl (fun t f => releaseField t f count row) t) := by
  induction fields generalizing t with
  | nil =>
    refine (Released.refl consistent).congr fun slot => ?_
    simp
  | cons f rest ih =>
    have first := releaseField_spec (f := f) consistent noWrap
    refine (first.trans (ih first.consistent)).congr fun slot => ?_
    simp only [NamedBy, first.getBits, List.exists_mem_cons_iff]

/-- An object field has a place of its own. -/
theorem bitsOf_object (intact : t.Intact) {id : FieldId} {f : FieldLayout}
    (field : t.layout.field? id = some f) (object : f.type = .object) (row : UInt64) :
    t.bitsOf (.field id) row = t.getBits f.place row f.width := by
  have single := intact.stored.good.sound.single_of_object field object
  rw [Table.bitsOf, Layout.slotOf?, field]
  simp [single]

/-- The slots that object fields name in the rows from `first` on. -/
def NamedFrom (t : Table) (first : UInt64) (slot : Nat) : Prop :=
  ∃ id row, t.ObjectCell id row ∧ first ≤ row ∧ slot = (t.bitsOf (.field id) row).toNat

/-- Releasing rows empties the slots that their object fields name. -/
theorem releaseRows_spec {s : Storage} (intact : s.table.Intact) {first : UInt64}
    (inside : first ≤ s.table.capacity) :
    Released s.table (NamedFrom s.table first) (s.releaseRows first).table := by
  have noWrap : first.toNat + (s.table.capacity.toNat - first.toNat) < UInt64.size := by
    have bound : s.table.capacity.toNat < UInt64.size := s.table.capacity.toNat_lt
    have order := UInt64.le_iff_toNat_le.mp inside
    omega
  refine (releaseFields_spec _ intact.consistent noWrap).congr fun slot => ?_
  have order := UInt64.le_iff_toNat_le.mp inside
  constructor
  · rintro ⟨f, member, row, lower, upper, rfl⟩
    obtain ⟨listed, object⟩ := List.mem_filter.mp member
    obtain ⟨id, field⟩ := List.mem_iff_getElem?.mp listed
    have object : f.type = .object := by
      cases type : f.type <;> simp [type, FieldType.isObject] at object ⊢
    refine ⟨id, row, ⟨?_, f, field, object⟩, UInt64.le_iff_toNat_le.mpr lower, ?_⟩
    · rw [UInt64.lt_iff_toNat_lt]
      omega
    · rw [bitsOf_object intact field object]
  · rintro ⟨id, row, ⟨here, f, field, object⟩, lower, rfl⟩
    refine ⟨f, ?_, row, UInt64.le_iff_toNat_le.mp lower, ?_,
      by rw [bitsOf_object intact field object]⟩
    · rw [List.mem_filter]
      exact ⟨List.mem_of_getElem? field, by simp [object, FieldType.isObject]⟩
    · have here := UInt64.lt_iff_toNat_lt.mp here
      omega

end BitRecords.Storage
