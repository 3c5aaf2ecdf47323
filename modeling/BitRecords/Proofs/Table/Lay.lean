import BitRecords.Proofs.FieldType
import BitRecords.Proofs.Layout.Uses
import BitRecords.Proofs.Table.Contents
import BitRecords.Table.Listener

/-!
# Laying values over slots

The value of a change can be laid over the slot of its field, a union member over
the low bits of the region. Values that are all taken from the same contents can
be laid in any order: each step makes some bits those of these contents and leaves
the others.
-/

namespace BitRecords

/-- The bits of a value. A value that cannot be stored has none. -/
def FieldType.bitsOf (t : FieldType) (v : Value) : UInt64 :=
  match t.encode v with
  | .ok bits => bits
  | .error _ => 0

theorem FieldType.bitsOf_decode {t : FieldType} (admissible : t.Admissible) (plain : t ≠ .object)
    (word : UInt64) : t.bitsOf (t.decode word) = word &&& lowMask t.width := by
  rw [bitsOf, encode_decode admissible plain word]

/-- The field of a row that the change is about. -/
def Change.cell (c : Change) : Cell := ⟨c.field.id, c.row⟩

namespace Contents

/-- What the slot of a field holds, whether or not the field is present or
selected. -/
def content (c : Contents) (l : Layout) (cell : Cell) : Value :=
  match l.field? cell.id with
  | none => default
  | some f =>
    match f.tag with
    | none => c.value cell
    | some _ => f.type.decode (c.region ⟨f.owner, cell.row⟩)

/-- Lays a value over the slot of a field. -/
def lay (c : Contents) (l : Layout) (cell : Cell) (value : Value) : Contents :=
  match l.field? cell.id with
  | none => c
  | some f =>
    match f.tag with
    | none => c.setValue cell value
    | some _ => c.overlay ⟨f.owner, cell.row⟩ f.width (f.type.bitsOf value)

/-- Lays values over the slots of changes, one after the other. -/
def layAll (c : Contents) (l : Layout) (value : Change → Value) (changes : List Change) :
    Contents :=
  changes.foldl (fun c change => c.lay l change.cell (value change)) c

/-- The cell is a field with a slot of its own. -/
def Single (l : Layout) (cell : Cell) : Prop := ∃ f, l.field? cell.id = some f ∧ f.tag = none

/-- The cell is a union member, and the bit of the region is among its bits. -/
def Overlaps (l : Layout) (cell union : Cell) (p : Nat) : Prop :=
  ∃ f, l.field? cell.id = some f ∧ f.tag.isSome ∧ union = ⟨f.owner, cell.row⟩ ∧ p < f.width

variable {l : Layout} {c target : Contents} {cell other : Cell} {p : Nat}

theorem value_lay_self (single : Single l cell) :
    (c.lay l cell (target.content l cell)).value cell = target.value cell := by
  obtain ⟨f, found, plain⟩ := single
  simp [lay, content, found, plain]

/-- A value is that of the target, or is left. -/
theorem value_lay (l : Layout) (c target : Contents) (cell other : Cell) :
    (c.lay l cell (target.content l cell)).value other = target.value other ∨
      (c.lay l cell (target.content l cell)).value other = c.value other := by
  cases found : l.field? cell.id with
  | none => exact .inr (by simp [lay, found])
  | some f =>
    cases tag : f.tag with
    | some n => exact .inr (by simp [lay, found, tag])
    | none =>
      by_cases same : other = cell
      · rw [same]
        exact .inl (value_lay_self ⟨f, found, tag⟩)
      · exact .inr (by simp [lay, found, tag, same])

theorem bitOf_region_lay_self (good : l.SoundTyped) (overlaps : Overlaps l cell other p) :
    bitOf ((c.lay l cell (target.content l cell)).region other) p =
      bitOf (target.region other) p := by
  obtain ⟨f, found, isMember, rfl, low⟩ := overlaps
  obtain ⟨tag, isMember⟩ := Option.isSome_iff_exists.mp isMember
  obtain ⟨-, -, -, -, -, -, plain, -, -⟩ := good.sound.member found isMember
  have admissible := good.typed.fields f (List.mem_of_getElem? found)
  have narrow : p < 64 := Nat.lt_of_lt_of_le low (FieldType.width_le_of_admissible admissible)
  have inside : p < f.type.width := low
  simp [lay, content, found, isMember, low, FieldType.bitsOf_decode admissible plain, narrow,
    inside]

/-- A bit of a region is that of the target, or is left. -/
theorem bitOf_region_lay (good : l.SoundTyped) :
    bitOf ((c.lay l cell (target.content l cell)).region other) p = bitOf (target.region other) p ∨
      bitOf ((c.lay l cell (target.content l cell)).region other) p = bitOf (c.region other) p := by
  by_cases overlaps : Overlaps l cell other p
  · exact .inl (bitOf_region_lay_self good overlaps)
  · refine .inr ?_
    cases found : l.field? cell.id with
    | none => simp [lay, found]
    | some f =>
      cases tag : f.tag with
      | none => simp [lay, found, tag]
      | some n =>
        by_cases same : other = ⟨f.owner, cell.row⟩
        · have high : ¬ p < f.width := fun low => overlaps ⟨f, found, by simp [tag], same, low⟩
          simp [lay, found, tag, same, high]
        · simp [lay, found, tag, same]

variable {value : Change → Value} {changes : List Change}

/-- A value that differs from the target is made that of the target by a change of
its field. -/
theorem value_layAll (correct : ∀ ch ∈ changes, value ch = target.content l ch.cell)
    (reached : c.value cell = target.value cell ∨ Single l cell ∧ ∃ ch ∈ changes, ch.cell = cell) :
    (c.layAll l value changes).value cell = target.value cell := by
  induction changes generalizing c with
  | nil =>
    rcases reached with same | ⟨-, ch, none, -⟩
    · exact same
    · cases none
  | cons ch rest ih =>
    obtain ⟨here, others⟩ := List.forall_mem_cons.mp correct
    refine ih others ?_
    dsimp only
    rw [here]
    rcases reached with same | ⟨single, hit, member, rfl⟩
    · refine .inl ?_
      rcases value_lay l c target ch.cell cell with new | old
      · exact new
      · exact old.trans same
    · rcases List.mem_cons.mp member with rfl | later
      · exact .inl (value_lay_self single)
      · exact .inr ⟨single, hit, later, rfl⟩

/-- A bit that differs from the target is made that of the target by a change of a
union member that has it. -/
theorem bitOf_region_layAll (good : l.SoundTyped)
    (correct : ∀ ch ∈ changes, value ch = target.content l ch.cell)
    (reached : bitOf (c.region cell) p = bitOf (target.region cell) p ∨
      ∃ ch ∈ changes, Overlaps l ch.cell cell p) :
    bitOf ((c.layAll l value changes).region cell) p = bitOf (target.region cell) p := by
  induction changes generalizing c with
  | nil =>
    rcases reached with same | ⟨ch, none, -⟩
    · exact same
    · cases none
  | cons ch rest ih =>
    obtain ⟨here, others⟩ := List.forall_mem_cons.mp correct
    refine ih others ?_
    dsimp only
    rw [here]
    rcases reached with same | ⟨hit, member, overlaps⟩
    · refine .inl ?_
      rcases bitOf_region_lay good with new | old
      · exact new
      · exact old.trans same
    · rcases List.mem_cons.mp member with rfl | later
      · exact .inl (bitOf_region_lay_self good overlaps)
      · exact .inr ⟨hit, later, overlaps⟩

end Contents

end BitRecords
