import Mathlib.Data.List.Nodup
import Mathlib.Tactic.Tauto
import BitRecords.Proofs.Result
import BitRecords.Schema.Build

/-!
# Well-formed schemas

A schema is well-formed when every struct in it keeps the rules for names, types and unions.
Each check judges one rule: it accepts what keeps the rule and reports a fault of the schema
otherwise. So a struct with well-formed children is built exactly if it is well-formed itself.
A transform of a well-formed struct checks less, and this is enough, since it changes nothing
but the name or the flags. Any combination of these makes the well-formed schemas and no others.
-/

namespace BitRecords

/-- A name that a dotted path can hold. -/
structure PlainName (name : String) : Prop where
  nonempty : name.isEmpty = false
  dotless : '.' ∉ name.toList

theorem FieldType.isObject_iff {t : FieldType} : t.isObject = true ↔ t = .object := by
  cases t <;> simp [isObject]

namespace Schema

/-- The outcome for a condition: the result if it holds, and a fault of the schema if not. -/
inductive Judged {α : Type} (P : Prop) (a : α) : Except Error α → Prop where
  | accepted : P → Judged P a (.ok a)
  | refused {path : String} {fault : SchemaFault} : ¬ P → Judged P a (.error (.schema path fault))

namespace Judged

variable {α β : Type} {P Q : Prop} {a : α} {b : β} {x : Except Error α} {f : α → Except Error β}

theorem congr (judged : Judged P a x) (same : P ↔ Q) : Judged Q a x := by
  rwa [← propext same]

/-- Conditions that are judged one after the other are judged together. -/
theorem bind (first : Judged P a x) (rest : Judged Q b (f a)) : Judged (P ∧ Q) b (x >>= f) := by
  cases first with
  | refused broken => exact .refused fun both => broken both.1
  | accepted holds => exact rest.congr ⟨fun other => ⟨holds, other⟩, And.right⟩

/-- A result may be returned after a check. -/
theorem returns (judged : Judged P a x) (b : β) : Judged P b (x >>= fun _ => pure b) := by
  cases judged with
  | refused broken => exact .refused broken
  | accepted holds => exact .accepted holds

theorem ok_iff (judged : Judged P a x) {c : α} : x = .ok c ↔ P ∧ c = a := by
  cases judged with
  | accepted holds => simp [holds, eq_comm]
  | refused broken => simp [broken]

end Judged

theorem judged_checkName (path name : String) :
    Judged (PlainName name) () (checkName path name) := by
  unfold checkName
  split
  · next empty =>
    refine .refused fun plain => ?_
    rw [plain.nonempty] at empty
    cases empty
  · next nonempty =>
    split
    · next dotted => exact .refused fun plain => plain.dotless (by simpa using dotted)
    · next dotless => exact .accepted ⟨by simpa using nonempty, by simpa using dotless⟩

theorem judged_checkType (path : String) (type : FieldType) :
    Judged type.Admissible () (checkType path type) := by
  cases type with
  | unsigned width =>
    rw [checkType]
    split
    · next admissible => exact .accepted admissible
    · next wrong => exact .refused wrong
  | bool | int8 | int16 | int32 | int64 | float32 | float64 | object => exact .accepted trivial

/-- The names are different, and none of them is taken. -/
def Fresh (taken names : List String) : Prop := names.Nodup ∧ names.Disjoint taken

theorem fresh_cons {taken names : List String} {name : String} :
    Fresh taken (name :: names) ↔ name ∉ taken ∧ Fresh (name :: taken) names := by
  simp only [Fresh, List.nodup_cons, List.disjoint_cons_left, List.disjoint_cons_right]
  tauto

/-- The rules for fields, apart from those for unions. -/
def FieldsRule (taken : List String) (fields : List Field) : Prop :=
  (∀ f ∈ fields, PlainName f.name ∧ f.type.Admissible) ∧ Fresh taken (fields.map (·.name))

theorem fieldsRule_cons {taken : List String} {f : Field} {rest : List Field} :
    FieldsRule taken (f :: rest) ↔ PlainName f.name ∧ f.type.Admissible ∧
      f.name ∉ taken ∧ FieldsRule (f.name :: taken) rest := by
  simp only [FieldsRule, List.forall_mem_cons, List.map_cons, fresh_cons]
  tauto

theorem judged_checkFields (owner : String) (taken : List String) (fields : List Field) :
    Judged (FieldsRule taken fields) ((fields.map (·.name)).reverse ++ taken)
      (checkFields owner taken fields) := by
  induction fields generalizing taken with
  | nil => exact .accepted ⟨by simp, List.nodup_nil, List.disjoint_nil_left _⟩
  | cons f rest ih =>
    rw [checkFields]
    refine ((judged_checkName _ f.name).bind ((judged_checkType _ f.type).bind ?_)).congr
      fieldsRule_cons.symm
    split
    · next duplicate =>
      refine .refused fun both => both.1 ?_
      simpa using duplicate
    · next free =>
      have others := ih (f.name :: taken)
      simp only [List.map_cons, List.reverse_cons, List.append_assoc, List.singleton_append]
      refine others.congr ⟨fun rule => ⟨?_, rule⟩, And.right⟩
      simpa using free

theorem judged_checkChildren (owner : String) (seen : List String) (children : List Schema) :
    Judged (Fresh seen (children.map (·.name))) () (checkChildren owner seen children) := by
  induction children generalizing seen with
  | nil => exact .accepted ⟨List.nodup_nil, List.disjoint_nil_left _⟩
  | cons child rest ih =>
    rw [checkChildren]
    split
    · next taken =>
      refine .refused fun fresh => (fresh_cons.mp fresh).1 ?_
      simpa using taken
    · next free =>
      refine (ih (child.name :: seen)).congr ⟨fun fresh => fresh_cons.mpr ⟨?_, fresh⟩, fun fresh =>
        (fresh_cons.mp fresh).2⟩
      simpa using free

/-- Fields and children of the struct share one namespace. -/
def Distinct (s : Schema) : Prop := (s.fields.map (·.name) ++ s.children.map (·.name)).Nodup

/-- A union has a field and no object field. -/
def UnionRule (s : Schema) : Prop :=
  s.flags.union = true → s.fields ≠ [] ∧ ∀ f ∈ s.fields, f.type ≠ .object

/-- The struct keeps the rules, as far as they are about itself and the names of its children. -/
structure Regular (s : Schema) : Prop where
  name : PlainName s.name
  fields : ∀ f ∈ s.fields, PlainName f.name ∧ f.type.Admissible
  distinct : s.Distinct
  union : s.UnionRule

/-- All structs in the schema keep the rules. -/
inductive WellFormed : Schema → Prop where
  | intro {s : Schema} : s.Regular → (∀ child ∈ s.children, WellFormed child) → WellFormed s

theorem wellFormed_iff {s : Schema} :
    s.WellFormed ↔ s.Regular ∧ ∀ child ∈ s.children, child.WellFormed := by
  constructor
  · rintro ⟨regular, children⟩
    exact ⟨regular, children⟩
  · rintro ⟨regular, children⟩
    exact .intro regular children

theorem judged_checkUnion (s : Schema) : Judged s.UnionRule () s.checkUnion := by
  unfold checkUnion
  split
  · next plain =>
    refine .accepted fun union => ?_
    simp [union] at plain
  · next union =>
    have union : s.flags.union = true := by simpa using union
    split
    · next empty => exact .refused fun rule => (rule union).1 (List.isEmpty_iff.mp empty)
    · next some =>
      split
      · next f found =>
        have object := List.find?_some found
        exact .refused fun rule => (rule union).2 f (List.mem_of_find?_eq_some found)
          (FieldType.isObject_iff.mp object)
      · next none =>
        refine .accepted fun _ => ⟨fun empty => some (List.isEmpty_iff.mpr empty), ?_⟩
        intro f member object
        have plain := List.find?_eq_none.mp none f member
        exact plain (FieldType.isObject_iff.mpr object)

theorem judged_build (name : String) (fields : List Field) (children : List Schema)
    (flags : Flags) :
    Judged (Regular { name, fields, children, flags }) { name, fields, children, flags }
      (build name fields children flags) := by
  have judged : Judged (PlainName name ∧ FieldsRule [] fields ∧
      Fresh ((fields.map (·.name)).reverse ++ []) (children.map (·.name)) ∧
      UnionRule { name, fields, children, flags }) { name, fields, children, flags }
      (build name fields children flags) :=
    (judged_checkName _ _).bind ((judged_checkFields _ _ _).bind ((judged_checkChildren _ _ _).bind
      ((judged_checkUnion _).returns _)))
  refine judged.congr ⟨?_, ?_⟩
  · rintro ⟨plain, ⟨each, nodup, -⟩, ⟨nodup', apart⟩, union⟩
    refine ⟨plain, each, List.nodup_append'.mpr ⟨nodup, nodup', ?_⟩, union⟩
    simpa [List.disjoint_comm] using apart
  · rintro ⟨plain, each, distinct, union⟩
    obtain ⟨nodup, nodup', apart⟩ := List.nodup_append'.mp distinct
    refine ⟨plain, ⟨each, nodup, List.disjoint_nil_right _⟩, ⟨nodup', ?_⟩, union⟩
    simpa [List.disjoint_comm] using apart

/-- Whether a struct with the fields and children of a well-formed one is well-formed is a
matter of its name and flags. -/
theorem WellFormed.like {s t : Schema} (wellFormed : s.WellFormed) (fields : t.fields = s.fields)
    (children : t.children = s.children) : t.WellFormed ↔ PlainName t.name ∧ t.UnionRule := by
  obtain ⟨regular, below⟩ := wellFormed_iff.mp wellFormed
  rw [wellFormed_iff]
  constructor
  · rintro ⟨regular, -⟩
    exact ⟨regular.name, regular.union⟩
  · rintro ⟨name, union⟩
    have distinct := regular.distinct
    rw [Distinct, ← fields, ← children] at distinct
    exact ⟨⟨name, fields ▸ regular.fields, distinct, union⟩, children ▸ below⟩

/-- What makes a struct out of another one. -/
inductive Transform where
  | optional
  | list
  | union
  | renamed (name : String)
  | withFlags (flags : Flags)

namespace Transform

def apply (s : Schema) : Transform → Except Error Schema
  | optional => .ok s.asOptional
  | list => .ok s.asList
  | union => s.asUnion
  | renamed name => s.renamed name
  | withFlags flags => s.withFlags flags

/-- The struct with the name or the flags that the transform tells, and all else as it was. -/
def target (s : Schema) : Transform → Schema
  | optional => { s with flags := { s.flags with optional := true } }
  | list => { s with flags := { s.flags with list := true } }
  | union => { s with flags := { s.flags with union := true } }
  | renamed name => { s with name }
  | withFlags flags => { s with flags }

end Transform

theorem judged_withFlags {s : Schema} (wellFormed : s.WellFormed) (flags : Flags) :
    Judged (WellFormed { s with flags }) { s with flags } (s.withFlags flags) := by
  have name := (wellFormed_iff.mp wellFormed).1.name
  have judged : Judged (UnionRule { s with flags }) { s with flags } (s.withFlags flags) :=
    (judged_checkUnion _).returns _
  have like := wellFormed.like (t := { s with flags }) rfl rfl
  exact judged.congr ((and_iff_right name).symm.trans like.symm)

theorem judged_transform {s : Schema} (wellFormed : s.WellFormed) (f : Transform) :
    Judged (f.target s).WellFormed (f.target s) (f.apply s) := by
  have regular := (wellFormed_iff.mp wellFormed).1
  cases f with
  | optional =>
    have like := wellFormed.like (t := s.asOptional) rfl rfl
    exact .accepted (like.mpr ⟨regular.name, regular.union⟩)
  | list =>
    have like := wellFormed.like (t := s.asList) rfl rfl
    exact .accepted (like.mpr ⟨regular.name, regular.union⟩)
  | union => exact judged_withFlags wellFormed _
  | withFlags flags => exact judged_withFlags wellFormed flags
  | renamed name =>
    have judged : Judged (PlainName name) { s with name } (s.renamed name) :=
      (judged_checkName _ _).returns _
    have like := wellFormed.like (t := { s with name }) rfl rfl
    exact judged.congr ((and_iff_left regular.union).symm.trans like.symm)

theorem judged_build_wellFormed {children : List Schema}
    (below : ∀ child ∈ children, child.WellFormed) (name : String) (fields : List Field)
    (flags : Flags) :
    Judged (WellFormed { name, fields, children, flags }) { name, fields, children, flags }
      (build name fields children flags) :=
  (judged_build name fields children flags).congr
    ⟨fun regular => .intro regular below, fun wellFormed => (wellFormed_iff.mp wellFormed).1⟩

/-- The schemas that can be made, by building and by transforms in any order. A schema may be
used in any number of places. -/
inductive Constructed : Schema → Prop where
  | build {name : String} {fields : List Field} {children : List Schema} {flags : Flags}
      {s : Schema} : (∀ child ∈ children, Constructed child) →
      Schema.build name fields children flags = .ok s → Constructed s
  | transform {s t : Schema} {f : Transform} : Constructed s → f.apply s = .ok t → Constructed t

theorem Constructed.wellFormed {s : Schema} (constructed : s.Constructed) : s.WellFormed := by
  induction constructed with
  | build _ ok below =>
    obtain ⟨wellFormed, rfl⟩ := (judged_build_wellFormed below _ _ _).ok_iff.mp ok
    exact wellFormed
  | transform _ ok wellFormed =>
    obtain ⟨wellFormed, rfl⟩ := (judged_transform wellFormed _).ok_iff.mp ok
    exact wellFormed

theorem WellFormed.constructed {s : Schema} (wellFormed : s.WellFormed) : s.Constructed := by
  induction wellFormed with
  | @intro s regular below ih =>
    cases s
    exact .build ih ((judged_build_wellFormed below _ _ _).ok_iff.mpr ⟨.intro regular below, rfl⟩)

/-- Any combination of operations makes the well-formed schemas and no others. With
well-formed children a struct is built exactly if it is well-formed, and a transform of a
well-formed struct gives its target exactly if that is well-formed. Everything else is
refused for a fault of the schema. -/
theorem construction_exact :
    (∀ s, Constructed s ↔ WellFormed s) ∧
    (∀ name fields children flags, (∀ child ∈ children, WellFormed child) →
      Judged (WellFormed { name, fields, children, flags }) { name, fields, children, flags }
        (build name fields children flags)) ∧
    (∀ s, WellFormed s → ∀ f : Transform,
      Judged (f.target s).WellFormed (f.target s) (f.apply s)) :=
  ⟨fun _ => ⟨Constructed.wellFormed, WellFormed.constructed⟩,
    fun _ _ _ _ below => judged_build_wellFormed below _ _ _,
    fun _ wellFormed => judged_transform wellFormed⟩

def side : Schema := { name := "side", fields := [⟨"size", .unsigned 7⟩, ⟨"on", .bool⟩] }

/-- One template under two names, as a union and as an optional list. -/
def box : Schema :=
  { name := "box"
    children :=
      [{ side with name := "left", flags := { union := true } },
        { side with name := "right", flags := { list := true, optional := true } }] }

theorem side_constructed : side.Constructed := by
  have ok : build "side" side.fields [] {} = .ok side := rfl
  exact .build (by simp) ok

theorem box_constructed : box.Constructed := by
  have left : Constructed { side with name := "left", flags := { union := true } } :=
    .transform (f := .union) (.transform (f := .renamed "left") side_constructed rfl) rfl
  have right :
      Constructed { side with name := "right", flags := { list := true, optional := true } } :=
    .transform (f := .list) (.transform (f := .optional)
      (.transform (f := .renamed "right") side_constructed rfl) rfl) rfl
  have ok : build "box" [] box.children {} = .ok box := rfl
  exact .build (List.forall_mem_cons.mpr ⟨left, List.forall_mem_singleton.mpr right⟩) ok

/-- A struct without fields cannot be made a union, whatever is below it. -/
theorem construction_exact_box : box.WellFormed ∧
    ¬ ((Transform.union.target box).WellFormed) ∧
    Transform.union.apply box = .error (.schema "box" .emptyUnion) := by
  have laid : box.WellFormed := (construction_exact.1 box).mp box_constructed
  refine ⟨laid, ?_, by rfl⟩
  cases construction_exact.2.2 box laid .union with
  | refused broken => exact broken

end Schema

end BitRecords
