import Mathlib.Logic.Relation
import BitRecords.Proofs.Layout.Flattening

/-!
# What a field is within

A field is within its owner and the structs above it. This is answered by a walk along the
parents, which ends since parents come first. The same can be told from the paths alone: a
struct is above a field if the names that lead to the struct are the first ones of those
that lead to the field, and names can be read off a path, since they hold no dot.
-/

namespace BitRecords

open Layout

/-- A path with a dot after it starts another one, or is empty, exactly if its names are the
first ones of the other path. -/
theorem goesOn_iff_names {front names : List String} (plain : ∀ name ∈ names, PlainName name)
    (plainFront : ∀ name ∈ front, PlainName name) (apart : front ≠ names) :
    (".".intercalate front = "" ∨
      ∃ rest, ".".intercalate names = ".".intercalate front ++ "." ++ rest) ↔
      front <+: names := by
  by_cases root : front = []
  · subst root
    exact iff_of_true (.inl String.intercalate_nil) List.nil_prefix
  constructor
  · rintro (empty | ⟨rest, longer⟩)
    · exact absurd empty (intercalate_ne_empty plainFront root)
    · obtain ⟨more, -, rfl⟩ := names_of_longer plain plainFront root longer
      exact List.prefix_append front more
  · rintro ⟨more, rfl⟩
    have some : more ≠ [] := fun none => apart (by rw [none, List.append_nil])
    exact .inr ⟨_, String.intercalate_append_of_ne_nil root some⟩

namespace Layout

variable {l : Layout} {id outer : StructId} {start : Option StructId} {found found' : Bool}

/-- The walk along the parents looks for a struct and ends with the answer whether it was
met. -/
inductive Climbs (l : Layout) (outer : StructId) : Option StructId → Bool → Prop where
  | top : Climbs l outer none false
  | here : Climbs l outer (some outer) true
  | up {id : StructId} {x : StructLayout} {found : Bool} : id ≠ outer → l.struct? id = some x →
      Climbs l outer x.parent found → Climbs l outer (some id) found

theorem Climbs.unique (climbs : l.Climbs outer start found)
    (climbs' : l.Climbs outer start found') : found = found' := by
  induction climbs with
  | top =>
    cases climbs'
    rfl
  | here =>
    cases climbs' with
    | here => rfl
    | up other => exact absurd rfl other
  | up other struct _ ih =>
    cases climbs' with
    | here => exact absurd rfl other
    | up _ struct' climbs' =>
      cases struct.symm.trans struct'
      exact ih climbs'

/-- The walk ends, as each parent has a smaller id. -/
theorem Numbered.climbs (numbered : l.Numbered) (outer : StructId) {x : StructLayout}
    (struct : l.struct? id = some x) :
    l.Climbs outer (some id) ((l.ancestors id).contains outer) := by
  induction id using Nat.strong_induction_on generalizing x with
  | _ id ih =>
    by_cases same : id = outer
    · subst same
      rw [List.contains_iff_mem.mpr (mem_ancestors_self struct)]
      exact .here
    · refine .up same struct ?_
      have differs : (outer == id) = false := by simpa using Ne.symm same
      cases below : x.parent with
      | none =>
        rw [ancestors_root struct below, List.contains_cons, differs]
        exact .top
      | some parent =>
        have later := numbered.later id x struct parent below
        have bound : parent < l.structs.length :=
          Nat.lt_trans later (List.getElem?_eq_some_iff.mp struct).1
        rw [ancestors_child struct below later, List.contains_cons, differs, Bool.false_or]
        exact ih parent later (List.getElem?_eq_getElem bound)

end Layout

namespace Schema

/-- In the definition, the struct of the second id is a child of the one of the first id. -/
def Child (s : Schema) (outer inner : StructId) : Prop :=
  ∃ front c child, s.Declares front (.struct outer c) ∧ child ∈ c.children ∧
    s.Declares (front ++ [child.name]) (.struct inner child)

/-- In the definition, the field is one of the own fields of the struct. -/
def HasField (s : Schema) (owner : StructId) (field : FieldId) : Prop :=
  ∃ front c f, s.Declares front (.struct owner c) ∧ f ∈ c.fields ∧
    s.Declares (front ++ [f.name]) (.field field f)

/-- The struct has the field, or a struct below it has. -/
def Within (s : Schema) (field : FieldId) (outer : StructId) : Prop :=
  ∃ owner, s.HasField owner field ∧ Relation.ReflTransGen s.Child outer owner

/-- Whatever is reached by one name more than a struct is in the struct. -/
theorem Around.of_concat {s c : Schema} {front : List String} {name : String}
    {parent : Option StructId} (around : s.Around (front ++ [name]) c parent) :
    ∃ id d, parent = some id ∧ s.Declares front (.struct id d) ∧ c ∈ d.children := by
  generalize same : front ++ [name] = names at around
  cases around with
  | root => simp at same
  | child above member =>
    obtain ⟨rfl, -⟩ := List.append_inj' same rfl
    exact ⟨_, _, rfl, above, member⟩

end Schema

namespace Layout

variable {r : LayoutRules} {s c d : Schema} {l : Layout} {front names : List String}
variable {id outer owner : StructId} {field : FieldId}

section Tree

variable (readable : s.Readable) (ok : r.layout s = .ok l)
include readable ok

/-- The parents of the layout are those of the definition. -/
theorem parent_iff_child {x : StructLayout} (found : l.struct? id = some x) :
    x.parent = some outer ↔ s.Child outer id := by
  obtain ⟨names, c, declares, tied, -⟩ := LayoutRules.declared_struct ok found
  have around := tied.parent
  constructor
  · intro parent
    rw [parent] at around
    cases around with
    | child above member => exact ⟨_, _, _, above, member, declares⟩
  · rintro ⟨front, c', child, above, -, declares'⟩
    cases declares.symm.trans declares'
    obtain ⟨parent, d, same, above', -⟩ := around.of_concat
    cases readable.declares_unique above above'
    exact same

theorem encloses_iff_child {x : StructLayout} (found : l.struct? id = some x) :
    l.Encloses outer id ↔ Relation.ReflTransGen s.Child outer id := by
  constructor
  · intro encloses
    clear found
    induction encloses with
    | self => exact .refl
    | inside struct below _ ih => exact ih.tail ((parent_iff_child readable ok struct).mp below)
  · intro above
    induction above generalizing x with
    | refl => exact .self
    | tail _ child ih =>
      have below := (parent_iff_child readable ok found).mpr child
      obtain ⟨front, c, -, declares, -⟩ := child
      obtain ⟨y, struct, -⟩ := struct?_of_declares ok declares
      exact .inside found below (ih struct)

/-- A struct is above another one if its names are the first ones of those of the other. -/
theorem above_iff_names (declares : s.Declares front (.struct outer c))
    (declares' : s.Declares names (.struct id d)) :
    Relation.ReflTransGen s.Child outer id ↔ front <+: names := by
  constructor
  · intro above
    clear ok
    induction above generalizing names d with
    | refl =>
      cases declares.symm.trans declares'
      exact List.prefix_rfl
    | tail _ child ih =>
      obtain ⟨mid, e, child, middle, -, inner⟩ := child
      cases inner.symm.trans declares'
      exact (ih middle).trans (List.prefix_append mid _)
  · intro first
    induction names using List.reverseRecOn generalizing id d with
    | nil =>
      obtain rfl := List.prefix_nil.mp first
      cases readable.declares_unique declares declares'
      exact .refl
    | append_singleton names name ih =>
      rcases List.prefix_concat_iff.mp first with rfl | first
      · cases readable.declares_unique declares declares'
        exact .refl
      · obtain ⟨x, found, tied, -⟩ := LayoutRules.struct_of_declares ok declares'
        obtain ⟨parent, e, above, middle, -⟩ := tied.parent.of_concat
        exact (ih middle first).tail ((parent_iff_child readable ok found).mp above)

theorem hasField_iff {x : FieldLayout} (found : l.field? field = some x) :
    s.HasField owner field ↔ x.owner = owner := by
  obtain ⟨names, f, declares, ⟨front, c, rfl, above, member⟩, -⟩ :=
    LayoutRules.declared_field ok found
  constructor
  · rintro ⟨front', c', f', above', -, declares'⟩
    have same := Option.some.inj (declares.symm.trans declares')
    obtain ⟨rfl, -⟩ := List.append_inj' (congrArg Prod.fst same) rfl
    cases readable.declares_unique above above'
    rfl
  · rintro rfl
    exact ⟨front, c, f, above, member, declares⟩

theorem isWithin_iff_within {x : FieldLayout} (found : l.field? field = some x) :
    l.isWithin field outer = true ↔ s.Within field outer := by
  have numbered := (LaidOut.root ok).numbered
  obtain ⟨y, struct⟩ := numbered.owners field x found
  have encloses : l.Encloses outer x.owner ↔ Relation.ReflTransGen s.Child outer x.owner :=
    encloses_iff_child readable ok struct
  rw [numbered.isWithin_iff]
  constructor
  · rintro ⟨x', found', above⟩
    cases found.symm.trans found'
    exact ⟨x.owner, (hasField_iff readable ok found).mpr rfl, encloses.mp above⟩
  · rintro ⟨owner, has, above⟩
    obtain rfl := (hasField_iff readable ok found).mp has
    exact ⟨x, found, encloses.mpr above⟩

/-- A field is within a struct if the names of the struct are the first ones of its names. -/
theorem isWithin_iff_names {f : Field} (declares : s.Declares front (.struct outer c))
    (declares' : s.Declares names (.field field f)) :
    l.isWithin field outer = true ↔ front <+: names := by
  obtain ⟨x, found, ⟨ownerFront, owner, rfl, above, -⟩, -⟩ :=
    LayoutRules.field_of_declares ok declares'
  have apart : front ≠ ownerFront ++ [f.name] := by
    rintro rfl
    cases readable.declares_unique declares declares'
  have prefixes := above_iff_names readable ok declares above
  rw [isWithin_iff_within readable ok found, List.prefix_concat_iff, or_iff_right apart, ← prefixes]
  constructor
  · rintro ⟨owner, has, inside⟩
    obtain rfl := (hasField_iff readable ok found).mp has
    exact inside
  · intro inside
    exact ⟨x.owner, (hasField_iff readable ok found).mpr rfl, inside⟩

/-- The same, told from the paths. -/
theorem isWithin_iff_path {x : FieldLayout} {y : StructLayout} (found : l.field? field = some x)
    (struct : l.struct? outer = some y) : l.isWithin field outer = true ↔
      (y.path = "" ∨ ∃ rest, x.path = y.path ++ "." ++ rest) := by
  obtain ⟨names, f, declares, -, sketch⟩ := LayoutRules.declared_field ok found
  obtain ⟨front, c, above, -, sketch'⟩ := LayoutRules.declared_struct ok struct
  have plain := readable.spelled.plain (Schema.mem_declared_of_declares declares)
  have plainFront := readable.spelled.plain (Schema.mem_declared_of_declares above)
  have path : x.path = ".".intercalate names :=
    (congrArg FieldSketch.path sketch).trans (pathBelow_root plain)
  have path' : y.path = ".".intercalate front :=
    (congrArg StructSketch.path sketch').trans (pathBelow_root plainFront)
  have apart : front ≠ names := by
    rintro rfl
    cases readable.declares_unique above declares
  rw [path, path', goesOn_iff_names plain plainFront apart]
  exact isWithin_iff_names readable ok above declares

theorem struct_of_isWithin {x : FieldLayout} (found : l.field? field = some x)
    (inside : l.isWithin field outer = true) : ∃ y, l.struct? outer = some y := by
  have declared : ∃ front c, s.Declares front (.struct outer c) := by
    obtain ⟨owner, ⟨front, c, f, declares, -⟩, above⟩ :=
      (isWithin_iff_within readable ok found).mp inside
    rcases above.cases_head with rfl | ⟨next, ⟨front, c, child, declares, -⟩, -⟩
    · exact ⟨front, c, declares⟩
    · exact ⟨front, c, declares⟩
  obtain ⟨front, c, declares⟩ := declared
  obtain ⟨y, struct, -⟩ := struct?_of_declares ok declares
  exact ⟨y, struct⟩

/-- What is in a list is in a layout of its own. -/
theorem not_isWithin_list {x : FieldLayout} {y : StructLayout} (found : l.field? field = some x)
    (struct : l.struct? outer = some y) (list : y.isList = true) :
    ¬ l.isWithin field outer = true := by
  intro inside
  obtain ⟨names, f, declares, -⟩ := LayoutRules.declared_field ok found
  obtain ⟨front, c, above, -, sketch⟩ := LayoutRules.declared_struct ok struct
  obtain ⟨more, rfl⟩ := (isWithin_iff_names readable ok above declares).mp inside
  have nothing : more = [] :=
    readable.spelled.eq_nil_of_list readable.single (Schema.mem_declared_of_declares above)
      ((LayoutRules.isList_of_sketch sketch).symm.trans list)
      (Schema.mem_declared_of_declares declares)
  rw [nothing, List.append_nil] at declares
  cases readable.declares_unique above declares

end Tree

/-- Structs in the same struct are reached by equally many names. -/
theorem length_eq_of_around {names names' : List String} {parent : Option StructId}
    (around : s.Around names c parent) (around' : s.Around names' d parent) :
    names.length = names'.length := by
  cases around with
  | root =>
    cases around'
    rfl
  | child above _ =>
    cases around' with
    | child above' _ =>
      cases above.symm.trans above'
      rw [List.length_append, List.length_append]
      rfl

theorem eq_of_isWithin (readable : s.Readable) (ok : r.layout s = .ok l) {x : FieldLayout}
    {outer' : StructId} {y y' : StructLayout} (found : l.field? field = some x)
    (struct : l.struct? outer = some y) (struct' : l.struct? outer' = some y')
    (beside : y.parent = y'.parent) (inside : l.isWithin field outer = true)
    (inside' : l.isWithin field outer' = true) : outer = outer' := by
  obtain ⟨names, f, declares, -⟩ := LayoutRules.declared_field ok found
  obtain ⟨front, c, above, tied, -⟩ := LayoutRules.declared_struct ok struct
  obtain ⟨front', c', above', tied', -⟩ := LayoutRules.declared_struct ok struct'
  have length := length_eq_of_around tied.parent (beside ▸ tied'.parent)
  have first := (isWithin_iff_names readable ok above declares).mp inside
  have first' := (isWithin_iff_names readable ok above' declares).mp inside'
  obtain rfl : front = front' :=
    (List.prefix_of_prefix_length_le first first' length.le).eq_of_length length
  cases readable.declares_unique above above'
  rfl

/-- The walk for a field and a number ends with one answer, which can be told from the paths
as well as from the tree of the definition. -/
structure WalkAgrees (s : Schema) (l : Layout) (field : FieldId) (x : FieldLayout)
    (outer : StructId) : Prop where
  ends : ∀ found, l.Climbs outer (some x.owner) found ↔ found = l.isWithin field outer
  path : l.isWithin field outer = true ↔ ∃ y, l.struct? outer = some y ∧
    (y.path = "" ∨ ∃ rest, x.path = y.path ++ "." ++ rest)
  tree : l.isWithin field outer = true ↔ s.Within field outer
  list : ∀ y, l.struct? outer = some y → y.isList = true → ¬ l.isWithin field outer = true
  /-- Whatever the names of two structs in one struct are, no field is within both. -/
  siblings : ∀ outer' y y', l.struct? outer = some y → l.struct? outer' = some y' →
    y.parent = y'.parent → l.isWithin field outer = true → l.isWithin field outer' = true →
      outer = outer'

/-- This goes for every field of a layout that was made and for every number, whether or not
it is the id of a struct. -/
theorem walkAgrees_of_defined (defined : Defined r s l) {x : FieldLayout}
    (found : l.field? field = some x) (outer : Nat) : l.WalkAgrees s field x outer := by
  obtain ⟨readable, ok⟩ := defined.readable
  have numbered := (LaidOut.root ok).numbered
  refine
    { tree := isWithin_iff_within readable ok found
      list := fun y => not_isWithin_list readable ok found
      siblings := fun outer' y y' => eq_of_isWithin readable ok found
      ends := ?_, path := ?_ }
  · obtain ⟨y, struct⟩ := numbered.owners field x found
    have climbs : l.Climbs outer (some x.owner) (l.isWithin field outer) := by
      rw [isWithin, found]
      exact numbered.climbs outer struct
    intro answer
    constructor
    · exact fun climbs' => climbs'.unique climbs
    · rintro rfl
      exact climbs
  · constructor
    · intro inside
      obtain ⟨y, struct⟩ := struct_of_isWithin readable ok found inside
      exact ⟨y, struct, (isWithin_iff_path readable ok found struct).mp inside⟩
    · rintro ⟨y, struct, goesOn⟩
      exact (isWithin_iff_path readable ok found struct).mpr goesOn

end Layout

namespace LayoutRules

/-- The amount of cents is within the price, and so within nothing else in the order. -/
theorem walkAgrees_of_defined_cents : ∃ x,
    Defined { strategy := .aligned .bits8 } order orderLayout ∧
    orderLayout.field? 3 = some x ∧ (∀ outer, orderLayout.WalkAgrees order 3 x outer) ∧
    order.Within 3 0 ∧ order.Within 3 2 ∧ ¬ order.Within 3 1 := by
  obtain ⟨x, found, path⟩ : ∃ x, orderLayout.field? 3 = some x ∧ x.path = "price.cents" :=
    ⟨_, by rfl, by rfl⟩
  have walks (outer : Nat) := walkAgrees_of_defined orderLayout_defined found outer
  obtain ⟨root, atRoot, empty⟩ : ∃ y, orderLayout.struct? 0 = some y ∧ y.path = "" :=
    ⟨_, by rfl, by rfl⟩
  obtain ⟨price, atPrice, dotted, inOrder⟩ : ∃ y, orderLayout.struct? 2 = some y ∧
      "price.cents" = y.path ++ "." ++ "cents" ∧ y.parent = some 0 :=
    ⟨_, by rfl, by rfl, by rfl⟩
  obtain ⟨address, atAddress, inOrder'⟩ : ∃ y, orderLayout.struct? 1 = some y ∧
      y.parent = some 0 := ⟨_, by rfl, by rfl⟩
  have inPrice := (walks 2).path.mpr ⟨price, atPrice, .inr ⟨"cents", path.trans dotted⟩⟩
  refine ⟨x, orderLayout_defined, found, walks, ?_, (walks 2).tree.mp inPrice, ?_⟩
  · exact (walks 0).tree.mp ((walks 0).path.mpr ⟨root, atRoot, .inl empty⟩)
  · intro inAddress
    have same := (walks 2).siblings 1 price address atPrice atAddress
      (inOrder.trans inOrder'.symm) inPrice ((walks 1).tree.mpr inAddress)
    cases same

end LayoutRules

end BitRecords
