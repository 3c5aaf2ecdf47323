import BitRecords.Proofs.Layout.Resolution

/-!
# Flattening a definition

The lists of a layout hold the tree of its definition, cut at list structs. The structs
and fields stand in the order of their declarations, so that the ids which lead from one to
another lead to the position of what was declared there. A part is placed knowing only how
many structs and fields stand before it; what it is tied to is stated in the whole
definition, which embeds the declarations of the part from there on.
-/

namespace BitRecords

open Layout

namespace Schema

variable {t : Schema} {front : List String} {structs fields : Nat} {ds es : Declarations}

/-- The declarations are those of the definition from these ids on, each behind the names
of `front`. -/
structure Embeds (t : Schema) (front : List String) (structs fields : Nat) (ds : Declarations) :
    Prop where
  struct : ∀ i names c, ds.structs[i]? = some (names, c) →
    t.Declares (front ++ names) (.struct (structs + i) c)
  field : ∀ i names f, ds.fields[i]? = some (names, f) →
    t.Declares (front ++ names) (.field (fields + i) f)

namespace Embeds

theorem refl (t : Schema) : t.Embeds [] 0 0 t.declared where
  struct i names c found := by
    rw [Nat.zero_add]
    exact found
  field i names f found := by
    rw [Nat.zero_add]
    exact found

theorem left (embeds : t.Embeds front structs fields (ds ++ es)) :
    t.Embeds front structs fields ds where
  struct i names c found := by
    refine embeds.struct i names c ?_
    rw [Declarations.structs_append,
      List.getElem?_append_left (List.getElem?_eq_some_iff.mp found).1]
    exact found
  field i names f found := by
    refine embeds.field i names f ?_
    rw [Declarations.fields_append,
      List.getElem?_append_left (List.getElem?_eq_some_iff.mp found).1]
    exact found

theorem right (embeds : t.Embeds front structs fields (ds ++ es)) :
    t.Embeds front (structs + ds.structs.length) (fields + ds.fields.length) es where
  struct i names c found := by
    rw [Nat.add_assoc]
    refine embeds.struct _ names c ?_
    rw [Declarations.structs_append, List.getElem?_append_right (Nat.le_add_right _ _),
      Nat.add_sub_cancel_left]
    exact found
  field i names f found := by
    rw [Nat.add_assoc]
    refine embeds.field _ names f ?_
    rw [Declarations.fields_append, List.getElem?_append_right (Nat.le_add_right _ _),
      Nat.add_sub_cancel_left]
    exact found

theorem inside {name : String} (embeds : t.Embeds front structs fields (ds.below name)) :
    t.Embeds (front ++ [name]) structs fields ds where
  struct i names c found := by
    rw [List.append_assoc]
    refine embeds.struct i (name :: names) c ?_
    rw [Declarations.structs, Declarations.select_below, List.getElem?_map]
    exact congrArg (Option.map _) found
  field i names f found := by
    rw [List.append_assoc]
    refine embeds.field i (name :: names) f ?_
    rw [Declarations.fields, Declarations.select_below, List.getElem?_map]
    exact congrArg (Option.map _) found

end Embeds

/-- The struct itself is declared first, then its fields, then what its children declare. -/
theorem declared_split (s : Schema) : s.declared =
    [([], .struct s)] ++ (s.fields.map (fun f => ([f.name], .field f)) ++
      declaredBelow s.children) := by
  rw [declared_eq, declaredBelow_eq]
  rfl

theorem structs_ownFields (fs : List Field) :
    Declarations.structs (fs.map fun f => ([f.name], .field f)) = [] := by
  simp [Declarations.structs, Declarations.select, Declaration.struct?]

theorem fields_ownFields (fs : List Field) :
    Declarations.fields (fs.map fun f => ([f.name], .field f)) =
      fs.map fun f => ([f.name], f) := by
  simp [Declarations.fields, Declarations.select, Declaration.field?]

namespace Embeds

variable {s : Schema}

theorem here (embeds : t.Embeds front structs fields s.declared) :
    t.Declares front (.struct structs s) := by
  rw [declared_split] at embeds
  simpa using embeds.left.struct 0 [] s rfl

theorem ownField (embeds : t.Embeds front structs fields s.declared) {i : Nat} {f : Field}
    (found : s.fields[i]? = some f) :
    t.Declares (front ++ [f.name]) (.field (fields + i) f) := by
  rw [declared_split] at embeds
  refine embeds.right.left.field i [f.name] f ?_
  rw [fields_ownFields, List.getElem?_map, found]
  rfl

theorem children (embeds : t.Embeds front structs fields s.declared) :
    t.Embeds front (structs + 1) (fields + s.fields.length) (declaredBelow s.children) := by
  rw [declared_split] at embeds
  have below := embeds.right.right
  rw [structs_ownFields, fields_ownFields, List.length_map] at below
  exact below

/-- A child that is no list declares all that is in it, and the other children follow. -/
theorem child {child : Schema} {rest : List Schema} (single : child.flags.list = false)
    (embeds : t.Embeds front structs fields (declaredBelow (child :: rest))) :
    t.Embeds (front ++ [child.name]) structs fields child.declared ∧
      t.Embeds front (structs + child.declared.structs.length)
        (fields + child.declared.fields.length) (declaredBelow rest) := by
  rw [declaredBelow, if_neg (by simp [single])] at embeds
  have after := embeds.right
  rw [Declarations.structs, Declarations.fields, Declarations.select_below,
    Declarations.select_below, List.length_map, List.length_map] at after
  exact ⟨embeds.left.inside, after⟩

end Embeds

/-- The struct with this id is the one around the struct that the names lead to. The root
has none around it. -/
inductive Around (t : Schema) : List String → Schema → Option StructId → Prop where
  | root {s : Schema} : Around t [] s none
  | child {front : List String} {id : StructId} {s child : Schema} :
      t.Declares front (.struct id s) → child ∈ s.children →
      Around t (front ++ [child.name]) child (some id)

/-- The struct of the layout is tied to its parent, and to its children and fields in the
order of their declaration. A list struct is a leaf. -/
structure TiesStruct (t : Schema) (names : List String) (c : Schema) (x : StructLayout) :
    Prop where
  parent : t.Around names c x.parent
  children : List.Forall₂ (fun child id => t.Declares (names ++ [child.name]) (.struct id child))
    (if c.flags.list then [] else c.children) x.children
  fields : List.Forall₂ (fun f id => t.Declares (names ++ [f.name]) (.field id f))
    (if c.flags.list then [] else c.fields) x.fields

/-- The field of the layout is tied to the struct that declares it. -/
def TiesField (t : Schema) (names : List String) (f : Field) (x : FieldLayout) : Prop :=
  ∃ front c, names = front ++ [f.name] ∧ t.Declares front (.struct x.owner c) ∧ f ∈ c.fields

/-- All structs and fields of the part are declared and tied. -/
structure Ties (t : Schema) (p : Part) : Prop where
  structs : ∀ x ∈ p.structs, ∃ names c, t.Declares names (.struct x.id c) ∧ t.TiesStruct names c x
  fields : ∀ x ∈ p.fields, ∃ names f, t.Declares names (.field x.id f) ∧ t.TiesField names f x

theorem Ties.append {p q : Part} (first : t.Ties p) (second : t.Ties q) : t.Ties (p ++ q) where
  structs := List.forall_mem_append.mpr ⟨first.structs, second.structs⟩
  fields := List.forall_mem_append.mpr ⟨first.fields, second.fields⟩

end Schema

namespace LayoutRules

open Schema

variable {r : LayoutRules}

theorem length_own {place : Place} {counts : Counts} {s : Schema} {union : Bool} {own : OwnFields}
    (step : PlacesOwn r place counts s union own) : own.fields.length = s.fields.length := by
  simpa using congrArg List.length (sketch_own step)

theorem Sketches.length_structs {path : String} {ds : Declarations} {p : Part}
    (sketches : r.Sketches path ds p) : p.structs.length = ds.structs.length := by
  simpa using congrArg List.length sketches.structs

theorem Sketches.length_fields {path : String} {ds : Declarations} {p : Part}
    (sketches : r.Sketches path ds p) : p.fields.length = ds.fields.length := by
  simpa using congrArg List.length sketches.fields

/-- The own fields of a struct are tied, and the struct to them. -/
theorem ties_own {t : Schema} {front : List String} {place : Place} {counts : Counts} {s : Schema}
    {own : OwnFields}
    (ownOk : PlacesOwn r place counts { s with flags := place.flagsOf s } s.flags.union own)
    (embeds : t.Embeds front counts.structs counts.fields s.declared) (inner : Children)
    (stride : UInt64) :
    (∀ x ∈ own.fields, ∃ names f, t.Declares names (.field x.id f) ∧ t.TiesField names f x) ∧
    List.Forall₂ (fun f id => t.Declares (front ++ [f.name]) (.field id f)) s.fields
      (placed place counts s own inner stride).fields := by
  have length := length_own ownOk
  dsimp only at length
  have declared (i : Nat) (x : FieldLayout) (found : own.fields[i]? = some x) :
      ∃ f, s.fields[i]? = some f ∧ t.Declares (front ++ [f.name]) (.field x.id f) := by
    have bound : i < s.fields.length := length ▸ (List.getElem?_eq_some_iff.mp found).1
    refine ⟨_, List.getElem?_eq_getElem bound, ?_⟩
    rw [fieldIds_placesOwn ownOk i x found]
    exact embeds.ownField (List.getElem?_eq_getElem bound)
  constructor
  · intro x member
    obtain ⟨i, found⟩ := List.mem_iff_getElem?.mp member
    obtain ⟨f, field, here⟩ := declared i x found
    have owns : (placed place counts s own inner stride).Owns x := owns_placed ownOk member
    refine ⟨_, f, here, front, s, rfl, ?_, List.mem_of_getElem? field⟩
    rw [owns.owner]
    exact embeds.here
  · refine List.forall₂_iff_get.mpr ⟨by simp [placed, length], fun i bound bound' => ?_⟩
    have inside : i < own.fields.length := length ▸ bound
    obtain ⟨f, field, here⟩ := declared i _ (List.getElem?_eq_getElem inside)
    cases field.symm.trans (List.getElem?_eq_getElem bound)
    simpa [placed] using here

theorem placement_ties (r : LayoutRules) (t : Schema) :
    (∀ s place counts part stride, r.placeStruct place counts s = .ok (part, stride) →
      s.flags.list = false → place.flagsOf s = s.flags → ∀ front,
      t.Embeds front counts.structs counts.fields s.declared → t.Around front s place.parent →
      t.Ties part) ∧
    (∀ children below cursor counts result,
      r.placeChildren below cursor counts children = .ok result →
      ∀ front s id, below.parent = some id → t.Declares front (.struct id s) →
      (∀ child ∈ children, child ∈ s.children) →
      t.Embeds front counts.structs counts.fields (declaredBelow children) →
      t.Ties result.part ∧
        List.Forall₂ (fun child id => t.Declares (front ++ [child.name]) (.struct id child))
          children result.ids) := by
  refine placement_induction r
    (P := fun place counts s part _ => s.flags.list = false → place.flagsOf s = s.flags →
      ∀ front, t.Embeds front counts.structs counts.fields s.declared →
      t.Around front s place.parent → t.Ties part)
    (Q := fun below _ counts children result => ∀ front s id, below.parent = some id →
      t.Declares front (.struct id s) → (∀ child ∈ children, child ∈ s.children) →
      t.Embeds front counts.structs counts.fields (declaredBelow children) →
      t.Ties result.part ∧
        List.Forall₂ (fun child id => t.Declares (front ++ [child.name]) (.struct id child))
          children result.ids)
    ?struct ?none ?list ?optional ?plain
  case struct =>
    intro place counts s own inner stride _ ownOk ih _ single flags front embeds around
    obtain ⟨fields, ids⟩ := ties_own ownOk embeds inner stride
    have length := length_own ownOk
    obtain ⟨ties, children⟩ := ih front s counts.structs rfl embeds.here (fun _ => id) (by
      rw [countsBelow, length]
      exact embeds.children)
    refine Ties.append ⟨List.forall_mem_singleton.mpr ⟨front, s, embeds.here, around, ?_, ?_⟩,
      fields⟩ ties
    · rw [single]
      exact children
    · rw [single]
      exact ids
  case none =>
    intro below cursor counts front s id _ _ _ _
    exact ⟨⟨by simp, by simp⟩, .nil⟩
  case list =>
    intro below cursor counts child rest inner stride others list _ _ ih front s id parent
      declares members embeds
    obtain ⟨member, others⟩ := List.forall_mem_cons.mp members
    rw [declaredBelow, if_pos list] at embeds
    have here : t.Declares (front ++ [child.name]) (.struct counts.structs child) := by
      simpa using embeds.left.inside.struct 0 [] child rfl
    obtain ⟨ties, ids⟩ := ih front s id parent declares others embeds.right
    refine ⟨Ties.append ⟨List.forall_mem_singleton.mpr ⟨_, child, here, ?_, ?_, ?_⟩, by simp⟩ ties,
      .cons here ids⟩
    · rw [placedList, parent]
      exact .child declares member
    · rw [list]
      exact .nil
    · rw [list]
      exact .nil
  case optional =>
    intro below cursor counts child rest slot inner stride others single _ _ _ ok first ih front s
      id
      parent declares members embeds
    obtain ⟨member, others⟩ := List.forall_mem_cons.mp members
    obtain ⟨inside, after⟩ := embeds.child single
    have flags : (below.optional cursor counts.segments child).flagsOf child = child.flags :=
      Place.flagsOf_child (by rw [Place.optional, parent]; rfl) child
    have sketches := (placement_sketch r).1 _ _ _ _ _ ok single flags
    have ties := first single flags _ inside (by
      rw [Place.optional, parent]
      exact .child declares member)
    rw [← sketches.length_structs, ← sketches.length_fields] at after
    obtain ⟨more, ids⟩ := ih front s id parent declares others after
    exact ⟨Ties.append ⟨ties.structs, ties.fields⟩ more, .cons inside.here ids⟩
  case plain =>
    intro below cursor counts child rest part stride others single _ ok _ first ih front s id
      parent declares members embeds
    obtain ⟨member, others⟩ := List.forall_mem_cons.mp members
    obtain ⟨inside, after⟩ := embeds.child single
    have flags : (below.child cursor child).flagsOf child = child.flags :=
      Place.flagsOf_child (by rw [Place.child, parent]; rfl) child
    have sketches := (placement_sketch r).1 _ _ _ _ _ ok single flags
    have ties := first single flags _ inside (by
      rw [Place.child, parent]
      exact .child declares member)
    rw [← sketches.length_structs, ← sketches.length_fields] at after
    obtain ⟨more, ids⟩ := ih front s id parent declares others after
    exact ⟨Ties.append ties more, .cons inside.here ids⟩

end LayoutRules

/-- What a struct adds to the chain of the struct that it is in. -/
def StructLayout.link (x : StructLayout) : List StructId :=
  if x.flags.optional && !x.isList then [x.id] else []

/-- The chain of the struct goes on from one at its parent. -/
structure StructLayout.Chained (x : StructLayout) (parent : Option StructId)
    (chain : List StructId) : Prop where
  parent : x.parent = parent
  chain : x.chain = chain ++ x.link

/-- In a part at the place, a presence bit is set exactly for the optional structs, and
chains grow with them from the outside in. -/
structure Layout.Part.Chains (p : Part) (place : Place) : Prop where
  presence : ∀ x ∈ p.structs,
    x.presence.isSome = (x.flags.optional && !x.isList && x.parent.isSome)
  chain : ∀ x ∈ p.structs, x.Chained place.parent place.chain ∨
    ∃ y ∈ p.structs, x.Chained (some y.id) y.chain

namespace Layout.Part.Chains

variable {p q : Part} {place place' : Place}

theorem append (first : p.Chains place) (second : q.Chains place) : (p ++ q).Chains place where
  presence := List.forall_mem_append.mpr ⟨first.presence, second.presence⟩
  chain := by
    refine List.forall_mem_append.mpr ⟨fun x member => ?_, fun x member => ?_⟩
    · exact (first.chain x member).imp_right fun ⟨y, inside, chained⟩ =>
        ⟨y, List.mem_append_left _ inside, chained⟩
    · exact (second.chain x member).imp_right fun ⟨y, inside, chained⟩ =>
        ⟨y, List.mem_append_right _ inside, chained⟩

/-- Paths, offsets and segments do not matter. -/
theorem congr (chains : p.Chains place) (structs : q.structs = p.structs)
    (parent : place'.parent = place.parent) (chain : place'.chain = place.chain) :
    q.Chains place' := by
  refine ⟨?_, ?_⟩
  · rw [structs]
    exact chains.presence
  · rw [structs, parent, chain]
    exact chains.chain

end Layout.Part.Chains

namespace LayoutRules

theorem placement_chains (r : LayoutRules) :
    (∀ s place counts part stride, r.placeStruct place counts s = .ok (part, stride) →
      place.presence.isSome = (place.flagsOf s).optional → part.Chains place) ∧
    (∀ children below cursor counts result,
      r.placeChildren below cursor counts children = .ok result → below.parent.isSome →
      below.presence = none → result.part.Chains below) := by
  refine placement_induction r
    (P := fun place _ s part _ => place.presence.isSome = (place.flagsOf s).optional →
      part.Chains place)
    (Q := fun below _ _ _ result => below.parent.isSome → below.presence = none →
      result.part.Chains below)
    ?struct ?none ?list ?optional ?plain
  case struct =>
    intro place counts s own inner stride _ _ ih _ presence
    have below := ih rfl rfl
    generalize top : placed place counts s own inner stride = x
    have single : x.isList = false := by
      rw [← top]
      rfl
    have chain : x.chain = place.chain ++ x.link := by
      rw [StructLayout.link, single, ← top]
      simp only [placed, Place.chainOf, Bool.not_false, Bool.and_true]
      split <;> simp
    refine ⟨List.forall_mem_cons.mpr ⟨?_, below.presence⟩,
      List.forall_mem_cons.mpr ⟨.inl ⟨?_, chain⟩, fun y member => ?_⟩⟩
    · rw [single, ← top, Bool.not_false, Bool.and_true]
      change place.presence.isSome = ((place.flagsOf s).optional && place.parent.isSome)
      rw [presence, Place.flagsOf]
      cases place.parent <;> simp
    · rw [← top]
      rfl
    · rcases below.chain y member with chained | ⟨z, inside, chained⟩
      · refine .inr ⟨x, List.mem_cons_self, ?_⟩
        rw [← top]
        exact chained
      · exact .inr ⟨z, List.mem_cons_of_mem _ inside, chained⟩
  case none =>
    intro _ _ _ _ _
    exact ⟨by simp, by simp⟩
  case list =>
    intro below cursor counts child rest inner stride others _ _ _ ih some none
    refine Part.Chains.append ⟨?_, ?_⟩ (ih some none)
    · exact List.forall_mem_singleton.mpr (by simp [placedList, StructLayout.isList])
    · refine List.forall_mem_singleton.mpr (.inl ⟨rfl, ?_⟩)
      simp [placedList, StructLayout.link, StructLayout.isList]
  case optional =>
    intro below cursor counts child rest slot inner stride others _ optional _ _ _ first ih some
      none
    have flags : (below.optional cursor counts.segments child).flagsOf child = child.flags :=
      Place.flagsOf_child some child
    have chains := first (by
      rw [flags, optional]
      rfl)
    exact Part.Chains.append (chains.congr rfl rfl rfl) (ih some none)
  case plain =>
    intro below cursor counts child rest part stride others _ single _ _ first ih some none
    have flags : (below.child cursor child).flagsOf child = child.flags :=
      Place.flagsOf_child some child
    have chains := first (by
      rw [flags, single, Place.child, none]
      rfl)
    exact Part.Chains.append (chains.congr rfl rfl rfl) (ih some none)

end LayoutRules

namespace Layout

variable {l : Layout} {id : StructId} {x : StructLayout}

theorem optionalsAbove_root (numbered : l.Numbered) (found : l.struct? id = some x)
    (top : x.parent = none) : l.optionalsAbove id = x.link := by
  have optional : l.isOptional id = (x.flags.optional && !x.isList) := by
    rw [isOptional, found, Option.any_some]
  rw [optionalsAbove, ancestors_root found top, StructLayout.link, numbered.structs id x found,
    List.filter_cons, optional]
  split <;> rfl

/-- Chains that grow from the outside in list the optional structs above. -/
theorem Numbered.chain_eq (numbered : l.Numbered)
    (chains : ∀ x ∈ l.structs, x.Chained none [] ∨ ∃ y ∈ l.structs, x.Chained (some y.id) y.chain)
    (found : l.struct? id = some x) : x.chain = l.optionalsAbove id := by
  induction id using Nat.strong_induction_on generalizing x with
  | _ id ih =>
    rcases chains x (List.mem_of_getElem? found) with chained | ⟨y, inside, chained⟩
    · rw [optionalsAbove_root numbered found chained.parent, chained.chain, List.nil_append]
    · obtain ⟨i, here⟩ := List.mem_iff_getElem?.mp inside
      have number := numbered.structs i y here
      have later := numbered.later id x found y.id chained.parent
      rw [number] at later
      rw [chained.chain, ih i later here, StructLayout.link, numbered.structs id x found,
        optionalsAbove_child found chained.parent (number ▸ later), number]

mutual

/-- The number of fields in the layout and in the layouts of all list elements. -/
def totalFieldCount : Layout → Nat
  | { structs, fields, .. } => fields.length + elementFieldCount structs

/-- The number of fields in the layouts of the elements of list structs. -/
def elementFieldCount : List StructLayout → Nat
  | [] => 0
  | { element := none, .. } :: rest => elementFieldCount rest
  | { element := some element, .. } :: rest => element.totalFieldCount + elementFieldCount rest

end

theorem elementFieldCount_cons (x : StructLayout) (rest : List StructLayout) :
    elementFieldCount (x :: rest) =
      (x.element.map totalFieldCount).getD 0 + elementFieldCount rest := by
  obtain ⟨id, name, path, parent, flags, segment, offset, stride, presence, chain, union, children,
    fields, element⟩ := x
  cases element with
  | none => rw [elementFieldCount, Option.map_none, Option.getD_none, Nat.zero_add]
  | some element => rw [elementFieldCount, Option.map_some, Option.getD_some]

theorem elementFieldCount_append (xs ys : List StructLayout) :
    elementFieldCount (xs ++ ys) = elementFieldCount xs + elementFieldCount ys := by
  induction xs with
  | nil => simp [elementFieldCount]
  | cons x rest ih =>
    rw [List.cons_append, elementFieldCount_cons, ih, elementFieldCount_cons, Nat.add_assoc]

/-- The number of fields in a part and in the layouts of its list elements. -/
def Part.totalFieldCount (p : Part) : Nat := p.fields.length + elementFieldCount p.structs

theorem Part.totalFieldCount_append (p q : Part) :
    (p ++ q).totalFieldCount = p.totalFieldCount + q.totalFieldCount := by
  simp only [Part.totalFieldCount, Part.fields_append, Part.structs_append, List.length_append,
    elementFieldCount_append]
  omega

theorem totalFieldCount_toLayout (p : Part) (strategy : String) (stride : UInt64) :
    (p.toLayout strategy stride).totalFieldCount = p.totalFieldCount := by
  rw [Part.toLayout, totalFieldCount]
  rfl

end Layout

namespace LayoutRules

/-- No field gets lost, and none is placed twice. -/
theorem placement_total (r : LayoutRules) :
    (∀ s place counts part stride, r.placeStruct place counts s = .ok (part, stride) →
      part.totalFieldCount = s.totalFieldCount) ∧
    (∀ children below cursor counts result,
      r.placeChildren below cursor counts children = .ok result →
      result.part.totalFieldCount = Schema.totalFieldCounts children) := by
  refine placement_induction r
    (P := fun _ _ s part _ => part.totalFieldCount = s.totalFieldCount)
    (Q := fun _ _ _ children result =>
      result.part.totalFieldCount = Schema.totalFieldCounts children)
    ?struct ?none ?list ?optional ?plain
  case struct =>
    intro place counts s own inner stride _ ownOk ih _
    have length := length_own ownOk
    dsimp only at length
    rw [Part.totalFieldCount_append, ih, Part.totalFieldCount, length, elementFieldCount_cons]
    obtain ⟨name, fields, children, flags⟩ := s
    rw [Schema.totalFieldCount]
    rfl
  case none =>
    intro _ _ _
    rw [Schema.totalFieldCounts]
    rfl
  case list =>
    intro below cursor counts child rest inner stride others _ _ first ih
    rw [Part.totalFieldCount_append, ih, Part.totalFieldCount, elementFieldCount_cons, placedList,
      Option.map_some, Option.getD_some, totalFieldCount_toLayout, first, Schema.totalFieldCounts,
      elementFieldCount, List.length_nil, Nat.zero_add, Nat.add_zero]
  case optional =>
    intro below cursor counts child rest slot inner stride others _ _ _ _ _ first ih
    rw [Part.totalFieldCount_append, ih, Schema.totalFieldCounts, ← first]
    rfl
  case plain =>
    intro below cursor counts child rest part stride others _ _ _ _ first ih
    rw [Part.totalFieldCount_append, ih, Schema.totalFieldCounts, first]

section Declared

variable {r : LayoutRules} {s c : Schema} {f : Field} {l : Layout} {names : List String} {id : Nat}

theorem ties_layout (ok : r.layout s = .ok l) :
    s.Ties { structs := l.structs, fields := l.fields } := by
  obtain ⟨single, flags⟩ := root_of_layout ok
  obtain ⟨-, part, stride, placed, rfl⟩ := layout_eq_ok.mp ok
  have ties := (placement_ties r s).1 _ _ _ _ _ placed single flags [] (.refl s) .root
  exact ⟨ties.structs, ties.fields⟩

/-- What a struct of the layout declares, with the names that lead to it. -/
theorem declared_struct (ok : r.layout s = .ok l) {x : StructLayout}
    (found : l.struct? id = some x) : ∃ names c, s.Declares names (.struct id c) ∧
      s.TiesStruct names c x ∧ x.sketch = r.sketchStruct "" (names, c) := by
  obtain ⟨names, c, declares, tied⟩ := (ties_layout ok).structs x (List.mem_of_getElem? found)
  rw [(LaidOut.root ok).numbered.structs id x found] at declares
  obtain ⟨y, here, sketch⟩ := struct?_of_declares ok declares
  cases found.symm.trans here
  exact ⟨names, c, declares, tied, sketch⟩

theorem struct_of_declares (ok : r.layout s = .ok l) (declares : s.Declares names (.struct id c)) :
    ∃ x, l.struct? id = some x ∧ s.TiesStruct names c x ∧
      x.sketch = r.sketchStruct "" (names, c) := by
  obtain ⟨x, found, -⟩ := struct?_of_declares ok declares
  obtain ⟨names', c', declares', tied, sketch⟩ := declared_struct ok found
  cases declares.symm.trans declares'
  exact ⟨x, found, tied, sketch⟩

theorem declared_field (ok : r.layout s = .ok l) {x : FieldLayout}
    (found : l.field? id = some x) : ∃ names f, s.Declares names (.field id f) ∧
      s.TiesField names f x ∧ x.sketch = sketchField "" (names, f) := by
  obtain ⟨names, f, declares, tied⟩ := (ties_layout ok).fields x (List.mem_of_getElem? found)
  rw [(LaidOut.root ok).numbered.fields id x found] at declares
  obtain ⟨y, here, sketch⟩ := getElem?_of_map_eq (sketch_layout ok).2 declares
  cases found.symm.trans here
  exact ⟨names, f, declares, tied, sketch⟩

theorem field_of_declares (ok : r.layout s = .ok l) (declares : s.Declares names (.field id f)) :
    ∃ x, l.field? id = some x ∧ s.TiesField names f x ∧
      x.sketch = sketchField "" (names, f) := by
  obtain ⟨x, found, -⟩ := getElem?_of_map_eq (sketch_layout ok).2 declares
  obtain ⟨names', f', declares', tied, sketch⟩ := declared_field ok found
  cases declares.symm.trans declares'
  exact ⟨x, found, tied, sketch⟩

theorem isList_of_sketch {x : StructLayout} (sketch : x.sketch = r.sketchStruct "" (names, c)) :
    x.isList = c.flags.list := by
  have isSome := congrArg (fun y => y.element.isSome) sketch
  simp only [StructLayout.sketch, sketchStruct, elementOf, Option.isSome_map] at isSome
  rw [StructLayout.isList, isSome]
  cases c.flags.list <;> rfl

theorem chains_layout (ok : r.layout s = .ok l) :
    ({ structs := l.structs } : Part).Chains .root := by
  obtain ⟨-, part, stride, placed, rfl⟩ := layout_eq_ok.mp ok
  have chains := (placement_chains r).1 _ _ _ _ _ placed rfl
  exact chains.congr rfl rfl rfl

end Declared

/-- The layout has the declared struct, as a leaf with the layout of its own body if it is
a list. -/
structure FlatStruct (r : LayoutRules) (s : Schema) (l : Layout) (names : List String)
    (id : StructId) (c : Schema) (x : StructLayout) : Prop where
  number : x.id = id
  name : x.name = c.name
  path : x.path = pathBelow "" names
  flags : x.flags = c.flags
  tied : s.TiesStruct names c x
  later : ∀ parent, x.parent = some parent → parent < id
  element : x.element.map .ok = if c.flags.list then some (r.layout c.asRoot) else none
  chain : x.chain = l.optionalsAbove id
  presence : x.presence.isSome = (c.flags.optional && !c.flags.list && x.parent.isSome)

/-- The layout has the declared field in the struct that declares it. -/
structure FlatField (s : Schema) (names : List String) (id : FieldId) (f : Field)
    (x : FieldLayout) : Prop where
  number : x.id = id
  name : x.name = f.name
  path : x.path = pathBelow "" names
  type : x.type = f.type
  tied : s.TiesField names f x

/-- The layout holds what the definition declares, each struct and field at the position
of its declaration, and nothing else. -/
structure Flattens (r : LayoutRules) (s : Schema) (l : Layout) : Prop where
  structs : l.structs.length = s.declared.structs.length
  fields : l.fields.length = s.declared.fields.length
  struct : ∀ names id c, s.Declares names (.struct id c) →
    ∃ x, l.struct? id = some x ∧ r.FlatStruct s l names id c x
  field : ∀ names id f, s.Declares names (.field id f) →
    ∃ x, l.field? id = some x ∧ FlatField s names id f x
  total : l.totalFieldCount = s.totalFieldCount

/-- A layout is its definition, flattened. The layouts of list elements are layouts of
definitions again, so the same holds of them. -/
theorem layout_flattens {r : LayoutRules} {s : Schema} {l : Layout} (ok : r.layout s = .ok l) :
    r.Flattens s l := by
  obtain ⟨structs, fields⟩ := sketch_layout ok
  have numbered := (LaidOut.root ok).numbered
  have chains := chains_layout ok
  refine ⟨?_, ?_, fun names id c declares => ?_, fun names id f declares => ?_, ?_⟩
  · simpa using congrArg List.length structs
  · simpa using congrArg List.length fields
  · obtain ⟨x, found, tied, sketch⟩ := struct_of_declares ok declares
    have kept : x.flags = c.flags := congrArg StructSketch.flags sketch
    refine ⟨x, found, numbered.structs id x found, congrArg StructSketch.name sketch,
      congrArg StructSketch.path sketch, kept, tied, numbered.later id x found,
      congrArg StructSketch.element sketch, numbered.chain_eq chains.chain found, ?_⟩
    rw [chains.presence x (List.mem_of_getElem? found), isList_of_sketch sketch, kept]
  · obtain ⟨x, found, tied, sketch⟩ := field_of_declares ok declares
    exact ⟨x, found, numbered.fields id x found, congrArg FieldSketch.name sketch,
      congrArg FieldSketch.path sketch, congrArg FieldSketch.type sketch, tied⟩
  · obtain ⟨-, part, stride, placed, rfl⟩ := layout_eq_ok.mp ok
    rw [totalFieldCount_toLayout]
    exact (placement_total r).1 _ _ _ _ _ placed

/-- The lines of an order are a leaf, and the sixth field is in the layout that they carry. -/
theorem layout_flattens_order :
    LayoutRules.layout { strategy := .aligned .bits8 } order = .ok orderLayout ∧
      Flattens { strategy := .aligned .bits8 } order orderLayout ∧
      orderLayout.fields.length = 5 ∧ orderLayout.totalFieldCount = 6 := by
  have ok : LayoutRules.layout { strategy := .aligned .bits8 } order = .ok orderLayout := rfl
  have flattens := layout_flattens ok
  exact ⟨ok, flattens, flattens.fields, flattens.total⟩

end LayoutRules

end BitRecords
