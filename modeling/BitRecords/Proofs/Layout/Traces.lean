import BitRecords.Proofs.Layout.Names
import BitRecords.Proofs.Layout.Outline

/-!
# What a fingerprint tells of a schema

A fingerprint has the paths and flags of the structs, the paths and types of the
fields and the fingerprints of list elements, in depth-first order. The schema can
be read off these traces, all but the name of the root: a path tells below which
child it lies, so the traces of one child can be told from those of the others.
-/

namespace BitRecords

open Layout

/-- What a fingerprint tells of a struct apart from places. -/
structure StructTrace where
  path : String
  flags : Flags
  element : Option Fingerprint

/-- What a fingerprint tells of a field apart from places. -/
structure FieldTrace where
  path : String
  type : FieldType

def StructLayout.trace (s : StructLayout) : StructTrace :=
  ⟨s.path, s.flags, s.element.map fingerprint⟩

def FieldLayout.trace (f : FieldLayout) : FieldTrace := ⟨f.path, f.type⟩

namespace LayoutRules

/-- The outlines of the own fields of a struct. The members of a union are
counted from one. -/
def ownOutlines (path : String) (owner : StructId) (first : FieldId) (union : Bool)
    (fields : List Field) : List FieldOutline :=
  fields.mapIdx fun i f =>
    ⟨first + i, f.name, joinPath path f.name, owner, f.type, if union then some (i + 1) else none⟩

variable {r : LayoutRules}

theorem outlines_placeFields {place : Place} {owner : StructId} {id : FieldId}
    {cursor finish : UInt64} {fields : List Field} {placed : List FieldLayout}
    (ok : r.placeFields place owner id cursor fields = .ok (placed, finish)) :
    placed.map (·.outline) = ownOutlines place.path owner id false fields := by
  induction fields generalizing id cursor placed with
  | nil =>
    cases ok
    rfl
  | cons f rest ih =>
    obtain ⟨slot, others, -, -, othersOk, rfl⟩ := placeFields_cons_eq_ok.mp ok
    rw [List.map_cons, ih othersOk, ownOutlines, ownOutlines, List.mapIdx_cons]
    simp [FieldLayout.outline, placedField, Nat.add_comm, Nat.add_left_comm]

/-- The outlines do not depend on the rules. -/
theorem outlines_own {place : Place} {counts : Counts} {s : Schema} {union : Bool}
    {own : OwnFields} (step : PlacesOwn r place counts s union own) :
    own.fields.map (·.outline) =
      ownOutlines place.path counts.structs counts.fields union s.fields := by
  cases step with
  | plain ok => exact outlines_placeFields ok
  | union =>
    refine List.ext_getElem? fun i => ?_
    simp only [List.getElem?_map, getElem?_placeMembers, ownOutlines, List.getElem?_mapIdx]
    cases s.fields[i]? with
    | none => rfl
    | some f => simp [FieldLayout.outline, Nat.add_comm]

theorem traces_own {place : Place} {counts : Counts} {s : Schema} {union : Bool}
    {own : OwnFields} (step : PlacesOwn r place counts s union own) :
    own.fields.map (·.trace) = s.fields.map fun f => ⟨joinPath place.path f.name, f.type⟩ := by
  refine List.ext_getElem? fun i => ?_
  have outline := congrArg (fun outlines => (outlines[i]?).map fun o => FieldTrace.mk o.path o.type)
    (outlines_own step)
  simp only [ownOutlines, List.getElem?_map, List.getElem?_mapIdx, Option.map_map,
    Function.comp_def] at outline ⊢
  exact outline

end LayoutRules

/-- All structs of the part are at one of the starts or below it, and all fields
are below one. -/
structure Layout.Part.Below (p : Part) (starts : List (List (List Char))) : Prop where
  structs : ∀ s ∈ p.structs, ∃ start ∈ starts, start <+: pathNames s.path
  fields : ∀ f ∈ p.fields, ∃ start ∈ starts, ∃ name, start ++ [name] <+: pathNames f.path

namespace Layout.Part.Below

variable {p q : Part} {starts others : List (List (List Char))}

theorem mono (below : p.Below starts) (more : starts ⊆ others) : p.Below others := by
  constructor
  · intro s member
    obtain ⟨start, inside, before⟩ := below.structs s member
    exact ⟨start, more inside, before⟩
  · intro f member
    obtain ⟨start, inside, before⟩ := below.fields f member
    exact ⟨start, more inside, before⟩

theorem append (first : p.Below starts) (second : q.Below others) :
    (p ++ q).Below (starts ++ others) := by
  have first := first.mono (List.subset_append_left starts others)
  have second := second.mono (List.subset_append_right starts others)
  exact ⟨fun s member => (List.mem_append.mp member).elim (first.structs s) (second.structs s),
    fun f member => (List.mem_append.mp member).elim (first.fields f) (second.fields f)⟩

/-- Paths below a child are below its parent. -/
theorem shorten {names : List (List Char)} (below : p.Below starts)
    (longer : ∀ start ∈ starts, ∃ name, start = names ++ [name]) : p.Below [names] := by
  constructor
  · intro s member
    obtain ⟨start, inside, before⟩ := below.structs s member
    obtain ⟨name, rfl⟩ := longer start inside
    exact ⟨names, List.mem_singleton_self _, (List.prefix_append _ _).trans before⟩
  · intro f member
    obtain ⟨start, inside, deeper, before⟩ := below.fields f member
    obtain ⟨name, rfl⟩ := longer start inside
    exact ⟨names, List.mem_singleton_self _, name, (List.prefix_append _ _).trans before⟩

end Layout.Part.Below

namespace Schema

/-- Where the paths of a child start. -/
def startBelow (path : String) (child : Schema) : List (List Char) :=
  pathNames path ++ [child.name.toList]

/-- Children with other names are elsewhere. -/
theorem apart_startBelow {path : String} {child other : Schema} (apart : other.name ≠ child.name) :
    (other.startBelow path).length = (child.startBelow path).length ∧
      other.startBelow path ≠ child.startBelow path := by
  refine ⟨by simp [startBelow], fun same => apart (String.toList_inj.mp ?_)⟩
  simpa [startBelow] using same

/-- Children that have plain names themselves and at every level below. -/
def NamedChild (child : Schema) : Prop := PlainName child.name ∧ ∀ body ∈ child.bodies, body.Named

theorem namedChild {s : Schema} (named : ∀ body ∈ s.bodies, body.Named) :
    ∀ child ∈ s.children, child.NamedChild := fun child member =>
  ⟨(named s (mem_bodies.mpr (.inl rfl))).children child member, fun body below =>
    named body (mem_bodies.mpr (.inr ⟨child, member, below⟩))⟩

end Schema

namespace LayoutRules

variable {r : LayoutRules} {below : Place} {cursor finish : UInt64} {counts : Counts}
variable {child : Schema} {part : Part}

/-- Wherever the struct is placed, its part lies below its path. -/
def LiesBelow (r : LayoutRules) (s : Schema) : Prop :=
  ∀ place counts part stride, r.placeStruct place counts s = .ok (part, stride) →
    part.Below [pathNames place.path]

theorem PlacesChild.partBelow (step : PlacesChild r below cursor counts child part finish)
    (plain : PlainName child.name) (lies : r.LiesBelow child) :
    part.Below [child.startBelow below.path] := by
  have start := pathNames_joinPath plain below.path
  cases step with
  | list _ _ =>
    refine ⟨fun x member => ⟨_, List.mem_singleton_self _, ?_⟩, by simp⟩
    cases List.mem_singleton.mp member
    exact ⟨[], (List.append_nil _).trans start.symm⟩
  | optional _ _ _ _ ok =>
    have inner := lies _ _ _ _ ok
    rw [Place.optional, start] at inner
    exact ⟨inner.structs, inner.fields⟩
  | plain _ _ ok _ =>
    have inner := lies _ _ _ _ ok
    rw [Place.child, start] at inner
    exact inner

theorem below_placeChildren {children : List Schema} {result : Children}
    (each : ∀ child ∈ children, PlainName child.name ∧ r.LiesBelow child)
    (ok : r.placeChildren below cursor counts children = .ok result) :
    result.part.Below (children.map (·.startBelow below.path)) := by
  induction children generalizing cursor counts result with
  | nil =>
    cases placeChildren_nil.mp ok
    exact ⟨by simp, by simp⟩
  | cons child rest ih =>
    obtain ⟨part, finish, others, step, othersOk, rfl⟩ := placesChild_of_cons ok
    obtain ⟨here, each⟩ := List.forall_mem_cons.mp each
    exact (step.partBelow here.1 here.2).append (ih each othersOk)

/-- The own fields of a struct have their names after its path. -/
theorem path_placesOwn {place : Place} {counts : Counts} {s : Schema} {union : Bool}
    {own : OwnFields} (step : PlacesOwn r place counts s union own)
    (plain : ∀ f ∈ s.fields, PlainName f.name) :
    ∀ f ∈ own.fields, ∃ name, PlainName name ∧ f.path = joinPath place.path name := by
  intro f member
  have traced : f.trace ∈ own.fields.map (·.trace) := List.mem_map_of_mem member
  rw [traces_own step] at traced
  obtain ⟨field, declared, same⟩ := List.mem_map.mp traced
  exact ⟨field.name, plain field declared, (congrArg FieldTrace.path same).symm⟩

/-- What is placed for a struct lies below its path. -/
theorem liesBelow {s : Schema} (named : ∀ body ∈ s.bodies, body.Named) : r.LiesBelow s := by
  induction s using Schema.children_induction with
  | step s ih =>
    intro place counts part stride ok
    obtain ⟨own, inner, ownOk, innerOk, -, rfl⟩ := placeStruct_eq_ok.mp ok
    have here := named s (Schema.mem_bodies.mpr (.inl rfl))
    have inside : inner.part.Below [pathNames place.path] := by
      refine (below_placeChildren (fun child member => ?_) innerOk).shorten fun start member => ?_
      · obtain ⟨plain, below⟩ := Schema.namedChild named child member
        exact ⟨plain, ih child member below⟩
      · obtain ⟨child, -, rfl⟩ := List.mem_map.mp member
        exact ⟨_, rfl⟩
    have top : Part.Below
        { structs := [placed place counts s own inner stride], fields := own.fields }
        [pathNames place.path] := by
      constructor
      · intro x member
        cases List.mem_singleton.mp member
        exact ⟨_, List.mem_singleton_self _, List.prefix_rfl⟩
      · intro f member
        obtain ⟨name, plain, path⟩ := path_placesOwn (placesOwn_of_ok ownOk) here.fields f member
        have names := pathNames_joinPath plain place.path
        rw [← path] at names
        exact ⟨_, List.mem_singleton_self _, name.toList, [],
          (List.append_nil _).trans names.symm⟩
    exact (top.append inside).mono (by simp)

theorem below_of_named {children : List Schema} {result : Children}
    (named : ∀ child ∈ children, child.NamedChild)
    (ok : r.placeChildren below cursor counts children = .ok result) :
    result.part.Below (children.map (·.startBelow below.path)) :=
  below_placeChildren (fun child member => (named child member).imp_right liesBelow) ok

end LayoutRules

/-- What two descriptions tell together of the elements of lists. -/
theorem map_eq_of_map_eq {α β γ δ : Type} {f : α → β} {g : α → γ} {h : α → δ}
    (both : ∀ x y, f x = f y → g x = g y → h x = h y) {xs ys : List α}
    (first : xs.map f = ys.map f) (second : xs.map g = ys.map g) : xs.map h = ys.map h := by
  induction xs generalizing ys with
  | nil => simpa using first
  | cons x xs ih =>
    cases ys with
    | nil => simp at first
    | cons y ys =>
      simp only [List.map_cons, List.cons.injEq] at first second ⊢
      exact ⟨both x y first.1 second.1, ih first.2 second.2⟩

theorem StructLayout.traces_eq {xs ys : List StructLayout}
    (marks : xs.map (·.mark) = ys.map (·.mark))
    (elements : xs.map (·.element.map fingerprint) = ys.map (·.element.map fingerprint)) :
    xs.map (·.trace) = ys.map (·.trace) := by
  refine map_eq_of_map_eq (fun x y mark element => ?_) marks elements
  exact congrArg₂ (fun mark => StructTrace.mk (StructMark.path mark) mark.flags) mark element

/-- The parts have the same traces, in the same order. -/
structure Layout.Part.SameTrace (p q : Part) : Prop where
  structs : p.structs.map (·.trace) = q.structs.map (·.trace)
  fields : p.fields.map (·.trace) = q.fields.map (·.trace)

namespace LayoutRules

variable {r r' : LayoutRules} {s s' : Schema} {part part' : Part} {stride stride' : UInt64}

theorem sameTrace_of_fingerprint (placed : r.placeStruct .root .root s = .ok (part, stride))
    (placed' : r'.placeStruct .root .root s' = .ok (part', stride'))
    (same : (part.toLayout r.strategy.name stride).fingerprint =
      (part'.toLayout r'.strategy.name stride').fingerprint) : part.SameTrace part' := by
  have marks : part.structs.map (·.mark) = part'.structs.map (·.mark) := by
    have marks := congrArg (·.structs) same
    simp only [structs_fingerprint] at marks
    exact marks
  have elements : part.structs.map (·.element.map fingerprint) =
      part'.structs.map (·.element.map fingerprint) :=
    elements_of_fingerprint (flagged_toLayout placed) (flagged_toLayout placed') same
  have fieldMarks : part.fields.map (·.mark) = part'.fields.map (·.mark) := by
    have marks := congrArg (·.fields) same
    simp only [fields_fingerprint] at marks
    exact marks
  have traces (fields : List FieldLayout) : fields.map (·.trace) =
      (fields.map (·.mark)).map fun mark => FieldTrace.mk mark.path mark.type := by
    rw [List.map_map]
    rfl
  exact ⟨StructLayout.traces_eq marks elements, by rw [traces, traces, fieldMarks]⟩

end LayoutRules

theorem append_inj_of_forall {α : Type} {P : α → Prop} {a b a' b' : List α}
    (same : a ++ b = a' ++ b') (left : ∀ x ∈ a, P x) (right : ∀ x ∈ b, ¬ P x)
    (left' : ∀ x ∈ a', P x) (right' : ∀ x ∈ b', ¬ P x) : a = a' ∧ b = b' := by
  rcases List.append_eq_append_iff.mp same with ⟨c, rfl, rfl⟩ | ⟨c, rfl, rfl⟩
  · cases c with
    | nil => simp
    | cons x c =>
      exact absurd (left' x (by simp)) (right x (by simp))
  · cases c with
    | nil => simp
    | cons x c =>
      exact absurd (left x (by simp)) (right' x (by simp))

/-- No path is below two starts of the same length. -/
theorem not_prefix {start other names : List (List Char)} (length : other.length = start.length)
    (apart : other ≠ start) (before : other <+: names) : ¬ start <+: names := fun before' =>
  apart ((List.prefix_of_prefix_length_le before before' length.le).eq_of_length length)

namespace Layout.Part

variable {p q p' q' : Part} {start : List (List Char)} {others others' : List (List (List Char))}

/-- What is below one start is told from what is below the others. -/
theorem SameTrace.split (same : (p ++ q).SameTrace (p' ++ q')) (first : p.Below [start])
    (rest : q.Below others) (first' : p'.Below [start]) (rest' : q'.Below others')
    (apart : ∀ other ∈ others ++ others', other.length = start.length ∧ other ≠ start) :
    p.SameTrace p' ∧ q.SameTrace q' := by
  obtain ⟨structs, fields⟩ := same
  rw [structs_append, structs_append, List.map_append, List.map_append] at structs
  rw [fields_append, fields_append, List.map_append, List.map_append] at fields
  have structHere {p : Part} (below : p.Below [start]) :
      ∀ t ∈ p.structs.map (·.trace), start <+: pathNames t.path := by
    refine List.forall_mem_map.mpr fun s member => ?_
    obtain ⟨_, here, before⟩ := below.structs s member
    exact List.mem_singleton.mp here ▸ before
  have fieldHere {p : Part} (below : p.Below [start]) :
      ∀ t ∈ p.fields.map (·.trace), start <+: pathNames t.path := by
    refine List.forall_mem_map.mpr fun f member => ?_
    obtain ⟨_, here, name, before⟩ := below.fields f member
    exact List.mem_singleton.mp here ▸ (List.prefix_append _ [name]).trans before
  have structElsewhere {p : Part} {starts : List (List (List Char))} (below : p.Below starts)
      (apart : ∀ other ∈ starts, other.length = start.length ∧ other ≠ start) :
      ∀ t ∈ p.structs.map (·.trace), ¬ start <+: pathNames t.path := by
    refine List.forall_mem_map.mpr fun s member => ?_
    obtain ⟨other, inside, before⟩ := below.structs s member
    exact not_prefix (apart other inside).1 (apart other inside).2 before
  have fieldElsewhere {p : Part} {starts : List (List (List Char))} (below : p.Below starts)
      (apart : ∀ other ∈ starts, other.length = start.length ∧ other ≠ start) :
      ∀ t ∈ p.fields.map (·.trace), ¬ start <+: pathNames t.path := by
    refine List.forall_mem_map.mpr fun f member => ?_
    obtain ⟨other, inside, name, before⟩ := below.fields f member
    exact not_prefix (apart other inside).1 (apart other inside).2
      ((List.prefix_append _ [name]).trans before)
  obtain ⟨apart, apart'⟩ := List.forall_mem_append.mp apart
  obtain ⟨structsFirst, structsRest⟩ := append_inj_of_forall structs (structHere first)
    (structElsewhere rest apart) (structHere first') (structElsewhere rest' apart')
  obtain ⟨fieldsFirst, fieldsRest⟩ := append_inj_of_forall fields (fieldHere first)
    (fieldElsewhere rest apart) (fieldHere first') (fieldElsewhere rest' apart')
  exact ⟨⟨structsFirst, fieldsFirst⟩, structsRest, fieldsRest⟩

end Layout.Part

/-- The structs are the same apart from the name and from being a list or optional. -/
structure Schema.SameBody (s s' : Schema) : Prop where
  fields : s'.fields = s.fields
  children : s'.children = s.children
  union : s'.flags.union = s.flags.union

theorem Schema.SameBody.eq {s s' : Schema} (same : s.SameBody s') (name : s'.name = s.name)
    (flags : s'.flags = s.flags) : s' = s := by
  obtain ⟨fields, children, -⟩ := same
  cases s
  cases s'
  simp_all

namespace LayoutRules

variable {r r' : LayoutRules} {below below' : Place} {cursor cursor' finish finish' : UInt64}
variable {counts counts' : Counts} {child child' : Schema} {children children' : List Schema}
variable {part part' : Part}

theorem Place.flagsOf_child {place : Place} (inner : place.parent.isSome) (s : Schema) :
    place.flagsOf s = s.flags := by
  rw [Place.flagsOf, Option.isNone_eq_false_iff.mpr inner, if_neg (by decide)]

/-- The first struct of what is placed for a child is the child. -/
theorem PlacesChild.top (step : PlacesChild r below cursor counts child part finish)
    (inner : below.parent.isSome) : ∃ top rest, part.structs = top :: rest ∧
      top.path = joinPath below.path child.name ∧ top.flags = child.flags := by
  cases step with
  | list _ _ => exact ⟨_, _, rfl, rfl, rfl⟩
  | optional _ _ _ _ ok =>
    obtain ⟨_, _, -, -, -, rfl⟩ := placeStruct_eq_ok.mp ok
    exact ⟨_, _, rfl, rfl, Place.flagsOf_child inner child⟩
  | plain _ _ ok _ =>
    obtain ⟨_, _, -, -, -, rfl⟩ := placeStruct_eq_ok.mp ok
    exact ⟨_, _, rfl, rfl, Place.flagsOf_child inner child⟩

/-- Wherever the struct is placed, its traces tell it from structs with another
body, even if these are placed by other rules. -/
def ToldByTrace (r r' : LayoutRules) (s : Schema) : Prop :=
  ∀ place counts part stride place' counts' s' part' stride',
    r.placeStruct place counts s = .ok (part, stride) →
    r'.placeStruct place' counts' s' = .ok (part', stride') → (∀ body ∈ s'.bodies, body.Named) →
    place'.path = place.path → part'.SameTrace part → s.SameBody s'

theorem PlacesChild.eq_of_sameTrace (step : PlacesChild r below cursor counts child part finish)
    (step' : PlacesChild r' below' cursor' counts' child' part' finish')
    (told : r.ToldByTrace r' child)
    (named : ∀ body ∈ child'.bodies, body.Named) (path : below'.path = below.path)
    (name : child'.name = child.name) (flags : child'.flags = child.flags)
    (same : part'.SameTrace part) : child' = child := by
  refine Schema.SameBody.eq ?_ name flags
  have paths : joinPath below'.path child'.name = joinPath below.path child.name := by
    rw [path, name]
  cases step with
  | list single ok =>
    rw [← flags] at single
    cases step' with
    | list _ ok' =>
      have element := congrArg (fun traces => (traces.head?).bind (·.element)) same.structs
      simp only [StructLayout.trace, placedList] at element
      exact told _ _ _ _ _ _ _ _ _ ok ok' named rfl
        (sameTrace_of_fingerprint ok' ok (Option.some.inj element))
    | optional notList | plain notList => simp [single] at notList
  | optional notList single _ _ ok =>
    rw [← flags] at notList single
    cases step' with
    | list single' => simp [notList] at single'
    | optional _ _ _ _ ok' =>
      exact told _ _ _ _ _ _ _ _ _ ok ok' named paths ⟨same.structs, same.fields⟩
    | plain _ single' => simp [single] at single'
  | plain notList notOptional ok _ =>
    rw [← flags] at notList notOptional
    cases step' with
    | list single' => simp [notList] at single'
    | optional _ single' => simp [notOptional] at single'
    | plain _ _ ok' _ => exact told _ _ _ _ _ _ _ _ _ ok ok' named paths same

theorem children_eq_of_sameTrace {result result' : Children}
    (each : ∀ child ∈ children, r.ToldByTrace r' child)
    (named : ∀ child ∈ children, child.NamedChild) (distinct : (children.map (·.name)).Nodup)
    (named' : ∀ child ∈ children', child.NamedChild) (distinct' : (children'.map (·.name)).Nodup)
    (inner : below.parent.isSome) (inner' : below'.parent.isSome) (path : below'.path = below.path)
    (ok : r.placeChildren below cursor counts children = .ok result)
    (ok' : r'.placeChildren below' cursor' counts' children' = .ok result')
    (same : result'.part.SameTrace result.part) : children' = children := by
  induction children generalizing cursor counts result children' cursor' counts' result' with
  | nil =>
    cases placeChildren_nil.mp ok
    cases children' with
    | nil => rfl
    | cons child' rest' =>
      obtain ⟨part', _, _, step', -, rfl⟩ := placesChild_of_cons ok'
      obtain ⟨top', others', split', -⟩ := step'.top inner'
      have none := congrArg List.length same.structs
      simp [split'] at none
  | cons child rest ih =>
    obtain ⟨part, _, others, step, othersOk, rfl⟩ := placesChild_of_cons ok
    obtain ⟨top, _, split, topPath, topFlags⟩ := step.top inner
    cases children' with
    | nil =>
      cases placeChildren_nil.mp ok'
      have none := congrArg List.length same.structs
      simp [split] at none
    | cons child' rest' =>
      obtain ⟨part', _, others', step', othersOk', rfl⟩ := placesChild_of_cons ok'
      obtain ⟨top', _, split', topPath', topFlags'⟩ := step'.top inner'
      obtain ⟨here, named⟩ := List.forall_mem_cons.mp named
      obtain ⟨here', named'⟩ := List.forall_mem_cons.mp named'
      obtain ⟨told, each⟩ := List.forall_mem_cons.mp each
      obtain ⟨fresh, distinct⟩ := List.nodup_cons.mp distinct
      obtain ⟨fresh', distinct'⟩ := List.nodup_cons.mp distinct'
      have tops : top'.trace = top.trace := by
        have heads := congrArg List.head? same.structs
        simpa [split, split'] using heads
      have flags : child'.flags = child.flags := by
        rw [← topFlags, ← topFlags']
        exact congrArg StructTrace.flags tops
      have start : child'.startBelow below'.path = child.startBelow below.path := by
        have paths : top'.path = top.path := congrArg StructTrace.path tops
        rw [Schema.startBelow, Schema.startBelow, ← pathNames_joinPath here'.1,
          ← pathNames_joinPath here.1, ← topPath, ← topPath', paths]
      have name : child'.name = child.name := by
        rw [Schema.startBelow, Schema.startBelow, path] at start
        exact String.toList_inj.mp (by simpa using start)
      have apart : ∀ other ∈ rest'.map (·.startBelow below'.path) ++
          rest.map (·.startBelow below.path),
          other.length = (child.startBelow below.path).length ∧
            other ≠ child.startBelow below.path := by
        refine List.forall_mem_append.mpr ⟨?_, ?_⟩
        · refine List.forall_mem_map.mpr fun other member => ?_
          rw [path]
          exact Schema.apart_startBelow fun same =>
            fresh' (List.mem_map.mpr ⟨other, member, same.trans name.symm⟩)
        · refine List.forall_mem_map.mpr fun other member => ?_
          exact Schema.apart_startBelow fun same => fresh (List.mem_map.mpr ⟨other, member, same⟩)
      obtain ⟨first, others⟩ := same.split
        (start ▸ step'.partBelow here'.1 (liesBelow here'.2))
        (below_of_named named' othersOk') (step.partBelow here.1 (liesBelow here.2))
        (below_of_named named othersOk) apart
      rw [step.eq_of_sameTrace step' told here'.2 path name flags first,
        ih each named distinct named' distinct' othersOk othersOk' others]

/-- The field that a trace of an own field is of. -/
def fieldOfTrace (t : FieldTrace) : Field :=
  ⟨String.ofList ((pathNames t.path).getLast?.getD []), t.type⟩

theorem map_fieldOfTrace {path : String} {fields : List Field}
    (plain : ∀ f ∈ fields, PlainName f.name) :
    (fields.map fun f => FieldTrace.mk (joinPath path f.name) f.type).map fieldOfTrace =
      fields := by
  rw [List.map_map]
  refine (List.map_congr_left fun f member => ?_).trans (List.map_id fields)
  simp [fieldOfTrace, pathNames_joinPath (plain f member)]

/-- Own fields are one name below their struct. -/
theorem shallow_own {path : String} {own : List FieldLayout} {fields : List Field}
    (plain : ∀ f ∈ fields, PlainName f.name)
    (traced : own.map (·.trace) = fields.map fun f => ⟨joinPath path f.name, f.type⟩) :
    ∀ t ∈ own.map (·.trace), (pathNames t.path).length = (pathNames path).length + 1 := by
  rw [traced]
  refine List.forall_mem_map.mpr fun f member => ?_
  simp [pathNames_joinPath (plain f member)]

/-- The fields of children are further below. -/
theorem deep_children {result : Children} (named : ∀ child ∈ children, child.NamedChild)
    (ok : r.placeChildren below cursor counts children = .ok result) :
    ∀ t ∈ result.part.fields.map (·.trace),
      ¬ (pathNames t.path).length = (pathNames below.path).length + 1 := by
  refine List.forall_mem_map.mpr fun f member => ?_
  obtain ⟨start, starts, name, before⟩ := (below_of_named named ok).fields f member
  obtain ⟨child, -, rfl⟩ := List.mem_map.mp starts
  have longer := before.length_le
  simp only [Schema.startBelow, List.length_append, List.length_singleton] at longer
  change ¬ (pathNames f.path).length = _
  omega

/-- The schema of a struct can be read off its traces, up to its name and flags. -/
theorem toldByTrace {s : Schema} (named : ∀ body ∈ s.bodies, body.Named) :
    r.ToldByTrace r' s := by
  induction s using Schema.children_induction with
  | step s ih =>
    intro place counts part stride place' counts' s' part' stride' ok ok' named' path same
    obtain ⟨own, inner, ownOk, innerOk, -, rfl⟩ := placeStruct_eq_ok.mp ok
    obtain ⟨own', inner', ownOk', innerOk', -, rfl⟩ := placeStruct_eq_ok.mp ok'
    have here := named s (Schema.mem_bodies.mpr (.inl rfl))
    have here' := named' s' (Schema.mem_bodies.mpr (.inl rfl))
    obtain ⟨tops, structs⟩ := List.cons.inj same.structs
    have traced := traces_own (placesOwn_of_ok ownOk)
    have traced' := traces_own (placesOwn_of_ok ownOk')
    have inside := Schema.namedChild named
    have inside' := Schema.namedChild named'
    have below : (place'.below counts'.structs s').path = (place.below counts.structs s).path :=
      path
    have fields := same.fields
    simp only [Part.fields_append, List.map_append] at fields
    have deep := deep_children inside innerOk
    have deep' := deep_children inside' innerOk'
    have shallow' := shallow_own here'.fields traced'
    rw [below] at deep'
    rw [path] at shallow'
    obtain ⟨ownSame, innerSame⟩ := append_inj_of_forall fields shallow' deep'
      (shallow_own here.fields traced) deep
    refine ⟨?_, ?_, ?_⟩
    · have read := congrArg (List.map fieldOfTrace) ownSame
      rwa [traced, traced', map_fieldOfTrace here.fields, map_fieldOfTrace here'.fields] at read
    · exact children_eq_of_sameTrace (fun child member => ih child member (inside child member).2)
        inside here.distinct inside' here'.distinct rfl rfl below innerOk innerOk'
        ⟨structs, innerSame⟩
    · have flags : place'.flagsOf s' = place.flagsOf s := congrArg StructTrace.flags tops
      rw [← Place.union_flagsOf place', flags, Place.union_flagsOf]

end LayoutRules

end BitRecords
