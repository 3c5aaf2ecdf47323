import Mathlib.Data.List.Induction
import BitRecords.Proofs.Layout.Declarations
import BitRecords.Proofs.Layout.Numbering
import BitRecords.Proofs.Layout.Traces

/-!
# Finding what a path denotes

A layout has the structs and fields of its definition in the order of their declarations,
each under the path that its names make, and a list struct has the layout of its elements.
A search tells a path of the layout itself from one that goes on after a list struct. So
it finds a node exactly if the path denotes one, in the layout that the node belongs to.
-/

namespace BitRecords

open Layout

/-- What a definition tells of a struct of its layout. -/
structure StructSketch where
  name : String
  path : String
  flags : Flags
  element : Option (Except Error Layout)

/-- What a definition tells of a field of its layout. -/
structure FieldSketch where
  name : String
  path : String
  type : FieldType

def StructLayout.sketch (s : StructLayout) : StructSketch :=
  ⟨s.name, s.path, s.flags, s.element.map .ok⟩

def FieldLayout.sketch (f : FieldLayout) : FieldSketch := ⟨f.name, f.path, f.type⟩

/-- The path of the names below a path. -/
def pathBelow (path : String) (names : List String) : String := names.foldl joinPath path

theorem pathBelow_root {names : List String} (plain : ∀ name ∈ names, PlainName name) :
    pathBelow "" names = ".".intercalate names := by
  induction names using List.reverseRecOn with
  | nil => rfl
  | append_singleton names name ih =>
    obtain ⟨front, -⟩ := List.forall_mem_append.mp plain
    have step : pathBelow "" (names ++ [name]) = joinPath (pathBelow "" names) name := by
      simp [pathBelow]
    rw [step, ih front]
    by_cases root : names = []
    · subst root
      simp [joinPath]
    · rw [joinPath, if_neg (by simpa using intercalate_ne_empty front root),
        String.intercalate_append_of_ne_nil root (by simp), String.intercalate_singleton]

namespace LayoutRules

variable {r : LayoutRules} {path : String}

/-- What comes of laying out the elements of a list struct. -/
def elementOf (r : LayoutRules) (s : Schema) : Option (Except Error Layout) :=
  if s.flags.list then some (r.layout s.asRoot) else none

def sketchStruct (r : LayoutRules) (path : String) (d : List String × Schema) : StructSketch :=
  ⟨d.2.name, pathBelow path d.1, d.2.flags, r.elementOf d.2⟩

def sketchField (path : String) (d : List String × Field) : FieldSketch :=
  ⟨d.2.name, pathBelow path d.1, d.2.type⟩

/-- The part has the declared structs and fields in order, below the path. -/
structure Sketches (r : LayoutRules) (path : String) (ds : Declarations) (p : Part) : Prop where
  structs : p.structs.map (·.sketch) = ds.structs.map (r.sketchStruct path)
  fields : p.fields.map (·.sketch) = ds.fields.map (sketchField path)

theorem Sketches.append {ds es : Declarations} {p q : Part} (first : r.Sketches path ds p)
    (second : r.Sketches path es q) : r.Sketches path (ds ++ es) (p ++ q) where
  structs := by simp [Declarations.structs_append, first.structs, second.structs]
  fields := by simp [Declarations.fields_append, first.fields, second.fields]

theorem Sketches.below {name : String} {ds : Declarations} {p : Part}
    (sketches : r.Sketches (joinPath path name) ds p) : r.Sketches path (ds.below name) p where
  structs := by
    rw [sketches.structs, Declarations.structs, Declarations.structs, Declarations.select_below,
      List.map_map]
    rfl
  fields := by
    rw [sketches.fields, Declarations.fields, Declarations.fields, Declarations.select_below,
      List.map_map]
    rfl

theorem sketch_own {place : Place} {counts : Counts} {s : Schema} {union : Bool} {own : OwnFields}
    (step : PlacesOwn r place counts s union own) : own.fields.map (·.sketch) =
      s.fields.map fun f => ⟨f.name, joinPath place.path f.name, f.type⟩ := by
  refine List.ext_getElem? fun i => ?_
  have outline := congrArg
    (fun outlines => (outlines[i]?).map fun o => FieldSketch.mk o.name o.path o.type)
    (outlines_own step)
  simp only [ownOutlines, List.getElem?_map, List.getElem?_mapIdx, Option.map_map,
    Function.comp_def] at outline ⊢
  exact outline

theorem placeStruct_asRoot {s : Schema} {part : Part} {stride : UInt64}
    (placed : r.placeStruct .root .root s = .ok (part, stride)) :
    r.layout s.asRoot = .ok (part.toLayout r.strategy.name stride) := by
  obtain ⟨own, inner, ownOk, innerOk, strideOk, rfl⟩ := placeStruct_eq_ok.mp placed
  exact layout_eq_ok.mpr ⟨rfl, _, _, placeStruct_eq_ok.mpr
    ⟨own, inner, ownOk, innerOk, strideOk, rfl⟩, rfl⟩

theorem elementOf_list {s : Schema} {part : Part} {stride : UInt64} (list : s.flags.list = true)
    (placed : r.placeStruct .root .root s = .ok (part, stride)) :
    r.elementOf s = some (.ok (part.toLayout r.strategy.name stride)) := by
  rw [elementOf, if_pos list, placeStruct_asRoot placed]

/-- The own fields of a struct are declared before its children. -/
theorem Sketches.struct {place : Place} {counts : Counts} {s : Schema} {own : OwnFields}
    {inner : Children} {stride : UInt64} {union : Bool}
    (ownOk : PlacesOwn r place counts { s with flags := place.flagsOf s } union own)
    (single : s.flags.list = false) (flags : place.flagsOf s = s.flags)
    (below : r.Sketches place.path (Schema.declaredBelow s.children) inner.part) :
    r.Sketches place.path s.declared
      ({ structs := [placed place counts s own inner stride], fields := own.fields } ++
        inner.part) := by
  have split : s.declared = [([], .struct s)] ++ (s.fields.map (fun f => ([f.name], .field f)) ++
      Schema.declaredBelow s.children) := by
    rw [Schema.declared_eq, Schema.declaredBelow_eq]
    rfl
  rw [split, ← List.append_assoc]
  refine Sketches.append ⟨?_, ?_⟩ below
  · have noStruct : Declarations.structs (s.fields.map fun f => ([f.name], .field f)) = [] := by
      simp [Declarations.structs, Declarations.select, Declaration.struct?]
    have element : r.elementOf s = none := by
      simp [elementOf, single]
    rw [Declarations.structs_append, noStruct, List.append_nil]
    simp [Declarations.structs, Declarations.select, Declaration.struct?, sketchStruct, element,
      StructLayout.sketch, placed, flags, pathBelow]
  · rw [sketch_own ownOk]
    simp [Declarations.fields, Declarations.select, Declaration.field?, sketchField, pathBelow,
      Function.comp_def]

theorem placement_sketch (r : LayoutRules) :
    (∀ s place counts part stride, r.placeStruct place counts s = .ok (part, stride) →
      s.flags.list = false → place.flagsOf s = s.flags → r.Sketches place.path s.declared part) ∧
    (∀ children below cursor counts result,
      r.placeChildren below cursor counts children = .ok result → below.parent.isSome →
      r.Sketches below.path (Schema.declaredBelow children) result.part) := by
  refine placement_induction r
    (P := fun place _ s part _ => s.flags.list = false → place.flagsOf s = s.flags →
      r.Sketches place.path s.declared part)
    (Q := fun below _ _ children result => below.parent.isSome →
      r.Sketches below.path (Schema.declaredBelow children) result.part)
    ?struct ?none ?list ?optional ?plain
  case struct =>
    intro place counts s own inner stride _ ownOk ih _ single flags
    exact .struct ownOk single flags (ih rfl)
  case none =>
    intro below cursor counts _
    exact ⟨rfl, rfl⟩
  case list =>
    intro below cursor counts child rest inner stride others list placed _ ih some
    rw [Schema.declaredBelow, if_pos list]
    refine Sketches.append (Sketches.below ⟨?_, rfl⟩) (ih some)
    simp [Declarations.structs, Declarations.select, Declaration.struct?, sketchStruct, pathBelow,
      StructLayout.sketch, placedList, elementOf_list list placed]
  case optional =>
    intro below cursor counts child rest slot inner stride others single _ _ _ _ first ih some
    have sketches := first single (Place.flagsOf_child some child)
    rw [Schema.declaredBelow, if_neg (by simp [single])]
    exact Sketches.append (Sketches.below ⟨sketches.structs, sketches.fields⟩) (ih some)
  case plain =>
    intro below cursor counts child rest part stride others single _ _ _ first ih some
    rw [Schema.declaredBelow, if_neg (by simp [single])]
    exact Sketches.append (Sketches.below (first single (Place.flagsOf_child some child))) (ih some)

/-- The root of a definition that is laid out is neither a list nor optional. -/
theorem root_of_layout {s : Schema} {l : Layout} (ok : r.layout s = .ok l) :
    s.flags.list = false ∧ Place.root.flagsOf s = s.flags := by
  obtain ⟨checked, -⟩ := layout_eq_ok.mp ok
  obtain ⟨name, fields, children, list, optional, union⟩ := s
  cases list <;> cases optional <;> first | exact ⟨rfl, rfl⟩ | cases checked

theorem sketch_layout {s : Schema} {l : Layout} (ok : r.layout s = .ok l) :
    l.structs.map (·.sketch) = s.declared.structs.map (r.sketchStruct "") ∧
      l.fields.map (·.sketch) = s.declared.fields.map (sketchField "") := by
  obtain ⟨single, flags⟩ := root_of_layout ok
  obtain ⟨-, part, stride, placed, rfl⟩ := layout_eq_ok.mp ok
  obtain ⟨structs, fields⟩ := (placement_sketch r).1 _ _ _ _ _ placed single flags
  exact ⟨structs, fields⟩

end LayoutRules

namespace Layout

def Target.path : Target → String
  | .struct s => s.path
  | .field f => f.path

/-- All that the layout itself has. -/
def targets (l : Layout) : List Target := l.structs.map .struct ++ l.fields.map .field

/-- The layout has the item of its definition as this struct or field. -/
inductive Shows (l : Layout) : Item → Target → Prop where
  | struct {id : StructId} {c : Schema} {x : StructLayout} : l.struct? id = some x → x.id = id →
      x.name = c.name → x.flags = c.flags → Shows l (.struct id c) (.struct x)
  | field {id : FieldId} {f : Field} {x : FieldLayout} : l.field? id = some x → x.id = id →
      x.name = f.name → x.type = f.type → Shows l (.field id f) (.field x)

variable {r : LayoutRules} {s c : Schema} {l : Layout} {names : List String} {item : Item}
variable {t t' : Target} {id : StructId} {path : String}

theorem target?_eq (l : Layout) (path : String) :
    l.target? path = l.targets.find? (·.path == path) := by
  rw [target?, targets, List.find?_append, List.find?_map, List.find?_map]
  show _ = ((l.structs.find? (·.path == path)).map Target.struct).or
    ((l.fields.find? (·.path == path)).map .field)
  cases l.structs.find? (·.path == path) <;> rfl

theorem Shows.mem_targets (shows : l.Shows item t) : t ∈ l.targets := by
  cases shows with
  | struct found => exact List.mem_append_left _ (List.mem_map_of_mem (List.mem_of_getElem? found))
  | field found => exact List.mem_append_right _ (List.mem_map_of_mem (List.mem_of_getElem? found))

theorem Shows.unique (shows : l.Shows item t) (shows' : l.Shows item t') : t = t' := by
  cases shows with
  | struct found =>
    cases shows' with
    | struct found' => rw [Option.some.inj (found.symm.trans found')]
  | field found =>
    cases shows' with
    | field found' => rw [Option.some.inj (found.symm.trans found')]

theorem getElem?_of_map_eq {α β γ : Type} {xs : List α} {ys : List β} {f : α → γ} {g : β → γ}
    (same : xs.map f = ys.map g) {i : Nat} {y : β} (found : ys[i]? = some y) :
    ∃ x, xs[i]? = some x ∧ f x = g y := by
  have here := congrArg (·[i]?) same
  simpa [found] using here

theorem struct?_of_declares (ok : r.layout s = .ok l) (found : s.Declares names (.struct id c)) :
    ∃ x, l.struct? id = some x ∧ x.sketch = r.sketchStruct "" (names, c) :=
  getElem?_of_map_eq (LayoutRules.sketch_layout ok).1 found

theorem element?_of_declares (ok : r.layout s = .ok l) (found : s.Declares names (.struct id c)) :
    (l.element? id).map .ok = r.elementOf c := by
  obtain ⟨x, here, sketch⟩ := struct?_of_declares ok found
  rw [element?, here]
  exact congrArg StructSketch.element sketch

/-- Each list struct has the layout of its elements. -/
theorem element?_of_list (ok : r.layout s = .ok l) (found : s.Declares names (.struct id c))
    (list : c.isList = true) : ∃ e, l.element? id = some e ∧ r.layout c.asRoot = .ok e := by
  have element := element?_of_declares ok found
  rw [LayoutRules.elementOf, if_pos (show c.flags.list = true from list)] at element
  obtain ⟨e, here, same⟩ := Option.map_eq_some_iff.mp element
  exact ⟨e, here, same.symm⟩

/-- Nothing else has a layout of elements. -/
theorem list_of_element? {e : Layout} (ok : r.layout s = .ok l)
    (found : s.Declares names (.struct id c)) (element : l.element? id = some e) :
    c.isList = true ∧ r.layout c.asRoot = .ok e := by
  have same := element?_of_declares ok found
  rw [element, LayoutRules.elementOf] at same
  split at same
  · next list => exact ⟨list, (Option.some.inj same).symm⟩
  · cases same

/-- Each item has a place in the layout, under the path that its names make. -/
theorem shows_of_declares (readable : s.Readable) (ok : r.layout s = .ok l)
    (found : s.Declares names item) : ∃ t, l.Shows item t ∧ t.path = ".".intercalate names := by
  have path := pathBelow_root (readable.spelled.plain (Schema.mem_declared_of_declares found))
  have numbered := (LaidOut.root ok).numbered
  cases item with
  | struct id c =>
    obtain ⟨x, here, sketch⟩ := struct?_of_declares ok found
    exact ⟨.struct x, .struct here (numbered.structs id x here)
      (congrArg StructSketch.name sketch) (congrArg StructSketch.flags sketch),
      (congrArg StructSketch.path sketch).trans path⟩
  | field id f =>
    obtain ⟨x, here, sketch⟩ := getElem?_of_map_eq (LayoutRules.sketch_layout ok).2 found
    exact ⟨.field x, .field here (numbered.fields id x here)
      (congrArg FieldSketch.name sketch) (congrArg FieldSketch.type sketch),
      (congrArg FieldSketch.path sketch).trans path⟩

/-- The layout has nothing else. -/
theorem declares_of_mem (readable : s.Readable) (ok : r.layout s = .ok l) (member : t ∈ l.targets) :
    ∃ names item, s.Declares names item ∧ l.Shows item t := by
  rcases List.mem_append.mp member with member | member
  · obtain ⟨x, inside, rfl⟩ := List.mem_map.mp member
    obtain ⟨id, here⟩ := List.mem_iff_getElem?.mp inside
    obtain ⟨⟨names, c⟩, found, -⟩ :=
      getElem?_of_map_eq (LayoutRules.sketch_layout ok).1.symm here
    have found : s.Declares names (.struct id c) := found
    obtain ⟨t', shows, -⟩ := shows_of_declares readable ok found
    cases shows with
    | struct found' place name flags =>
      cases found'.symm.trans here
      exact ⟨names, _, found, .struct here place name flags⟩
  · obtain ⟨x, inside, rfl⟩ := List.mem_map.mp member
    obtain ⟨id, here⟩ := List.mem_iff_getElem?.mp inside
    obtain ⟨⟨names, f⟩, found, -⟩ :=
      getElem?_of_map_eq (LayoutRules.sketch_layout ok).2.symm here
    have found : s.Declares names (.field id f) := found
    obtain ⟨t', shows, -⟩ := shows_of_declares readable ok found
    cases shows with
    | field found' place name type =>
      cases found'.symm.trans here
      exact ⟨names, _, found, .field here place name type⟩

/-- The layout itself has a path for what its definition declares, and no other. -/
theorem target?_eq_some (readable : s.Readable) (ok : r.layout s = .ok l) :
    l.target? path = some t ↔
      ∃ names item, s.Declares names item ∧ path = ".".intercalate names ∧ l.Shows item t := by
  have known {names : List String} {item : Item} {t : Target} (found : s.Declares names item)
      (shows : l.Shows item t) : t.path = ".".intercalate names := by
    obtain ⟨t', shows', path⟩ := shows_of_declares readable ok found
    rwa [shows.unique shows']
  rw [target?_eq]
  constructor
  · intro search
    obtain ⟨names, item, found, shows⟩ :=
      declares_of_mem readable ok (List.mem_of_find?_eq_some search)
    have here : t.path = path := by simpa using List.find?_some search
    exact ⟨names, item, found, here.symm.trans (known found shows), shows⟩
  · rintro ⟨names, item, found, rfl, shows⟩
    have plain := readable.spelled.plain (Schema.mem_declared_of_declares found)
    cases search : l.targets.find? (·.path == ".".intercalate names) with
    | none =>
      have other := List.find?_eq_none.mp search t shows.mem_targets
      simp [known found shows] at other
    | some t' =>
      obtain ⟨names', item', found', shows'⟩ :=
        declares_of_mem readable ok (List.mem_of_find?_eq_some search)
      have here : t'.path = ".".intercalate names := by simpa using List.find?_some search
      have plain' := readable.spelled.plain (Schema.mem_declared_of_declares found')
      obtain rfl := intercalate_inj plain' plain ((known found' shows').symm.trans here)
      obtain rfl := readable.declares_unique found found'
      rw [shows.unique shows']

/-- Where a path of the layout itself leads to a list struct. -/
theorem elementAt?_eq_some (readable : s.Readable) (ok : r.layout s = .ok l) {e : Layout} :
    l.elementAt? path = some e ↔ ∃ front id c, s.Declares front (.struct id c) ∧
      c.isList = true ∧ path = ".".intercalate front ∧ l.element? id = some e ∧
      r.layout c.asRoot = .ok e := by
  constructor
  · intro found
    rw [elementAt?] at found
    split at found
    · next x target =>
      obtain ⟨names, item, declares, rfl, shows⟩ := (target?_eq_some readable ok).mp target
      cases shows with
      | @struct id c _ here =>
        have element : l.element? id = some e := element?_eq_some.mpr ⟨x, here, found⟩
        obtain ⟨list, inner⟩ := list_of_element? ok declares element
        exact ⟨names, id, c, declares, list, rfl, element, inner⟩
    · cases found
  · rintro ⟨front, id, c, declares, list, rfl, element, -⟩
    obtain ⟨t, shows, -⟩ := shows_of_declares readable ok declares
    have target := (target?_eq_some readable ok).mpr ⟨front, _, declares, rfl, shows⟩
    obtain ⟨x, here, element⟩ := element?_eq_some.mp element
    cases shows with
    | struct here' =>
      cases here'.symm.trans here
      rw [elementAt?, target]
      exact element

/-- The layout of the elements of the last of these lists, each inside the one before it. -/
def through? (l : Layout) : List StructId → Option Layout
  | [] => some l
  | id :: via => (l.element? id).bind (·.through? via)

/-- What is found before a dot. -/
theorem splitAtList?_eq_some {read rest after : List Char} {e : Layout}
    (found : l.splitAtList? read rest = some (e, after)) : ∃ front,
      rest = front ++ '.' :: after ∧
      l.elementAt? (String.ofList (read.reverse ++ front)) = some e := by
  induction rest generalizing read with
  | nil => cases found
  | cons char rest ih =>
    rw [splitAtList?] at found
    split at found
    · next e' here =>
      cases found
      split at here
      · next dot =>
        subst dot
        exact ⟨[], rfl, by simpa using here⟩
      · cases here
    · obtain ⟨front, rfl, element⟩ := ih found
      exact ⟨char :: front, rfl, by simpa using element⟩

theorem splitAtList?_eq_none {read rest : List Char} (none : l.splitAtList? read rest = none)
    {front after : List Char} (split : rest = front ++ '.' :: after) :
    l.elementAt? (String.ofList (read.reverse ++ front)) = .none := by
  induction rest generalizing read front with
  | nil => simp at split
  | cons char rest ih =>
    rw [splitAtList?] at none
    split at none
    · cases none
    · next here =>
      cases front with
      | nil =>
        obtain ⟨rfl, -⟩ := List.cons.inj split
        simpa using here
      | cons first front =>
        obtain ⟨rfl, others⟩ := List.cons.inj split
        simpa using ih none others

/-- A path is split after the path of a list struct. -/
theorem declares_of_splitAtList? (readable : s.Readable) (ok : r.layout s = .ok l)
    {after : List Char} {e : Layout} (found : l.splitAtList? [] path.toList = some (e, after)) :
    ∃ front id c, s.Declares front (.struct id c) ∧ c.isList = true ∧
      path = ".".intercalate front ++ "." ++ String.ofList after ∧ l.element? id = some e ∧
      r.layout c.asRoot = .ok e := by
  obtain ⟨chars, split, element⟩ := splitAtList?_eq_some found
  obtain ⟨front, id, c, declares, list, dotted, inner⟩ :=
    (elementAt?_eq_some readable ok).mp element
  refine ⟨front, id, c, declares, list, ?_, inner⟩
  rw [← dotted]
  apply String.toList_inj.mp
  simpa using split

theorem resolve?_of_target? (target : l.target? path = some t) :
    l.resolve? path.toList = some (l, t) := by
  rw [resolve?, String.ofList_toList, target]

theorem resolve?_of_splitAtList? {e : Layout} {after : List Char} (none : l.target? path = .none)
    (split : l.splitAtList? [] path.toList = some (e, after)) :
    l.resolve? path.toList = e.resolve? after := by
  rw [resolve?, String.ofList_toList, none]
  dsimp only
  split
  · next found =>
    cases found.symm.trans split
    rfl
  · next found => cases found.symm.trans split

theorem resolve?_eq_none (none : l.target? path = .none)
    (split : l.splitAtList? [] path.toList = .none) : l.resolve? path.toList = .none := by
  rw [resolve?, String.ofList_toList, none]
  dsimp only
  split
  · next found => cases found.symm.trans split
  · rfl

/-- What a path denotes is found, in the layout that it belongs to. -/
theorem resolve?_of_denotes {n : Node} (readable : s.Readable) (denotes : s.Denotes path n)
    (ok : r.layout s = .ok l) : ∃ m t, l.through? n.via = some m ∧ m.Shows n.item t ∧
      l.resolve? path.toList = some (m, t) := by
  refine denotes.split_induction (P := fun s path n => ∀ l, r.layout s = .ok l → ∃ m t,
    l.through? n.via = some m ∧ m.Shows n.item t ∧ l.resolve? path.toList = some (m, t))
    ?declared ?inside readable l ok
  case declared =>
    intro s names item readable found l ok
    obtain ⟨t, shows, -⟩ := shows_of_declares readable ok found
    have target := (target?_eq_some readable ok).mpr ⟨names, item, found, rfl, shows⟩
    exact ⟨l, t, rfl, shows, resolve?_of_target? target⟩
  case inside =>
    intro s front id c rest inner readable found list ih l ok
    obtain ⟨e, element, ok'⟩ := element?_of_list ok found list
    obtain ⟨m, t, through, shows, resolved⟩ := ih e ok'
    have path : (".".intercalate front ++ "." ++ rest).toList =
        (".".intercalate front).toList ++ '.' :: rest.toList := by
      simp
    have noTarget : l.target? (".".intercalate front ++ "." ++ rest) = none := by
      cases target : l.target? (".".intercalate front ++ "." ++ rest) with
      | none => rfl
      | some t =>
        obtain ⟨names, item, found', longer, -⟩ := (target?_eq_some readable ok).mp target
        exact absurd longer.symm (readable.not_longer found list found')
    have here : l.elementAt? (".".intercalate front) = some e :=
      (elementAt?_eq_some readable ok).mpr ⟨front, id, c, found, list, rfl, element, ok'⟩
    -- No other list struct has a path that this one goes on from.
    have splits : l.splitAtList? [] (".".intercalate front ++ "." ++ rest).toList =
        some (e, rest.toList) := by
      cases split : l.splitAtList? [] (".".intercalate front ++ "." ++ rest).toList with
      | none =>
        have missed := splitAtList?_eq_none split path
        rw [List.reverse_nil, List.nil_append, String.ofList_toList, here] at missed
        cases missed
      | some found' =>
        obtain ⟨e', after⟩ := found'
        obtain ⟨front', id', c', found', list', same, element', -⟩ :=
          declares_of_splitAtList? readable ok split
        obtain ⟨rfl, rfl⟩ := readable.front_unique found list found' list' same
        cases readable.declares_unique found found'
        cases element.symm.trans element'
        rw [String.toList_ofList]
    refine ⟨m, t, ?_, shows, (resolve?_of_splitAtList? noTarget splits).trans resolved⟩
    show (l.element? id).bind _ = _
    rw [element]
    exact through

/-- What is found is denoted by the path. -/
theorem denotes_of_resolve? {m : Layout} (readable : s.Readable) (ok : r.layout s = .ok l)
    (found : l.resolve? path.toList = some (m, t)) : ∃ n, s.Denotes path n := by
  induction length : path.length using Nat.strong_induction_on generalizing s l path with
  | _ count ih =>
    cases target : l.target? path with
    | some t' =>
      obtain ⟨names, item, declares, rfl, -⟩ := (target?_eq_some readable ok).mp target
      exact ⟨_, .declared readable declares⟩
    | none =>
      cases split : l.splitAtList? [] path.toList with
      | none =>
        rw [resolve?_eq_none target split] at found
        cases found
      | some inner =>
        obtain ⟨e, after⟩ := inner
        obtain ⟨front, id, c, declares, list, rfl, -, ok'⟩ :=
          declares_of_splitAtList? readable ok split
        rw [resolve?_of_splitAtList? target split, ← String.toList_ofList (l := after)] at found
        have shorter : (String.ofList after).length < count := length ▸ length_lt_of_dot _ _
        obtain ⟨n, denotes⟩ := ih _ shorter (readable.elements declares) ok' found rfl
        exact ⟨_, .inside readable declares list denotes⟩

/-- What a layout answers for a path is what the path denotes in the definition. -/
structure Answers (l : Layout) (s : Schema) (path : String) : Prop where
  /-- Distinct nodes have no path in common. -/
  unique : ∀ n n', s.Denotes path n → s.Denotes path n' → n = n'
  /-- A node is in the layout of the elements of the last list around it. -/
  present : ∀ n, s.Denotes path n → ∃ m t, l.through? n.via = some m ∧ m.Shows n.item t
  field : ∀ handle, l.fieldHandle path = .ok handle ↔ ∃ via id f m,
    s.Denotes path ⟨via, .field id f⟩ ∧ l.through? via = some m ∧
      handle = ⟨m.fingerprint, id, f.type⟩
  struct : ∀ handle, l.structHandle path = .ok handle ↔ ∃ via id c m,
    s.Denotes path ⟨via, .struct id c⟩ ∧ l.through? via = some m ∧
      handle = ⟨m.fingerprint, id, c.flags⟩
  /-- A search for the other kind tells so, and any other search names the whole path. -/
  noField : ∀ e, l.fieldHandle path = .error e ↔
    e = .mismatch path .field .struct ∧ (∃ via id c, s.Denotes path ⟨via, .struct id c⟩) ∨
      e = .unknown (.path path) ∧ ∀ n, ¬ s.Denotes path n
  noStruct : ∀ e, l.structHandle path = .error e ↔
    e = .mismatch path .struct .field ∧ (∃ via id f, s.Denotes path ⟨via, .field id f⟩) ∨
      e = .unknown (.path path) ∧ ∀ n, ¬ s.Denotes path n

section Answers

variable {via : List StructId} {m : Layout}

theorem answers_struct {x : StructLayout} (only : ∀ n, s.Denotes path n ↔ n = ⟨via, .struct id c⟩)
    (through : l.through? via = some m) (shows : m.Shows (.struct id c) (.struct x))
    (resolved : l.resolve? path.toList = some (m, .struct x)) : l.Answers s path := by
  have handle : StructHandle.mk m.fingerprint x.id x.flags = ⟨m.fingerprint, id, c.flags⟩ := by
    cases shows with
    | struct _ place _ flags => rw [place, flags]
  have given : l.structHandle path = .ok ⟨m.fingerprint, id, c.flags⟩ := by
    rw [structHandle, resolved, ← handle]
  have refused : l.fieldHandle path = .error (.mismatch path .field .struct) := by
    rw [fieldHandle, resolved]
  have present : ∃ t, m.Shows (.struct id c) t := ⟨_, shows⟩
  constructor <;> simp [only, given, refused, present, through, eq_comm]

theorem answers_field {f : Field} {x : FieldLayout}
    (only : ∀ n, s.Denotes path n ↔ n = ⟨via, .field id f⟩) (through : l.through? via = some m)
    (shows : m.Shows (.field id f) (.field x))
    (resolved : l.resolve? path.toList = some (m, .field x)) : l.Answers s path := by
  have handle : m.handleOf x = ⟨m.fingerprint, id, f.type⟩ := by
    cases shows with
    | field _ place _ type => rw [handleOf, place, type]
  have given : l.fieldHandle path = .ok ⟨m.fingerprint, id, f.type⟩ := by
    rw [fieldHandle, resolved, ← handle]
  have refused : l.structHandle path = .error (.mismatch path .struct .field) := by
    rw [structHandle, resolved]
  have present : ∃ t, m.Shows (.field id f) t := ⟨_, shows⟩
  constructor <;> simp [only, given, refused, present, through, eq_comm]

theorem answers_none (none : ∀ n, ¬ s.Denotes path n)
    (resolved : l.resolve? path.toList = .none) : l.Answers s path := by
  have noField : l.fieldHandle path = .error (.unknown (.path path)) := by
    rw [fieldHandle, resolved]
  have noStruct : l.structHandle path = .error (.unknown (.path path)) := by
    rw [structHandle, resolved]
  constructor <;> simp [none, noField, noStruct, eq_comm]

end Answers

/-- A layout and the definition that it is made of: a built schema, or in such a definition
a list struct as the root of its elements. -/
inductive Defined (r : LayoutRules) : Schema → Layout → Prop where
  | root {s : Schema} {l : Layout} : s.Buildable → r.layout s = .ok l → Defined r s l
  | element {s c : Schema} {l e : Layout} {names : List String} {id : StructId} : Defined r s l →
      s.Declares names (.struct id c) → l.element? id = some e → Defined r c.asRoot e

theorem Defined.readable (defined : Defined r s l) : s.Readable ∧ r.layout s = .ok l := by
  induction defined with
  | root buildable ok => exact ⟨⟨buildable.spelled, (LayoutRules.root_of_layout ok).1⟩, ok⟩
  | element _ found element ih =>
    obtain ⟨readable, ok⟩ := ih
    exact ⟨readable.elements found, (list_of_element? ok found element).2⟩

/-- A layout finds what a path denotes in its definition and nothing else, whatever the
path. -/
theorem answers_exactly (defined : Defined r s l) (path : String) : l.Answers s path := by
  obtain ⟨readable, ok⟩ := defined.readable
  by_cases some : ∃ n, s.Denotes path n
  · obtain ⟨⟨via, item⟩, denotes⟩ := some
    have only (n : Node) : s.Denotes path n ↔ n = ⟨via, item⟩ :=
      ⟨fun other => other.unique readable denotes, fun same => same ▸ denotes⟩
    obtain ⟨m, t, through, shows, resolved⟩ := resolve?_of_denotes readable denotes ok
    cases shows with
    | struct found place name flags =>
      exact answers_struct only through (.struct found place name flags) resolved
    | field found place name type =>
      exact answers_field only through (.field found place name type) resolved
  · have none (n : Node) : ¬ s.Denotes path n := fun denotes => some ⟨n, denotes⟩
    refine answers_none none ?_
    cases resolved : l.resolve? path.toList with
    | none => rfl
    | some found =>
      obtain ⟨n, denotes⟩ := denotes_of_resolve? readable ok resolved
      exact absurd denotes (none n)

end Layout

namespace LayoutRules

def orderLine : Schema :=
  { name := "lines", fields := [⟨"count", .int16⟩], flags := { list := true } }

theorem order_declares_lines : order.Declares ["lines"] (.struct 3 orderLine) := by rfl

def lineLayout : Layout := (orderLayout.element? 3).get (by rfl)

theorem orderLayout_defined : Defined { strategy := .aligned .bits8 } order orderLayout :=
  .root order_buildable (by rfl)

theorem answers_exactly_order : Defined { strategy := .aligned .bits8 } order orderLayout ∧
    orderLayout.fieldHandle "lines.count" = .ok ⟨lineLayout.fingerprint, 0, .int16⟩ ∧
    orderLayout.structHandle "lines." = .ok ⟨lineLayout.fingerprint, 0, {}⟩ ∧
    ∀ n, ¬ order.Denotes "lines..count" n := by
  have answers := answers_exactly orderLayout_defined
  refine ⟨orderLayout_defined, ?count, ?lines, ?nothing⟩
  case count =>
    refine ((answers "lines.count").field _).mpr
      ⟨[3], 0, ⟨"count", .int16⟩, lineLayout, ?_, by rfl, rfl⟩
    have count : orderLine.asRoot.Declares ["count"] (.field 0 ⟨"count", .int16⟩) := by rfl
    exact .named (.inside order_declares_lines rfl (.here count (by simp)))
  case lines =>
    refine ((answers "lines.").struct _).mpr
      ⟨[3], 0, orderLine.asRoot, lineLayout, ?_, by rfl, rfl⟩
    exact .elements (.here order_declares_lines (by simp)) rfl
  case nothing =>
    have missed : orderLayout.fieldHandle "lines..count" =
        .error (.unknown (.path "lines..count")) := by
      have split : orderLayout.splitAtList? [] "lines..count".toList =
          some (lineLayout, ".count".toList) := by rfl
      rw [fieldHandle, resolve?_of_splitAtList? (by rfl) split,
        resolve?_eq_none (by rfl) (by rfl)]
    rcases ((answers "lines..count").noField _).mp missed with ⟨other, -⟩ | ⟨-, none⟩
    · cases other
    · exact none

end LayoutRules

end BitRecords
