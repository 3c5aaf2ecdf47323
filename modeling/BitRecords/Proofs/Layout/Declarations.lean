import Mathlib.Data.List.Nodup
import BitRecords.Proofs.Layout.Names

/-!
# Paths through a definition

A definition declares its structs and fields depth first, each under the names that lead
to it from the root. What the elements of a list hold is declared by a definition of its
own, of which the list struct is the root. A path is read through such definitions: names
with dots between them lead to what they name, and the path of a list with one more dot
names the elements as such. Since all names in a struct are different, and a list has
nothing else below it, each path denotes at most one thing.
-/

namespace BitRecords

section Dotted

variable {names names' front : List String}

theorem splitOn_intercalate_dot (plain : ∀ name ∈ names, PlainName name) (some : names ≠ []) :
    (".".intercalate names).toList.splitOn '.' = names.map String.toList := by
  rw [String.toList_intercalate]
  refine List.splitOn_intercalate '.' (fun chars member => ?_) (by simpa using some)
  obtain ⟨name, inside, rfl⟩ := List.mem_map.mp member
  exact (plain name inside).dotless

theorem intercalate_ne_empty (plain : ∀ name ∈ names, PlainName name) (some : names ≠ []) :
    ".".intercalate names ≠ "" := by
  intro empty
  obtain ⟨name, rest, rfl⟩ := List.exists_cons_of_ne_nil some
  have split := splitOn_intercalate_dot plain some
  rw [empty] at split
  have blank : [] = name.toList := (List.cons.inj split).1
  have nonempty := (plain name List.mem_cons_self).nonempty
  rw [String.toList_eq_nil_iff.mp blank.symm] at nonempty
  cases nonempty

theorem pathNames_intercalate (plain : ∀ name ∈ names, PlainName name) :
    pathNames (".".intercalate names) = names.map String.toList := by
  by_cases some : names = []
  · rw [some]
    rfl
  · have nonempty := intercalate_ne_empty plain some
    rw [pathNames, if_neg (by simpa using nonempty)]
    exact splitOn_intercalate_dot plain some

/-- Plain names can be read off the path that they make. -/
theorem intercalate_inj (plain : ∀ name ∈ names, PlainName name)
    (plain' : ∀ name ∈ names', PlainName name)
    (same : ".".intercalate names = ".".intercalate names') : names = names' := by
  have read := pathNames_intercalate plain
  rw [same, pathNames_intercalate plain'] at read
  exact (List.map_injective_iff.mpr fun _ _ => String.toList_inj.mp) read.symm

/-- A path that goes on after a dot has more names. -/
theorem names_of_longer {rest : String} (plain : ∀ name ∈ names, PlainName name)
    (plainFront : ∀ name ∈ front, PlainName name) (some : front ≠ [])
    (longer : ".".intercalate names = ".".intercalate front ++ "." ++ rest) :
    ∃ more, more ≠ [] ∧ names = front ++ more := by
  have filled : names ≠ [] := by
    rintro rfl
    simp at longer
  have read := splitOn_intercalate_dot plain filled
  have joined : (".".intercalate front ++ "." ++ rest).toList =
      (".".intercalate front).toList ++ '.' :: rest.toList := by
    simp
  rw [longer, joined, List.splitOn_append_cons_self,
    splitOn_intercalate_dot plainFront some] at read
  obtain ⟨first, more, rfl, same, others⟩ := List.map_eq_append_iff.mp read.symm
  obtain rfl := (List.map_injective_iff.mpr fun _ _ => String.toList_inj.mp) same
  refine ⟨more, ?_, rfl⟩
  rintro rfl
  exact List.splitOn_ne_nil _ _ others.symm

theorem length_lt_of_dot (a b : String) : b.length < (a ++ "." ++ b).length := by
  rw [String.length_append, String.length_append]
  exact Nat.lt_add_of_pos_left (Nat.add_pos_right _ (by decide))

/-- Where a string is split at two dots, they are the same or one side goes on after one. -/
theorem split_cases {a b a' b' : String} (same : a ++ "." ++ b = a' ++ "." ++ b') :
    (a = a' ∧ b = b') ∨ (∃ m, a' = a ++ "." ++ m) ∨ ∃ m, a = a' ++ "." ++ m := by
  have longer {x y x' y' m : List Char} (front : x' = x ++ m) (back : '.' :: y = m ++ '.' :: y') :
      (x = x' ∧ y = y') ∨ ∃ m, x' = x ++ '.' :: m := by
    cases m with
    | nil => exact .inl ⟨by simp [front], by simpa using back⟩
    | cons dot m =>
      obtain ⟨rfl, -⟩ := List.cons.inj back
      exact .inr ⟨m, front⟩
  have read {x y : String} {m : List Char} (front : x.toList = y.toList ++ '.' :: m) :
      x = y ++ "." ++ String.ofList m := by
    apply String.toList_inj.mp
    simpa using front
  have chars : a.toList ++ '.' :: b.toList = a'.toList ++ '.' :: b'.toList := by
    simpa using congrArg String.toList same
  rcases List.append_eq_append_iff.mp chars with ⟨m, front, back⟩ | ⟨m, front, back⟩
  · rcases longer front back with ⟨x, y⟩ | ⟨m, front⟩
    · exact .inl ⟨String.toList_inj.mp x, String.toList_inj.mp y⟩
    · exact .inr (.inl ⟨_, read front⟩)
  · rcases longer front back with ⟨x, y⟩ | ⟨m, front⟩
    · exact .inl ⟨(String.toList_inj.mp x).symm, (String.toList_inj.mp y).symm⟩
    · exact .inr (.inr ⟨_, read front⟩)

end Dotted

/-- A struct or field as it is declared. -/
inductive Declaration where
  | struct (s : Schema)
  | field (f : Field)

namespace Declaration

def struct? : Declaration → Option Schema
  | .struct s => some s
  | .field _ => none

def field? : Declaration → Option Field
  | .struct _ => none
  | .field f => some f

@[simp] theorem struct?_eq_some {d : Declaration} {s : Schema} :
    d.struct? = some s ↔ d = .struct s := by
  cases d <;> simp [struct?]

@[simp] theorem field?_eq_some {d : Declaration} {f : Field} :
    d.field? = some f ↔ d = .field f := by
  cases d <;> simp [field?]

end Declaration

/-- Declarations, each with the names that lead to it. -/
abbrev Declarations := List (List String × Declaration)

namespace Declarations

/-- What is declared below a struct is reached through the name of the struct. -/
def below (name : String) (ds : Declarations) : Declarations :=
  ds.map fun d => (name :: d.1, d.2)

/-- The declarations of one kind. -/
def select {α : Type} (pick : Declaration → Option α) (ds : Declarations) :
    List (List String × α) :=
  ds.filterMap fun d => (pick d.2).map (d.1, ·)

def structs (ds : Declarations) : List (List String × Schema) := ds.select Declaration.struct?

def fields (ds : Declarations) : List (List String × Field) := ds.select Declaration.field?

/-- The names that lead to the declarations. -/
def names (ds : Declarations) : List (List String) := ds.map (·.1)

theorem mem_structs {ds : Declarations} {names : List String} {s : Schema} :
    (names, s) ∈ ds.structs ↔ (names, .struct s) ∈ ds := by
  simp [structs, select]

theorem mem_fields {ds : Declarations} {names : List String} {f : Field} :
    (names, f) ∈ ds.fields ↔ (names, .field f) ∈ ds := by
  simp [fields, select]

/-- Among declarations with different names, names lead to one position. -/
theorem select_inj {α : Type} {pick : Declaration → Option α} {ds : Declarations}
    (nodup : ds.names.Nodup) {i j : Nat} {names : List String} {a b : α}
    (found : (ds.select pick)[i]? = some (names, a))
    (found' : (ds.select pick)[j]? = some (names, b)) : i = j := by
  have different : ((ds.select pick).map (·.1)).Nodup := by
    refine List.pairwise_map.mpr ((List.pairwise_map.mp nodup).filterMap _ ?_)
    intro d d' apart e picked e' picked'
    obtain ⟨_, -, rfl⟩ := Option.map_eq_some_iff.mp picked
    obtain ⟨_, -, rfl⟩ := Option.map_eq_some_iff.mp picked'
    exact apart
  have bound : i < ((ds.select pick).map (·.1)).length := by
    simpa using (List.getElem?_eq_some_iff.mp found).1
  refine (List.getElem?_inj bound different).mp ?_
  rw [List.getElem?_map, List.getElem?_map, found, found']
  rfl

theorem structs_append (ds es : Declarations) :
    structs (ds ++ es) = ds.structs ++ es.structs :=
  List.filterMap_append

theorem fields_append (ds es : Declarations) : fields (ds ++ es) = ds.fields ++ es.fields :=
  List.filterMap_append

theorem select_below {α : Type} (pick : Declaration → Option α) (name : String)
    (ds : Declarations) :
    (ds.below name).select pick = (ds.select pick).map fun d => (name :: d.1, d.2) := by
  simp [select, below, List.map_filterMap, Function.comp_def]

theorem names_below (name : String) (ds : Declarations) :
    (below name ds).names = ds.names.map (name :: ·) := by
  simp [names, below, Function.comp_def]

end Declarations

namespace Schema

mutual

/-- The struct, its fields and all that its children declare. -/
def declared : Schema → Declarations
  | { name, fields, children, flags } =>
    ([], .struct { name, fields, children, flags }) ::
      (fields.map (fun f => ([f.name], .field f)) ++ declaredBelow children)

/-- What children declare, each a list struct or everything in a struct. -/
def declaredBelow : List Schema → Declarations
  | [] => []
  | child :: rest =>
    Declarations.below child.name
      (if child.flags.list then [([], .struct child)] else child.declared) ++ declaredBelow rest

end

/-- The struct as the root of a definition, which is neither a list nor optional. -/
def asRoot (s : Schema) : Schema := { s with flags := { union := s.flags.union } }

end Schema

/-- A struct or field with its id. The structs of a definition are counted in the order of
their declarations, and so are the fields. -/
inductive Item where
  | struct (id : StructId) (s : Schema)
  | field (id : FieldId) (f : Field)

def Item.declaration : Item → Declaration
  | .struct _ s => .struct s
  | .field _ f => .field f

/-- An item of a definition, or, inside the list structs of the ids `via`, outermost first,
of the definition of the elements of the last of them. -/
structure Node where
  via : List StructId
  item : Item

/-- The node in the elements of a list struct. -/
def Node.inside (id : StructId) (n : Node) : Node := ⟨id :: n.via, n.item⟩

namespace Schema

/-- The names lead to the item in the definition itself. -/
def Declares (s : Schema) (names : List String) : Item → Prop
  | .struct id c => s.declared.structs[id]? = some (names, c)
  | .field id f => s.declared.fields[id]? = some (names, f)

/-- The names lead from the root of the definition to the node, through the elements of
list structs. -/
inductive Leads : Schema → List String → Node → Prop where
  | here {s : Schema} {names : List String} {item : Item} : s.Declares names item → names ≠ [] →
      Leads s names ⟨[], item⟩
  | inside {s c : Schema} {front names : List String} {id : StructId} {n : Node} :
      s.Declares front (.struct id c) → c.isList = true → Leads c.asRoot names n →
      Leads s (front ++ names) (n.inside id)

/-- The path denotes the node: it is empty and the node the root, or it holds the names that
lead to the node with dots between them, or it is the path of a list struct with a dot after
it and the node the root of the elements. -/
inductive Denotes (s : Schema) : String → Node → Prop where
  | root : Denotes s "" ⟨[], .struct 0 s⟩
  | named {names : List String} {n : Node} : Leads s names n →
      Denotes s (".".intercalate names) n
  | elements {names : List String} {via : List StructId} {id : StructId} {c : Schema} :
      Leads s names ⟨via, .struct id c⟩ → c.isList = true →
      Denotes s (".".intercalate names ++ ".") ⟨via ++ [id], .struct 0 c.asRoot⟩

theorem Buildable.distinct {s : Schema} (buildable : s.Buildable) :
    ∀ body ∈ s.bodies, body.Distinct :=
  fun body member => (buildable.regular body member).distinct

/-- All names of the definition are plain, and those in one struct are different. -/
structure Spelled (s : Schema) : Prop where
  named : ∀ body ∈ s.bodies, body.Named
  distinct : ∀ body ∈ s.bodies, body.Distinct

theorem Buildable.spelled {s : Schema} (buildable : s.Buildable) : s.Spelled :=
  ⟨buildable.named, buildable.distinct⟩

theorem Spelled.child {s child : Schema} (spelled : s.Spelled) (member : child ∈ s.children) :
    child.Spelled :=
  have inside (body : Schema) (below : body ∈ child.bodies) : body ∈ s.bodies :=
    mem_bodies.mpr (.inr ⟨child, member, below⟩)
  ⟨fun body below => spelled.named body (inside body below),
    fun body below => spelled.distinct body (inside body below)⟩

theorem Spelled.asRoot {s : Schema} (spelled : s.Spelled) : s.asRoot.Spelled := by
  have here : s ∈ s.bodies := mem_bodies.mpr (.inl rfl)
  have inside {body : Schema} (member : body ∈ s.asRoot.bodies) :
      body = s.asRoot ∨ body ∈ s.bodies := by
    rcases mem_bodies.mp member with rfl | below
    · exact .inl rfl
    · exact .inr (mem_bodies.mpr (.inr below))
  constructor
  · intro body member
    rcases inside member with rfl | member
    · exact ⟨(spelled.named s here).fields, (spelled.named s here).children,
        (spelled.named s here).distinct⟩
    · exact spelled.named body member
  · intro body member
    rcases inside member with rfl | member
    · exact spelled.distinct s here
    · exact spelled.distinct body member

/-- What a struct declares in the one that it is in. -/
def listed (s : Schema) : Declarations :=
  if s.flags.list then [([], .struct s)] else s.declared

theorem declaredBelow_eq (children : List Schema) : declaredBelow children =
    children.flatMap fun child => Declarations.below child.name child.listed := by
  induction children with
  | nil => rfl
  | cons child rest ih => rw [declaredBelow, List.flatMap_cons, ih, listed]

theorem declared_eq (s : Schema) : s.declared =
    ([], .struct s) :: (s.fields.map (fun f => ([f.name], .field f)) ++
      s.children.flatMap fun child => Declarations.below child.name child.listed) := by
  rw [← declaredBelow_eq]
  obtain ⟨name, fields, children, flags⟩ := s
  rw [declared]

theorem names_declared (s : Schema) : s.declared.names =
    [] :: (s.fields.map (fun f => [f.name]) ++
      s.children.flatMap fun child => (Declarations.below child.name child.listed).names) := by
  simp [declared_eq, Declarations.names, List.map_flatMap, Function.comp_def]

theorem mem_declared {s : Schema} {d : List String × Declaration} :
    d ∈ s.declared ↔ d = ([], .struct s) ∨ (∃ f ∈ s.fields, d = ([f.name], .field f)) ∨
      ∃ child ∈ s.children, ∃ e ∈ child.listed, d = (child.name :: e.1, e.2) := by
  simp [declared_eq, Declarations.below, eq_comm]

theorem mem_listed {s : Schema} {d : List String × Declaration} : d ∈ s.listed ↔
    s.flags.list = true ∧ d = ([], .struct s) ∨ s.flags.list = false ∧ d ∈ s.declared := by
  cases list : s.flags.list <;> simp [listed, list]

namespace Spelled

/-- Different declarations have different names leading to them. -/
theorem nodup_names {s : Schema} (spelled : s.Spelled) : s.declared.names.Nodup := by
  induction s using children_induction with
  | step s ih =>
    obtain ⟨fields, children, apart⟩ :=
      List.nodup_append'.mp (spelled.distinct s (mem_bodies.mpr (.inl rfl)))
    have own : (s.fields.map fun f => [f.name]).Nodup := by
      have each := fields.map List.singleton_injective
      rwa [List.map_map] at each
    have below (child : Schema) (member : child ∈ s.children) :
        (Declarations.below child.name child.listed).names.Nodup := by
      rw [Declarations.names_below]
      refine List.Nodup.map List.cons_injective ?_
      rw [listed]
      split
      · exact List.nodup_singleton _
      · exact ih child member (spelled.child member)
    have heads (child : Schema) (names : List String)
        (found : names ∈ (Declarations.below child.name child.listed).names) :
        names.head? = some child.name := by
      rw [Declarations.names_below] at found
      obtain ⟨rest, -, rfl⟩ := List.mem_map.mp found
      rfl
    rw [names_declared, List.nodup_cons, List.nodup_append', List.nodup_flatMap]
    refine ⟨?_, own, ⟨below, ?_⟩, ?_⟩
    · intro found
      rcases List.mem_append.mp found with found | found
      · simp at found
      · obtain ⟨child, -, found⟩ := List.mem_flatMap.mp found
        cases heads child [] found
    · refine (List.pairwise_map.mp children).imp fun different names first second => different ?_
      exact Option.some.inj ((heads _ names first).symm.trans (heads _ names second))
    · intro names field found
      obtain ⟨f, member, rfl⟩ := List.mem_map.mp field
      obtain ⟨child, inside, found⟩ := List.mem_flatMap.mp found
      have same : f.name = child.name := Option.some.inj (heads child [f.name] found)
      exact apart (List.mem_map_of_mem member) (same ▸ List.mem_map_of_mem inside)

/-- The names that lead to a declaration are plain. -/
theorem plain {s : Schema} (spelled : s.Spelled) {d : List String × Declaration}
    (member : d ∈ s.declared) : ∀ name ∈ d.1, PlainName name := by
  induction s using children_induction generalizing d with
  | step s ih =>
    have named := spelled.named s (mem_bodies.mpr (.inl rfl))
    rcases mem_declared.mp member with rfl | ⟨f, field, rfl⟩ | ⟨child, inside, e, listed, rfl⟩
    · simp
    · simpa using named.fields f field
    · refine List.forall_mem_cons.mpr ⟨named.children child inside, ?_⟩
      rcases mem_listed.mp listed with ⟨-, rfl⟩ | ⟨-, below⟩
      · simp
      · exact ih child inside (spelled.child inside) below

/-- A list has nothing else below it in the definition that it is in. -/
theorem eq_nil_of_list {s c : Schema} {front more : List String} {d : Declaration}
    (spelled : s.Spelled) (single : s.flags.list = false)
    (found : (front, .struct c) ∈ s.declared) (list : c.flags.list = true)
    (longer : (front ++ more, d) ∈ s.declared) : more = [] := by
  induction s using children_induction generalizing front with
  | step s ih =>
    obtain ⟨-, children, apart⟩ :=
      List.nodup_append'.mp (spelled.distinct s (mem_bodies.mpr (.inl rfl)))
    rcases mem_declared.mp found with same | ⟨f, -, same⟩ | ⟨child, inside, ⟨rest, d'⟩, here, same⟩
    · cases same
      rw [list] at single
      cases single
    · cases same
    cases same
    rcases mem_declared.mp longer with same | ⟨f, field, same⟩ |
      ⟨child', inside', ⟨rest', d'⟩, here', same⟩
    · cases same
    · -- A field has another name than the child.
      have same : child.name = f.name := (List.cons.inj (congrArg Prod.fst same)).1
      exact absurd (same ▸ List.mem_map_of_mem inside) (apart (List.mem_map_of_mem field))
    · simp only [List.cons_append, Prod.mk.injEq, List.cons.injEq] at same
      obtain ⟨⟨name, rfl⟩, rfl⟩ := same
      obtain rfl : child = child' := List.inj_on_of_nodup_map children inside inside' name
      rcases mem_listed.mp here' with ⟨-, same⟩ | ⟨nested, below'⟩
      · exact (List.append_eq_nil_iff.mp (congrArg Prod.fst same)).2
      · rcases mem_listed.mp here with ⟨isList, -⟩ | ⟨-, below⟩
        · cases isList.symm.trans nested
        · exact ih child inside (spelled.child inside) nested below below'

theorem declared {s c : Schema} {names : List String} (spelled : s.Spelled)
    (member : (names, .struct c) ∈ s.declared) : c.Spelled := by
  induction s using children_induction generalizing names with
  | step s ih =>
    rcases mem_declared.mp member with same | ⟨f, -, same⟩ |
      ⟨child, inside, ⟨rest, d⟩, listed, same⟩
    · cases same
      exact spelled
    · cases same
    · cases same
      rcases mem_listed.mp listed with ⟨-, same⟩ | ⟨-, below⟩
      · cases same
        exact spelled.child inside
      · exact ih child inside (spelled.child inside) below

end Spelled

/-- A definition that paths are read through. Its root is not a list. -/
structure Readable (s : Schema) : Prop where
  spelled : s.Spelled
  single : s.flags.list = false

theorem mem_declared_of_declares {s : Schema} {names : List String} {item : Item}
    (found : s.Declares names item) : (names, item.declaration) ∈ s.declared := by
  cases item with
  | struct id c => exact Declarations.mem_structs.mp (List.mem_of_getElem? found)
  | field id f => exact Declarations.mem_fields.mp (List.mem_of_getElem? found)

theorem declares_root (s : Schema) : s.Declares [] (.struct 0 s) := by
  show s.declared.structs[0]? = some ([], s)
  rw [declared_eq]
  rfl

namespace Readable

variable {s c : Schema} {names front : List String} {item item' : Item} {id : StructId}

theorem elements (readable : s.Readable) (found : s.Declares names (.struct id c)) :
    c.asRoot.Readable :=
  ⟨(readable.spelled.declared (mem_declared_of_declares found)).asRoot, rfl⟩

theorem declares_unique (readable : s.Readable) (found : s.Declares names item)
    (found' : s.Declares names item') : item = item' := by
  have nodup := readable.spelled.nodup_names
  have same : item.declaration = item'.declaration := by
    have entry := List.inj_on_of_nodup_map nodup (mem_declared_of_declares found)
      (mem_declared_of_declares found') rfl
    exact congrArg Prod.snd entry
  cases item with
  | struct id c =>
    cases item' with
    | struct id' c' =>
      cases same
      rw [Declarations.select_inj nodup found found']
    | field => cases same
  | field id f =>
    cases item' with
    | struct => cases same
    | field id' f' =>
      cases same
      rw [Declarations.select_inj nodup found found']

theorem front_ne_nil (readable : s.Readable) (found : s.Declares front (.struct id c))
    (list : c.isList = true) : front ≠ [] := by
  rintro rfl
  cases readable.declares_unique found s.declares_root
  have single := readable.single
  rw [isList, single] at list
  cases list

/-- No path in the definition goes on after a list. -/
theorem not_longer (readable : s.Readable) (found : s.Declares front (.struct id c))
    (list : c.isList = true) (found' : s.Declares names item) {rest : String} :
    ".".intercalate names ≠ ".".intercalate front ++ "." ++ rest := by
  intro longer
  have member := mem_declared_of_declares found
  have member' := mem_declared_of_declares found'
  obtain ⟨more, some, rfl⟩ := names_of_longer (readable.spelled.plain member')
    (readable.spelled.plain member) (readable.front_ne_nil found list) longer
  exact some (readable.spelled.eq_nil_of_list readable.single member list member')

/-- A path goes through one list at most. -/
theorem front_unique (readable : s.Readable) {front' : List String} {id' : StructId} {c' : Schema}
    {rest rest' : String} (found : s.Declares front (.struct id c)) (list : c.isList = true)
    (found' : s.Declares front' (.struct id' c')) (list' : c'.isList = true)
    (same : ".".intercalate front ++ "." ++ rest = ".".intercalate front' ++ "." ++ rest') :
    front = front' ∧ rest = rest' := by
  rcases split_cases same with ⟨dotted, same⟩ | ⟨_, longer⟩ | ⟨_, longer⟩
  · exact ⟨intercalate_inj (readable.spelled.plain (mem_declared_of_declares found))
      (readable.spelled.plain (mem_declared_of_declares found')) dotted, same⟩
  · exact absurd longer (readable.not_longer found list found')
  · exact absurd longer (readable.not_longer found' list' found)

end Readable

theorem Leads.ne_nil {s : Schema} {names : List String} {n : Node} (leads : s.Leads names n) :
    names ≠ [] := by
  induction leads with
  | here _ some => exact some
  | inside _ _ _ some => simp [some]

namespace Denotes

variable {s c : Schema} {names front : List String} {item : Item} {id : StructId} {path : String}
variable {n n' : Node}

/-- The path of an item of the definition itself. -/
theorem declared (readable : s.Readable) (found : s.Declares names item) :
    s.Denotes (".".intercalate names) ⟨[], item⟩ := by
  by_cases root : names = []
  · subst root
    rw [readable.declares_unique found s.declares_root]
    exact .root
  · exact .named (.here found root)

/-- A path in the elements of a list, after the path of the list and a dot. -/
theorem inside (readable : s.Readable) (found : s.Declares front (.struct id c))
    (list : c.isList = true) (denotes : c.asRoot.Denotes path n) :
    s.Denotes (".".intercalate front ++ "." ++ path) (n.inside id) := by
  have some := readable.front_ne_nil found list
  cases denotes with
  | root =>
    rw [String.append_empty]
    exact .elements (.here found some) list
  | named leads =>
    rw [← String.intercalate_append_of_ne_nil some leads.ne_nil]
    exact .named (.inside found list leads)
  | elements leads isList =>
    rw [← String.append_assoc, ← String.intercalate_append_of_ne_nil some leads.ne_nil]
    exact .elements (.inside found list leads) isList

/-- There are no other paths than these. -/
theorem split (readable : s.Readable) (denotes : s.Denotes path n) :
    (∃ names item, s.Declares names item ∧ path = ".".intercalate names ∧ n = ⟨[], item⟩) ∨
      ∃ front id c rest inner, s.Declares front (.struct id c) ∧ c.isList = true ∧
        c.asRoot.Denotes rest inner ∧ path = ".".intercalate front ++ "." ++ rest ∧
        n = inner.inside id := by
  cases denotes with
  | root => exact .inl ⟨[], _, s.declares_root, String.intercalate_nil.symm, rfl⟩
  | named leads =>
    cases leads with
    | here found _ => exact .inl ⟨_, _, found, rfl, rfl⟩
    | inside found list leads =>
      have some := readable.front_ne_nil found list
      exact .inr ⟨_, _, _, _, _, found, list, .named leads,
        String.intercalate_append_of_ne_nil some leads.ne_nil, rfl⟩
  | @elements names via id c leads list =>
    generalize member : (⟨via, .struct id c⟩ : Node) = node at leads
    cases leads with
    | here found _ =>
      cases member
      exact .inr ⟨_, _, _, "", _, found, list, .root, String.append_empty.symm, rfl⟩
    | @inside _ outer front names outerId n found isList leads =>
      obtain ⟨via, item⟩ := n
      cases member
      have some := readable.front_ne_nil found isList
      refine .inr ⟨_, _, _, _, _, found, isList, .elements leads list, ?_, rfl⟩
      rw [String.intercalate_append_of_ne_nil some leads.ne_nil, String.append_assoc]

/-- What holds of the paths of a definition itself, and of a path after a list when it holds
of the rest in the elements, holds of all paths. -/
theorem split_induction {P : Schema → String → Node → Prop}
    (declared : ∀ s names item, s.Readable → s.Declares names item →
      P s (".".intercalate names) ⟨[], item⟩)
    (inside : ∀ s front id c rest inner, s.Readable → s.Declares front (.struct id c) →
      c.isList = true → P c.asRoot rest inner →
      P s (".".intercalate front ++ "." ++ rest) (inner.inside id))
    (readable : s.Readable) (denotes : s.Denotes path n) : P s path n := by
  induction length : path.length using Nat.strongRecOn generalizing s path n with
  | ind count ih =>
    rcases denotes.split readable with ⟨names, item, found, rfl, rfl⟩ |
      ⟨front, id, c, rest, inner, found, list, below, rfl, rfl⟩
    · exact declared s names item readable found
    · have shorter : rest.length < count := length ▸ length_lt_of_dot _ _
      exact inside s front id c rest inner readable found list
        (ih _ shorter (readable.elements found) below rfl)

/-- A path denotes at most one node. -/
theorem unique (readable : s.Readable) (denotes : s.Denotes path n) (denotes' : s.Denotes path n') :
    n = n' := by
  refine split_induction (P := fun s path n => ∀ n', s.Denotes path n' → n = n')
    ?declared ?inside readable denotes n' denotes'
  case declared =>
    intro s names item readable found n' denotes'
    rcases denotes'.split readable with ⟨names', item', found', same, rfl⟩ |
      ⟨front, id, c, rest, inner, found', list, -, longer, -⟩
    · obtain rfl := intercalate_inj (readable.spelled.plain (mem_declared_of_declares found))
        (readable.spelled.plain (mem_declared_of_declares found')) same
      rw [readable.declares_unique found found']
    · exact absurd longer (readable.not_longer found' list found)
  case inside =>
    intro s front id c rest inner readable found list ih n' denotes'
    rcases denotes'.split readable with ⟨names', item', found', longer, -⟩ |
      ⟨front', id', c', rest', inner', found', list', below', same, rfl⟩
    · exact absurd longer.symm (readable.not_longer found list found')
    · obtain ⟨rfl, rfl⟩ := readable.front_unique found list found' list' same
      cases readable.declares_unique found found'
      rw [ih inner' below']

end Denotes

end Schema

end BitRecords
