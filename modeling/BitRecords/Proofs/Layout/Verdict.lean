import BitRecords.Proofs.FieldType
import BitRecords.Proofs.Layout.Cursor

/-!
# Which body is refused

When slots hold their payload, strides hold their body and all structs are as they are
built, one check is left that can fail: a stride may be greater than the limit. The strides
are compared as bodies are completed, those of the children before the one of the body
around them, and the first that is too great is reported. So the outcome of a placement is
the outcome of a search through its bodies in that order.
-/

namespace BitRecords

open Layout

namespace Schema

mutual

/-- The bodies of the struct in the order in which they are completed, each with the name
that it has in an error: the path in its layout, or the name of the struct if it is the
root there. -/
def completed (path : String) : Schema → List (String × Schema)
  | { name, fields, children, flags } =>
    completedBelow path children ++
      [(if path.isEmpty then name else path, { name, fields, children, flags })]

/-- The bodies of children. The elements of a list have a layout of their own. -/
def completedBelow (path : String) : List Schema → List (String × Schema)
  | [] => []
  | child :: rest =>
    completed (if child.flags.list then "" else joinPath path child.name) child ++
      completedBelow path rest

end

theorem completed_eq (path : String) (s : Schema) :
    s.completed path =
      completedBelow path s.children ++ [(if path.isEmpty then s.name else path, s)] := by
  cases s
  rw [completed]

theorem mem_completedBelow {path : String} {children : List Schema} {x : String × Schema} :
    x ∈ completedBelow path children ↔ ∃ child ∈ children,
      x ∈ child.completed (if child.flags.list then "" else joinPath path child.name) := by
  induction children with
  | nil => simp [completedBelow]
  | cons child rest ih => simp [completedBelow, ih]

/-- All bodies are completed, and nothing else. -/
theorem mem_completed {path : String} {s body : Schema} :
    (∃ shown, (shown, body) ∈ s.completed path) ↔ body ∈ s.bodies := by
  induction s using children_induction generalizing path with
  | step s each =>
    rw [completed_eq, mem_bodies]
    simp only [List.mem_append, mem_completedBelow, List.mem_singleton, Prod.mk.injEq]
    constructor
    · rintro ⟨shown, ⟨child, inside, below⟩ | ⟨-, rfl⟩⟩
      · exact .inr ⟨child, inside, (each child inside).mp ⟨shown, below⟩⟩
      · exact .inl rfl
    · rintro (rfl | ⟨child, inside, below⟩)
      · exact ⟨_, .inr ⟨rfl, rfl⟩⟩
      · obtain ⟨shown, below⟩ := (each child inside).mpr below
        exact ⟨shown, .inl ⟨child, inside, below⟩⟩

end Schema

namespace LayoutRules

variable {r : LayoutRules}

/-- The stride of the body is greater than the limit. -/
def exceeds (r : LayoutRules) (body : Schema) : Bool := decide (r.maxStride < r.bodyStride body)

/-- The outcome is an error for the first of the bodies that exceeds the limit, if any. -/
inductive Verdict (r : LayoutRules) (bodies : List (String × Schema)) {α : Type} :
    Except Error α → Prop where
  | ok {a : α} : bodies.find? (r.exceeds ·.2) = none → Verdict r bodies (.ok a)
  | error {shown : String} {body : Schema} :
      bodies.find? (r.exceeds ·.2) = some (shown, body) →
      Verdict r bodies
        (.error (.compilation shown (.strideOverLimit (r.bodyStride body) r.maxStride)))

namespace Verdict

variable {α β : Type} {xs ys : List (String × Schema)} {m : Except Error α}

/-- The bodies of later steps count only if the earlier steps succeed. -/
theorem bind {f : α → Except Error β} (first : r.Verdict xs m)
    (next : ∀ a, m = .ok a → r.Verdict ys (f a)) : r.Verdict (xs ++ ys) (m >>= f) := by
  cases first with
  | @ok a none =>
    change r.Verdict (xs ++ ys) (f a)
    have split : (xs ++ ys).find? (r.exceeds ·.2) = ys.find? (r.exceeds ·.2) := by
      rw [List.find?_append, none, Option.none_or]
    have second := next a rfl
    generalize f a = result at second ⊢
    cases second with
    | ok clear => exact .ok (split.trans clear)
    | error found => exact .error (split.trans found)
  | error found => exact .error (by rw [List.find?_append, found, Option.some_or])

theorem map {f : α → Except Error β} (first : r.Verdict xs m)
    (total : ∀ a, ∃ b, f a = .ok b) : r.Verdict xs (m >>= f) := by
  rw [← List.append_nil xs]
  refine first.bind fun a _ => ?_
  obtain ⟨b, ok⟩ := total a
  rw [ok]
  exact .ok rfl

/-- There is a result exactly if no body exceeds the limit. -/
theorem ok_iff (verdict : r.Verdict xs m) :
    (∃ a, m = .ok a) ↔ ∀ x ∈ xs, r.bodyStride x.2 ≤ r.maxStride := by
  have clear : xs.find? (r.exceeds ·.2) = none ↔ ∀ x ∈ xs, r.bodyStride x.2 ≤ r.maxStride := by
    simp [List.find?_eq_none, exceeds]
  rw [← clear]
  cases verdict with
  | ok none => simp [none]
  | error found => simp [found]

end Verdict

/-- The slots of the strategy hold payloads of at most 64 bits. -/
def Holds (r : LayoutRules) : Prop := ∀ width ≤ 64, width ≤ (r.strategy.slotBits width).toNat

theorem Holds.slot_eq (holds : r.Holds) (path : String) {width : Nat} (narrow : width ≤ 64) :
    r.slot path width = .ok (r.strategy.slotBits width) :=
  if_neg (Nat.not_lt.mpr (holds width narrow))

end LayoutRules

/-- The fields of the struct are at most 64 bits wide, and if they are the members of a
union, there are some and none is an object. -/
structure Schema.Placeable (s : Schema) : Prop where
  narrow : ∀ f ∈ s.fields, f.type.width ≤ 64
  counted : s.fields.length < UInt64.size
  union : s.flags.union = true → s.fields ≠ [] ∧ ∀ f ∈ s.fields, f.type.isObject = false

namespace LayoutRules

theorem checkRoot_eq_ok {s : Schema} :
    s.checkRoot = .ok () ↔ s.flags.list = false ∧ s.flags.optional = false := by
  rw [Schema.checkRoot]
  cases s.flags.list <;> cases s.flags.optional <;> simp

theorem checkUnion_eq_ok {s : Schema} : s.checkUnion = .ok () ↔
    (s.flags.union = true → s.fields ≠ [] ∧ ∀ f ∈ s.fields, f.type.isObject = false) := by
  rw [(Schema.judged_checkUnion s).ok_iff, and_iff_left rfl, Schema.UnionRule]
  simp only [ne_eq, ← FieldType.isObject_iff, Bool.not_eq_true]

end LayoutRules

namespace Schema

theorem Buildable.placeable {s : Schema} (buildable : s.Buildable) :
    ∀ body ∈ s.bodies, body.Placeable := by
  intro body member
  have typed := buildable.typed body member
  have union := (buildable.regular body member).union
  have narrow (f : Field) (inside : f ∈ body.fields) : f.type.width ≤ 64 :=
    FieldType.width_le_of_admissible (typed.admissible f inside)
  exact ⟨narrow, typed.counted,
    LayoutRules.checkUnion_eq_ok.mp ((judged_checkUnion body).ok_iff.mpr ⟨union, rfl⟩)⟩

end Schema

namespace LayoutRules

theorem widest_le {fields : List Field} {width : Nat}
    (narrow : ∀ f ∈ fields, f.type.width ≤ width) : widest fields ≤ width := by
  have grows (fields : List Field) : ∀ start ≤ width, (∀ f ∈ fields, f.type.width ≤ width) →
      fields.foldl (fun width f => max width f.type.width) start ≤ width := by
    induction fields with
    | nil => exact fun start bound _ => bound
    | cons f rest ih =>
      intro start bound narrow
      obtain ⟨first, others⟩ := List.forall_mem_cons.mp narrow
      exact ih _ (Nat.max_le.mpr ⟨bound, first⟩) others
  exact grows fields 0 (Nat.zero_le _) narrow

variable {r : LayoutRules} {s : Schema}

theorem placeFields_ok (holds : r.Holds) {fields : List Field}
    (narrow : ∀ f ∈ fields, f.type.width ≤ 64) (place : Place) (owner : StructId) (id : FieldId)
    (cursor : UInt64) (room : cursor.toNat + r.ownExtent fields false < UInt64.size) :
    ∃ placed finish, r.placeFields place owner id cursor fields = .ok (placed, finish) := by
  induction fields generalizing id cursor with
  | nil => exact ⟨_, _, rfl⟩
  | cons f rest ih =>
    obtain ⟨first, others⟩ := List.forall_mem_cons.mp narrow
    rw [ownExtent_cons] at room
    have fits : cursor.toNat + (r.strategy.slotBits f.type.width).toNat < UInt64.size := by omega
    obtain ⟨placed, finish, ok⟩ := ih others (id + 1)
      (cursor + r.strategy.slotBits f.type.width) (by rw [toNat_add_exact fits]; omega)
    exact ⟨_, finish, placeFields_cons_eq_ok.mpr
      ⟨_, placed, holds.slot_eq place.path first, fits, ok, rfl⟩⟩

/-- The own fields of a struct that was built are placed where there is room for them. -/
theorem placeOwn_ok (holds : r.Holds) (placeable : s.Placeable) (place : Place) (counts : Counts)
    (union : Bool) (room : place.offset.toNat + r.ownExtent s.fields union < UInt64.size) :
    ∃ own, r.placeOwn place counts s union = .ok own := by
  cases union with
  | false =>
    obtain ⟨placed, finish, ok⟩ := placeFields_ok holds placeable.narrow place counts.structs
      counts.fields place.offset room
    exact ⟨_, (PlacesOwn.plain ok).placeOwn_eq⟩
  | true =>
    have narrow := widest_le placeable.narrow
    have checked : s.checkUnion = .ok () := checkUnion_eq_ok.mpr placeable.union
    have region := holds.slot_eq place.path narrow
    have tag := holds.slot_eq place.path (tagWidth_le placeable.counted)
    obtain ⟨regionFits, tagFits⟩ := room_union room
    exact ⟨_, (PlacesOwn.union checked narrow region tag regionFits tagFits).placeOwn_eq⟩

/-- Only the limit can refuse the struct or a struct below it. -/
structure Unhindered (r : LayoutRules) (s : Schema) : Prop where
  holds : r.Holds
  fits : r.Fits s
  placeable : ∀ body ∈ s.bodies, body.Placeable

theorem Unhindered.child {child : Schema} (unhindered : r.Unhindered s)
    (member : child ∈ s.children) : r.Unhindered child where
  holds := unhindered.holds
  fits := unhindered.fits.child member
  placeable body below :=
    unhindered.placeable body (Schema.mem_bodies.mpr (.inr ⟨child, member, below⟩))

/-- A stride is compared with the limit. -/
theorem verdict_stride (fits : r.Fits s) (path : String) :
    r.Verdict [(if path.isEmpty then s.name else path, s)]
      (r.stride path s.name (UInt64.ofNat (r.extent s))) := by
  have covered : ¬ r.bodyStride s < UInt64.ofNat (r.extent s) := by
    rw [UInt64.lt_iff_toNat_lt, UInt64.toNat_ofNat_of_lt' fits.extent_lt]
    exact Nat.not_lt.mpr fits.extent_le
  rw [stride]
  change r.Verdict _ (if r.bodyStride s < UInt64.ofNat (r.extent s) then _ else
    if r.maxStride < r.bodyStride s then .error (.compilation _ (.strideOverLimit (r.bodyStride s)
      r.maxStride)) else .ok (r.bodyStride s))
  rw [if_neg covered]
  by_cases greater : r.maxStride < r.bodyStride s
  · rw [if_pos greater]
    exact .error (List.find?_cons_of_pos (decide_eq_true greater))
  · rw [if_neg greater]
    exact .ok (List.find?_cons_of_neg (by simpa [exceeds] using greater))

theorem verdict_children {children : List Schema} (holds : r.Holds)
    (each : ∀ child ∈ children, ∀ place counts,
      place.offset.toNat + r.extent child < UInt64.size →
      r.Verdict (child.completed place.path) (r.placeStruct place counts child))
    (fits : ∀ child ∈ children, r.Fits child) (below : Place) (cursor : UInt64) (counts : Counts)
    (room : cursor.toNat + r.childrenExtent children < UInt64.size) :
    r.Verdict (Schema.completedBelow below.path children)
      (r.placeChildren below cursor counts children) := by
  induction children generalizing cursor counts with
  | nil =>
    rw [placeChildren]
    exact .ok rfl
  | cons child rest ih =>
    obtain ⟨first, others⟩ := List.forall_mem_cons.mp each
    obtain ⟨inside, insides⟩ := List.forall_mem_cons.mp fits
    rw [placeChildren, Schema.completedBelow]
    cases list : child.flags.list with
    | true =>
      rw [childrenExtent_list r list] at room
      simp only [if_true]
      refine Verdict.bind (first .root .root inside.room) fun placed _ => ?_
      exact (ih others insides _ _ room).map fun _ => ⟨_, rfl⟩
    | false =>
      simp only [Bool.false_eq_true, if_false]
      cases optional : child.flags.optional with
      | true =>
        have left := room_optional list optional room
        simp only [if_true, holds.slot_eq below.path (show 1 ≤ 64 by decide)]
        show r.Verdict _ (advance cursor (r.strategy.slotBits 1) >>= _)
        rw [advance_ok left.bit]
        show r.Verdict _ (r.placeStruct _ _ child >>= _)
        refine Verdict.bind (first (below.optional cursor counts.segments child) _ inside.room)
          fun placed _ => ?_
        exact (ih others insides _ _ left.others).map fun _ => ⟨_, rfl⟩
      | false =>
        have left := room_plain inside list optional room
        simp only [Bool.false_eq_true, if_false]
        refine Verdict.bind (first (below.child cursor child) counts left.body)
          fun placed ok => ?_
        obtain ⟨part, stride⟩ := placed
        obtain rfl := ((placement_exact r).1 _ _ _ _ _ ok).rounded
        show r.Verdict _ (advance cursor (r.bodyStride child) >>= _)
        rw [advance_ok left.stride]
        exact (ih others insides _ _ left.others).map fun _ => ⟨_, rfl⟩

theorem verdict_struct (unhindered : r.Unhindered s) (place : Place) (counts : Counts)
    (room : place.offset.toNat + r.extent s < UInt64.size) :
    r.Verdict (s.completed place.path) (r.placeStruct place counts s) := by
  induction s using Schema.children_induction generalizing place counts with
  | step s each =>
    have inside (child : Schema) (member : child ∈ s.children) := unhindered.child member
    have placeable := unhindered.placeable s (Schema.mem_bodies.mpr (.inl rfl))
    have kept : Schema.Placeable { s with flags := place.flagsOf s } :=
      ⟨placeable.narrow, placeable.counted, by
        rw [Place.union_flagsOf]
        exact placeable.union⟩
    rw [extent_eq] at room
    obtain ⟨own, ownOk⟩ := placeOwn_ok unhindered.holds kept place counts s.flags.union
      (by dsimp only; omega)
    have start := finish_placesOwn (placesOwn_of_ok ownOk)
    dsimp only at start
    -- The own fields come first, but nothing is refused there. What is left are the children,
    -- in their order, and then the stride of the body around them.
    rw [placeStruct_eq, ownOk, Schema.completed_eq]
    change r.Verdict _ (r.placeChildren (place.below counts.structs s) _ _ _ >>= _)
    refine Verdict.bind (verdict_children unhindered.holds
      (fun child member => each child member (inside child member))
      (fun child member => (inside child member).fits)
      (place.below counts.structs s) _ _ (by omega)) fun inner innerOk => ?_
    have last := ((placement_exact r).2 _ _ _ _ _ innerOk).sum
    rw [(finish_sub_offset (placesOwn_of_ok ownOk) last).1]
    exact (verdict_stride unhindered.fits place.path).map fun stride => ⟨_, rfl⟩

/-- A root that is neither a list nor optional is laid out unless a body exceeds the limit. -/
theorem verdict_layout (unhindered : r.Unhindered s) (checked : s.checkRoot = .ok ()) :
    r.Verdict (s.completed "") (r.layout s) := by
  rw [layout, checked]
  exact (verdict_struct unhindered .root .root unhindered.fits.room).map fun placed => ⟨_, rfl⟩

end LayoutRules

end BitRecords
