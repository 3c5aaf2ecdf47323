import BitRecords.Proofs.Layout.Misreading

/-!
# Layouts with one digest

Two layouts with the same digest have the same fingerprint, if the hash tells apart what it
is fed with. The fed bytes are read from the front: first the structs that both layouts
have, of which there are no more in either, then the fields, then the strides. All but the
numbers of union members can be read back, and these follow from the schema.
-/

namespace BitRecords

open Layout

variable {hash : List UInt8 → UInt64} {x y : List UInt8}

/-- The mark without the number of a union member. -/
def FieldMark.unnumbered (m : FieldMark) : FieldMark := { m with tag := none }

theorem FieldMark.unnumbered_eq {m m' : FieldMark} (path : m.path = m'.path)
    (place : m.SamePlace m') : m.unnumbered = m'.unnumbered := by
  simp only [unnumbered, path, place.type, place.segment, place.offset]

theorem FieldLayout.mark_eq {f f' : FieldLayout} (mark : f.mark.unnumbered = f'.mark.unnumbered)
    (outline : f.outline = f'.outline) : f.mark = f'.mark := by
  cases f
  cases f'
  simp_all [FieldLayout.outline, FieldLayout.mark, FieldMark.unnumbered]

namespace Layout

/-- What is fed of the structs is the same. -/
structure SameMarks (hash : List UInt8 → UInt64) (xs ys : List StructLayout) : Prop where
  marks : xs.map (·.mark) = ys.map (·.mark)
  digests : xs.map (·.element.map (digest hash)) = ys.map (·.element.map (digest hash))

theorem SameMarks.cons {s s' : StructLayout} {xs ys : List StructLayout} (mark : s.mark = s'.mark)
    (digest : s.element.map (digest hash) = s'.element.map (Layout.digest hash))
    (rest : SameMarks hash xs ys) : SameMarks hash (s :: xs) (s' :: ys) :=
  ⟨congrArg₂ List.cons mark rest.marks, congrArg₂ List.cons digest rest.digests⟩

theorem digestBytes_append_inj {s s' : StructLayout} (lists : s.isList = s'.isList)
    (same : s.digestBytes hash ++ x = s'.digestBytes hash ++ y) :
    s.element.map (digest hash) = s'.element.map (digest hash) ∧ x = y := by
  unfold StructLayout.isList at lists
  unfold StructLayout.digestBytes at same
  cases inside : s.element with
  | none =>
    rw [inside] at lists same
    rw [Option.isNone_iff_eq_none.mp (Option.isSome_eq_false_iff.mp lists.symm)] at same ⊢
    exact ⟨rfl, same⟩
  | some element =>
    rw [inside] at lists same
    obtain ⟨element', inside'⟩ := Option.isSome_iff_exists.mp lists.symm
    rw [inside'] at same ⊢
    obtain ⟨digests, rest⟩ := word_append_inj same
    exact ⟨congrArg some digests, rest⟩

/-- Structs are read as long as both layouts have some. -/
theorem split_structBytes {xs ys : List StructLayout} (told : ∀ s ∈ xs, s.Told)
    (told' : ∀ s ∈ ys, s.Told) (narrow : ∀ s ∈ xs, s.mark.Narrow)
    (narrow' : ∀ s ∈ ys, s.mark.Narrow)
    (same : structBytes hash xs ++ x = structBytes hash ys ++ y) :
    ∃ common common' zs zs', xs = common ++ zs ∧ ys = common' ++ zs' ∧ (zs = [] ∨ zs' = []) ∧
      SameMarks hash common common' ∧ structBytes hash zs ++ x = structBytes hash zs' ++ y := by
  induction xs generalizing ys with
  | nil => exact ⟨[], [], [], ys, rfl, rfl, .inl rfl, ⟨rfl, rfl⟩, same⟩
  | cons s xs ih =>
    cases ys with
    | nil => exact ⟨[], [], s :: xs, [], rfl, rfl, .inr rfl, ⟨rfl, rfl⟩, same⟩
    | cons s' ys =>
      obtain ⟨here, told⟩ := List.forall_mem_cons.mp told
      obtain ⟨here', told'⟩ := List.forall_mem_cons.mp told'
      obtain ⟨narrowHere, narrow⟩ := List.forall_mem_cons.mp narrow
      obtain ⟨narrowHere', narrow'⟩ := List.forall_mem_cons.mp narrow'
      simp only [structBytes_cons, List.append_assoc] at same
      obtain ⟨mark, same⟩ := StructMark.bytes_append_inj narrowHere narrowHere' same
      have lists : s.isList = s'.isList := by
        rw [here.list, here'.list]
        exact congrArg (·.flags.list) mark
      obtain ⟨digest, same⟩ := digestBytes_append_inj lists same
      obtain ⟨common, common', zs, zs', rfl, rfl, ended, marks, rest⟩ :=
        ih told told' narrow narrow' same
      exact ⟨s :: common, s' :: common', zs, zs', rfl, rfl, ended, marks.cons mark digest, rest⟩

theorem strideBytes_inj {segments segments' : List Segment}
    (counted : segments.length = segments'.length)
    (same : strideBytes segments = strideBytes segments') :
    segments.map (·.stride) = segments'.map (·.stride) := by
  induction segments generalizing segments' with
  | nil =>
    rw [List.length_eq_zero_iff.mp counted.symm]
  | cons g segments ih =>
    cases segments' with
    | nil => cases counted
    | cons g' segments' =>
      obtain ⟨stride, same⟩ := word_append_inj (a := g.stride) (b := g'.stride) same
      rw [List.map_cons, List.map_cons, stride, ih (Nat.succ.inj counted) same]

theorem fieldBytes_ne_strideBytes {f : FieldLayout} {fields : List FieldLayout}
    {segments segments' : List Segment} (counted : segments.length = segments'.length) :
    fieldBytes (f :: fields) ++ strideBytes segments ≠ strideBytes segments' := by
  intro same
  have lengths := congrArg List.length same
  have long := f.mark.lt_length_bytes
  simp only [fieldBytes_cons, List.length_append, length_strideBytes, counted] at lengths
  omega

/-- With as many segments in both layouts, fields are read as long as there are some. -/
theorem fieldBytes_inj {fields fields' : List FieldLayout} {segments segments' : List Segment}
    (narrow : ∀ f ∈ fields, f.mark.Narrow) (narrow' : ∀ f ∈ fields', f.mark.Narrow)
    (counted : segments.length = segments'.length)
    (same : fieldBytes fields ++ strideBytes segments =
      fieldBytes fields' ++ strideBytes segments') :
    fields.map (·.mark.unnumbered) = fields'.map (·.mark.unnumbered) ∧
      segments.map (·.stride) = segments'.map (·.stride) := by
  induction fields generalizing fields' with
  | nil =>
    cases fields' with
    | nil => exact ⟨rfl, strideBytes_inj counted same⟩
    | cons f' fields' => exact absurd same.symm (fieldBytes_ne_strideBytes counted.symm)
  | cons f fields ih =>
    cases fields' with
    | nil => exact absurd same (fieldBytes_ne_strideBytes counted)
    | cons f' fields' =>
      obtain ⟨here, narrow⟩ := List.forall_mem_cons.mp narrow
      obtain ⟨here', narrow'⟩ := List.forall_mem_cons.mp narrow'
      simp only [fieldBytes_cons, FieldMark.bytes, List.append_assoc] at same
      obtain ⟨path, same⟩ := textBytes_append_inj same
      obtain ⟨place, same⟩ := FieldMark.placeBytes_append_inj here here' same
      obtain ⟨fields, strides⟩ := ih narrow narrow' same
      exact ⟨congrArg₂ List.cons (FieldMark.unnumbered_eq path place) fields, strides⟩

end Layout

/-- What is asked of a hash that two layouts are fed to. It is injective on what is fed. As the
digests of elements are fed as bytes, these could be read as the end of a path, if the path
begins with a zero; no digest in the one layout spells the end of such a path of the other. -/
structure IdealHash (hash : List UInt8 → UInt64) (l l' : Layout) : Prop where
  injective : l.digest hash = l'.digest hash → l.feed hash = l'.feed hash
  unspelled : ∀ s ∈ l.structs, s.Unspelled hash l'.fields
  unspelled' : ∀ s ∈ l'.structs, s.Unspelled hash l.fields

namespace Layout

variable {l l' : Layout}

theorem feed_eq (hash : List UInt8 → UInt64) (l : Layout) :
    l.feed hash = textBytes l.strategy ++
      (structBytes hash l.structs ++ (fieldBytes l.fields ++ strideBytes l.segments)) := by
  cases l
  rw [feed]

theorem presences_eq {xs ys : List StructLayout} (marks : xs.map (·.mark) = ys.map (·.mark)) :
    xs.countP (·.presence.isSome) = ys.countP (·.presence.isSome) := by
  have shown (xs : List StructLayout) : xs.countP (·.presence.isSome) =
      (xs.map (·.mark)).countP (·.presence.isSome) := by
    rw [List.countP_map]
    rfl
  rw [shown, marks, ← shown]

/-- A layout that can be read back from its bytes. The ids of its segments are words. -/
structure Readable (l : Layout) : Prop where
  placed : l.Placed
  good : l.SoundTyped
  words : l.segments.length ≤ UInt64.size

theorem Readable.narrow_structs (readable : l.Readable) :
    ∀ s ∈ l.structs, s.mark.Narrow := fun _ member =>
  readable.placed.legible.narrow_struct readable.good.sound readable.placed.settled readable.words member

theorem Readable.narrow_fields (readable : l.Readable) :
    ∀ f ∈ l.fields, f.mark.Narrow := fun _ member =>
  readable.placed.settled.narrow_field readable.good.typed readable.words member

/-- A layout that has all structs of another one, as they are fed, has no more. -/
theorem no_more_structs (readable : l.Readable) (readable' : l'.Readable)
    (unspelled : ∀ s ∈ l.structs, s.Unspelled hash l'.fields) {common zs : List StructLayout}
    (structs : l.structs = common ++ zs) (marks : common.map (·.mark) = l'.structs.map (·.mark))
    (same : structBytes hash zs ++ (fieldBytes l.fields ++ strideBytes l.segments) =
      fieldBytes l'.fields ++ strideBytes l'.segments) : zs = [] := by
  by_contra more
  have inside : ∀ z ∈ zs, z ∈ l.structs := fun z member =>
    structs ▸ List.mem_append_right common member
  have counted : l.segments.length = l'.segments.length + zs.countP (·.presence.isSome) := by
    rw [readable.placed.legible.segments, readable'.placed.legible.segments, structs,
      List.countP_append, presences_eq marks]
    omega
  have alone : ∀ f ∈ l'.fields, ¬ textBytes f.path <+: [] := by
    intro f _ nothing
    simpa [textBytes] using List.prefix_nil.mp nothing
  obtain ⟨before, f, after, first, rest, split', split, length, misread⟩ := misread_structs
    (fun z member => readable.placed.legible.structs z (inside z member))
    readable'.placed.legible.members readable.narrow_fields readable'.narrow_fields
    (fun z member => unspelled z (inside z member)) alone (fun none => absurd none more)
    (Nat.zero_le _) counted same
  refine not_misread readable.placed readable'.placed readable.good.typed readable'.good.typed
    (fun s' member => ?_) split split' (fun none => ?_) misread
  · have found : s'.mark ∈ common.map (·.mark) := marks ▸ List.mem_map_of_mem member
    obtain ⟨s, member, mark⟩ := List.mem_map.mp found
    exact ⟨s, structs ▸ List.mem_append_left zs member, mark⟩
  · rw [none] at length
    exact more (List.length_eq_zero_iff.mp length.symm)

/-- What the numbers of union members add follows from the schema. -/
theorem Placed.outlines_eq (placed : l.Placed) (placed' : l'.Placed)
    (marks : l.structs.map (·.mark) = l'.structs.map (·.mark))
    (elements : l.structs.map (·.element.map fingerprint) =
      l'.structs.map (·.element.map fingerprint))
    (fields : l.fields.map (·.mark.unnumbered) = l'.fields.map (·.mark.unnumbered)) :
    l'.fields.map (·.outline) = l.fields.map (·.outline) := by
  have traces (fields : List FieldLayout) : fields.map (·.trace) =
      (fields.map (·.mark.unnumbered)).map fun mark => FieldTrace.mk mark.path mark.type := by
    rw [List.map_map]
    rfl
  have structTraces := StructLayout.traces_eq marks elements
  have fieldTraces : l.fields.map (·.trace) = l'.fields.map (·.trace) := by
    rw [traces, traces, fields]
  cases placed with
  | @intro r s part stride named ok =>
    cases placed' with
    | @intro r' s' part' stride' named' ok' =>
      have body : s.SameBody s' := LayoutRules.toldByTrace named _ _ _ _ _ _ _ _ _ ok ok' named' rfl
        ⟨structTraces.symm, fieldTraces.symm⟩
      obtain ⟨beside, okBeside, renamed⟩ := LayoutRules.placeStruct_of_sameBody body ok'
      rw [renamed]
      exact (LayoutRules.Versions.intro named ok okBeside).parts.2.1

theorem elementFingerprints_eq (structs : List StructLayout) :
    elementFingerprints structs = (structs.map (·.element.map fingerprint)).reduceOption := by
  induction structs with
  | nil =>
    rw [elementFingerprints]
    rfl
  | cons s rest ih =>
    rw [elementFingerprints_cons, ih, List.map_cons]
    cases s.element <;> rfl

/-- What follows from the digests of elements, for the elements of all lists. -/
theorem fingerprints_of_digests {xs ys : List StructLayout}
    (each : ∀ x ∈ xs, ∀ y ∈ ys, ∀ e e', x.element = some e → y.element = some e' →
      e.digest hash = e'.digest hash → e.fingerprint = e'.fingerprint)
    (same : xs.map (·.element.map (digest hash)) = ys.map (·.element.map (digest hash))) :
    xs.map (·.element.map fingerprint) = ys.map (·.element.map fingerprint) := by
  induction xs generalizing ys with
  | nil => simpa using same
  | cons x xs ih =>
    cases ys with
    | nil => simp at same
    | cons y ys =>
      simp only [List.map_cons, List.cons.injEq] at same ⊢
      obtain ⟨here, same⟩ := same
      refine ⟨?_, ih (fun x member y member' =>
        each x (List.mem_cons_of_mem _ member) y (List.mem_cons_of_mem _ member')) same⟩
      cases inX : x.element with
      | none =>
        rw [inX] at here
        rw [Option.map_eq_none_iff.mp here.symm]
      | some e =>
        rw [inX] at here
        obtain ⟨e', inY, digests⟩ := Option.map_eq_some_iff.mp here.symm
        rw [inY]
        exact congrArg some
          (each x List.mem_cons_self y List.mem_cons_self e e' inX inY digests.symm)

/-- The structs of both layouts are fed alike, and so are fields and strides. -/
theorem Readable.read_feed (readable : l.Readable) (readable' : l'.Readable) (ideal : IdealHash hash l l')
    (same : l.digest hash = l'.digest hash) :
    l.strategy = l'.strategy ∧ SameMarks hash l.structs l'.structs ∧
      l.fields.map (·.mark.unnumbered) = l'.fields.map (·.mark.unnumbered) ∧
      l.segments.map (·.stride) = l'.segments.map (·.stride) := by
  have legible := readable.placed.legible
  have legible' := readable'.placed.legible
  have fed := ideal.injective same
  rw [feed_eq, feed_eq] at fed
  obtain ⟨strategy, fed⟩ := textBytes_append_inj fed
  obtain ⟨common, common', zs, zs', structs, structs', ended, alike, rest⟩ := split_structBytes
    legible.structs legible'.structs readable.narrow_structs readable'.narrow_structs fed
  have ends : zs = [] ∧ zs' = [] := by
    rcases ended with rfl | rfl
    · rw [List.append_nil] at structs
      exact ⟨rfl, no_more_structs readable' readable ideal.unspelled' structs'
        (structs ▸ alike.marks.symm) rest.symm⟩
    · rw [List.append_nil] at structs'
      exact ⟨no_more_structs readable readable' ideal.unspelled structs (structs' ▸ alike.marks) rest,
        rfl⟩
  obtain ⟨rfl, rfl⟩ := ends
  rw [List.append_nil] at structs structs'
  subst structs structs'
  have counted : l.segments.length = l'.segments.length := by
    rw [legible.segments, legible'.segments, presences_eq alike.marks]
  obtain ⟨fields, strides⟩ :=
    fieldBytes_inj readable.narrow_fields readable'.narrow_fields counted rest
  exact ⟨strategy, alike, fields, strides⟩

/-- Layouts with one digest have one fingerprint, down to the elements of their lists. -/
theorem Compiled.fingerprint_eq (compiled : l.Compiled) (compiled' : l'.Compiled)
    (words : l.Throughout fun m => m.segments.length ≤ UInt64.size)
    (words' : l'.Throughout fun m => m.segments.length ≤ UInt64.size)
    (ideal : l.Throughout fun m => l'.Throughout (IdealHash hash m))
    (same : l.digest hash = l'.digest hash) : l.fingerprint = l'.fingerprint := by
  induction words generalizing l' with
  | @intro l here _ ih =>
    have readable : l.Readable := ⟨compiled.placed, compiled.soundTyped.here, here⟩
    have readable' : l'.Readable := ⟨compiled'.placed, compiled'.soundTyped.here, words'.here⟩
    obtain ⟨strategy, alike, fields, strides⟩ := readable.read_feed readable' ideal.here.here same
    have prints : l.structs.map (·.element.map fingerprint) =
        l'.structs.map (·.element.map fingerprint) := by
      refine fingerprints_of_digests (fun x member y member' e e' inX inY => ?_) alike.digests
      exact ih x member e inX (compiled.element member inX) (compiled'.element member' inY)
        (words'.element member' inY) ((ideal.element member inX).mono fun _ all =>
          all.element member' inY)
    have outlines := compiled.placed.outlines_eq compiled'.placed alike.marks prints fields
    have marks : l.fields.map (·.mark) = l'.fields.map (·.mark) :=
      map_eq_of_map_eq (fun _ _ => FieldLayout.mark_eq) fields outlines.symm
    have lists : elementFingerprints l.structs = elementFingerprints l'.structs := by
      rw [elementFingerprints_eq, elementFingerprints_eq, prints]
    have structs := alike.marks
    cases l
    cases l'
    dsimp only at strategy structs marks strides lists
    rw [fingerprint, fingerprint, strategy, structs, marks, strides, lists]

end Layout

end BitRecords
