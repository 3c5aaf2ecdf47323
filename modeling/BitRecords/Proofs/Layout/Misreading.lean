import BitRecords.Proofs.Layout.Legible

/-!
# Structs are not read as fields

Neither the number of structs nor that of fields is fed, so the bytes of a struct could be
read as those of a field. From then on all further structs are, each behind three bytes
that are left of the one before it, and the first field of the one layout is read as a
field of the other, in the same place but with a longer path. No two layouts can have such
fields, as the bodies of all structs that the other one has are the same in both.
-/

namespace BitRecords

open Layout

variable {x y : List UInt8}

/-- The digest that is fed with a list. -/
def StructLayout.digestBytes (hash : List UInt8 → UInt64) (s : StructLayout) : List UInt8 :=
  s.element.elim [] fun element => wordBytes (element.digest hash).toNat

theorem Layout.structBytes_cons (hash : List UInt8 → UInt64) (s : StructLayout)
    (rest : List StructLayout) :
    structBytes hash (s :: rest) =
      s.mark.bytes ++ (s.digestBytes hash ++ structBytes hash rest) := by
  obtain ⟨id, name, path, parent, flags, segment, offset, stride, presence, chain, union, children,
    fields, element⟩ := s
  cases element <;> rw [structBytes] <;> rfl

theorem StructLayout.length_digestBytes_le (hash : List UInt8 → UInt64) (s : StructLayout) :
    (s.digestBytes hash).length ≤ 8 := by
  unfold digestBytes
  cases s.element with
  | none => exact Nat.zero_le _
  | some element => exact (length_wordBytes _).le

theorem Layout.fieldBytes_cons (f : FieldLayout) (rest : List FieldLayout) :
    fieldBytes (f :: rest) = f.mark.bytes ++ fieldBytes rest :=
  List.flatMap_cons

theorem Layout.length_strideBytes (segments : List Segment) :
    (strideBytes segments).length = 8 * segments.length := by
  rw [strideBytes, List.length_flatMap]
  simp [Nat.mul_comm]

/-- A field has more bytes than can be left of a struct. -/
theorem FieldMark.lt_length_bytes (m : FieldMark) : 11 < m.bytes.length := by
  simp only [FieldMark.bytes, FieldMark.placeBytes, textBytes, FieldType.bytes, List.length_append,
    length_wordBytes, List.length_singleton]
  omega

/-- A path that is read where some bytes and another path stand is those bytes and that path,
unless it ends within the bytes. -/
theorem path_of_pending {pending : List UInt8} {path path' : String}
    (longer : ¬ textBytes path <+: pending)
    (same : textBytes path ++ x = pending ++ (textBytes path' ++ y)) :
    utf8Bytes path = pending ++ utf8Bytes path' ∧ x = y := by
  obtain ⟨c, front⟩ := (List.prefix_or_prefix_of_prefix (List.prefix_append pending _)
    (same ▸ List.prefix_append _ x)).resolve_right longer
  rcases List.eq_nil_or_concat c with rfl | ⟨c, last, rfl⟩
  · rw [List.append_nil] at front
    exact absurd (front ▸ List.prefix_rfl) longer
  · rw [List.concat_eq_append, textBytes, ← List.append_assoc] at front
    obtain ⟨text, ends⟩ := List.append_inj' front rfl
    cases ends
    have first : 0xFF ∉ c := fun member =>
      end_not_mem path (text ▸ List.mem_append_right pending member)
    rw [textBytes, ← text, List.append_assoc, List.append_assoc, textBytes, List.append_assoc] at same
    obtain ⟨rfl, rest⟩ :=
      append_cons_inj_of_not_mem first (end_not_mem path') (List.append_cancel_left same)
    exact ⟨text.symm, rest⟩

/-- A struct that is read as a field is neither optional nor a union, and has three bytes more
than the field, if that is no union member. -/
theorem rest_of_struct {m : StructMark} {k : FieldMark}
    (presence : m.presence.isSome = true → m.flags.optional = true)
    (union : m.union.isSome = (m.flags.union && !m.flags.list))
    (same : k.placeBytes ++ x = m.placeBytes ++ y) :
    m.presence = none ∧ (k.tag = none ∧ x = 0 :: 0 :: 0 :: y ∨
      ∃ n, k.tag = some n ∧ halfBytes n ++ x = 0 :: 0 :: 0 :: y) := by
  have word (n : Nat) : wordBytes n = UInt8.ofNat n :: UInt8.ofNat (n / 256) ::
      UInt8.ofNat (n / 256 / 256) :: toLittleEndian 5 (n / 256 / 256 / 256) := rfl
  have small : k.type.index / 256 = 0 :=
    Nat.div_eq_of_lt (Nat.lt_trans k.type.index_lt (by decide))
  have unset {b : Bool} (zero : UInt8.ofNat 0 = b.toUInt8) : b = false := by
    cases b with
    | false => rfl
    | true => exact absurd zero (by decide)
  simp only [FieldMark.placeBytes, FieldType.bytes, StructMark.placeBytes, Flags.bytes,
    List.append_assoc, word k.type.index, List.cons_append, List.nil_append, List.cons.injEq] at same
  obtain ⟨list, optional, isUnion, same⟩ := same
  rw [small] at optional isUnion same
  have notOptional := unset optional
  have notUnion := unset isUnion
  have single : m.presence = none := by
    cases here : m.presence with
    | none => rfl
    | some slot =>
      rw [here, notOptional] at presence
      exact absurd (presence rfl) (by decide)
  have whole : m.union = none := by
    rw [notUnion, Bool.false_and] at union
    exact Option.isNone_iff_eq_none.mp (Option.isSome_eq_false_iff.mp union)
  have bare : k.type.widthBytes = [] := by
    cases type : k.type with
    | unsigned width =>
      rw [type] at list
      change UInt8.ofNat 5 = m.flags.list.toUInt8 at list
      cases here : m.flags.list <;> rw [here] at list <;> exact absurd list (by decide)
    | bool | int8 | int16 | int32 | int64 | float32 | float64 | object => rfl
  -- The field ends five bytes into the word that tells that there is no presence bit.
  have ends : (toLittleEndian 5 (0 / 256 / 256) ++ wordBytes k.segment ++ wordBytes k.offset.toNat) ++
        (optionBytes halfBytes k.tag ++ x) =
      (wordBytes m.segment ++ wordBytes m.offset.toNat ++ (wordBytes m.stride.toNat).take 5) ++
        (((wordBytes m.stride.toNat).drop 5 ++ [0, 0, 0, 0, 0]) ++ ([0, 0, 0] ++ y)) := by
    have zeros : optionBytes Slot.bytes none = [0, 0, 0, 0, 0] ++ [0, 0, 0] := rfl
    rw [bare, single, whole, zeros, ← List.take_append_drop 5 (wordBytes m.stride.toNat)] at same
    simpa only [List.append_assoc, List.nil_append, Option.elim_none] using same
  have rest := (List.append_inj ends (by simp)).2
  refine ⟨single, ?_⟩
  cases tag : k.tag with
  | none =>
    rw [tag] at rest
    exact .inl ⟨rfl, (List.append_inj rest (by simp [optionBytes])).2⟩
  | some n =>
    rw [tag, optionBytes, List.append_assoc] at rest
    exact .inr ⟨n, rfl, (List.append_inj rest (by simp)).2⟩

/-- The first struct behind some bytes is read as a field. Three of its bytes are left. -/
theorem face_struct {z : StructLayout} {f : FieldLayout} {fields : List FieldLayout}
    {pending : List UInt8} (told : z.Told) (members : FirstMember (f :: fields))
    (longer : ¬ textBytes f.path <+: pending)
    (same : f.mark.bytes ++ x = pending ++ (z.mark.bytes ++ y)) :
    f.tag = none ∧ z.presence = none ∧ x = 0 :: 0 :: 0 :: y := by
  rw [FieldMark.bytes, StructMark.bytes, List.append_assoc, List.append_assoc] at same
  obtain ⟨-, places⟩ := path_of_pending longer same
  have union : z.mark.union.isSome = (z.flags.union && !z.flags.list) := by
    rw [StructLayout.mark, Option.isSome_map]
    exact told.union
  obtain ⟨presence, single | ⟨n, tag, behind⟩⟩ := rest_of_struct told.presence union places
  · exact ⟨single.1, presence, single.2⟩
  · have first : f.tag = some 1 := by
      refine members f (List.find?_cons_of_pos ?_)
      exact congrArg Option.isSome tag
    obtain rfl : n = 1 := Option.some.inj (tag.symm.trans first)
    exact absurd (List.cons.inj behind).1 (by decide)

/-- The field `f` is read behind others from the bytes of the field `a`, in the same place. -/
structure Misread (before : List FieldLayout) (f a : FieldLayout) : Prop where
  single : ∀ g ∈ before, g.tag = none
  path : ∃ bytes, bytes ≠ [] ∧ utf8Bytes f.path = bytes ++ utf8Bytes a.path
  place : f.mark.SamePlace a.mark

/-- No path ends in what is left of a struct with the digest that follows it. -/
def StructLayout.Unspelled (hash : List UInt8 → UInt64) (s : StructLayout)
    (fields : List FieldLayout) : Prop :=
  ∀ f ∈ fields, ¬ textBytes f.path <+: 0 :: 0 :: 0 :: s.digestBytes hash

/-- It is enough that no path begins with a zero. -/
theorem StructLayout.unspelled {hash : List UInt8 → UInt64} {s : StructLayout}
    {fields : List FieldLayout} (shown : ∀ f ∈ fields, (utf8Bytes f.path).head? ≠ some 0) :
    s.Unspelled hash fields := by
  intro f member front
  have shown := shown f member
  rw [textBytes] at front
  cases path : utf8Bytes f.path with
  | nil =>
    rw [path, List.nil_append, List.cons_prefix_cons] at front
    exact absurd front.1 (by decide)
  | cons b rest =>
    rw [path, List.cons_append, List.cons_prefix_cons] at front
    exact shown (path ▸ congrArg some front.1)

section Run

variable {hash : List UInt8 → UInt64} {a : List FieldLayout} {segments segments' : List Segment}

/-- When all structs have been read as fields, the first field is read behind what is left. -/
theorem face_field {fields : List FieldLayout} {pending : List UInt8}
    (narrow : ∀ f ∈ a, f.mark.Narrow) (narrow' : ∀ f ∈ fields, f.mark.Narrow)
    (longer : ∀ f ∈ fields, ¬ textBytes f.path <+: pending) (some : pending ≠ [])
    (short : pending.length ≤ 11) (counted : segments.length = segments'.length)
    (same : pending ++ (fieldBytes a ++ strideBytes segments) =
      fieldBytes fields ++ strideBytes segments') :
    ∃ f after first rest, fields = f :: after ∧ a = first :: rest ∧ Misread [] f first := by
  have lengths := congrArg List.length same
  simp only [List.length_append, length_strideBytes, counted] at lengths
  have behind := List.length_pos_iff.mpr some
  cases fields with
  | nil =>
    simp only [fieldBytes, List.flatMap_nil, List.length_nil] at lengths
    omega
  | cons f after =>
    cases a with
    | nil =>
      have long := f.mark.lt_length_bytes
      rw [fieldBytes_cons, List.length_append] at lengths
      simp only [fieldBytes, List.flatMap_nil, List.length_nil] at lengths
      omega
    | cons first rest =>
      refine ⟨f, after, first, rest, rfl, rfl, ?_⟩
      rw [fieldBytes_cons, fieldBytes_cons, FieldMark.bytes, FieldMark.bytes] at same
      simp only [List.append_assoc] at same
      obtain ⟨path, places⟩ := path_of_pending (longer f List.mem_cons_self) same.symm
      obtain ⟨place, -⟩ := FieldMark.placeBytes_append_inj (narrow' f List.mem_cons_self)
        (narrow first List.mem_cons_self) places
      exact ⟨by simp, ⟨pending, some, path⟩, place⟩

/-- All structs that are left are read as fields. -/
theorem misread_structs {zs : List StructLayout} {fields : List FieldLayout}
    {pending : List UInt8} (told : ∀ z ∈ zs, z.Told) (members : FirstMember fields)
    (narrow : ∀ f ∈ a, f.mark.Narrow) (narrow' : ∀ f ∈ fields, f.mark.Narrow)
    (unspelled : ∀ z ∈ zs, z.Unspelled hash fields)
    (longer : ∀ f ∈ fields, ¬ textBytes f.path <+: pending) (some : zs = [] → pending ≠ [])
    (short : pending.length ≤ 11)
    (counted : segments.length = segments'.length + zs.countP (·.presence.isSome))
    (same : pending ++ (structBytes hash zs ++ (fieldBytes a ++ strideBytes segments)) =
      fieldBytes fields ++ strideBytes segments') :
    ∃ before f after first rest, fields = before ++ f :: after ∧ a = first :: rest ∧
      before.length = zs.length ∧ Misread before f first := by
  induction zs generalizing fields pending with
  | nil =>
    rw [structBytes, List.nil_append] at same
    obtain ⟨f, after, first, rest, split, split', misread⟩ :=
      face_field narrow narrow' longer (some rfl) short counted same
    exact ⟨[], f, after, first, rest, split, split', rfl, misread⟩
  | cons z zs ih =>
    rw [structBytes_cons] at same
    cases fields with
    | nil =>
      have lengths := congrArg List.length same
      simp only [StructMark.bytes, textBytes, fieldBytes, List.flatMap_nil, List.length_append,
        length_strideBytes, List.length_singleton, List.length_nil] at lengths
      omega
    | cons f fields =>
      obtain ⟨here, told⟩ := List.forall_mem_cons.mp told
      obtain ⟨unspelledHere, unspelled⟩ := List.forall_mem_cons.mp unspelled
      rw [fieldBytes_cons] at same
      simp only [List.append_assoc] at same
      obtain ⟨single, presence, rest⟩ :=
        face_struct here members (longer f List.mem_cons_self) same.symm
      have bound := z.length_digestBytes_le hash
      have longer : ∀ g ∈ fields, ¬ textBytes g.path <+: 0 :: 0 :: 0 :: z.digestBytes hash :=
        fun g member => unspelledHere g (List.mem_cons_of_mem _ member)
      obtain ⟨before, g, after, first, rest, split, split', length, misread⟩ := ih told
        (members.tail single) (fun g member => narrow' g (List.mem_cons_of_mem _ member))
        (fun z member g inside => unspelled z member g (List.mem_cons_of_mem _ inside)) longer
        (fun _ => by simp)
        (by simp only [List.length_cons]; omega)
        (by rw [counted, List.countP_cons_of_neg (by simp [presence])]) rest.symm
      refine ⟨f :: before, g, after, first, rest, by rw [split, List.cons_append], split', ?_,
        List.forall_mem_cons.mpr ⟨single, misread.single⟩, misread.path, misread.place⟩
      rw [List.length_cons, List.length_cons, length]

end Run

/-- A path that is longer at the front cannot go on below the same struct with a name only. -/
theorem not_behind_bytes {front name rest : String} {bytes : List UInt8} (plain : PlainName name)
    (some : bytes ≠ []) (same : utf8Bytes (front ++ "." ++ name) =
      bytes ++ utf8Bytes (front ++ "." ++ rest)) : False := by
  simp only [utf8Bytes_append, utf8Bytes_dot, List.append_assoc, List.singleton_append] at same
  rw [← List.append_assoc] at same
  rcases List.append_eq_append_iff.mp same with ⟨c, longer, tail⟩ | ⟨c, shorter, -⟩
  · have lengths := congrArg List.length longer
    have behind := List.length_pos_iff.mpr some
    simp only [List.length_append] at lengths
    cases c with
    | nil =>
      rw [List.length_nil] at lengths
      omega
    | cons dot c =>
      have dotted : 0x2E ∈ utf8Bytes name := by
        rw [(List.cons.inj tail).2]
        exact List.mem_append_right c List.mem_cons_self
      exact plain.dotless (dot_mem_utf8Bytes.mp dotted)
  · have lengths := congrArg List.length shorter
    have behind := List.length_pos_iff.mpr some
    simp only [List.length_append] at lengths
    omega

/-- The body of a struct and the bits of a field are told by their marks. -/
theorem StructLayout.Holds.of_mark {s s' : StructLayout} {f first : FieldLayout}
    (holds : s'.Holds f.bits) (mark : s.mark = s'.mark) (place : f.mark.SamePlace first.mark) :
    s.Holds first.bits := by
  have segment : s.segment = s'.segment := congrArg StructMark.segment mark
  have start : s.offset = s'.offset := congrArg StructMark.offset mark
  have stride : s.stride = s'.stride := congrArg StructMark.stride mark
  have fieldSegment : f.segment = first.segment := place.segment
  have offset : f.offset = first.offset := place.offset
  have width : f.width = first.width := congrArg FieldType.width place.type
  unfold Holds body FieldLayout.bits at holds ⊢
  dsimp only at holds ⊢
  rw [segment, start, stride, ← fieldSegment, ← offset, ← width]
  exact ⟨holds.segment, holds.start, holds.finish⟩

namespace Layout

variable {l l' : Layout}

/-- A field that is read in the place of the first field of another layout would lie in a body
that both layouts have. There the path of the first field goes on below the same struct. -/
theorem not_misread (placed : l.Placed) (placed' : l'.Placed) (typed : l.Typed)
    (typed' : l'.Typed) (marks : ∀ s' ∈ l'.structs, ∃ s ∈ l.structs, s.mark = s'.mark)
    {before after rest : List FieldLayout} {f first : FieldLayout}
    (fields : l.fields = first :: rest) (fields' : l'.fields = before ++ f :: after)
    (some : before ≠ []) : ¬ Misread before f first := by
  rintro ⟨single, ⟨bytes, filled, path⟩, place⟩
  have member : first ∈ l.fields := fields ▸ List.mem_cons_self
  have member' : f ∈ l'.fields := fields' ▸ List.mem_append_right _ List.mem_cons_self
  obtain ⟨s', inside', name, plain, named, holds⟩ := placed'.settled.owned f member'
  obtain ⟨s, inside, mark⟩ := marks s' inside'
  have samePath : s.path = s'.path := congrArg StructMark.path mark
  by_cases root : s'.path = ""
  · rw [root] at named
    have named : f.path = name := named
    have dotless : '.' ∉ f.path.toList := named ▸ plain.dotless
    have dotless' : '.' ∉ first.path.toList := by
      rw [← dot_mem_utf8Bytes] at dotless ⊢
      exact fun dotted => dotless (path ▸ List.mem_append_right bytes dotted)
    have start : first.offset = 0 := (placed.first fields).1 first member dotless'
    cases before with
    | nil => exact absurd rfl some
    | cons g before =>
      have split : l'.fields = g :: (before ++ f :: after) := fields'
      have wide : 0 < g.width := FieldType.width_pos_of_admissible
        (typed'.fields g (split ▸ List.mem_cons_self))
      refine (placed'.first split).2 (single g List.mem_cons_self) wide f
        (List.mem_append_right _ List.mem_cons_self) dotless ?_
      exact place.offset.trans start
  · have leads := placed.settled.leads inside member
      (FieldType.width_pos_of_admissible (typed.fields first member)) (holds.of_mark mark place)
    obtain ⟨rest, longer⟩ := path_of_leads leads (samePath ▸ root)
    have joined : f.path = s'.path ++ "." ++ name := by
      rw [named, joinPath, if_neg]
      exact fun empty => root (String.isEmpty_iff.mp empty)
    rw [joined, longer, samePath] at path
    exact not_behind_bytes plain filled path

end Layout

end BitRecords
