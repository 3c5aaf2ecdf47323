import BitRecords.Proofs.Table.Bits

/-!
# Aligned layouts

The cursor of a placement moves by slots and strides only, and these are multiples of the
boundary that the strategy rounds to. So is every sum of them, and every multiple of a
stride, also where it wraps around, since the boundary divides the word range. Then a use
of at most as many bits as the boundary has does not cross a multiple of the boundary, in
no row, and so not the end of a word. If the boundary is the word, this goes for all uses.
-/

namespace BitRecords

open Layout

/-- The number of bits is a multiple of the boundary. -/
def Multiple (boundary bits : UInt64) : Prop := boundary.toNat ∣ bits.toNat

/-- The strategy answers with multiples of the boundary, which is a part of a word. -/
structure Strategy.Keeps (strategy : Strategy) (boundary : UInt64) : Prop where
  word : boundary.toNat ∣ 64
  slot : ∀ width, Multiple boundary (strategy.slotBits width)
  stride : ∀ extent, Multiple boundary (strategy.roundStride extent)

namespace Multiple

variable {boundary x y : UInt64}

theorem zero : Multiple boundary 0 := Nat.dvd_zero _

/-- Multiples stay multiples when they wrap around. -/
theorem wrap {n : Nat} (word : boundary.toNat ∣ 64) (multiple : boundary.toNat ∣ n) :
    boundary.toNat ∣ n % 2 ^ 64 :=
  (Nat.dvd_mod_iff (word.trans (by decide))).mpr multiple

theorem add (word : boundary.toNat ∣ 64) (left : Multiple boundary x)
    (right : Multiple boundary y) : Multiple boundary (x + y) := by
  rw [Multiple, UInt64.toNat_add]
  exact wrap word (Nat.dvd_add left right)

theorem mul_left (word : boundary.toNat ∣ 64) (right : Multiple boundary y) (x : UInt64) :
    Multiple boundary (x * y) := by
  rw [Multiple, UInt64.toNat_mul]
  exact wrap word (Nat.dvd_mul_left_of_dvd right _)

end Multiple

namespace Alignment

theorem bits_of_ofBits {a : Alignment} {boundary : UInt64} (ok : ofBits boundary = .ok a) :
    a.bits = boundary := by
  unfold ofBits at ok
  split_ifs at ok with h8 h16 h32 h64 <;> cases ok <;> symm <;> assumption

/-- Each boundary is kept by the strategy that is made of it. -/
theorem keeps (a : Alignment) : (Strategy.aligned a).Keeps a.bits := by
  have word : a.bits.toNat ∣ 64 := by cases a <;> decide
  have rounded (bits : UInt64) : Multiple a.bits (a.roundUp bits) :=
    Multiple.mul_left word (Nat.dvd_refl _) _
  exact ⟨word, fun _ => rounded _, rounded⟩

end Alignment

/-- The struct and what it stores about itself start at multiples of the boundary. -/
structure StructLayout.Aligned (boundary : UInt64) (s : StructLayout) : Prop where
  offset : Multiple boundary s.offset
  stride : Multiple boundary s.stride
  presence : ∀ slot, s.presence = some slot → Multiple boundary slot.offset
  region : ∀ u, s.union = some u → Multiple boundary u.offset
  tag : ∀ u, s.union = some u → Multiple boundary u.tag.offset

/-- All that a layout has starts at multiples of the boundary, in rows whose strides are
multiples too. -/
structure Layout.Aligned (boundary : UInt64) (l : Layout) : Prop where
  structs : ∀ s ∈ l.structs, s.Aligned boundary
  fields : ∀ f ∈ l.fields, Multiple boundary f.offset
  segments : ∀ g ∈ l.segments, Multiple boundary g.stride

/-- The same for a part of a layout. -/
structure Layout.Part.Aligned (boundary : UInt64) (p : Part) : Prop where
  structs : ∀ s ∈ p.structs, s.Aligned boundary
  fields : ∀ f ∈ p.fields, Multiple boundary f.offset
  segments : ∀ g ∈ p.segments, Multiple boundary g.stride

namespace Layout.Part.Aligned

variable {boundary : UInt64} {p q : Part}

theorem empty : ({} : Part).Aligned boundary := ⟨by simp, by simp, by simp⟩

theorem append (left : p.Aligned boundary) (right : q.Aligned boundary) :
    (p ++ q).Aligned boundary where
  structs := List.forall_mem_append.mpr ⟨left.structs, right.structs⟩
  fields := List.forall_mem_append.mpr ⟨left.fields, right.fields⟩
  segments := List.forall_mem_append.mpr ⟨left.segments, right.segments⟩

end Layout.Part.Aligned

namespace LayoutRules

variable {r : LayoutRules} {boundary : UInt64} {place : Place} {counts : Counts} {s : Schema}

theorem multiple_slot {path : String} {width : Nat} {slot : UInt64}
    (keeps : r.strategy.Keeps boundary) (ok : r.slot path width = .ok slot) :
    Multiple boundary slot := by
  obtain ⟨rfl, -⟩ := slot_eq_ok ok
  exact keeps.slot width

theorem multiple_stride {path name : String} {extent stride : UInt64}
    (keeps : r.strategy.Keeps boundary) (ok : r.stride path name extent = .ok stride) :
    Multiple boundary stride := by
  obtain ⟨rfl, -, -⟩ := stride_eq_ok ok
  exact keeps.stride extent

theorem multiple_placeFields (keeps : r.strategy.Keeps boundary) {owner : StructId}
    {fields : List Field} {id : FieldId} {cursor finish : UInt64} {placed : List FieldLayout}
    (start : Multiple boundary cursor)
    (ok : r.placeFields place owner id cursor fields = .ok (placed, finish)) :
    (∀ f ∈ placed, Multiple boundary f.offset) ∧ Multiple boundary finish := by
  induction fields generalizing id cursor placed with
  | nil =>
    cases ok
    exact ⟨by simp, start⟩
  | cons f rest ih =>
    obtain ⟨slot, others, slotOk, -, othersOk, rfl⟩ := placeFields_cons_eq_ok.mp ok
    obtain ⟨fields, finish⟩ := ih (start.add keeps.word (multiple_slot keeps slotOk)) othersOk
    exact ⟨List.forall_mem_cons.mpr ⟨start, fields⟩, finish⟩

theorem offset_placeMembers {owner : StructId} {region : UInt64} {id : FieldId} {tag : Nat}
    {fields : List Field} {f : FieldLayout}
    (member : f ∈ placeMembers place owner region id tag fields) : f.offset = place.offset := by
  obtain ⟨i, found⟩ := List.mem_iff_getElem?.mp member
  rw [getElem?_placeMembers] at found
  obtain ⟨field, -, rfl⟩ := Option.map_eq_some_iff.mp found
  rfl

theorem multiple_placesOwn (keeps : r.strategy.Keeps boundary)
    (start : Multiple boundary place.offset) {union : Bool} {own : OwnFields}
    (step : PlacesOwn r place counts s union own) :
    (∀ f ∈ own.fields, Multiple boundary f.offset) ∧
      (∀ u, own.union = some u → Multiple boundary u.offset ∧ Multiple boundary u.tag.offset) ∧
      Multiple boundary own.finish := by
  cases step with
  | union _ _ regionOk slotOk _ _ =>
    have tag := start.add keeps.word (multiple_slot keeps regionOk)
    refine ⟨?_, ?_, tag.add keeps.word (multiple_slot keeps slotOk)⟩
    · intro f member
      rw [offset_placeMembers member]
      exact start
    · rintro u ⟨⟩
      exact ⟨start, tag⟩
  | plain ok =>
    obtain ⟨fields, finish⟩ := multiple_placeFields keeps start ok
    exact ⟨fields, by simp, finish⟩

/-- A placement that starts at a multiple of the boundary keeps to its multiples. -/
theorem placement_aligned (r : LayoutRules) (keeps : r.strategy.Keeps boundary) :
    (∀ s place counts part stride, r.placeStruct place counts s = .ok (part, stride) →
      Multiple boundary place.offset →
      (∀ slot, place.presence = some slot → Multiple boundary slot.offset) →
      part.Aligned boundary ∧ Multiple boundary stride) ∧
    (∀ children below cursor counts result,
      r.placeChildren below cursor counts children = .ok result → Multiple boundary cursor →
      below.presence = none → result.part.Aligned boundary ∧ Multiple boundary result.finish) := by
  refine placement_induction r
    (P := fun place _ _ part stride => Multiple boundary place.offset →
      (∀ slot, place.presence = some slot → Multiple boundary slot.offset) →
      part.Aligned boundary ∧ Multiple boundary stride)
    (Q := fun below cursor _ _ result => Multiple boundary cursor → below.presence = none →
      result.part.Aligned boundary ∧ Multiple boundary result.finish)
    ?struct ?none ?list ?optional ?plain
  case struct =>
    intro place counts s own inner stride _ ownOk ih strideOk start presence
    obtain ⟨fields, union, finish⟩ := multiple_placesOwn keeps start ownOk
    have rounded := multiple_stride keeps strideOk
    refine ⟨Part.Aligned.append ⟨?_, fields, by simp⟩ (ih finish rfl).1, rounded⟩
    refine List.forall_mem_singleton.mpr ?_
    exact ⟨start, rounded, presence, fun u found => (union u found).1,
      fun u found => (union u found).2⟩
  case none =>
    intro below cursor counts start _
    exact ⟨.empty, start⟩
  case list =>
    intro below cursor counts child rest inner stride others _ _ _ ih start single
    obtain ⟨aligned, finish⟩ := ih start single
    refine ⟨Part.Aligned.append ⟨?_, by simp, by simp⟩ aligned, finish⟩
    refine List.forall_mem_singleton.mpr ?_
    exact ⟨start, .zero, by simp [placedList], by simp [placedList], by simp [placedList]⟩
  case optional =>
    intro below cursor counts child rest slot inner stride others _ _ slotOk _ _ first ih start
      single
    obtain ⟨inside, rounded⟩ := first .zero (by rintro slot ⟨⟩; exact start)
    obtain ⟨aligned, finish⟩ := ih (start.add keeps.word (multiple_slot keeps slotOk)) single
    refine ⟨Part.Aligned.append ⟨inside.structs, inside.fields, ?_⟩ aligned, finish⟩
    exact List.forall_mem_cons.mpr ⟨rounded, inside.segments⟩
  case plain =>
    intro below cursor counts child rest part stride others _ _ _ _ first ih start single
    obtain ⟨inside, rounded⟩ := first start (by simp [Place.child, single])
    obtain ⟨aligned, finish⟩ := ih (start.add keeps.word rounded) single
    exact ⟨inside.append aligned, finish⟩

theorem aligned_toLayout (keeps : r.strategy.Keeps boundary) {part : Part} {stride : UInt64}
    (ok : r.placeStruct .root .root s = .ok (part, stride)) :
    (part.toLayout r.strategy.name stride).Aligned boundary := by
  obtain ⟨aligned, rounded⟩ :=
    (placement_aligned r keeps).1 _ _ _ _ _ ok .zero (by simp [Place.root])
  exact ⟨aligned.structs, aligned.fields, List.forall_mem_cons.mpr ⟨rounded, aligned.segments⟩⟩

end LayoutRules

namespace BitBuffer

/-- The bits from the address on lie in one word, and access to them uses no other. -/
structure InOneWord (address : UInt64) (width : Nat) : Prop where
  bits : ∀ i < width, (address.toNat + i) / 64 = address.toNat / 64
  read : ∀ b b' : BitBuffer, b.word (address.toNat / 64) = b'.word (address.toNat / 64) →
    b.get address width = b'.get address width
  write : ∀ (b : BitBuffer) (bits : UInt64) (i : Nat), i ≠ address.toNat / 64 →
    (b.set address width bits).word i = b.word i

variable {address : UInt64} {width : Nat}

theorem inOneWord_of_le (fits : address.toNat % 64 + width ≤ 64) : InOneWord address width := by
  have index : (address / 64).toNat = address.toNat / 64 := by simp
  have shift : (address % 64).toNat = address.toNat % 64 := by simp
  have enough : ¬ 64 - (address % 64).toNat < width := by omega
  constructor
  · intro i inside
    omega
  · intro b b' same
    simp only [get, index, enough, if_false, same]
  · intro b bits i other
    unfold set
    split
    · rfl
    · simp only [index, enough, if_false, word_setMasked]
      rw [if_neg fun both => other both.1.symm]

/-- Bits that start at a multiple of the boundary, and are no more than it has, do not cross
the next multiple, and the end of the word is a multiple. -/
theorem inOneWord_of_multiple {boundary : UInt64} (word : boundary.toNat ∣ 64)
    (start : Multiple boundary address) (narrow : width ≤ boundary.toNat) :
    InOneWord address width := by
  have rest : boundary.toNat ∣ 64 - address.toNat % 64 :=
    Nat.dvd_sub word ((Nat.dvd_mod_iff word).mpr start)
  have below : boundary.toNat ≤ 64 - address.toNat % 64 := Nat.le_of_dvd (by omega) rest
  exact inOneWord_of_le (by omega)

/-- The runs of bits that are zeroed one after another when a range is cleared. -/
def clears (offset : UInt64) (count : Nat) : List (UInt64 × Nat) :=
  if count ≤ 64 then [(offset, count)] else (offset, 64) :: clears (offset + 64) (count - 64)

theorem clearRange_eq_foldl (b : BitBuffer) (offset : UInt64) (count : Nat) :
    b.clearRange offset count =
      (clears offset count).foldl (fun b run => b.set run.1 run.2 0) b := by
  induction b, offset, count using clearRange.induct with
  | case1 b offset count small => simp [clearRange, clears, small]
  | case2 b offset count large ih =>
    rw [clearRange, if_neg large, ih]
    conv_rhs => rw [clears, if_neg large, List.foldl_cons]

/-- To clear the range is to zero runs of bits one after another, each in one word. -/
structure ClearsByWord (offset : UInt64) (count : Nat) : Prop where
  runs : ∀ b : BitBuffer, b.clearRange offset count =
    (clears offset count).foldl (fun b run => b.set run.1 run.2 0) b
  single : ∀ run ∈ clears offset count, InOneWord run.1 run.2

theorem inOneWord_clears {offset : UInt64} (count : Nat) (start : Multiple 64 offset) :
    ∀ run ∈ clears offset count, InOneWord run.1 run.2 := by
  induction offset, count using clears.induct with
  | case1 offset count small =>
    rw [clears, if_pos small]
    exact List.forall_mem_singleton.mpr (inOneWord_of_multiple (Nat.dvd_refl _) start small)
  | case2 offset count large ih =>
    have next := start.add (Nat.dvd_refl _) (y := 64) (Nat.dvd_refl _)
    rw [clears, if_neg large]
    exact List.forall_mem_cons.mpr
      ⟨inOneWord_of_multiple (Nat.dvd_refl _) start (Nat.le_refl _), ih next⟩

theorem clearsByWord {offset : UInt64} (count : Nat) (start : Multiple 64 offset) :
    ClearsByWord offset count where
  runs b := clearRange_eq_foldl b offset count
  single := inOneWord_clears count start

end BitBuffer

namespace Layout

/-- What is read and written in a row: fields, regions and tags of unions, and presence bits. -/
inductive Accesses (l : Layout) : Slot → Nat → Prop where
  | field {f : FieldLayout} : f ∈ l.fields → Accesses l f.place f.width
  | region {s : StructLayout} {u : UnionRegion} : s ∈ l.structs → s.union = some u →
      Accesses l (u.place s.segment) u.width
  | tag {s : StructLayout} {u : UnionRegion} : s ∈ l.structs → s.union = some u →
      Accesses l u.tag u.tagWidth
  | presence {s : StructLayout} {slot : Slot} : s ∈ l.structs → s.presence = some slot →
      Accesses l slot 1

variable {l : Layout} {boundary : UInt64} {slot : Slot} {width : Nat} {t : Table}

theorem Aligned.multiple (aligned : l.Aligned boundary) (accesses : l.Accesses slot width) :
    Multiple boundary slot.offset := by
  cases accesses with
  | field member => exact aligned.fields _ member
  | region member union => exact (aligned.structs _ member).region _ union
  | tag member union => exact (aligned.structs _ member).tag _ union
  | presence member found => exact (aligned.structs _ member).presence _ found

theorem Aligned.stride (aligned : l.Aligned boundary) (k : SegmentId) :
    Multiple boundary (l.stride k) := by
  unfold Layout.stride
  split
  · next g found => exact aligned.segments g (List.mem_of_getElem? found)
  · exact .zero

/-- A use starts at a multiple of the boundary in every row. -/
theorem Aligned.address (aligned : l.Aligned boundary) (word : boundary.toNat ∣ 64)
    (same : t.layout = l) (accesses : l.Accesses slot width) (row : UInt64) :
    Multiple boundary (t.address slot row) := by
  rw [Table.address, same]
  exact ((aligned.stride _).mul_left word row).add word (aligned.multiple accesses)

theorem SoundTyped.stores_of_accesses (good : l.SoundTyped) (accesses : l.Accesses slot width) :
    ∃ use, l.Stores use slot width := by
  cases accesses with
  | field member => exact good.stores_place (good.sound.field?_of_mem member)
  | region member union =>
    exact ⟨_, good.sound.stores_region (good.sound.struct?_of_mem member) union⟩
  | tag member union =>
    exact ⟨_, good.sound.stores_tag good.typed (good.sound.struct?_of_mem member) union⟩
  | presence member found =>
    have slot := presence?_eq_some.mpr ⟨_, good.sound.struct?_of_mem member, found⟩
    exact ⟨_, good.sound.stores_presence slot⟩

/-- No access to a table of the layout crosses the end of a word, if it is to no more bits
than the boundary has. -/
structure WordWise (boundary : UInt64) (l : Layout) : Prop where
  access : ∀ t : Table, t.layout = l → ∀ slot width, l.Accesses slot width →
    width ≤ boundary.toNat → ∀ row, BitBuffer.InOneWord (t.address slot row) width
  /-- The word is one of the segment. -/
  inside : ∀ t : Table, t.layout = l → t.Stored → ∀ slot width, l.Accesses slot width →
    0 < width → ∀ row < t.capacity, ∃ b, t.segments[slot.segment]? = some b ∧
      (t.address slot row).toNat / 64 < b.words.size
  /-- With a boundary of 64 bits there are no other accesses. -/
  all : boundary = 64 → ∀ t : Table, t.layout = l → ∀ slot width, l.Accesses slot width →
    ∀ row, BitBuffer.InOneWord (t.address slot row) width
  /-- Nor does clearing past the last row cross the end of a word in one step. -/
  clear : boundary = 64 → ∀ g ∈ l.segments, ∀ rows bits count,
    l.segmentBits rows g.stride = .ok bits → BitBuffer.ClearsByWord bits count

theorem Aligned.wordWise (aligned : l.Aligned boundary) (word : boundary.toNat ∣ 64)
    (narrow : ∀ slot width, l.Accesses slot width → width ≤ 64) : l.WordWise boundary where
  access t same slot width accesses fits row :=
    BitBuffer.inOneWord_of_multiple word (aligned.address word same accesses row) fits
  inside t same stored slot width accesses some row here := by
    subst same
    obtain ⟨use, stores⟩ := stored.good.stores_of_accesses accesses
    obtain ⟨b, found, -, fits, room⟩ := stored.buffer stores here
    have enough := (stored.canonical _ b found).size_le
    exact ⟨b, found, by omega⟩
  all whole t same slot width accesses row := by
    subst whole
    exact BitBuffer.inOneWord_of_multiple word (aligned.address word same accesses row)
      (narrow slot width accesses)
  clear whole g member rows bits count ok := by
    subst whole
    unfold segmentBits at ok
    split at ok
    · cases ok
      exact BitBuffer.clearsByWord count ((aligned.segments g member).mul_left word rows)
    · cases ok

end Layout

namespace LayoutRules

variable {r : LayoutRules} {s : Schema}

/-- Every use of a row takes at most a word. -/
theorem narrow_toLayout {part : Part} {stride : UInt64}
    (ok : r.placeStruct .root .root s = .ok (part, stride))
    (typed : ∀ body ∈ s.bodies, body.Typed) {slot : Slot} {width : Nat}
    (accesses : (part.toLayout r.strategy.name stride).Accesses slot width) : width ≤ 64 := by
  obtain ⟨fields, tags⟩ := (placement_typed r).1 _ _ _ _ _ ok typed
  obtain ⟨linked, -⟩ := (placement_linked r).1 _ _ _ _ _ ok
  cases accesses with
  | field member => exact FieldType.width_le_of_admissible (fields _ member)
  | region member union => exact (linked.unions _ member _ union).narrow
  | tag member union => exact (tags _ member _ union).1
  | presence => decide

/-- An aligned layout keeps to the multiples of its boundary, and so do the layouts of its list
elements. -/
theorem layout_keeps_boundary {boundary limit : UInt64} {a : Alignment} {l : Layout}
    (accepted : Alignment.ofBits boundary = .ok a) (buildable : s.Buildable)
    (ok : LayoutRules.layout { strategy := .aligned a, maxStride := limit } s = .ok l) :
    l.Throughout fun l => l.Aligned boundary ∧ l.WordWise boundary := by
  obtain rfl := Alignment.bits_of_ofBits accepted
  obtain ⟨-, part, stride, placed, rfl⟩ := layout_eq_ok.mp ok
  refine throughout_toLayout (fun s part stride placed typed => ?_) placed buildable.typed
  have aligned := aligned_toLayout a.keeps placed
  exact ⟨aligned, aligned.wordWise a.keeps.word fun _ _ => narrow_toLayout placed typed⟩

/-- The orders, with all slots on whole words. -/
theorem layout_keeps_boundary_order : Alignment.ofBits 64 = .ok .bits64 ∧ order.Buildable ∧
    ∃ l, LayoutRules.layout { strategy := .aligned .bits64 } order = .ok l ∧
      l.Throughout fun l => l.Aligned 64 ∧ l.WordWise 64 := by
  have accepted : Alignment.ofBits 64 = .ok .bits64 := by decide
  obtain ⟨l, ok⟩ : ∃ l, LayoutRules.layout { strategy := .aligned .bits64 } order = .ok l :=
    ⟨_, by rfl⟩
  exact ⟨accepted, order_buildable, l, ok, layout_keeps_boundary accepted order_buildable ok⟩

end LayoutRules

end BitRecords
