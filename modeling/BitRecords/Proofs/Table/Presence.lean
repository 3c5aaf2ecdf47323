import BitRecords.Proofs.Layout.Ancestors
import BitRecords.Proofs.Table.Replay
import BitRecords.Proofs.Table.Valid

/-!
# Presence in rows

An optional struct is only present inside optional structs that are, and while it is
absent no bit of its segment is set in the row. An operation makes the optional structs
around its target present and then writes into them, so it leaves the segments of all
others alone.
-/

namespace BitRecords

open Layout

namespace Layout.Admits

variable {l : Layout} {op : PendingOp}

/-- An operation makes the optional structs around its target present in its row. -/
theorem marks (admits : l.Admits op) (sound : l.Sound) :
    ∃ x, (op.target? l).bind l.struct? = some x ∧
      ∀ cell, op.marks l cell = true ↔ cell.row = op.row ∧ cell.id ∈ x.chain := by
  suffices ∃ id x, op.target? l = some id ∧ l.struct? id = some x by
    obtain ⟨id, x, target, struct⟩ := this
    refine ⟨x, by simp [target, struct], fun cell => ?_⟩
    simp [PendingOp.marks, target, chainOf, struct]
  cases admits with
  | write found =>
    obtain ⟨x, struct, -, -⟩ := sound.owner found
    exact ⟨_, x, by simp [PendingOp.target?, found], struct⟩
  | select struct => exact ⟨_, _, rfl, struct⟩

/-- A tag that an operation gives a union is one of its tags. -/
theorem tagAt_le (admits : l.Admits op) (sound : l.Sound) {cell : Cell} {s : StructLayout}
    {u : UnionRegion} (struct : l.struct? cell.id = some s) (union : s.union = some u) {tag : Nat}
    (gives : op.tagAt? l cell = some tag) : tag ≤ u.members.length := by
  cases admits with
  | @write field row bits value f found =>
    simp only [PendingOp.tagAt?, found, Option.bind_some, Option.ite_none_right_eq_some] at gives
    obtain ⟨rfl, isMember⟩ := gives
    obtain ⟨s', u', struct', union', -, -, -, -, bound⟩ := sound.member found isMember
    cases struct.symm.trans struct'
    cases union.symm.trans union'
    exact bound
  | @select id row tag' s' u' struct' union' bound =>
    simp only [PendingOp.tagAt?, Option.ite_none_right_eq_some, Option.some.injEq] at gives
    obtain ⟨rfl, rfl⟩ := gives
    cases struct.symm.trans struct'
    cases union.symm.trans union'
    exact bound

end Layout.Admits

namespace Contents

/-- Presence and tags as they may be in the rows below a number. -/
structure Lawful (c : Contents) (l : Layout) (rows : UInt64) : Prop where
  enclosed : ∀ id s slot row, row < rows → l.struct? id = some s → s.presence = some slot →
    c.present ⟨id, row⟩ = true → ∀ o ∈ s.chain, c.present ⟨o, row⟩ = true
  bounded : ∀ id s u row, row < rows → l.struct? id = some s → s.union = some u →
    c.tag ⟨id, row⟩ ≤ u.members.length

namespace Lawful

variable {c : Contents} {l : Layout} {rows : UInt64} {op : PendingOp}

/-- An operation keeps presence and tags lawful. -/
theorem apply (lawful : c.Lawful l rows) (sound : l.Sound) (admits : l.Admits op) :
    (c.apply l op).Lawful l rows where
  enclosed id s slot row here struct presence holds o member := by
    obtain ⟨x, target, marks⟩ := admits.marks sound
    obtain ⟨b, -, found⟩ := Option.bind_eq_some_iff.mp target
    rw [present_apply, Bool.or_eq_true, marks] at holds ⊢
    rcases holds with before | ⟨same, marked⟩
    · exact .inl (lawful.enclosed id s slot row here struct presence before o member)
    · exact .inr ⟨same, sound.chain_trans found struct marked o member⟩
  bounded id s u row here struct union := by
    rw [tag_apply]
    cases gives : op.tagAt? l ⟨id, row⟩ with
    | none => exact lawful.bounded id s u row here struct union
    | some tag => exact admits.tagAt_le sound struct union gives

theorem replay (lawful : c.Lawful l rows) (sound : l.Sound) {ops : List PendingOp}
    (admits : ∀ op ∈ ops, l.Admits op) : (c.replay l ops).Lawful l rows := by
  induction ops generalizing c with
  | nil => exact lawful
  | cons op rest ih =>
    obtain ⟨first, others⟩ := List.forall_mem_cons.mp admits
    exact ih (lawful.apply sound first) others

theorem keep (lawful : c.Lawful l rows) (rows' : UInt64) : (c.keep l rows).Lawful l rows' where
  enclosed id s slot row _ struct presence holds o member := by
    unfold Contents.keep at holds ⊢
    dsimp only at holds ⊢
    split
    · next here =>
      rw [if_pos here] at holds
      exact lawful.enclosed id s slot row here struct presence holds o member
    · next past =>
      rw [if_neg past] at holds
      cases holds
  bounded id s u row _ struct union := by
    unfold Contents.keep
    dsimp only
    split
    · next here => exact lawful.bounded id s u row here struct union
    · exact Nat.zero_le _

theorem blank (l : Layout) (rows : UInt64) : (Contents.blank l).Lawful l rows where
  enclosed _ _ _ _ _ _ _ holds := by cases holds
  bounded _ _ _ _ _ _ _ := Nat.zero_le _

end Lawful

end Contents

/-- Contents that a table shows are lawful if others that it shows are. -/
theorem Table.Shows.lawful {t : Table} {c c' : Contents} (shows : t.Shows c) (shows' : t.Shows c')
    (sound : t.layout.Sound) (lawful : c.Lawful t.layout t.capacity) :
    c'.Lawful t.layout t.capacity where
  enclosed id s slot row here struct presence holds o member := by
    have has := presence?_eq_some.mpr ⟨s, struct, presence⟩
    obtain ⟨-, own, has'⟩ := sound.chain struct o member
    rw [shows'.present id row here slot has, ← shows.present id row here slot has] at holds
    rw [shows'.present o row here own has', ← shows.present o row here own has']
    exact lawful.enclosed id s slot row here struct presence holds o member
  bounded id s u row here struct union := by
    rw [shows'.tag id row here s u struct union, ← shows.tag id row here s u struct union]
    exact lawful.bounded id s u row here struct union

namespace Layout.Sound

variable {l : Layout} {id o b : StructId} {s x : StructLayout} {slot own : Slot}

/-- The presence bits around a struct are in the segments of structs around it. -/
theorem presence_apart (sound : l.Sound) (inner : l.struct? id = some s)
    (presence : s.presence = some slot) (found : l.struct? b = some x) (outside : id ∉ x.chain)
    (member : o ∈ x.chain) (has : l.presence? o = some own) : own.segment ≠ s.segment := by
  intro same
  obtain ⟨y, struct, presence'⟩ := presence?_eq_some.mp has
  obtain ⟨p, parent, -, single, segment, -, chain, -⟩ := sound.optional struct presence'
  have above := sound.mem_chain_of_segment inner presence parent single (segment.symm.trans same)
  refine outside (sound.chain_trans found struct member id ?_)
  rw [chain]
  exact List.mem_append_left _ above

theorem tag_apart (sound : l.Sound) (inner : l.struct? id = some s)
    (presence : s.presence = some slot) (found : l.struct? b = some x) (outside : id ∉ x.chain)
    {u : UnionRegion} (union : x.union = some u) : u.tag.segment ≠ s.segment := by
  intro same
  obtain ⟨unites, -⟩ := sound.unions x (List.mem_of_getElem? found) u union
  exact outside (sound.mem_chain_of_segment inner presence found (sound.single_of_union found union)
    (unites.segment.symm.trans same))

theorem field_apart (sound : l.Sound) (inner : l.struct? id = some s)
    (presence : s.presence = some slot) {field : FieldId} {f : FieldLayout}
    (named : l.field? field = some f) (found : l.struct? f.owner = some x)
    (outside : id ∉ x.chain) : f.segment ≠ s.segment := by
  intro same
  obtain ⟨y, struct, -, owns⟩ := sound.owner named
  cases found.symm.trans struct
  exact outside (sound.mem_chain_of_segment inner presence found owns.single
    (owns.segment.symm.trans same))

end Layout.Sound

namespace Table

variable {t u : Table} {k : SegmentId} {row row' : UInt64}

/-- The second table has the same bits of a segment in a row. -/
structure SameSegment (t u : Table) (k : SegmentId) (row : UInt64) : Prop where
  layout : u.layout = t.layout
  capacity : u.capacity = t.capacity
  stored : u.Stored
  bits : ∀ p < (t.layout.stride k).toNat, u.bitAt k row p = t.bitAt k row p

namespace SameSegment

theorem refl (stored : t.Stored) : t.SameSegment t k row := ⟨rfl, rfl, stored, fun _ _ => rfl⟩

theorem trans {v : Table} (first : t.SameSegment u k row) (second : u.SameSegment v k row) :
    t.SameSegment v k row where
  layout := second.layout.trans first.layout
  capacity := second.capacity.trans first.capacity
  stored := second.stored
  bits p inside := (second.bits p (first.layout ▸ inside)).trans (first.bits p inside)

theorem setBits (stored : t.Stored) {use : Use} {slot : Slot} {width : Nat}
    (stores : t.layout.Stores use slot width) (here : row' < t.capacity) (bits : UInt64)
    (apart : row = row' → slot.segment ≠ k) :
    t.SameSegment (t.setBits slot row' width bits) k row where
  layout := rfl
  capacity := rfl
  stored := stored.setBits stores here bits
  bits p inside := by
    rw [stored.bitAt_setBits stores here bits inside, if_neg]
    rintro ⟨segment, same, -⟩
    exact apart same segment.symm

theorem markPresent (stored : t.Stored) {chain : List StructId} (here : row' < t.capacity)
    (apart : ∀ o ∈ chain, ∀ slot, t.layout.presence? o = some slot → row = row' →
      slot.segment ≠ k) :
    t.SameSegment (t.markPresent chain row') k row := by
  unfold Table.markPresent
  induction chain generalizing t with
  | nil => exact refl stored
  | cons o rest ih =>
    obtain ⟨first, others⟩ := List.forall_mem_cons.mp apart
    rw [List.foldl_cons]
    split
    · next slot presence =>
      have stores := stored.good.sound.stores_presence presence
      exact (setBits stored stores here 1 (first slot presence)).trans
        (ih (stored.setBits stores here 1) here others)
    · exact ih stored here others

theorem setContent (stored : t.Stored) {field : FieldId} {f : FieldLayout}
    (named : t.layout.field? field = some f) (here : row' < t.capacity) (bits : UInt64)
    {value : Value} (encoded : f.type.encode value = .ok bits)
    (apart : row = row' → f.segment ≠ k) :
    t.SameSegment (t.setContent f row' bits value) k row := by
  obtain ⟨use, stores⟩ := stored.good.stores_place named
  by_cases object : f.type = .object
  · rw [object] at encoded
    obtain ⟨ref, rfl⟩ := object_of_encode encoded
    rw [setContent_object object]
    generalize t.objects.replace _ ref = replaced
    have others : ({ t with objects := replaced.2 } : Table).Stored := stored.congr rfl rfl rfl
    have written := setBits others stores here (UInt64.ofNat replaced.1) apart
    exact ⟨rfl, rfl, written.stored, written.bits⟩
  · rw [setContent_of_ne_object object]
    exact setBits stored stores here bits apart

variable {id : StructId} {s : StructLayout} {slot : Slot}

/-- An operation leaves the segment of an optional struct alone unless it makes that
struct present. -/
theorem apply (stored : t.Stored) {op : PendingOp} (admits : t.layout.Admits op)
    (here : op.row < t.capacity) (inner : t.layout.struct? id = some s)
    (presence : s.presence = some slot) (outside : op.marks t.layout ⟨id, row⟩ = false) :
    t.SameSegment (t.apply op) s.segment row := by
  have sound := stored.good.sound
  obtain ⟨x, target, marks⟩ := admits.marks sound
  have apart (same : row = op.row) : id ∉ x.chain := fun member => by
    rw [(marks _).mpr ⟨same, member⟩] at outside
    cases outside
  obtain ⟨b, isTarget, struct⟩ := Option.bind_eq_some_iff.mp target
  have marked : t.SameSegment (t.markPresent x.chain op.row) s.segment row :=
    markPresent stored here fun o member own has same =>
      sound.presence_apart inner presence struct (apart same) member has
  have tagged (u : Table) (same : t.SameSegment u s.segment row) {region : UnionRegion}
      (union : x.union = some region) (tag : Nat) :
      t.SameSegment (u.setTag region op.row tag) s.segment row :=
    same.trans (setBits same.stored
      (same.layout ▸ sound.stores_tag stored.good.typed struct union) (same.capacity ▸ here) _
      fun rows => sound.tag_apart inner presence struct (apart rows) union)
  cases admits with
  | @write field row' bits value f found encoded =>
    obtain rfl : f.owner = b := by simpa [PendingOp.target?, found] using isTarget
    simp only [Table.apply, found, struct]
    have content (u : Table) (same : t.SameSegment u s.segment row) :
        t.SameSegment (u.setContent f row' bits value) s.segment row :=
      same.trans (setContent same.stored (same.layout ▸ found) (same.capacity ▸ here) bits encoded
        fun rows => sound.field_apart inner presence found struct (apart rows))
    split
    · next region tag union _ => exact content _ (tagged _ marked union tag)
    · exact content _ marked
  | @select union row' tag x' region struct' isUnion =>
    cases isTarget
    cases struct.symm.trans struct'
    simp only [Table.apply, struct, isUnion]
    exact tagged _ marked isUnion tag

theorem applyAll (stored : t.Stored) {ops : List PendingOp}
    (admits : ∀ op ∈ ops, t.layout.Admits op) (here : ∀ op ∈ ops, op.row < t.capacity)
    (inner : t.layout.struct? id = some s) (presence : s.presence = some slot)
    (outside : ∀ op ∈ ops, op.marks t.layout ⟨id, row⟩ = false) :
    t.SameSegment (ops.foldl Table.apply t) s.segment row := by
  induction ops generalizing t with
  | nil => exact refl stored
  | cons op rest ih =>
    obtain ⟨admitsHere, admits⟩ := List.forall_mem_cons.mp admits
    obtain ⟨inside, here⟩ := List.forall_mem_cons.mp here
    obtain ⟨apart, outside⟩ := List.forall_mem_cons.mp outside
    have first := apply stored admitsHere inside inner presence apart
    have others := ih (t := t.apply op) first.stored
    rw [first.layout, first.capacity] at others
    exact first.trans (others admits here inner outside)

end SameSegment

end Table

end BitRecords
