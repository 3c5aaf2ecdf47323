import BitRecords.Proofs.Storage.Delta
import BitRecords.Proofs.Storage.Steady
import BitRecords.Proofs.Table.Presence

/-!
# Presence and tags in storages

An optional struct is present only inside optional structs that are, and while it is absent
its segment holds nothing in the row. So what is written there first takes the place of
defaults. The tag of a union is always one of its members' or zero. All of this outlasts
whatever happens to the rows while lengths fit, and it shows in the staged view too.
-/

namespace BitRecords

open Layout

namespace Table

/-- Presence and tags are lawful, and absent optional structs have nothing in their
segments. -/
structure Nested (t : Table) : Prop where
  lawful : t.contents.Lawful t.layout t.capacity
  blank : ∀ id s slot row, row < t.capacity → t.layout.struct? id = some s →
    s.presence = some slot → t.contents.present ⟨id, row⟩ = false →
    ∀ p < (t.layout.stride s.segment).toNat, t.bitAt s.segment row p = false

/-- Presence and tags as they can be relied on in the rows of a table. -/
structure Coherent (t : Table) : Prop where
  /-- An optional struct that is present lies in optional structs that are. -/
  enclosed : ∀ view id row, row < t.capacity → t.layout.isOptional id = true →
    t.hasOptional view id row = true →
    ∀ o ∈ t.layout.optionalsAbove id, t.hasOptional view o row = true
  /-- An absent optional struct has no bit set in its segment. -/
  blank : ∀ id s row, row < t.capacity → t.layout.struct? id = some s →
    t.layout.isOptional id = true → t.presenceBit id row = false →
    ∀ p < (t.layout.stride s.segment).toNat, t.bitAt s.segment row p = false
  /-- What a commit changes in an absent optional struct was the default. -/
  old : ∀ result t', t.commit = .ok (result, t') → ∀ change ∈ result.changes, ∀ f,
    t.layout.field? change.field.id = some f →
    ∀ o ∈ t.layout.optionalsAbove f.owner, t.presenceBit o change.row = false →
    change.old = f.type.defaultValue
  /-- A tag is zero or that of a member. -/
  bounded : ∀ view id s u row, row < t.capacity → t.layout.struct? id = some s →
    s.union = some u → t.tag view id u row ≤ u.members.length
  /-- No member of a union is active exactly when the tag is zero. -/
  active : ∀ handle row s u, t.selected = .ok row → t.layout.structOf handle = .ok s →
    s.union = some u → ∃ member, t.activeMember handle = .ok member ∧
      (member = none ↔ t.tag .staged s.id u row = 0)

variable {t : Table} {view : View} {row : UInt64}

theorem hasOptional_committed (id : StructId) :
    t.hasOptional .committed id row = t.presenceBit id row := by
  rw [hasOptional, show (View.committed == View.staged) = false from rfl, Bool.false_and,
    Bool.or_false]

/-- The contents that a view sees in a nested table are lawful. -/
theorem Nested.sees (nested : t.Nested) (valid : t.Valid) (view : View) :
    ∃ c, t.Sees view c ∧ c.Lawful t.layout t.capacity := by
  have shows := shows_contents t
  cases view with
  | committed => exact ⟨_, shows.sees, nested.lawful⟩
  | staged =>
    exact ⟨_, shows.sees_staged valid.answers valid.sound,
      nested.lawful.replay valid.sound valid.answers.admits⟩

theorem Sees.enclosed {c : Contents} (sees : t.Sees view c) (sound : t.layout.Sound)
    (lawful : c.Lawful t.layout t.capacity) {id : StructId} (here : row < t.capacity)
    (optional : t.layout.isOptional id = true) (holds : t.hasOptional view id row = true) :
    ∀ o ∈ t.layout.optionalsAbove id, t.hasOptional view o row = true := by
  obtain ⟨s, slot, struct, presence⟩ := sound.presence_of_isOptional optional
  have has := presence?_eq_some.mpr ⟨s, struct, presence⟩
  intro o above
  rw [← sound.chain_eq struct] at above
  obtain ⟨-, own, has'⟩ := sound.chain struct o above
  rw [sees.present id row here slot has] at holds
  rw [sees.present o row here own has']
  exact lawful.enclosed id s slot row here struct presence holds o above

/-- A union's active member is told from its tag. -/
theorem activeMember_eq_ok (sound : t.layout.Sound) {handle : StructHandle} {s : StructLayout}
    {u : UnionRegion} (selected : t.selected = .ok row) (found : t.layout.structOf handle = .ok s)
    (union : s.union = some u) (bound : t.tag .staged s.id u row ≤ u.members.length) :
    ∃ member, t.activeMember handle = .ok member ∧
      (member = none ↔ t.tag .staged s.id u row = 0) := by
  rw [activeMember, selected, found]
  simp only [bind, Except.bind, union]
  by_cases zero : t.tag .staged s.id u row = 0
  · rw [if_pos zero]
    exact ⟨none, rfl, by simp [zero]⟩
  · rw [if_neg zero]
    obtain ⟨-, struct⟩ := structOf_eq_ok.mp found
    obtain ⟨unites, -⟩ := sound.unions s (List.mem_of_getElem? struct) u union
    obtain ⟨id, isMember⟩ : ∃ id, u.members[t.tag .staged s.id u row - 1]? = some id :=
      ⟨_, List.getElem?_eq_getElem (by omega)⟩
    obtain ⟨f, member, rfl, -, -⟩ := unites.members _ id isMember
    have field := sound.field?_of_mem member
    exact ⟨_, rfl, by simp [isMember, field, zero]⟩

/-- The content of a field in a segment without any bits set. -/
theorem content_of_blank (stored : t.Stored) (here : row < t.capacity) {id : FieldId}
    {f : FieldLayout} (field : t.layout.field? id = some f)
    (blank : ∀ p < (t.layout.stride f.segment).toNat, t.bitAt f.segment row p = false) :
    t.content f row = f.type.defaultValue := by
  obtain ⟨use, stores⟩ := stored.good.stores_place field
  rw [content_eq, getBits_eq_zero stored here stores blank, ← value_blank t field row]
  simp [Contents.blank, field]

namespace Nested

variable (nested : t.Nested)
include nested

/-- The fields in an absent optional struct have default values, those of structs further
in included. -/
theorem content_of_absent (valid : t.Valid) (here : row < t.capacity) {id : FieldId}
    {f : FieldLayout} (field : t.layout.field? id = some f) {o : StructId}
    (above : o ∈ t.layout.optionalsAbove f.owner) (absent : t.presenceBit o row = false) :
    t.content f row = f.type.defaultValue := by
  have sound := valid.sound
  obtain ⟨s, struct, -, owns⟩ := sound.owner field
  rw [← sound.chain_eq struct] at above
  obtain ⟨i, x, slot, inner, presence, segment, chain⟩ :=
    sound.innermost struct owns.single (List.ne_nil_of_mem above)
  have sees := (shows_contents t).sees
  -- If the innermost optional struct were present, so were all that are around it.
  have gone : t.contents.present ⟨i, row⟩ = false := by
    obtain ⟨-, own, has⟩ := sound.chain struct o above
    rw [← hasOptional_committed, sees.present o row here own has] at absent
    by_contra present
    rw [Bool.not_eq_false] at present
    rw [nested.lawful.enclosed i x slot row here inner presence present o (chain ▸ above)] at absent
    cases absent
  refine content_of_blank valid.intact.stored here field ?_
  rw [owns.segment, ← segment]
  exact nested.blank i x slot row here inner presence gone

theorem coherent (valid : t.Valid) : t.Coherent where
  enclosed view id row here optional := by
    obtain ⟨c, sees, lawful⟩ := nested.sees valid view
    exact sees.enclosed valid.sound lawful here optional
  blank id s row here struct optional absent := by
    obtain ⟨x, slot, found, presence⟩ := valid.sound.presence_of_isOptional optional
    cases struct.symm.trans found
    refine nested.blank id s slot row here struct presence ?_
    have has := presence?_eq_some.mpr ⟨s, struct, presence⟩
    rw [← (shows_contents t).sees.present id row here slot has, hasOptional_committed, absent]
  old result t' ok change member f field o above absent := by
    cases commits_of_ok ok with
    | idle => cases member
    | applied _ checked =>
      obtain ⟨here, -⟩ := valid.slot_of_mem_changes checked member
      obtain ⟨-, g, field', -, laid⟩ := (valid.mem_changes checked).mp member
      cases field.symm.trans field'
      rw [laid]
      exact nested.content_of_absent valid here field above absent
  bounded view id s u row here struct union := by
    obtain ⟨c, sees, lawful⟩ := nested.sees valid view
    rw [sees.tag id row here s u struct union]
    exact lawful.bounded id s u row here struct union
  active handle row s u selected found union := by
    obtain ⟨-, struct⟩ := structOf_eq_ok.mp found
    obtain ⟨-, here⟩ := selected_eq_ok.mp selected
    obtain ⟨c, sees, lawful⟩ := nested.sees valid .staged
    have number := valid.sound.struct?_id struct
    refine activeMember_eq_ok valid.sound selected found union ?_
    rw [number, sees.tag handle.id row here s u struct union]
    exact lawful.bounded handle.id s u row here struct union

/-- Another table with the same bits. -/
theorem congr {t' : Table} (exchanged : t.layout.Interchangeable t'.layout)
    (capacity : t'.capacity = t.capacity)
    (uses : ∀ use row, row < t.capacity → t'.bitsOf use row = t.bitsOf use row)
    (bits : ∀ k row p, t'.bitAt k row p = t.bitAt k row p) : t'.Nested := by
  have struct {id : StructId} {s' : StructLayout} (found : t'.layout.struct? id = some s') :
      ∃ s, t.layout.struct? id = some s ∧ t'.layout.standIn id s = s' :=
    Option.map_eq_some_iff.mp ((exchanged.struct?_eq id).symm.trans found)
  refine ⟨⟨?_, ?_⟩, ?_⟩
  · intro id s' slot row here found presence holds o member
    obtain ⟨s, struct, rfl⟩ := struct found
    rw [capacity] at here
    have present (o : StructId) : t'.contents.present ⟨o, row⟩ = t.contents.present ⟨o, row⟩ :=
      congrArg (· == 1) (uses (.presence o) row here)
    rw [present] at holds ⊢
    exact nested.lawful.enclosed id s slot row here struct presence holds o member
  · intro id s' u row here found union
    obtain ⟨s, struct, rfl⟩ := struct found
    rw [capacity] at here
    have tag : t'.contents.tag ⟨id, row⟩ = t.contents.tag ⟨id, row⟩ :=
      congrArg UInt64.toNat (uses (.tag id) row here)
    rw [tag]
    exact nested.lawful.bounded id s u row here struct union
  · intro id s' slot row here found presence absent p inside
    obtain ⟨s, struct, rfl⟩ := struct found
    rw [capacity] at here
    have present : t'.contents.present ⟨id, row⟩ = t.contents.present ⟨id, row⟩ :=
      congrArg (· == 1) (uses (.presence id) row here)
    rw [present] at absent
    rw [exchanged.stride] at inside
    rw [bits]
    exact nested.blank id s slot row here struct presence absent p inside

end Nested

end Table

namespace Storage

open Table

theorem persists_nested : Persists Nested where
  rows {t t'} nested same := by
    refine nested.congr ?_ same.capacity (fun use row _ => same.bitsOf use row) fun k row p => ?_
    · rw [same.layout]
      exact .refl _
    · simp only [bitAt, same.layout, same.segments]
  commit {t} nested valid checked := by
    have layout := valid.layout_applied checked
    have capacity := valid.capacity_applied checked
    have shows := valid.shows_applied checked
    have sound : t.applyPending.layout.Sound := layout ▸ valid.sound
    refine ⟨shows.lawful (shows_contents _) sound ?_, ?_⟩
    · rw [layout, capacity]
      exact nested.lawful.replay valid.sound valid.answers.admits
    · intro id s slot row here struct presence absent p inside
      have has := presence?_eq_some.mpr ⟨s, struct, presence⟩
      have gone := (shows.present id row here slot has).trans absent
      rw [layout] at struct inside
      rw [capacity] at here
      rw [Contents.present_replay_eq, Bool.or_eq_false_iff, List.any_eq_false] at gone
      obtain ⟨inLog, -⟩ := of_checkPending checked
      have stored :
          ({ t with pending := .empty, committedUnion := t.activeUnion } : Table).Stored :=
        valid.intact.stored.congr rfl rfl rfl
      have same := SameSegment.applyAll stored valid.answers.admits inLog struct presence
        fun op member => Bool.eq_false_iff.mpr (gone.2 op member)
      rw [applyPending_eq]
      exact (same.bits p inside).trans
        (nested.blank id s slot row here struct presence gone.1 p inside)
  resize {t length objects segments} nested valid released sizes := by
    have stored := valid.intact.stored
    have shows := (keeps_done valid.intact t.cursor released sizes).shows (shows_contents t)
    refine ⟨shows.lawful (shows_contents _) valid.sound (nested.lawful.keep length), ?_⟩
    intro id s slot row here struct presence absent p inside
    rw [bitAt_done stored sizes t.cursor here inside]
    by_cases old : row < t.capacity
    · have has := presence?_eq_some.mpr ⟨s, struct, presence⟩
      have gone := (shows.present id row here slot has).trans absent
      rw [Contents.keep] at gone
      dsimp only at gone
      rw [if_pos old] at gone
      exact nested.blank id s slot row old struct presence gone p inside
    · exact bitAt_of_le stored (UInt64.not_lt.mp old)
  fresh {t} valid _ zeroed := by
    have clear (k : SegmentId) (row : UInt64) (p : Nat) : t.bitAt k row p = false := by
      unfold bitAt
      split
      · next b found =>
        obtain ⟨-, rfl⟩ := zeroed k b found
        exact BitBuffer.bit_zeroed _ _
      · rfl
    have shows := shows_blank valid.intact.stored fun k row p _ _ => clear k row p
    exact ⟨shows.lawful (shows_contents t) valid.sound (.blank _ _),
      fun _ s _ row _ _ _ _ p _ => clear s.segment row p⟩
  restore {t l buffers} nested valid exchanged restored count ok := by
    have same := exchanged.fingerprint.symm
    refine nested.congr exchanged rfl (fun use row here => ?_) fun k row p => ?_
    · exact Snapshot.bitsOf_restored same count ok valid.intact.stored restored.intact.stored.good
        here (exchanged.slotOf? use).symm
    · exact Snapshot.bitAt_restored same count ok k row p

variable {may : Storage → Storage → Prop} {s : Storage}

/-- In every table of a steady storage, presence and tags can be relied on. -/
theorem coherent_of_steady (steady : s.Steady may) : s.Throughout Coherent :=
  steady.reachable.valid.combine (persists_nested.steady steady) fun _ valid nested =>
    nested.coherent valid

open LayoutRules

/-- A letter may have a stamp, and a stamp a mark, which is a day or a shape. -/
def letter : Schema where
  name := "letter"
  fields := [⟨"weight", .unsigned 9⟩]
  children := [
    { name := "stamp", fields := [⟨"value", .int16⟩], flags := { optional := true }
      children := [
        { name := "mark", fields := [⟨"day", .unsigned 5⟩, ⟨"round", .bool⟩]
          flags := { optional := true, union := true } }] }]

theorem letter_buildable : letter.Buildable := by
  refine .rebuilt (fun child member => ?_) (by decide) (by rfl)
  cases List.mem_singleton.mp member
  refine .rebuilt (fun child member => ?_) (by decide) (by rfl)
  cases List.mem_singleton.mp member
  exact .rebuilt (by simp) (by decide) (by rfl)

def letterLayout : Layout :=
  (LayoutRules.layout { strategy := .packed } letter).toOption.get (by rfl)

theorem letterLayout_compiled : letterLayout.Compiled :=
  .root (r := { strategy := .packed }) letter_buildable (by rfl)

def letters : Storage := (create letterLayout (some 2)).toOption.get (by rfl)

theorem create_letters : create letterLayout (some 2) = .ok letters := by rfl

/-- The first letter is marked with a day, and the value of the other one's stamp waits
for a commit. -/
def marked : Storage :=
  letters.run [.select 0, .write ⟨letterLayout.fingerprint, 2, .unsigned 5⟩ (.int 17), .commit,
    .select 1, .write ⟨letterLayout.fingerprint, 1, .int16⟩ (.int 90)]

theorem marked_steady : marked.Steady may :=
  (Steady.create letterLayout_compiled create_letters).run (by decide +kernel)

/-- The mark made the stamp present. The other letter's stamp is absent until the commit,
and the commit says that its value was zero. -/
theorem coherent_of_steady_marked : marked.Steady (fun _ _ => True) ∧
    marked.Throughout Coherent ∧ letterLayout.optionalsAbove 2 = [1, 2] ∧
    marked.table.presenceBit 2 0 = true ∧ marked.table.presenceBit 1 0 = true ∧
    marked.table.presenceBit 1 1 = false ∧ marked.table.hasOptional .staged 1 1 = true ∧
    ∃ result t, marked.table.commit = .ok (result, t) ∧
      result.changes.map (fun change => (change.path, change.old, change.new)) =
        [("stamp.value", .int 0, .int 90)] := by
  have steady : marked.Steady fun _ _ => True := marked_steady
  exact ⟨steady, coherent_of_steady steady, by decide +kernel, by decide +kernel,
    by decide +kernel, by decide +kernel, by decide +kernel, _, _, rfl, by decide +kernel⟩

end Storage

end BitRecords
