import Mathlib.Data.List.Perm.Basic
import BitRecords.Proofs.Layout.Outline
import BitRecords.Proofs.Table.SameBits
import BitRecords.Proofs.Table.Slots
import BitRecords.Proofs.Table.Valid

/-!
# Tables that answer alike

Twins are tables whose rows hold the same contents, in buffers that may be laid
out differently and with objects in other slots. Their layouts have the same
outline. All answers are determined by the contents, the log and the outline, so
twins give the same answers, up to the renaming of their layouts, and stay twins.
-/

namespace BitRecords

open Layout

namespace Layout.Alike

variable {ρ : Fingerprint → Fingerprint} {l l' : Layout} (alike : l.Alike ρ l')
include alike

theorem chainOf (id : StructId) : l'.chainOf id = l.chainOf id := by
  have related := alike.struct? id
  unfold Layout.chainOf
  generalize l.struct? id = x at related
  generalize l'.struct? id = y at related
  cases related with
  | none => rfl
  | some same => exact same.chain

theorem blank : Contents.blank l' = Contents.blank l := by
  unfold Contents.blank
  congr 1
  funext cell
  have related := alike.field? cell.id
  generalize l.field? cell.id = x at related
  generalize l'.field? cell.id = y at related
  cases related with
  | none => rfl
  | some same =>
    rw [Option.map_some, Option.map_some, same.type]

theorem keep (c : Contents) (rows : UInt64) : c.keep l' rows = c.keep l rows := by
  rw [Contents.keep, alike.blank]
  rfl

theorem apply (c : Contents) (op : PendingOp) : c.apply l' op = c.apply l op := by
  cases op with
  | write field row width bits value =>
    have related := alike.field? field
    unfold Contents.apply
    dsimp only
    generalize l.field? field = x at related
    generalize l'.field? field = y at related
    cases related with
    | none => rfl
    | some same =>
      dsimp only
      rw [same.owner, same.tag, alike.chainOf]
  | select union row tag => rw [Contents.apply, Contents.apply, alike.chainOf]

theorem replay (c : Contents) (ops : List PendingOp) : c.replay l' ops = c.replay l ops :=
  List.foldl_ext _ _ _ fun c op _ => alike.apply c op

theorem readAt (c : Contents) {f f' : FieldLayout} (same : SameField l l' f f') (row : UInt64) :
    Matches ρ (fun v v' => v' = v) (c.readAt l f row) (c.readAt l' f' row) := by
  have related := alike.struct? f.owner
  unfold Contents.readAt
  rw [same.owner, same.type, same.id]
  generalize l.struct? f.owner = x at related
  generalize l'.struct? f.owner = y at related
  cases related with
  | none => exact .error (.unknown (.struct f.owner))
  | @some s s' same =>
    dsimp only
    have absent : c.firstAbsent? s' row = c.firstAbsent? s row := by
      rw [Contents.firstAbsent?, same.chain]
      rfl
    rw [absent, same.path, same.id]
    have inner : Option.Rel (SameStruct l l') ((c.firstAbsent? s row).bind l.struct?)
        ((c.firstAbsent? s row).bind l'.struct?) := by
      cases c.firstAbsent? s row with
      | none => exact .none
      | some id => exact alike.struct? id
    generalize (c.firstAbsent? s row).bind l.struct? = x at inner
    generalize (c.firstAbsent? s row).bind l'.struct? = y at inner
    cases inner with
    | some gone =>
      dsimp only
      rw [gone.path]
      exact .error (.absentChild _ row)
    | none =>
      have unions := rel_of_map_eq same.union
      generalize s.union = x at unions
      generalize s'.union = y at unions
      cases unions with
      | none => exact .ok rfl
      | some =>
        dsimp only
        split
        · exact .error (.unselectedUnion s.path row)
        · exact .ok rfl

end Layout.Alike

/-- The object tables hold the same objects in slots that may differ, and have as
many empty slots. -/
structure ObjectTable.Even (o o' : ObjectTable) : Prop where
  slots : o'.slots.toList.Perm o.slots.toList
  free : o'.free.length = o.free.length

namespace ObjectTable.Even

variable {o o' : ObjectTable} (even : o.Even o')
include even

theorem size : o'.slots.size = o.slots.size := even.slots.length_eq

/-- Slots with the same entry are given the same new one. -/
theorem set {slot slot' : Nat} (positive : 0 < slot) (bound : slot ≤ o.slots.size)
    (positive' : 0 < slot') (bound' : slot' ≤ o'.slots.size) (same : o'.get? slot' = o.get? slot)
    (ref : Option ObjectRef) : (o'.slots.setIfInBounds (slot' - 1) ref).toList.Perm
      (o.slots.setIfInBounds (slot - 1) ref).toList := by
  have here : slot - 1 < o.slots.toList.length := by
    rw [Array.length_toList]
    omega
  have here' : slot' - 1 < o'.slots.toList.length := by
    rw [Array.length_toList]
    omega
  have entry (o : ObjectTable) {slot : Nat} (positive : 0 < slot)
      (here : slot - 1 < o.slots.toList.length) : o.slots.toList[slot - 1] = o.get? slot := by
    rw [get?, if_neg (Nat.ne_of_gt positive), Array.getD_eq_getD_getElem?, ← Array.getElem?_toList,
      List.getElem?_eq_getElem here, Option.getD_some]
  have entries : o'.slots.toList[slot' - 1] = o.slots.toList[slot - 1] := by
    rw [entry o' positive' here', entry o positive here, same]
  have others := ((List.getElem_cons_eraseIdx_perm here').trans even.slots).trans
    (List.getElem_cons_eraseIdx_perm here).symm
  rw [entries] at others
  rw [Array.toList_setIfInBounds, Array.toList_setIfInBounds]
  exact (List.set_perm_cons_eraseIdx here' ref).trans
    ((others.cons_inv.cons ref).trans (List.set_perm_cons_eraseIdx here ref).symm)

theorem release {slot slot' : Nat} (same : o'.get? slot' = o.get? slot) :
    (o.release slot).Even (o'.release slot') := by
  unfold ObjectTable.release
  rw [same]
  split
  · next occupied =>
    obtain ⟨positive, bound⟩ := le_of_get? occupied
    obtain ⟨positive', bound'⟩ := le_of_get? (same ▸ occupied)
    exact ⟨even.set positive bound positive' bound' same none, by simp [even.free]⟩
  · exact even

theorem insert (consistent : o.Consistent) (consistent' : o'.Consistent) (ref : ObjectRef) :
    (o.insert ref).2.Even (o'.insert ref).2 := by
  have size := even.size
  have free := even.free
  have listed := consistent.free
  have listed' := consistent'.free
  unfold ObjectTable.insert
  cases here : o.free with
  | nil =>
    rw [here, List.length_nil, List.length_eq_zero_iff] at free
    rw [free, size]
    dsimp only
    split
    · exact ⟨by simpa using even.slots.append_right [some ref], rfl⟩
    · exact even
  | cons slot rest =>
    rw [here] at free listed
    obtain ⟨slot', rest', there⟩ := List.exists_cons_of_length_eq_add_one free
    rw [there] at free listed' ⊢
    obtain ⟨positive, bound, empty⟩ := (listed slot).mp List.mem_cons_self
    obtain ⟨positive', bound', empty'⟩ := (listed' slot').mp List.mem_cons_self
    exact ⟨even.set positive bound positive' bound' (empty'.trans empty.symm) (some ref),
      Nat.succ.inj free⟩

theorem replace (consistent : o.Consistent) (consistent' : o'.Consistent) {slot slot' : Nat}
    (same : o'.get? slot' = o.get? slot) (ref : Option ObjectRef) :
    (o.replace slot ref).2.Even (o'.replace slot' ref).2 := by
  cases ref with
  | none => exact even.release same
  | some ref =>
    exact (even.release same).insert (consistent.release slot) (consistent'.release slot') ref

end ObjectTable.Even

namespace Table

/-- The object that an object field names is the one it holds. -/
theorem Shows.get? {t : Table} {c : Contents} (shows : t.Shows c) (intact : t.Intact)
    {id : FieldId} {row : UInt64} (cell : t.ObjectCell id row) :
    t.objects.get? (t.bitsOf (.field id) row).toNat = (c.value ⟨id, row⟩).asObject? := by
  obtain ⟨here, f, field, object⟩ := cell
  have single := intact.stored.good.sound.single_of_object field object
  rw [shows.value id row here f field single, object]
  rfl

/-- Tables of layouts with the same outline have the same object fields. -/
theorem ObjectCell.alike {ρ : Fingerprint → Fingerprint} {t t' : Table}
    (alike : t.layout.Alike ρ t'.layout) (capacity : t'.capacity = t.capacity) {id : FieldId}
    {row : UInt64} (cell : t.ObjectCell id row) : t'.ObjectCell id row := by
  obtain ⟨here, f, field, object⟩ := cell
  obtain ⟨f', field', same⟩ := alike.field?_eq_some field
  exact ⟨capacity ▸ here, f', field', same.type.trans object⟩

/-- Tables without objects have the same slots. -/
theorem sameSlots_of_empty {ρ : Fingerprint → Fingerprint} {t t' : Table}
    (alike : t.layout.Alike ρ t'.layout) (capacity : t'.capacity = t.capacity) (intact : t.Intact)
    (intact' : t'.Intact) (empty : t.objects = {}) (empty' : t'.objects = {}) :
    t.SameSlots t' where
  objects := empty'.trans empty.symm
  named _ _ cell := by
    rw [intact.bitsOf_of_empty empty cell,
      intact'.bitsOf_of_empty empty' (cell.alike alike capacity)]

/-- The tables are in the same state, apart from layout, buffers and objects. -/
structure SameState (t t' : Table) : Prop where
  capacity : t'.capacity = t.capacity
  growable : t'.growable = t.growable
  cursor : t'.cursor = t.cursor
  pending : t'.pending = t.pending
  listeners : t'.listeners = t.listeners
  active : t'.activeUnion = t.activeUnion
  committed : t'.committedUnion = t.committedUnion

/-- Tables that answer alike. If `fixed` holds, the layout itself is the same, so
that sizes overflow in both or in none, and the bits differ in object fields only.
Otherwise the objects are in the same slots. -/
structure Twins (ρ : Fingerprint → Fingerprint) (fixed : Prop) (t t' : Table) : Prop where
  alike : t.layout.Alike ρ t'.layout
  state : SameState t t'
  valid : t.Valid
  valid' : t'.Valid
  shows : ∃ c, t.Shows c ∧ t'.Shows c
  objects : t.objects.Even t'.objects
  bits : fixed → t.SameBits t'
  slots : ¬ fixed → t.SameSlots t'

namespace Twins

variable {ρ : Fingerprint → Fingerprint} {fixed : Prop} {t t' : Table}

/-- Twins stay twins while their rows do not change. -/
theorem step (twins : t.Twins ρ fixed t') {u u' : Table} (rows : SameRows t u)
    (rows' : SameRows t' u') (state : SameState u u') (valid : u.Valid) (valid' : u'.Valid) :
    u.Twins ρ fixed u' where
  alike := by
    rw [rows.layout, rows'.layout]
    exact twins.alike
  state := state
  valid := valid
  valid' := valid'
  shows := by
    obtain ⟨c, shows, shows'⟩ := twins.shows
    exact ⟨c, shows.same rows, shows'.same rows'⟩
  objects := by
    rw [rows.objects, rows'.objects]
    exact twins.objects
  bits same := (twins.bits same).congr rows.layout rows.capacity rows.segments rows'.layout
    rows'.capacity rows'.segments
  slots other := (twins.slots other).same rows rows'

variable (twins : t.Twins ρ fixed t')
include twins

theorem layout (same : fixed) : t'.layout = t.layout := (twins.bits same).layout

theorem selected :
    Matches ρ (fun row row' => row' = row ∧ row < t.capacity) t.selected t'.selected := by
  unfold Table.selected
  rw [twins.state.cursor, twins.state.capacity]
  cases t.cursor with
  | none => exact .error .noSelection
  | some row =>
    dsimp only
    split
    · next here => exact .ok ⟨rfl, here⟩
    · exact .error (.index row t.capacity)

/-- Twins see the same contents. -/
theorem sees (view : View) : ∃ c, t.Sees view c ∧ t'.Sees view c := by
  obtain ⟨c, shows, shows'⟩ := twins.shows
  cases view with
  | committed => exact ⟨c, shows.sees, shows'.sees⟩
  | staged =>
    refine ⟨_, shows.sees_staged twins.valid.answers twins.valid.sound, ?_⟩
    have staged := shows'.sees_staged twins.valid'.answers twins.valid'.sound
    rwa [twins.alike.replay, twins.state.pending] at staged

theorem read (view : View) (handle : FieldHandle) :
    Matches ρ (fun v v' => v' = v) (t.read view handle) (t'.read view (handle.rename ρ)) := by
  refine twins.selected.bind ?_
  rintro _ row ⟨rfl, here⟩
  refine (twins.alike.fieldOf handle).bind ?_
  rintro f f' ⟨field, field', same⟩
  obtain ⟨c, sees, sees'⟩ := twins.sees view
  rw [sees.readAt twins.valid.sound here field,
    sees'.readAt twins.valid'.sound (twins.state.capacity ▸ here) field']
  exact twins.alike.readAt c same _

theorem isPresent (handle : StructHandle) :
    Matches ρ (fun b b' => b' = b) (t.isPresent handle) (t'.isPresent (handle.rename ρ)) := by
  refine twins.selected.bind ?_
  rintro _ row ⟨rfl, here⟩
  refine (twins.alike.structOf handle).bind ?_
  rintro s s' ⟨struct, struct', same⟩
  obtain ⟨c, sees, sees'⟩ := twins.sees .staged
  rw [sees.firstAbsent? twins.valid.sound here struct,
    sees'.firstAbsent? twins.valid'.sound (twins.state.capacity ▸ here) struct', same.flags,
    same.isList, same.path]
  split
  · refine .ok ?_
    rw [Contents.firstAbsent?, same.chain]
    rfl
  · exact .error (.mismatch s.path .optionalStruct .struct)

theorem activeMember (handle : StructHandle) :
    Matches ρ (fun m m' => m' = m.map (·.rename ρ)) (t.activeMember handle)
      (t'.activeMember (handle.rename ρ)) := by
  refine twins.selected.bind ?_
  rintro _ row ⟨rfl, here⟩
  refine (twins.alike.structOf handle).bind ?_
  rintro s s' ⟨struct, struct', same⟩
  obtain ⟨c, sees, sees'⟩ := twins.sees .staged
  have tag (u : UnionRegion) (union : s.union = some u) :
      t.tag .staged s.id u row = c.tag ⟨handle.id, row⟩ := by
    rw [twins.valid.sound.struct?_id struct]
    exact sees.tag _ row here s u struct union
  have tag' (u' : UnionRegion) (union' : s'.union = some u') :
      t'.tag .staged s'.id u' row = c.tag ⟨handle.id, row⟩ := by
    rw [twins.valid'.sound.struct?_id struct']
    exact sees'.tag _ row (twins.state.capacity ▸ here) s' u' struct' union'
  have unions := rel_of_map_eq same.union
  rw [same.path]
  generalize s.union = x at unions tag
  generalize s'.union = y at unions tag'
  cases unions with
  | none => exact .error (.mismatch s.path .unionStruct .struct)
  | @some u u' outline =>
    dsimp only
    rw [tag u rfl, tag' u' rfl]
    have members : u'.members = u.members := congrArg UnionOutline.members outline
    by_cases unselected : c.tag ⟨handle.id, row⟩ = 0
    · rw [if_pos unselected, if_pos unselected]
      exact .ok rfl
    · rw [if_neg unselected, if_neg unselected]
      refine .ok ?_
      rw [members]
      cases u.members[c.tag ⟨handle.id, row⟩ - 1]? with
      | none => rfl
      | some id =>
        have related := twins.alike.field? id
        simp only [Option.bind_some]
        generalize t.layout.field? id = x at related
        generalize t'.layout.field? id = y at related
        cases related with
        | none => rfl
        | some same => exact congrArg some (twins.alike.handleOf same)

/-- The object fields of twins name the same objects. -/
theorem named {id : FieldId} {row : UInt64} (cell : t.ObjectCell id row) :
    t'.objects.get? (t'.bitsOf (.field id) row).toNat =
      t.objects.get? (t.bitsOf (.field id) row).toNat := by
  obtain ⟨c, shows, shows'⟩ := twins.shows
  rw [shows.get? twins.valid.intact cell,
    shows'.get? twins.valid'.intact (cell.alike twins.alike twins.state.capacity)]

theorem select (row : UInt64) :
    Matches ρ (Twins ρ fixed) (t.select row) (t'.select row) := by
  unfold Table.select
  have capacity := twins.state.capacity
  by_cases here : row < t.capacity
  · rw [if_pos here, if_pos (capacity ▸ here)]
    refine .ok (twins.step ⟨rfl, rfl, rfl, rfl⟩ ⟨rfl, rfl, rfl, rfl⟩ ?_ ?_ ?_)
    · exact { twins.state with cursor := rfl }
    · exact twins.valid.congr ⟨rfl, rfl, rfl, rfl⟩ rfl rfl rfl
    · exact twins.valid'.congr ⟨rfl, rfl, rfl, rfl⟩ rfl rfl rfl
  · rw [if_neg here, if_neg (capacity ▸ here), capacity]
    exact .error (.index row t.capacity)

theorem write (handle : FieldHandle) (value : Value) :
    Matches ρ (Twins ρ fixed) (t.write handle value) (t'.write (handle.rename ρ) value) := by
  refine twins.selected.bind ?_
  rintro _ row ⟨rfl, here⟩
  refine (twins.alike.fieldOf handle).bind ?_
  rintro f f' ⟨field, field', same⟩
  rw [same.type]
  cases encoded : f.type.encode value with
  | error reason =>
    dsimp only
    rw [same.path]
    exact .error (.mismatch f.path (.fieldType f.type) (.misfit reason))
  | ok bits =>
    rw [← twins.valid.sound.field?_id field] at field
    rw [← twins.valid'.sound.field?_id field'] at field'
    have state : SameState (t.staged f row bits value) (t'.staged f' row bits value) := by
      refine { twins.state with pending := ?_, active := ?_ }
      · simp only [staged, same.id, same.width, same.tag, same.owner, twins.alike.chainOf,
          twins.state.pending]
      · simp only [staged, same.tag, same.owner, twins.state.active]
    exact .ok (twins.step ⟨rfl, rfl, rfl, rfl⟩ ⟨rfl, rfl, rfl, rfl⟩ state
      (twins.valid.staged field encoded row) (twins.valid'.staged field' (same.type ▸ encoded) row))

/-- A selection that is staged in both tables. -/
theorem stageSelect {id : StructId} {s s' : StructLayout} {u u' : UnionRegion} {tag : Nat}
    (struct : t.layout.struct? id = some s) (union : s.union = some u)
    (bound : tag ≤ u.members.length) (struct' : t'.layout.struct? id = some s')
    (union' : s'.union = some u') (bound' : tag ≤ u'.members.length) (row : UInt64) :
    (t.stageSelect id row tag).Twins ρ fixed (t'.stageSelect id row tag) := by
  refine twins.step ⟨rfl, rfl, rfl, rfl⟩ ⟨rfl, rfl, rfl, rfl⟩ ?_
    (twins.valid.stageSelect struct union bound row)
    (twins.valid'.stageSelect struct' union' bound' row)
  refine { twins.state with pending := ?_ }
  change t'.pending.stageSelect id row tag (t'.layout.chainOf id) =
    t.pending.stageSelect id row tag (t.layout.chainOf id)
  rw [twins.state.pending, twins.alike.chainOf]

theorem withActive (id : StructId) (union : t.layout.IsUnion id) (union' : t'.layout.IsUnion id) :
    Twins ρ fixed { t with activeUnion := some id } { t' with activeUnion := some id } := by
  refine twins.step ⟨rfl, rfl, rfl, rfl⟩ ⟨rfl, rfl, rfl, rfl⟩ { twins.state with active := rfl }
    ?_ ?_
  · refine ⟨twins.valid.intact.same ⟨rfl, rfl, rfl, rfl⟩, twins.valid.answers, ?_,
      twins.valid.remembered, twins.valid.elements⟩
    rintro _ ⟨⟩
    exact union
  · refine ⟨twins.valid'.intact.same ⟨rfl, rfl, rfl, rfl⟩, twins.valid'.answers, ?_,
      twins.valid'.remembered, twins.valid'.elements⟩
    rintro _ ⟨⟩
    exact union'

theorem selectMember (handle : FieldHandle) :
    Matches ρ (Twins ρ fixed) (t.selectMember handle) (t'.selectMember (handle.rename ρ)) := by
  refine twins.selected.bind ?_
  rintro _ row ⟨rfl, here⟩
  refine (twins.alike.fieldOf handle).bind ?_
  rintro f f' ⟨field, field', same⟩
  rw [same.tag, same.path, same.owner]
  cases isMember : f.tag with
  | none => exact .error (.mismatch f.path .unionMember .field)
  | some tag =>
    obtain ⟨s, u, struct, union, -, -, -, -, bound⟩ := twins.valid.sound.member field isMember
    obtain ⟨s', u', struct', union', -, -, -, -, bound'⟩ :=
      twins.valid'.sound.member field' (same.tag.trans isMember)
    rw [same.owner] at struct'
    exact .ok ((twins.stageSelect struct union bound struct' union' bound' row).withActive f.owner
      ⟨s, u, struct, union⟩ ⟨s', u', struct', union'⟩)

theorem clearTarget? : t'.clearTarget? = t.clearTarget? := by
  unfold Table.clearTarget?
  rw [twins.state.active]
  cases t.activeUnion with
  | some id => rfl
  | none =>
    dsimp only
    have related := twins.alike.struct? 0
    generalize t.layout.struct? 0 = x at related
    generalize t'.layout.struct? 0 = y at related
    cases related with
    | none => rfl
    | @some s s' same =>
      have unions := rel_of_map_eq same.union
      simp only [Option.bind_some]
      generalize s.union = x at unions
      generalize s'.union = y at unions
      cases unions <;> rfl

theorem rootName : t'.layout.rootName = t.layout.rootName := by
  have names := congrArg (fun structs => (structs.map (·.name)).head?) twins.alike.structs
  simp only [List.map_map] at names
  unfold Layout.rootName
  generalize t.layout.structs = xs at names
  generalize t'.layout.structs = ys at names
  cases xs <;> cases ys <;> first | rfl | exact Option.some.inj names | cases names

/-- Clearing a union that both tables have. -/
theorem clearing {id : StructId} (union : t.layout.IsUnion id) (union' : t'.layout.IsUnion id)
    (row : UInt64) : (t.stageSelect id row 0).Twins ρ fixed (t'.stageSelect id row 0) := by
  obtain ⟨s, u, struct, union⟩ := union
  obtain ⟨s', u', struct', union'⟩ := union'
  exact twins.stageSelect struct union (Nat.zero_le _) struct' union' (Nat.zero_le _) row

theorem clear : Matches ρ (Twins ρ fixed) t.clear t'.clear := by
  refine twins.selected.bind ?_
  rintro _ row ⟨rfl, here⟩
  have target' := twins.clearTarget?
  rw [twins.rootName]
  cases target : t.clearTarget? with
  | none =>
    rw [target] at target'
    rw [target']
    exact .error (.unselectedUnion t.layout.rootName row)
  | some id =>
    rw [target] at target'
    rw [target']
    exact .ok (twins.clearing (twins.valid.isUnion_of_clearTarget? target)
      (twins.valid'.isUnion_of_clearTarget? target') row)

theorem clearUnion (handle : StructHandle) :
    Matches ρ (Twins ρ fixed) (t.clearUnion handle) (t'.clearUnion (handle.rename ρ)) := by
  refine twins.selected.bind ?_
  rintro _ row ⟨rfl, here⟩
  refine (twins.alike.structOf handle).bind ?_
  rintro s s' ⟨struct, struct', same⟩
  rw [← twins.valid.sound.struct?_id struct] at struct
  rw [← twins.valid'.sound.struct?_id struct', same.id] at struct'
  rw [same.path, same.id]
  have unions := rel_of_map_eq same.union
  cases union : s.union with
  | none =>
    rw [union] at unions
    generalize s'.union = y at unions
    cases unions
    exact .error (.mismatch s.path .unionStruct .struct)
  | some u =>
    rw [union] at unions
    cases union' : s'.union with
    | none =>
      rw [union'] at unions
      cases unions
    | some u' => exact .ok (twins.clearing ⟨s, u, struct, union⟩ ⟨s', u', struct', union'⟩ row)

theorem rollback : t.rollback.Twins ρ fixed t'.rollback := by
  have valid := twins.valid.rollback
  have valid' := twins.valid'.rollback
  unfold Table.rollback at valid valid' ⊢
  rw [twins.state.pending] at valid' ⊢
  split
  · exact twins
  · next some =>
    rw [if_neg some] at valid valid'
    exact twins.step ⟨rfl, rfl, rfl, rfl⟩ ⟨rfl, rfl, rfl, rfl⟩
      { twins.state with pending := rfl, active := twins.state.committed } valid valid'

theorem withListeners (listeners : ListenerRegistry) :
    Twins ρ fixed { t with listeners } { t' with listeners } :=
  twins.step ⟨rfl, rfl, rfl, rfl⟩ ⟨rfl, rfl, rfl, rfl⟩ { twins.state with listeners := rfl }
    (twins.valid.congr ⟨rfl, rfl, rfl, rfl⟩ rfl rfl rfl)
    (twins.valid'.congr ⟨rfl, rfl, rfl, rfl⟩ rfl rfl rfl)

theorem register (target : ListenTarget) (label : String) :
    (t'.register target label).1 = (t.register target label).1 ∧
      (t.register target label).2.Twins ρ fixed (t'.register target label).2 := by
  unfold Table.register
  rw [twins.state.listeners]
  exact ⟨rfl, twins.withListeners _⟩

omit twins in
theorem checkListenable {l l' : Layout} {s s' : StructLayout} (same : SameStruct l l' s s') :
    Matches ρ (fun _ _ => True) (Table.checkListenable s) (Table.checkListenable s') := by
  unfold Table.checkListenable
  rw [same.isList, same.path]
  split
  · exact .error (.mismatch s.path .fieldOrSingleStruct .list)
  · exact .ok trivial

theorem listen (path label : String) :
    Matches ρ (fun a b => b.1 = a.1 ∧ a.2.Twins ρ fixed b.2) (t.listen path label)
      (t'.listen path label) := by
  have related := twins.alike.target? path
  unfold Table.listen
  generalize t.layout.target? path = x at related
  generalize t'.layout.target? path = y at related
  cases related with
  | none => exact .error (.unknown (.path path))
  | some target =>
    cases target with
    | field same =>
      dsimp only
      rw [same.id]
      exact .ok (twins.register _ label)
    | struct same =>
      refine (checkListenable same).bind fun _ _ _ => ?_
      rw [same.id]
      exact .ok (twins.register _ label)

theorem listenField (handle : FieldHandle) (label : String) :
    Matches ρ (fun a b => b.1 = a.1 ∧ a.2.Twins ρ fixed b.2) (t.listenField handle label)
      (t'.listenField (handle.rename ρ) label) := by
  refine (twins.alike.fieldOf handle).bind ?_
  rintro f f' ⟨-, -, same⟩
  rw [same.id]
  exact .ok (twins.register _ label)

theorem listenStruct (handle : StructHandle) (label : String) :
    Matches ρ (fun a b => b.1 = a.1 ∧ a.2.Twins ρ fixed b.2) (t.listenStruct handle label)
      (t'.listenStruct (handle.rename ρ) label) := by
  refine (twins.alike.structOf handle).bind ?_
  rintro s s' ⟨-, -, same⟩
  refine (checkListenable same).bind fun _ _ _ => ?_
  rw [same.id]
  exact .ok (twins.register _ label)

theorem unlisten (id : Nat) : (t'.unlisten id).1 = (t.unlisten id).1 ∧
    (t.unlisten id).2.Twins ρ fixed (t'.unlisten id).2 := by
  unfold Table.unlisten
  rw [twins.state.listeners]
  exact ⟨rfl, twins.withListeners _⟩

end Twins

end Table

end BitRecords
