import BitRecords.Proofs.Storage.Delta
import BitRecords.Proofs.Table.Twins

/-!
# Commits of twins

A commit of twins passes the same checks, reports the same changes and leaves
twins. Their objects may be in other slots: the one table may use a slot again
that another object of the other table still has. But an operation frees a slot in
both tables or in none, since it is the contents that tell whether the field held
an object, so the tables need a new slot at the same time.
-/

namespace BitRecords

open Layout

section Rename

variable (ρ : Fingerprint → Fingerprint)

def Change.rename (change : Change) : Change := { change with field := change.field.rename ρ }

def Notice.rename (notice : Notice) : Notice := { notice with change := notice.change.rename ρ }

def CommitResult.rename (result : CommitResult) : CommitResult where
  changes := result.changes.map (·.rename ρ)
  notices := result.notices.map (·.rename ρ)

end Rename

@[simp] theorem rename_id_commitResult (result : CommitResult) : result.rename id = result := by
  have changes : (fun c : Change => c.rename id) = id := rfl
  have notices : (fun n : Notice => n.rename id) = id := rfl
  rw [CommitResult.rename, changes, notices, List.map_id, List.map_id]

namespace Table

variable {ρ : Fingerprint → Fingerprint} {fixed : Prop} {t t' : Table} {c : Contents}

theorem writesObject_alike (alike : t.layout.Alike ρ t'.layout) (op : PendingOp) :
    t'.writesObject op = t.writesObject op := by
  cases op with
  | select => rfl
  | write field row width bits value =>
    have related := alike.field? field
    unfold writesObject
    dsimp only
    generalize t.layout.field? field = x at related
    generalize t'.layout.field? field = y at related
    cases related with
    | none => rfl
    | some same => exact congrArg FieldType.isObject same.type

/-- An operation leaves the object tables even. If they are the same, and so are the
slots that object fields name, this stays so. -/
theorem even_apply (intact : t.Intact) (intact' : t'.Intact) (shows : t.Shows c)
    (shows' : t'.Shows c) (alike : t.layout.Alike ρ t'.layout) (capacity : t'.capacity = t.capacity)
    (even : t.objects.Even t'.objects) {op : PendingOp} (admits : t.layout.Admits op)
    (admits' : t'.layout.Admits op) (here : op.row < t.capacity) :
    (t.apply op).objects.Even (t'.apply op).objects ∧
      (t.SameSlots t' → (t.apply op).SameSlots (t'.apply op)) := by
  have writes := writesObject_alike alike op
  have twin {id : FieldId} {row : UInt64} (cell : t.ObjectCell id row) : t'.ObjectCell id row :=
    cell.alike alike capacity
  have old {id : FieldId} {row : UInt64} (cell : (t.apply op).ObjectCell id row) :
      t.ObjectCell id row := by
    rw [sameApart_apply t op] at cell
    exact cell
  cases rehouses intact.stored admits here with
  | spared plain spares =>
    cases rehouses intact'.stored admits' (capacity ▸ here) with
    | spared _ spares' =>
      rw [spares.objects, spares'.objects]
      refine ⟨even, fun same => ⟨?_, fun id row cell => ?_⟩⟩
      · rw [spares.objects, spares'.objects, same.objects]
      · rw [spares'.named id row (twin (old cell)), spares.named id row (old cell),
          same.named id row (old cell)]
    | replaced written cell =>
      rw [plain, written, cell.writesObject] at writes
      cases writes
  | @replaced field row width bits ref written cell objects named =>
    subst written
    cases rehouses intact'.stored admits' (capacity ▸ here) with
    | spared plain =>
      rw [plain, cell.writesObject] at writes
      cases writes
    | replaced written cell' objects' named' =>
      cases written
      have holds := shows.get? intact cell
      have holds' := shows'.get? intact' cell'
      refine ⟨?_, fun same => ⟨?_, fun id row' cell'' => ?_⟩⟩
      · rw [objects, objects']
        exact even.replace intact.consistent intact'.consistent (holds'.trans holds.symm) ref
      · rw [objects, objects', same.objects, same.named field row cell]
      · rw [named id row' (old cell''), named' id row' (twin (old cell'')), same.objects,
          same.named field row cell, same.named id row' (old cell'')]

theorem even_applyAll (ops : List PendingOp) (intact : t.Intact) (intact' : t'.Intact)
    (shows : t.Shows c) (shows' : t'.Shows c) (alike : t.layout.Alike ρ t'.layout)
    (capacity : t'.capacity = t.capacity) (even : t.objects.Even t'.objects)
    (admits : ∀ op ∈ ops, t.layout.Admits op) (admits' : ∀ op ∈ ops, t'.layout.Admits op)
    (here : ∀ op ∈ ops, op.row < t.capacity)
    (room : t.objects.slots.size + t.objectWrites ops ≤ ObjectTable.maxSlots) :
    (ops.foldl Table.apply t).objects.Even (ops.foldl Table.apply t').objects ∧
      (t.SameSlots t' → (ops.foldl Table.apply t).SameSlots (ops.foldl Table.apply t')) := by
  induction ops generalizing t t' c with
  | nil => exact ⟨even, id⟩
  | cons op rest ih =>
    have sum : t.objectWrites (op :: rest) = t.objectWrites [op] + t.objectWrites rest := by
      rw [objectWrites, objectWrites, objectWrites, ← List.countP_append, List.singleton_append]
    have same : t'.objectWrites [op] = t.objectWrites [op] := by
      rw [objectWrites, objectWrites, List.countP_singleton, List.countP_singleton,
        writesObject_alike alike]
    rw [sum] at room
    obtain ⟨admitsHere, admits⟩ := List.forall_mem_cons.mp admits
    obtain ⟨admitsHere', admits'⟩ := List.forall_mem_cons.mp admits'
    obtain ⟨inside, here⟩ := List.forall_mem_cons.mp here
    have first := apply_spec intact shows admitsHere inside (by omega)
    have first' := apply_spec intact' shows' admitsHere' (capacity ▸ inside)
      (by rw [even.size, same]; omega)
    have size := first.size_le
    obtain ⟨even, slots⟩ := even_apply intact intact' shows shows' alike capacity even
      admitsHere admitsHere' inside
    have shows' := first'.shows
    rw [alike.apply] at shows'
    have others := ih first.intact first'.intact first.shows shows'
      (by rwa [first.layout, first'.layout])
      (by rw [first.capacity, first'.capacity, capacity]) even (by rwa [first.layout])
      (by rwa [first'.layout]) (by rwa [first.capacity])
      (by rw [objectWrites_congr first.layout rest]; omega)
    exact ⟨others.1, fun same => others.2 (slots same)⟩

theorem matches_forM {α : Type} {f g : α → Except Error Unit} {xs : List α}
    (each : ∀ x ∈ xs, Matches ρ (fun _ _ => True) (f x) (g x)) :
    Matches ρ (fun _ _ => True) (xs.forM f) (xs.forM g) := by
  induction xs with
  | nil => exact .ok trivial
  | cons x rest ih =>
    obtain ⟨first, others⟩ := List.forall_mem_cons.mp each
    exact first.bind fun _ _ _ => ih others

namespace Twins

variable (twins : t.Twins ρ fixed t')
include twins

theorem admits' {op : PendingOp} (member : op ∈ t.pending.ops.toList) : t'.layout.Admits op := by
  rw [← twins.state.pending] at member
  exact twins.valid'.answers.admits op member

theorem checkPending :
    Matches ρ (fun _ _ => t.checkPending = .ok () ∧ t'.checkPending = .ok ()) t.checkPending
      t'.checkPending := by
  have matched : Matches ρ (fun _ _ => True) t.checkPending t'.checkPending := by
    unfold Table.checkPending
    rw [twins.state.pending, twins.objects.size]
    refine (matches_forM fun op member => ?_).bind fun _ _ _ => ?_
    · rw [checkOp_of_admits twins.valid.intact.stored.good (twins.valid.answers.admits op member),
        checkOp_of_admits twins.valid'.intact.stored.good (twins.admits' member),
        twins.state.capacity]
      split
      · exact .error (.index op.row t.capacity)
      · exact .ok trivial
    · rw [funext (writesObject_alike twins.alike)]
      dsimp only
      split
      · exact .error (.compilation "" .objectsExhausted)
      · exact .ok trivial
  generalize t.checkPending = x at matched ⊢
  generalize t'.checkPending = y at matched ⊢
  cases matched with
  | ok => exact .ok ⟨rfl, rfl⟩
  | error e => exact .error e

/-- Applying what is pending keeps twins. -/
theorem applyPending (checked : t.checkPending = .ok ()) (checked' : t'.checkPending = .ok ()) :
    t.applyPending.Twins ρ fixed t'.applyPending := by
  obtain ⟨c, shows, shows'⟩ := twins.shows
  obtain ⟨here, room⟩ := of_checkPending checked
  have apart := Valid.sameApart_applyPending t
  have apart' := Valid.sameApart_applyPending t'
  obtain ⟨layout, capacity, -, after⟩ :=
    applyPending_spec twins.valid.intact shows twins.valid.answers.admits checked
  obtain ⟨layout', capacity', -, after'⟩ :=
    applyPending_spec twins.valid'.intact shows' twins.valid'.answers.admits checked'
  have rows (t : Table) : SameRows t
      { t with pending := .empty, committedUnion := t.activeUnion } := ⟨rfl, rfl, rfl, rfl⟩
  obtain ⟨even, slots⟩ := even_applyAll t.pending.ops.toList
    (twins.valid.intact.same (rows t)) (twins.valid'.intact.same (rows t')) (shows.same (rows t))
    (shows'.same (rows t')) twins.alike twins.state.capacity twins.objects
    twins.valid.answers.admits (fun op => twins.admits') here room
  refine ⟨?_, ?_, twins.valid.applyPending checked, twins.valid'.applyPending checked', ?_, ?_,
    fun same => ?_, fun other => ?_⟩
  · rw [layout, layout']
    exact twins.alike
  · rw [apart, apart']
    exact { twins.state with pending := rfl, committed := twins.state.active }
  · refine ⟨_, after, ?_⟩
    rwa [twins.alike.replay, twins.state.pending] at after'
  · rw [applyPending_eq, applyPending_eq, twins.state.pending]
    exact even
  · rw [applyPending_eq, applyPending_eq, twins.state.pending]
    have bits : SameBits { t with pending := .empty, committedUnion := t.activeUnion }
        { t' with pending := .empty, committedUnion := t'.activeUnion } :=
      (twins.bits same).congr rfl rfl rfl rfl rfl rfl
    exact bits.applyAll t.pending.ops.toList twins.valid.answers.admits here
  · rw [applyPending_eq, applyPending_eq, twins.state.pending]
    exact slots ((twins.slots other).same (rows t) (rows t'))

theorem content {c : Contents} (shows : t.Shows c) (shows' : t'.Shows c) {row : UInt64}
    (here : row < t.capacity) {id : FieldId} {f f' : FieldLayout}
    (field : t.layout.field? id = some f) (field' : t'.layout.field? id = some f')
    (same : SameField t.layout t'.layout f f') : t'.content f' row = t.content f row := by
  rw [shows.holds.content twins.valid.intact.stored here field,
    shows'.holds.content twins.valid'.intact.stored (twins.state.capacity ▸ here) field']
  simp only [Contents.content, field, field', same.tag, same.type, same.owner]

theorem change? (checked : t.checkPending = .ok ()) (checked' : t'.checkPending = .ok ())
    {cell : Cell} (here : cell.row < t.capacity) :
    t'.change? t'.applyPending cell =
      (t.change? t.applyPending cell).map (·.rename ρ) := by
  have after := twins.applyPending checked checked'
  obtain ⟨c, shows, shows'⟩ := twins.shows
  obtain ⟨d, showsAfter, showsAfter'⟩ := after.shows
  have layout := twins.valid.layout_applied checked
  have layout' := twins.valid'.layout_applied checked'
  have capacity := twins.valid.capacity_applied checked
  have related := twins.alike.field? cell.id
  unfold Table.change?
  rw [layout, layout']
  cases field : t.layout.field? cell.id with
  | none =>
    rw [field] at related
    generalize t'.layout.field? cell.id = y at related
    cases related
    rfl
  | some f =>
    obtain ⟨f', field', same⟩ := twins.alike.field?_eq_some field
    rw [field']
    dsimp only
    rw [twins.content shows shows' here field field' same,
      after.content showsAfter showsAfter' (capacity ▸ here) (layout ▸ field) (layout' ▸ field')
        (by rw [layout, layout']; exact same),
      twins.alike.handleOf same, same.path]
    split <;> rfl

/-- The listeners of twins are told of the same changes. -/
theorem notices (registry : ListenerRegistry) (changes : List Change) :
    registry.notices t'.layout (changes.map (·.rename ρ)) =
      (registry.notices t.layout changes).map (·.rename ρ) := by
  have tells (change : Change) (target : ListenTarget) :
      target.matches t'.layout (change.rename ρ).field.id =
        target.matches t.layout change.field.id := by
    cases target with
    | field id => rfl
    | struct id => exact twins.alike.isWithin change.field.id id
  unfold ListenerRegistry.notices
  rw [List.flatMap_map, List.map_flatMap]
  refine List.flatMap_congr fun change _ => ?_
  simp only [tells, List.map_map]
  rfl

/-- Twins commit the same changes and stay twins, or refuse for the same reason. -/
theorem commit : Matches ρ (fun a b => b.1 = a.1.rename ρ ∧ a.2.Twins ρ fixed b.2) t.commit
    t'.commit := by
  unfold Table.commit
  rw [twins.state.pending]
  split
  · exact .ok ⟨rfl, twins⟩
  · refine twins.checkPending.bind ?_
    rintro _ _ ⟨checked, checked'⟩
    have after := twins.applyPending checked checked'
    have here : ∀ cell ∈ writtenCells t.pending.ops.toList, cell.row < t.capacity := by
      intro cell member
      obtain ⟨op, inside, writes⟩ := mem_writtenCells.mp member
      obtain ⟨rows, -⟩ := of_checkPending checked
      cases op with
      | select => cases writes
      | write field row width bits value =>
        obtain rfl := of_decide_eq_true writes
        exact rows _ inside
    have changes : (writtenCells t.pending.ops.toList).filterMap (t'.change? t'.applyPending) =
        ((writtenCells t.pending.ops.toList).filterMap (t.change? t.applyPending)).map
          (·.rename ρ) := by
      rw [List.map_filterMap]
      exact List.filterMap_congr fun cell member =>
        twins.change? checked checked' (here cell member)
    refine .ok ⟨?_, after⟩
    simp only [CommitResult.rename]
    rw [changes, after.state.listeners, after.notices]

end Twins

end Table

end BitRecords
