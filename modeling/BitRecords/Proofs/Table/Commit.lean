import BitRecords.Proofs.Table.Apply

/-!
# Committing pending operations

A commit that succeeds has checked every pending operation, so it applies all of
them in issue order and the rows hold what a replay of the log gives.
-/

namespace BitRecords.Table

variable {t : Table} {c : Contents}

theorem objectWrites_congr {a b : Table} (same : a.layout = b.layout) (ops : List PendingOp) :
    a.objectWrites ops = b.objectWrites ops := by
  have each : a.writesObject = b.writesObject := by
    funext op
    cases op <;> simp [writesObject, same]
  rw [objectWrites, objectWrites, each]

/-- Operations that are applied one after the other. -/
theorem applyAll_spec (ops : List PendingOp) (intact : t.Intact) (shows : t.Shows c)
    (admits : ∀ op ∈ ops, t.layout.Admits op) (here : ∀ op ∈ ops, op.row < t.capacity)
    (room : t.objects.slots.size + t.objectWrites ops ≤ ObjectTable.maxSlots) :
    Applied t (t.objectWrites ops) (ops.foldl apply t) (c.replay t.layout ops) := by
  induction ops generalizing t c with
  | nil => exact ⟨rfl, rfl, intact, shows, Nat.le_refl _⟩
  | cons op rest ih =>
    have sum : t.objectWrites (op :: rest) = t.objectWrites [op] + t.objectWrites rest := by
      rw [objectWrites, objectWrites, objectWrites, ← List.countP_append, List.singleton_append]
    rw [sum] at room ⊢
    have first := apply_spec intact shows (admits op List.mem_cons_self)
      (here op List.mem_cons_self) (by omega)
    have writes := objectWrites_congr first.layout rest
    have size := first.size_le
    have others := ih first.intact first.shows
      (fun op member => first.layout ▸ admits op (List.mem_cons_of_mem _ member))
      (fun op member => first.capacity ▸ here op (List.mem_cons_of_mem _ member))
      (by rw [writes]; omega)
    rw [writes, first.layout] at others
    exact first.trans others

/-- The tables differ at most in their buffers and objects. -/
def SameApart (a b : Table) : Prop :=
  b = { a with segments := b.segments, objects := b.objects }

theorem SameApart.trans {a b c : Table} (first : SameApart a b) (second : SameApart b c) :
    SameApart a c := by
  rw [SameApart] at *
  rw [second, first]

theorem sameApart_setBits (t : Table) (slot : Slot) (row : UInt64) (width : Nat) (bits : UInt64) :
    SameApart t (t.setBits slot row width bits) := rfl

theorem sameApart_markPresent (t : Table) (chain : List StructId) (row : UInt64) :
    SameApart t (t.markPresent chain row) :=
  markPresent_induction (P := SameApart t) chain rfl fun t' _ slot same _ =>
    same.trans (sameApart_setBits t' slot row 1 1)

theorem sameApart_setContent (t : Table) (f : FieldLayout) (row bits : UInt64) (value : Value) :
    SameApart t (t.setContent f row bits value) := by
  unfold setContent
  split
  · rfl
  · rfl

/-- Applying an operation changes only buffers and objects. -/
theorem sameApart_apply (t : Table) (op : PendingOp) : SameApart t (t.apply op) := by
  cases op with
  | write field row width bits value =>
    unfold apply
    dsimp only
    split
    · rfl
    · split
      · rfl
      · next f _ _ owner _ =>
        refine (sameApart_markPresent t owner.chain row).trans ?_
        split
        · next u tag _ _ =>
          exact (sameApart_setBits _ u.tag row u.tagWidth (UInt64.ofNat tag)).trans
            (sameApart_setContent _ f row bits value)
        · exact sameApart_setContent _ f row bits value
  | select union row tag =>
    unfold apply
    dsimp only
    split
    · rfl
    · next s _ =>
      refine (sameApart_markPresent t s.chain row).trans ?_
      split
      · next u _ => exact sameApart_setBits _ u.tag row u.tagWidth (UInt64.ofNat tag)
      · rfl

theorem sameApart_applyAll (t : Table) (ops : List PendingOp) :
    SameApart t (ops.foldl apply t) := by
  induction ops generalizing t with
  | nil => rfl
  | cons op rest ih => exact SameApart.trans (sameApart_apply t op) (ih (t.apply op))

theorem forM_eq_ok {ε α : Type} {xs : List α} {f : α → Except ε Unit} :
    xs.forM f = .ok () ↔ ∀ x ∈ xs, f x = .ok () := by
  induction xs with
  | nil => simp [List.forM, pure, Except.pure]
  | cons x rest ih =>
    change (f x >>= fun _ => rest.forM f) = .ok () ↔ _
    simp only [bind_eq_ok, ih, List.forall_mem_cons]
    constructor
    · rintro ⟨⟨⟩, first, others⟩
      exact ⟨first, others⟩
    · rintro ⟨first, others⟩
      exact ⟨(), first, others⟩

theorem row_lt_of_checkOp {op : PendingOp} (checked : t.checkOp op = .ok ()) :
    op.row < t.capacity := by
  unfold checkOp at checked
  by_cases outside : t.capacity ≤ op.row
  · rw [if_pos outside] at checked
    obtain ⟨_, thrown, _⟩ := bind_eq_ok.mp checked
    cases thrown
  · exact UInt64.not_le.mp outside

/-- A slot that the layout stores is inside its segment. -/
theorem checkExtent_of_stores (sound : t.layout.Sound) {use : Use} {slot : Slot} {width : Nat}
    (stores : t.layout.Stores use slot width) (path : String) :
    t.checkExtent path slot width = .ok () := by
  obtain ⟨-, fits⟩ := stores.inside sound
  have small : (t.layout.stride slot.segment).toNat < UInt64.size := UInt64.toNat_lt_size _
  have number : (UInt64.ofNat width).toNat = width :=
    UInt64.toNat_ofNat_of_lt' (by omega)
  have total : (slot.offset + UInt64.ofNat width).toNat = slot.offset.toNat + width := by
    rw [LayoutRules.toNat_add_exact (by omega), number]
  exact if_neg (by rw [UInt64.lt_iff_toNat_lt]; omega)

/-- An operation that was staged is refused only because its row is gone. -/
theorem checkOp_of_admits (good : t.layout.SoundTyped) {op : PendingOp} (admits : t.layout.Admits op) :
    t.checkOp op =
      if t.capacity ≤ op.row then .error (.index op.row t.capacity) else .ok () := by
  have sound := good.sound
  unfold checkOp
  by_cases outside : t.capacity ≤ op.row
  · rw [if_pos outside, if_pos outside]
    rfl
  · rw [if_neg outside, if_neg outside]
    cases admits with
    | @write field row bits value f found encoded =>
      dsimp only
      rw [found]
      obtain ⟨use, stores⟩ := good.stores_place found
      exact checkExtent_of_stores sound stores _
    | @select union row tag s u struct isUnion bound =>
      dsimp only
      rw [struct]
      obtain ⟨id, name, path, parent, flags, segment, offset, stride, presence, chain, union',
        children, fields, element⟩ := s
      cases isUnion
      exact checkExtent_of_stores sound (sound.stores_tag good.typed struct rfl) _

/-- A check that passes has found all rows, and room for all objects. -/
theorem of_checkPending (checked : t.checkPending = .ok ()) :
    (∀ op ∈ t.pending.ops.toList, op.row < t.capacity) ∧
      t.objects.slots.size + t.objectWrites t.pending.ops.toList ≤ ObjectTable.maxSlots := by
  simp only [checkPending, bind_eq_ok] at checked
  obtain ⟨⟨⟩, ops, room⟩ := checked
  refine ⟨fun op member => row_lt_of_checkOp (forM_eq_ok.mp ops op member), ?_⟩
  split at room
  · cases room
  · next enough => exact Nat.le_of_not_lt enough

/-- A commit without pending operations does nothing, and any other applies them
all. -/
inductive Commits (t : Table) : CommitResult → Table → Prop where
  | idle : t.pending.ops = #[] → Commits t {} t
  | applied : t.pending.ops ≠ #[] → t.checkPending = .ok () →
      Commits t
        { changes := (writtenCells t.pending.ops.toList).filterMap (t.change? t.applyPending)
          notices := t.applyPending.listeners.notices t.applyPending.layout
            ((writtenCells t.pending.ops.toList).filterMap (t.change? t.applyPending)) }
        t.applyPending

theorem commits_of_ok {result : CommitResult} {after : Table}
    (ok : t.commit = .ok (result, after)) : Commits t result after := by
  unfold commit at ok
  split at ok
  · next empty =>
    cases ok
    exact .idle (by simpa [PendingLog.isEmpty] using empty)
  · next some =>
    simp only [bind_eq_ok, pure_eq_ok] at ok
    obtain ⟨⟨⟩, checked, same⟩ := ok
    cases same
    exact .applied (by simpa [PendingLog.isEmpty] using some) checked

theorem applyPending_eq (t : Table) : t.applyPending = t.pending.ops.toList.foldl apply
    { t with pending := .empty, committedUnion := t.activeUnion } := by
  rw [applyPending, Array.foldl_toList]

/-- A checked log of operations that were staged is applied. -/
theorem applyPending_spec (intact : t.Intact) (shows : t.Shows c)
    (admits : ∀ op ∈ t.pending.ops.toList, t.layout.Admits op)
    (checked : t.checkPending = .ok ()) :
    t.applyPending.layout = t.layout ∧ t.applyPending.capacity = t.capacity ∧
      t.applyPending.Intact ∧ t.applyPending.Shows (c.replay t.layout t.pending.ops.toList) := by
  obtain ⟨here, room⟩ := of_checkPending checked
  have same : SameRows t { t with pending := .empty, committedUnion := t.activeUnion } :=
    ⟨rfl, rfl, rfl, rfl⟩
  have applied := applyAll_spec t.pending.ops.toList (intact.same same) (shows.same same) admits
    here (Nat.le_trans (Nat.le_of_eq rfl) room)
  rw [← applyPending_eq] at applied
  exact ⟨applied.layout, applied.capacity, applied.intact, applied.shows⟩

end BitRecords.Table
