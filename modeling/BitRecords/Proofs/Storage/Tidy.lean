import BitRecords.Proofs.Layout.Elements
import BitRecords.Proofs.Storage.Steady

/-!
# Tidy storages

In a steady storage each buffer ends with the last row. The lists of any storage
that is reached are in the strict order of their cells, and each list hangs below a
row that exists, under a list struct whose elements it has.
-/

namespace BitRecords

open Layout

namespace Table

variable {t t' : Table}

/-- No buffer is longer than its rows. -/
def Exact (t : Table) : Prop :=
  ∀ (k : Nat) (b : BitBuffer), t.segments[k]? = some b →
    b.size.toNat = t.capacity.toNat * (t.layout.stride k).toNat

/-- The rows are the same in number and width, and so are the buffers. -/
structure SameSizes (t t' : Table) : Prop where
  layout : t'.layout = t.layout
  capacity : t'.capacity = t.capacity
  sizes : ∀ k : Nat, (t'.segments[k]?).map (·.size) = (t.segments[k]?).map (·.size)

namespace SameSizes

theorem refl (t : Table) : SameSizes t t := ⟨rfl, rfl, fun _ => rfl⟩

theorem trans {t'' : Table} (first : SameSizes t t') (second : SameSizes t' t'') :
    SameSizes t t'' where
  layout := second.layout.trans first.layout
  capacity := second.capacity.trans first.capacity
  sizes k := (second.sizes k).trans (first.sizes k)

theorem exact (same : SameSizes t t') (exact : t.Exact) : t'.Exact := by
  intro k b found
  have size := same.sizes k
  rw [found] at size
  obtain ⟨old, before, equal⟩ := Option.map_eq_some_iff.mp size.symm
  rw [same.layout, same.capacity, ← exact k old before, equal]

end SameSizes

theorem sameSizes_setBits (t : Table) (slot : Slot) (row : UInt64) (width : Nat) (bits : UInt64) :
    SameSizes t (t.setBits slot row width bits) where
  layout := rfl
  capacity := rfl
  sizes k := by
    simp only [setBits, Array.getElem?_modify]
    split
    · cases t.segments[k]? <;> simp
    · rfl

theorem sameSizes_markPresent (t : Table) (chain : List StructId) (row : UInt64) :
    SameSizes t (t.markPresent chain row) :=
  markPresent_induction (P := SameSizes t) chain (.refl t) fun t' _ slot same _ =>
    same.trans (sameSizes_setBits t' slot row 1 1)

theorem sameSizes_setContent (t : Table) (f : FieldLayout) (row bits : UInt64) (value : Value) :
    SameSizes t (t.setContent f row bits value) := by
  unfold setContent
  split
  · exact ⟨rfl, rfl, (sameSizes_setBits t f.place row f.width _).sizes⟩
  · exact sameSizes_setBits t f.place row f.width bits

/-- Applying an operation writes into buffers as they are. -/
theorem sameSizes_apply (t : Table) (op : PendingOp) : SameSizes t (t.apply op) := by
  cases op with
  | write field row width bits value =>
    unfold apply
    dsimp only
    split
    · exact .refl t
    · split
      · exact .refl t
      · next f _ _ owner _ =>
        refine (sameSizes_markPresent t owner.chain row).trans ?_
        split
        · next u tag _ _ =>
          exact (sameSizes_setBits _ u.tag row u.tagWidth (UInt64.ofNat tag)).trans
            (sameSizes_setContent _ f row bits value)
        · exact sameSizes_setContent _ f row bits value
  | select union row tag =>
    unfold apply
    dsimp only
    split
    · exact .refl t
    · next s _ =>
      refine (sameSizes_markPresent t s.chain row).trans ?_
      split
      · next u _ => exact sameSizes_setBits _ u.tag row u.tagWidth (UInt64.ofNat tag)
      · exact .refl _

theorem sameSizes_applyAll (t : Table) (ops : List PendingOp) :
    SameSizes t (ops.foldl apply t) := by
  induction ops generalizing t with
  | nil => exact .refl t
  | cons op rest ih => exact (sameSizes_apply t op).trans (ih (t.apply op))

theorem sameSizes_applyPending (t : Table) : SameSizes t t.applyPending := by
  have start : SameSizes t { t with pending := .empty, committedUnion := t.activeUnion } :=
    ⟨rfl, rfl, fun _ => rfl⟩
  rw [applyPending_eq]
  exact start.trans (sameSizes_applyAll _ _)

end Table

namespace Storage

open Table

theorem persists_exact : Persists Exact where
  rows exact same := by
    refine SameSizes.exact ⟨same.layout, same.capacity, fun k => ?_⟩ exact
    rw [same.segments]
  commit {t} exact _ _ := (sameSizes_applyPending t).exact exact
  resize {t length objects segments} _ valid _ sizes := by
    intro k b found
    obtain ⟨old, -, ⟨fits, rfl⟩ | ⟨failed, -⟩⟩ := sizes.buffer valid.intact.stored found
    · rw [BitBuffer.size_resize, toNat_mul_exact fits]
    · exact absurd rfl failed
  fresh _ _ blank := by
    intro k b found
    obtain ⟨fits, rfl⟩ := blank k b found
    rw [BitBuffer.size_zeroed, toNat_mul_exact fits]
  restore {t l buffers} _ valid same _ count ok := by
    obtain ⟨length, each⟩ :=
      Snapshot.restoreSegments_spec ok (by rw [Array.length_toList, count])
    intro k b found
    simp only [Snapshot.restored, List.getElem?_toArray] at found ⊢
    have bound : k < l.segments.length := by
      rw [← length]
      exact (List.getElem?_eq_some_iff.mp found).1
    have segment : l.segments[k]? = some l.segments[k] := List.getElem?_eq_getElem bound
    obtain ⟨-, -, -, -, size⟩ := each k b _ found segment
    rw [stride_eq segment]
    exact size

/-- The cell of one list comes before that of another. -/
def Before (a b : Cell × Storage) : Prop := compare a.1 b.1 = .lt

/-- The list has its place below a row of the table. Its layout is that of the
elements of a list struct, as far as `same` tells. -/
structure Hangs (same : Layout → Layout → Prop) (t : Table) (entry : Cell × Storage) : Prop where
  row : entry.1.row < t.capacity
  element : ∃ element, t.layout.element? entry.1.id = some element ∧
    same element entry.2.table.layout

/-- At every level, lists are in order and have their places. -/
inductive Tidy (same : Layout → Layout → Prop) : Storage → Prop where
  | intro {table : Table} {lists : List (Cell × Storage)} : lists.Pairwise Before →
      (∀ entry ∈ lists, Hangs same table entry) → (∀ entry ∈ lists, Tidy same entry.2) →
      Tidy same ⟨table, lists⟩

variable {same : Layout → Layout → Prop} {s : Storage}

namespace Tidy

theorem ordered (tidy : s.Tidy same) : s.lists.Pairwise Before := by
  cases tidy with
  | intro ordered _ _ => exact ordered

theorem hangs (tidy : s.Tidy same) : ∀ entry ∈ s.lists, Hangs same s.table entry := by
  cases tidy with
  | intro _ hangs _ => exact hangs

theorem lists (tidy : s.Tidy same) : ∀ entry ∈ s.lists, entry.2.Tidy same := by
  cases tidy with
  | intro _ _ lists => exact lists

theorem lookup (tidy : s.Tidy same) {cell : Cell} {list : Storage}
    (found : s.list? cell = some list) : list.Tidy same :=
  tidy.lists (cell, list) (mem_of_list? found)

theorem of_no_lists (none : s.lists = []) : s.Tidy same := by
  obtain ⟨table, lists⟩ := s
  cases none
  exact .intro .nil (by simp) (by simp)

/-- Only the layout and the capacity of the table matter. -/
theorem withTable (tidy : s.Tidy same) {t : Table} (layout : t.layout = s.table.layout)
    (capacity : t.capacity = s.table.capacity) : Tidy same { s with table := t } := by
  refine .intro tidy.ordered (fun entry member => ?_) tidy.lists
  obtain ⟨row, element⟩ := tidy.hangs entry member
  exact ⟨capacity ▸ row, layout ▸ element⟩

end Tidy

theorem Before.trans {a b c : Cell × Storage} (first : Before a b) (second : Before b c) :
    Before a c :=
  Std.TransCmp.lt_trans first second

theorem ordered_insertList {cell : Cell} {list : Storage} {lists : List (Cell × Storage)}
    (ordered : lists.Pairwise Before) : (insertList cell list lists).Pairwise Before := by
  induction lists with
  | nil => exact List.pairwise_singleton _ _
  | cons entry rest ih =>
    obtain ⟨later, others⟩ := List.pairwise_cons.mp ordered
    rw [insertList]
    split
    · next below =>
      refine List.pairwise_cons.mpr ⟨?_, ordered⟩
      exact List.forall_mem_cons.mpr ⟨below, fun b member => Before.trans below (later b member)⟩
    · next here =>
      obtain rfl : cell = entry.1 := Std.LawfulEqOrd.eq_of_compare here
      exact List.pairwise_cons.mpr ⟨later, others⟩
    · next above =>
      refine List.pairwise_cons.mpr ⟨fun b member => ?_, ih others⟩
      rcases mem_insertList member with rfl | old
      · exact Std.OrientedCmp.gt_iff_lt.mp above
      · exact later b old

theorem Tidy.setList (tidy : s.Tidy same) {cell : Cell} {list : Storage}
    (hangs : Hangs same s.table (cell, list)) (inner : list.Tidy same) :
    (s.setList cell list).Tidy same := by
  refine .intro (ordered_insertList tidy.ordered) (fun entry member => ?_) fun entry member => ?_
  · rcases mem_insertList member with rfl | old
    · exact hangs
    · exact tidy.hangs entry old
  · rcases mem_insertList member with rfl | old
    · exact inner
    · exact tidy.lists entry old

theorem TableStep.layout {t t' : Table} (step : TableStep t t') : t'.layout = t.layout := by
  cases step with
  | rows same => exact same.layout
  | commit => rw [Valid.sameApart_applyPending t]

theorem TableStep.capacity {t t' : Table} (step : TableStep t t') : t'.capacity = t.capacity := by
  cases step with
  | rows same => exact same.capacity
  | commit => rw [Valid.sameApart_applyPending t]

theorem layout_resize (intact : s.table.Intact) (length : UInt64) :
    (s.resize length).2.table.layout = s.table.layout := by
  have step := resizes intact length
  generalize (s.resize length).1 = result at step
  generalize (s.resize length).2 = after at step ⊢
  cases step <;> rfl

/-- No call changes the layout. -/
theorem Performs.layout {result : Except Error Unit} {after : Storage}
    (step : Performs s result after) (intact : s.table.Intact) :
    after.table.layout = s.table.layout := by
  cases step with
  | table step => exact step.layout
  | resize => exact layout_resize intact _
  | push =>
    have grown := layout_resize intact (s.table.capacity + 1)
    have step := pushes s
    generalize s.push = outcome at step ⊢
    obtain ⟨result, after⟩ := outcome
    cases step with
    | refused => rfl
    | failed resized | done _ resized =>
      rw [resized] at grown
      exact grown
  | reset =>
    unfold Storage.reset
    dsimp only
    split <;> rfl
  | createOrClearList =>
    unfold Storage.createOrClearList
    split
    · rfl
    · split
      · rfl
      · split <;> rfl
  | inList => rfl

theorem Tidy.resize (tidy : s.Tidy same) (intact : s.table.Intact) (length : UInt64) :
    (s.resize length).2.Tidy same := by
  have step := resizes intact length
  generalize (s.resize length).1 = result at step
  generalize (s.resize length).2 = after at step ⊢
  cases step with
  | fixed => exact tidy
  | failed => exact tidy.withTable rfl rfl
  | done =>
    by_cases shorter : length < s.table.capacity
    · rw [trim, if_pos shorter]
      refine .intro (tidy.ordered.filter _) (fun entry member => ?_) fun entry member => ?_
      · obtain ⟨old, inside⟩ := List.mem_filter.mp member
        exact ⟨of_decide_eq_true inside, (tidy.hangs entry old).element⟩
      · exact tidy.lists entry (List.mem_filter.mp member).1
    · rw [trim, if_neg shorter]
      refine .intro tidy.ordered (fun entry member => ?_) tidy.lists
      obtain ⟨row, element⟩ := tidy.hangs entry member
      exact ⟨UInt64.lt_of_lt_of_le row (UInt64.not_lt.mp shorter), element⟩

theorem Tidy.push (tidy : s.Tidy same) (intact : s.table.Intact) : s.push.2.Tidy same := by
  have grown := tidy.resize intact (s.table.capacity + 1)
  have step := pushes s
  generalize s.push = outcome at step ⊢
  obtain ⟨result, after⟩ := outcome
  cases step with
  | refused => exact tidy
  | failed resized =>
    rw [resized] at grown
    exact grown
  | done _ resized =>
    rw [resized] at grown
    exact grown.withTable rfl rfl

theorem Tidy.reset (tidy : s.Tidy same) (length : UInt64) : (s.reset length).2.Tidy same := by
  unfold Storage.reset
  dsimp only
  split
  · exact tidy.withTable rfl rfl
  · exact of_no_lists rfl

theorem layout_allocate {l : Layout} {length : UInt64} {growable : Bool} {list : Storage}
    (ok : allocate l length growable = .ok list) : list.table.layout = l ∧ list.lists = [] := by
  obtain ⟨t, tableOk, rfl⟩ := table_allocate ok
  obtain ⟨rfl, -⟩ := allocate_eq_ok tableOk
  exact ⟨rfl, rfl⟩

theorem Tidy.createOrClearList (reflexive : ∀ l, same l l) (sound : s.table.layout.Sound)
    (tidy : s.Tidy same) (handle : StructHandle) (length : UInt64) :
    (s.createOrClearList handle length).2.Tidy same := by
  unfold Storage.createOrClearList
  split
  · exact tidy
  · next cell element cellOk =>
    split
    · next list found =>
      have inner := (tidy.lookup found).reset length
      obtain ⟨row, element, here, alike⟩ := tidy.hangs _ (mem_of_list? found)
      have layout : (list.reset length).2.table.layout = list.table.layout := by
        unfold Storage.reset
        dsimp only
        split <;> rfl
      exact tidy.setList ⟨row, element, here, layout ▸ alike⟩ inner
    · split
      · exact tidy
      · next list ok =>
        obtain ⟨layout, none⟩ := layout_allocate ok
        obtain ⟨row, struct, selected, structOk, single, rfl⟩ := listCell_eq_ok.mp cellOk
        obtain ⟨-, found⟩ := structOf_eq_ok.mp structOk
        rw [← sound.struct?_id found] at found
        refine tidy.setList ⟨(selected_eq_ok.mp selected).2, element, ?_, ?_⟩ (of_no_lists none)
        · exact element?_eq_some.mpr ⟨struct, found, single⟩
        · exact layout ▸ reflexive element

/-- A call leaves the lists in order and in their places, whether or not it
succeeds. -/
theorem Tidy.performs (reflexive : ∀ l, same l l) {result : Except Error Unit} {after : Storage}
    (step : Performs s result after) (valid : s.Throughout Valid) (tidy : s.Tidy same) :
    after.Tidy same := by
  induction step with
  | table step => exact tidy.withTable step.layout step.capacity
  | resize => exact tidy.resize valid.here.intact _
  | push => exact tidy.push valid.here.intact
  | reset => exact tidy.reset _
  | createOrClearList => exact tidy.createOrClearList reflexive valid.here.sound _ _
  | inList found step ih =>
    have inner := valid.lookup found
    obtain ⟨row, element, here, alike⟩ := tidy.hangs _ (mem_of_list? found)
    exact tidy.setList ⟨row, element, here, step.layout inner.here.intact ▸ alike⟩
      (ih inner (tidy.lookup found))

theorem layout_restore {after : Storage} {l : Layout} (ok : s.snapshot.restore l = .ok after) :
    after.table.layout = l := by
  cases s
  obtain ⟨buffers, inner, -, -, -, -, -, rfl⟩ := Snapshot.restore_eq_ok.mp ok
  rfl

/-- The lists that are restored have the cells of those in the snapshot. -/
theorem cells_restoreLists {l : Layout} {capacity : UInt64} {lists after : List (Cell × Storage)}
    (ok : Snapshot.restoreLists l capacity (snapshotLists lists) = .ok after) :
    after.map (·.1) = lists.map (·.1) ∧
      ∀ entry ∈ after, ∃ old, (entry.1, old) ∈ lists ∧ entry.1.row < capacity ∧
        ∃ element, l.element? entry.1.id = some element ∧
          old.snapshot.restore element = .ok entry.2 := by
  induction lists generalizing after with
  | nil =>
    rw [snapshotLists, Snapshot.restoreLists] at ok
    cases ok
    simp
  | cons entry rest ih =>
    obtain ⟨element, storage, others, row, found, storageOk, othersOk, rfl⟩ :=
      Snapshot.restoreLists_cons_eq_ok.mp ok
    obtain ⟨cells, each⟩ := ih othersOk
    refine ⟨by simp [cells], List.forall_mem_cons.mpr ⟨?_, fun entry member => ?_⟩⟩
    · exact ⟨entry.2, List.mem_cons_self, row, element, found, storageOk⟩
    · obtain ⟨old, inside, place⟩ := each entry member
      exact ⟨old, List.mem_cons_of_mem _ inside, place⟩

theorem Tidy.restore (reflexive : ∀ l, same l l) (tidy : s.Tidy same) {l : Layout} {after : Storage}
    (ok : s.snapshot.restore l = .ok after) : after.Tidy same := by
  induction tidy generalizing l after with
  | @intro t lists ordered _ _ ih =>
    obtain ⟨buffers, inner, -, -, -, -, listsOk, rfl⟩ := Snapshot.restore_eq_ok.mp ok
    obtain ⟨cells, each⟩ := cells_restoreLists listsOk
    refine .intro ?_ (fun entry member => ?_) fun entry member => ?_
    · have ordered : (lists.map (·.1)).Pairwise fun a b => compare a b = .lt :=
        List.pairwise_map.mpr ordered
      rw [← cells, List.pairwise_map] at ordered
      exact ordered
    · obtain ⟨old, -, row, element, found, ok⟩ := each entry member
      exact ⟨row, element, found, layout_restore ok ▸ reflexive element⟩
    · obtain ⟨old, inside, row, element, found, ok⟩ := each entry member
      exact ih _ inside ok

/-- Steady storages are tidy, if a storage in the place of a list has the layout of
the list's elements too. -/
theorem Steady.tidy {may : Storage → Storage → Prop} (steady : s.Steady may)
    (reflexive : ∀ l, same l l)
    (allowed : ∀ list other element, may list other → same element list.table.layout →
      same element other.table.layout) : s.Tidy same := by
  induction steady with
  | create compiled ok =>
    obtain ⟨rows, -, ok⟩ := create_eq_ok.mp ok
    exact .of_no_lists (layout_allocate ok).2
  | call call before _ ih => exact ih.performs reflexive (performs _ call) before.reachable.valid
  | list _ found ih => exact ih.lookup found
  | restore _ _ ok ih => exact ih.restore reflexive ok
  | replace _ found _ may ih other =>
    obtain ⟨row, element, here, alike⟩ := ih.hangs _ (mem_of_list? found)
    exact ih.setList ⟨row, element, here, allowed _ _ _ may alike⟩ other

end Storage

end BitRecords
