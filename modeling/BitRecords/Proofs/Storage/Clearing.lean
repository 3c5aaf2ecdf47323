import BitRecords.Proofs.Storage.Atomicity

/-!
# Clearing unions

Clearing a union stages the tag that stands for no member, with the optional structs
around the union, as the selection of a member does. A commit of it reports nothing.
In the row that was cleared the union has no selected member afterwards, and the bits
of its region are as before. All else is as before where no optional struct around
the union was absent; one that was absent is present from then on.
-/

namespace BitRecords

open Layout

namespace Contents

variable {c : Contents} {l : Layout} {union : StructId} {row r : UInt64} {tag : Nat}

/-- The optional structs of a chain that a selection would make present are present
as it is. -/
def Keeps (c : Contents) (l : Layout) (union : StructId) (row : UInt64)
    (chain : List StructId) : Prop :=
  ∀ o ∈ chain, o ∈ l.chainOf union → c.present ⟨o, row⟩ = true

theorem present_select (cell : Cell) : (c.apply l (.select union row tag)).present cell =
    (c.present cell || decide (cell.row = row ∧ cell.id ∈ l.chainOf union)) := by
  rw [apply, present_setTag, present_mark]

theorem tag_select (cell : Cell) : (c.apply l (.select union row tag)).tag cell =
    if cell = ⟨union, row⟩ then tag else c.tag cell := by
  rw [apply, tag_setTag, tag_mark]

theorem region_select : (c.apply l (.select union row tag)).region = c.region := by
  rw [apply, region_setTag, region_mark]

theorem value_select : (c.apply l (.select union row tag)).value = c.value := by
  rw [apply, value_setTag, value_mark]

/-- A selection is as if an earlier one of the same union had not been made. -/
theorem apply_select_select (first : Nat) :
    (c.apply l (.select union row first)).apply l (.select union row tag) =
      c.apply l (.select union row tag) := by
  have present : ((c.apply l (.select union row first)).apply l (.select union row tag)).present =
      (c.apply l (.select union row tag)).present := by
    funext cell
    rw [present_select, present_select, present_select, Bool.or_assoc, Bool.or_self]
  have tags : ((c.apply l (.select union row first)).apply l (.select union row tag)).tag =
      (c.apply l (.select union row tag)).tag := by
    funext cell
    rw [tag_select, tag_select, tag_select]
    split <;> rfl
  have regions :
      ((c.apply l (.select union row first)).apply l (.select union row tag)).region =
        (c.apply l (.select union row tag)).region := by
    rw [region_select, region_select, region_select]
  have values : ((c.apply l (.select union row first)).apply l (.select union row tag)).value =
      (c.apply l (.select union row tag)).value := by
    rw [value_select, value_select, value_select]
  generalize (c.apply l (.select union row first)).apply l (.select union row tag) = twice at *
  generalize c.apply l (.select union row tag) = once at *
  cases twice
  cases once
  simp only at present tags regions values
  rw [present, tags, regions, values]

/-- A struct in whose chain a selection makes nothing present is as absent as before. -/
theorem firstAbsent?_select {s : StructLayout} (keeps : r = row → c.Keeps l union row s.chain) :
    (c.apply l (.select union row tag)).firstAbsent? s r = c.firstAbsent? s r := by
  refine List.find?_congr fun o member => ?_
  rw [present_select]
  by_cases marked : r = row ∧ o ∈ l.chainOf union
  · obtain ⟨rfl, around⟩ := marked
    rw [keeps rfl o member around, Bool.true_or]
  · rw [decide_eq_false marked, Bool.or_false]

/-- A selection is not seen in fields outside the union. -/
theorem readAt_select (sound : l.Sound) {id : FieldId} {f : FieldLayout}
    (field : l.field? id = some f) (outside : r = row → f.owner ≠ union)
    (keeps : r = row → c.Keeps l union row (l.chainOf f.owner)) :
    (c.apply l (.select union row tag)).readAt l f r = c.readAt l f r := by
  obtain ⟨s, struct, number, -⟩ := sound.owner field
  have chain : l.chainOf f.owner = s.chain := by rw [chainOf, struct]; rfl
  rw [chain] at keeps
  have other : (⟨s.id, r⟩ : Cell) ≠ ⟨union, row⟩ := by
    intro same
    cases same
    exact outside rfl number.symm
  unfold readAt
  rw [struct]
  dsimp only
  rw [firstAbsent?_select keeps, tag_select, if_neg other, region_select, value_select]

end Contents

namespace Table

open Contents

variable {t t' : Table} {c : Contents} {view : View} {row r : UInt64}

/-- A selection alone can be committed. It is no change of a field. -/
theorem Valid.commit_select (valid : t.Valid) (shows : t.Shows c) (idle : t.pending.ops = #[])
    {id : StructId} {s : StructLayout} {u : UnionRegion} {tag : Nat}
    (struct : t.layout.struct? id = some s) (union : s.union = some u)
    (bound : tag ≤ u.members.length) (here : row < t.capacity) :
    ∃ t', (t.stageSelect id row tag).commit = .ok ({}, t') ∧ t'.Valid ∧ t'.layout = t.layout ∧
      t'.capacity = t.capacity ∧ t'.pending.ops = #[] ∧
      t'.Shows (c.apply t.layout (.select id row tag)) := by
  have staged := valid.stageSelect struct union bound row
  have ops : (t.stageSelect id row tag).pending.ops = #[.select id row tag] := by
    rw [Table.stageSelect, PendingLog.ops_stageSelect, idle]
    rfl
  have room : t.objects.slots.size +
      (t.stageSelect id row tag).objectWrites (t.stageSelect id row tag).pending.ops.toList ≤
        ObjectTable.maxSlots := by
    rw [ops]
    exact valid.intact.consistent.bounded
  have inside : (t.stageSelect id row tag).firstLost? = none := by
    rw [firstLost?_eq_none, ops]
    exact List.forall_mem_singleton.mpr here
  obtain ⟨result, t', ok⟩ := staged.commit_of_inside room inside
  have nothing : result = {} := by
    cases commits_of_ok ok with
    | idle none => rfl
    | applied =>
      rw [ops]
      rfl
  have rows : SameRows t (t.stageSelect id row tag) := ⟨rfl, rfl, rfl, rfl⟩
  obtain ⟨layout, capacity, done, after⟩ := commit_spec staged (shows.same rows) ok
  rw [ops] at after
  rw [nothing] at ok
  exact ⟨t', ok, staged.commit ok, layout, capacity, done, after⟩

/-- An optional struct around the union that is absent in the row is around the struct
as well. -/
def SharesAbsent (t : Table) (union : StructId) (row : UInt64) (id : StructId) : Prop :=
  ∃ o ∈ t.layout.chainOf id, o ∈ t.layout.chainOf union ∧ t.hasOptional .committed o row = false

/-- The second table answers as the first one does, but that the union has no selected
member in the row. Nothing is said about what is inside of an optional struct that was
absent and is around the union. -/
structure ClearsOnly (union : StructId) (row : UInt64) (before after : Table) : Prop where
  layout : after.layout = before.layout
  capacity : after.capacity = before.capacity
  idle : after.pending.ops = #[]
  read : ∀ r b a, before.select r = .ok b → after.select r = .ok a → ∀ view handle,
    (∀ f, before.layout.fieldOf handle = .ok f → r = row →
      f.owner ≠ union ∧ ¬ before.SharesAbsent union row f.owner) →
    a.read view handle = b.read view handle
  isPresent : ∀ r b a, before.select r = .ok b → after.select r = .ok a → ∀ handle,
    (r = row → ¬ before.SharesAbsent union row handle.id) →
    a.isPresent handle = b.isPresent handle
  activeMember : ∀ r b a, before.select r = .ok b → after.select r = .ok a → ∀ handle,
    (r = row → handle.id ≠ union) → a.activeMember handle = b.activeMember handle
  cleared : ∀ a, after.select row = .ok a → ∀ handle u, before.layout.structOf handle = .ok u →
    u.id = union → a.activeMember handle = .ok none
  /-- When a member is selected again, the region is found as it was. -/
  region : ∀ b a, before.select row = .ok b → after.select row = .ok a → ∀ handle f,
    before.layout.fieldOf handle = .ok f → f.owner = union →
    ∃ b' a', b.selectMember handle = .ok b' ∧ a.selectMember handle = .ok a' ∧
      ∀ field, a'.read .staged field = b'.read .staged field

theorem Valid.sees (valid : t.Valid) (shows : t.Shows c) (idle : t.pending.ops = #[]) :
    ∀ view, t.Sees view c
  | .committed => shows.sees
  | .staged => valid.sees_of_idle shows idle

/-- An operation that is staged alone is seen on top of the rows. -/
theorem Valid.sees_one (valid : t'.Valid) (shows : t.Shows c) (rows : SameRows t t')
    {op : PendingOp} (staged : t'.pending.ops = #[op]) :
    t'.Sees .staged (c.apply t.layout op) := by
  have sees := (shows.same rows).sees_staged valid.answers valid.sound
  rw [staged, rows.layout] at sees
  exact sees

/-- Where no absent struct is shared, a selection makes nothing present. -/
theorem keeps_of_not_sharesAbsent {union id : StructId} (sound : t.layout.Sound)
    (sees : t.Sees .committed c) (here : row < t.capacity)
    (apart : ¬ t.SharesAbsent union row id) :
    c.Keeps t.layout union row (t.layout.chainOf id) := by
  intro o member around
  obtain ⟨s, struct, inChain⟩ : ∃ s, t.layout.struct? id = some s ∧ o ∈ s.chain := by
    cases struct : t.layout.struct? id with
    | none => simp [chainOf, struct] at member
    | some s => exact ⟨s, rfl, by simpa [chainOf, struct] using member⟩
  obtain ⟨-, slot, presence⟩ := sound.chain struct o inChain
  rw [← sees.present o row here slot presence]
  by_contra absent
  exact apart ⟨o, member, around, Bool.eq_false_of_not_eq_true absent⟩

/-- Selecting a member in a table without pending operations. -/
theorem Valid.selectMember_idle (valid : t.Valid) (shows : t.Shows c)
    (idle : t.pending.ops = #[]) {chosen : Table} (selected : t.select row = .ok chosen)
    {handle : FieldHandle} {f : FieldLayout} {tag : Nat}
    (found : t.layout.fieldOf handle = .ok f) (isMember : f.tag = some tag) :
    ∃ t', chosen.selectMember handle = .ok t' ∧ t'.select row = .ok t' ∧
      t'.layout = t.layout ∧ t'.capacity = t.capacity ∧
      t'.Sees .staged (c.apply t.layout (.select f.owner row tag)) := by
  have chosenValid := valid.select selected
  obtain ⟨here, rfl⟩ := select_eq_ok.mp selected
  have cursor : ({ t with cursor := some row } : Table).selected = .ok row :=
    selected_eq_ok.mpr ⟨rfl, here⟩
  have ok := selectMember_eq_ok.mpr ⟨row, f, tag, cursor, found, isMember, rfl⟩
  refine ⟨_, ok, select_eq_ok.mpr ⟨here, rfl⟩, rfl, rfl, ?_⟩
  refine (chosenValid.selectMember ok).sees_one shows ⟨rfl, rfl, rfl, rfl⟩ ?_
  rw [Table.stageSelect, PendingLog.ops_stageSelect]
  dsimp only
  rw [idle]
  rfl

/-- What shows after a selection of no member is the selection and nothing else. -/
theorem clearsOnly {before after : Table} {union : StructId} {s : StructLayout} {u : UnionRegion}
    (valid : before.Valid) (shows : before.Shows c) (idle : before.pending.ops = #[])
    (struct : before.layout.struct? union = some s) (isUnion : s.union = some u)
    (valid' : after.Valid) (layout : after.layout = before.layout)
    (capacity : after.capacity = before.capacity) (idle' : after.pending.ops = #[])
    (shows' : after.Shows (c.apply before.layout (.select union row 0))) :
    ClearsOnly union row before after := by
  have sound := valid.sound
  have sees := valid.sees shows idle
  have sees' := valid'.sees shows' idle'
  have keeps (id : StructId) {r : UInt64} {b : Table} (selected : before.select r = .ok b)
      (apart : r = row → ¬ before.SharesAbsent union row id) (same : r = row) :
      c.Keeps before.layout union row (before.layout.chainOf id) := by
    obtain ⟨here, -⟩ := select_eq_ok.mp selected
    exact keeps_of_not_sharesAbsent sound shows.sees (same ▸ here) (apart same)
  refine ⟨layout, capacity, idle', ?_, ?_, ?_, ?_, ?_⟩
  · intro r b a selected selected' view handle outside
    refine read_congr_of_readAt sound layout capacity (sees view) (sees' view) selected selected'
      fun f found => ?_
    exact readAt_select sound (fieldOf_eq_ok.mp found).2 (fun same => (outside f found same).1)
      (keeps f.owner selected fun same => (outside f found same).2)
  · intro r b a selected selected' handle apart
    refine isPresent_congr_of_firstAbsent? sound layout capacity (sees .staged) (sees' .staged)
      selected selected' fun s found => firstAbsent?_select ?_
    have chain : before.layout.chainOf handle.id = s.chain := by
      rw [chainOf, (structOf_eq_ok.mp found).2]
      rfl
    rw [← chain]
    exact keeps handle.id selected apart
  · intro r b a selected selected' handle other
    refine activeMember_congr_of_tag sound layout capacity (sees .staged) (sees' .staged)
      selected selected' ?_
    have apart : (⟨handle.id, r⟩ : Cell) ≠ ⟨union, row⟩ := by
      intro same
      cases same
      exact other rfl rfl
    rw [tag_select, if_neg apart]
  · intro a selected' handle s' found number
    obtain ⟨here, -⟩ := select_eq_ok.mp selected'
    obtain ⟨-, struct'⟩ := structOf_eq_ok.mp found
    rw [← sound.struct?_id struct', number, struct] at struct'
    cases struct'
    have none : after.tag .staged s.id u row = 0 := by
      rw [number, (sees' .staged).tag union row here s u (layout ▸ struct) isUnion, tag_select,
        if_pos rfl]
    rw [activeMember_select selected', layout, found]
    simp only [Except.bind, isUnion, none, if_true]
  · intro b a selected selected' handle f found owner
    obtain ⟨-, field⟩ := fieldOf_eq_ok.mp found
    obtain ⟨tag, isMember⟩ : ∃ tag, f.tag = some tag := by
      rw [← Option.ne_none_iff_exists', Ne, ← sound.plain_of_union field (owner ▸ struct), isUnion]
      exact Option.some_ne_none u
    obtain ⟨b', ok, again, layoutB, capacityB, seesB⟩ :=
      valid.selectMember_idle shows idle selected found isMember
    obtain ⟨a', ok', again', layoutA, capacityA, seesA⟩ :=
      valid'.selectMember_idle shows' idle' selected' (layout ▸ found) isMember
    refine ⟨b', a', ok, ok', fun field => ?_⟩
    rw [layout, owner, apply_select_select] at seesA
    rw [owner] at seesB
    exact read_congr (layoutB ▸ sound) (layoutA.trans (layout.trans layoutB.symm))
      (capacityA.trans (capacity.trans capacityB.symm)) seesB seesA again again' field

end Table

namespace Storage

open Table LayoutRules

/-- Any union can be cleared in any row, and a commit of it succeeds. It reports no
change and tells no listener anything, and only the selection in that row is another
one. `clear` does the same if the union is the one it acts on. -/
theorem clearUnion_commit {s : Storage} (reachable : s.Reachable)
    (idle : s.table.pending.ops = #[]) {handle : StructHandle} {u : StructLayout}
    (found : s.table.layout.structOf handle = .ok u) (union : u.union.isSome) {row : UInt64}
    (here : row < s.table.capacity) :
    ∃ selected staged t, s.table.select row = .ok selected ∧
      selected.clearUnion handle = .ok staged ∧
      (s.table.clearTarget? = some u.id → selected.clear = .ok staged) ∧
      staged.commit = .ok ({}, t) ∧ ClearsOnly u.id row s.table t := by
  have valid := reachable.valid.here
  have shows := shows_contents s.table
  obtain ⟨-, struct⟩ := structOf_eq_ok.mp found
  rw [← valid.sound.struct?_id struct] at struct
  obtain ⟨region, isUnion⟩ := Option.isSome_iff_exists.mp union
  have selected : s.table.select row = .ok { s.table with cursor := some row } :=
    select_eq_ok.mpr ⟨here, rfl⟩
  have cursor : ({ s.table with cursor := some row } : Table).selected = .ok row :=
    selected_eq_ok.mpr ⟨rfl, here⟩
  obtain ⟨t, ok, valid', layout, capacity, done, shows'⟩ := (valid.select selected).commit_select
    (shows.same ⟨rfl, rfl, rfl, rfl⟩) idle struct isUnion (Nat.zero_le _) here
  refine ⟨_, _, t, selected, clearUnion_eq_ok.mpr ⟨row, u, cursor, found, union, rfl⟩,
    fun target => clear_eq_ok.mpr ⟨row, u.id, cursor, target, rfl⟩, ok, ?_⟩
  exact clearsOnly valid shows idle struct isUnion valid' layout capacity done shows'

/-- The price of an order. -/
def price : StructHandle := ⟨orderLayout.fingerprint, 2, { optional := true, union := true }⟩

/-- The price of the first order is absent until it is cleared. -/
theorem isPresent_clearUnion_price : orders.Reachable ∧ orders.table.pending.ops = #[] ∧
    (orders.run [.select 0]).table.isPresent price = .ok false ∧
    ((orders.run [.select 0, .clearUnion price]).perform .commit).1 = .ok () ∧
    (orders.run [.select 0, .clearUnion price, .commit]).table.isPresent price = .ok true :=
  ⟨orders_reachable, rfl, by decide +kernel, by decide +kernel, by decide +kernel⟩

theorem clearUnion_commit_paid : paid.Reachable ∧ paid.table.pending.ops = #[] ∧
    (∀ id, ¬ paid.table.SharesAbsent price.id 1 id) ∧
    ∃ selected staged t, paid.table.select 1 = .ok selected ∧
      selected.clearUnion price = .ok staged ∧ selected.clear = .ok staged ∧
      staged.commit = .ok ({}, t) ∧ ClearsOnly price.id 1 paid.table t := by
  have idle : paid.table.pending.ops = #[] := by decide +kernel
  have target : paid.table.clearTarget? = some 2 := by decide +kernel
  have present : ∀ o ∈ paid.table.layout.chainOf 2,
      paid.table.hasOptional .committed o 1 = true := by
    decide +kernel
  have found : ∃ u, paid.table.layout.structOf price = .ok u ∧ u.id = 2 ∧ u.union.isSome :=
    ⟨(orderLayout.struct? 2).get (by decide +kernel), rfl, by decide +kernel, by decide +kernel⟩
  obtain ⟨u, found, number, union⟩ := found
  obtain ⟨selected, staged, t, first, second, clears, ok, only⟩ :=
    clearUnion_commit paid_reachable idle found union
      (show (1 : UInt64) < paid.table.capacity by decide +kernel)
  rw [number] at clears only
  refine ⟨paid_reachable, idle, ?_, selected, staged, t, first, second, clears target, ok, only⟩
  rintro id ⟨o, -, around, absent⟩
  cases absent.symm.trans (present o around)

end Storage

end BitRecords
