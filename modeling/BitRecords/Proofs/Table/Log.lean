import BitRecords.Proofs.Table.Apply

/-!
# What the log answers

The indexes of a log answer what a replay of its operations would give on top of
any contents: the last values and tags, the regions with all writes laid over
them, and the structs that become present. Each staged operation extends the
answers by what the operation does.
-/

namespace BitRecords

/-- Indexes are kept by cell. -/
theorem getElem?_insert_cell {β : Type} (index : Std.TreeMap Cell β) (cell other : Cell) (v : β) :
    (index.insert cell v)[other]? = if other = cell then some v else index[other]? := by
  rw [Std.TreeMap.getElem?_insert]
  by_cases same : other = cell
  · rw [if_pos same, if_pos (by rw [same, Std.LawfulEqOrd.compare_eq_iff_eq])]
  · rw [if_neg same, if_neg]
    rw [Std.LawfulEqOrd.compare_eq_iff_eq]
    exact Ne.symm same

namespace PendingLog

/-- The positions in the indexes are positions of the log. -/
structure Bounded (log : PendingLog) : Prop where
  latest : ∀ (cell : Cell) (p : Nat), log.latest[cell]? = some p → p < log.ops.size
  writes : ∀ (cell : Cell) (positions : Array Nat), log.unionWrites[cell]? = some positions →
    ∀ p ∈ positions, p < log.ops.size

theorem bounded_empty : empty.Bounded where
  latest cell p found := by simp [empty] at found
  writes cell positions found := by simp [empty] at found

variable {log : PendingLog} {field : Nat} {row : UInt64} {width : Nat} {bits : UInt64}
variable {value : Value}
variable {member : Option (Nat × Nat)} {chain : List Nat} {union tag : Nat}

@[simp] theorem ops_stageWrite : (log.stageWrite field row width bits value member chain).ops =
    log.ops.push (.write field row width bits value) := by
  unfold stageWrite
  cases member <;> rfl

theorem latest_stageSelect : (log.stageSelect union row tag chain).latest = log.latest := rfl

@[simp] theorem ops_stageSelect :
    (log.stageSelect union row tag chain).ops = log.ops.push (.select union row tag) := rfl

theorem latest_stageWrite : (log.stageWrite field row width bits value member chain).latest =
    log.latest.insert ⟨field, row⟩ log.ops.size := by
  unfold stageWrite
  cases member <;> rfl

theorem present_stageWrite : (log.stageWrite field row width bits value member chain).present =
    markPresent log.present chain row := by
  unfold stageWrite
  cases member <;> rfl

theorem contains_markPresent (present : Std.TreeSet Cell) (chain : List Nat) (row : UInt64)
    (cell : Cell) : (markPresent present chain row).contains cell =
      (present.contains cell || decide (cell.row = row ∧ cell.id ∈ chain)) := by
  unfold markPresent
  induction chain generalizing present with
  | nil => simp
  | cons id rest ih =>
    rw [List.foldl_cons, ih, Std.TreeSet.contains_insert]
    obtain ⟨id', row'⟩ := cell
    by_cases same : (⟨id, row⟩ : Cell) = ⟨id', row'⟩
    · cases same
      simp
    · have apart : ¬ (row' = row ∧ id' = id) := by
        rintro ⟨rfl, rfl⟩
        exact same rfl
      have ordered : (compare (⟨id, row⟩ : Cell) ⟨id', row'⟩ == .eq) = false := by
        simpa using same
      rw [ordered, Bool.false_or]
      congr 1
      simp only [List.mem_cons, decide_eq_decide]
      constructor
      · exact fun inside => ⟨inside.1, .inr inside.2⟩
      · rintro ⟨rows, first | later⟩
        · exact absurd ⟨rows, first⟩ apart
        · exact ⟨rows, later⟩

/-- The last value is the one written, in its own cell. -/
theorem latestValue?_stageWrite (bounded : log.Bounded) (id : Nat) (r : UInt64) :
    (log.stageWrite field row width bits value member chain).latestValue? id r =
      if id = field ∧ r = row then some value else log.latestValue? id r := by
  unfold latestValue?
  rw [latest_stageWrite, ops_stageWrite, getElem?_insert_cell]
  by_cases same : id = field ∧ r = row
  · obtain ⟨rfl, rfl⟩ := same
    simp
  · rw [if_neg (by simpa using same), if_neg same]
    cases found : log.latest[Cell.mk id r]? with
    | none => rfl
    | some p =>
      have inside := bounded.latest _ p found
      simp [Array.getElem?_push, Nat.ne_of_lt inside]

theorem latestValue?_stageSelect (bounded : log.Bounded) (id : Nat) (r : UInt64) :
    (log.stageSelect union row tag chain).latestValue? id r = log.latestValue? id r := by
  unfold latestValue?
  rw [ops_stageSelect, latest_stageSelect]
  cases found : log.latest[Cell.mk id r]? with
  | none => rfl
  | some p =>
    have inside := bounded.latest _ p found
    simp [Array.getElem?_push, Nat.ne_of_lt inside]

theorem tag?_stageWrite (u : Nat) (r : UInt64) :
    (log.stageWrite field row width bits value member chain).tag? u r =
      match member with
      | some (union, tag) => if u = union ∧ r = row then some tag else log.tag? u r
      | none => log.tag? u r := by
  cases member with
  | none => rfl
  | some pair =>
    obtain ⟨union, tag⟩ := pair
    simp only [tag?, stageWrite, getElem?_insert_cell, Cell.mk.injEq]

theorem tag?_stageSelect (u : Nat) (r : UInt64) :
    (log.stageSelect union row tag chain).tag? u r =
      if u = union ∧ r = row then some tag else log.tag? u r := by
  simp only [tag?, stageSelect, getElem?_insert_cell, Cell.mk.injEq]

theorem isPresent_stageWrite (o : Nat) (r : UInt64) :
    (log.stageWrite field row width bits value member chain).isPresent o r =
      (log.isPresent o r || decide (r = row ∧ o ∈ chain)) := by
  rw [isPresent, present_stageWrite, contains_markPresent]
  rfl

theorem isPresent_stageSelect (o : Nat) (r : UInt64) :
    (log.stageSelect union row tag chain).isPresent o r =
      (log.isPresent o r || decide (r = row ∧ o ∈ chain)) :=
  contains_markPresent log.present chain row ⟨o, r⟩

/-- The positions of the writes to the members of a union. -/
def memberWrites (log : PendingLog) (u : Nat) (r : UInt64) : Array Nat :=
  log.unionWrites.getD ⟨u, r⟩ #[]

theorem overlayUnion_eq (log : PendingLog) (u : Nat) (r region : UInt64) :
    log.overlayUnion u r region =
      (log.memberWrites u r).toList.foldl (fun region p => log.overlayAt p region) region := by
  rw [overlayUnion, memberWrites, Std.TreeMap.getD_eq_getD_getElem?, Array.foldl_toList]
  cases log.unionWrites[Cell.mk u r]? with
  | none => rfl
  | some positions => rfl

theorem memberWrites_bounded (bounded : log.Bounded) (u : Nat) (r : UInt64) :
    ∀ p ∈ (log.memberWrites u r).toList, p < log.ops.size := by
  intro p inside
  rw [memberWrites, Std.TreeMap.getD_eq_getD_getElem?] at inside
  cases found : log.unionWrites[Cell.mk u r]? with
  | none => simp [found] at inside
  | some positions =>
    rw [found] at inside
    exact bounded.writes _ positions found p (by simpa using inside)

/-- A longer log lays the writes that were there over a region as before. -/
theorem foldl_overlayAt_push (log longer : PendingLog) {op : PendingOp}
    (pushed : longer.ops = log.ops.push op) {positions : List Nat}
    (inside : ∀ p ∈ positions, p < log.ops.size) (region : UInt64) :
    positions.foldl (fun region p => longer.overlayAt p region) region =
      positions.foldl (fun region p => log.overlayAt p region) region := by
  refine List.foldl_ext _ _ _ fun region p member => ?_
  unfold overlayAt
  rw [pushed, Array.getElem?_push, if_neg (Nat.ne_of_lt (inside p member))]

theorem memberWrites_stageWrite (u : Nat) (r : UInt64) :
    (log.stageWrite field row width bits value member chain).memberWrites u r =
      match member with
      | some (union, _) =>
        if u = union ∧ r = row then (log.memberWrites u r).push log.ops.size
        else log.memberWrites u r
      | none => log.memberWrites u r := by
  cases member with
  | none => rfl
  | some pair =>
    obtain ⟨union, tag⟩ := pair
    simp only [memberWrites, stageWrite, Std.TreeMap.getD_eq_getD_getElem?, getElem?_insert_cell,
      Cell.mk.injEq]
    by_cases same : u = union ∧ r = row
    · obtain ⟨rfl, rfl⟩ := same
      simp
    · rw [if_neg same, if_neg same]

/-- A write to a union member is laid over the region last. -/
theorem overlayUnion_stageWrite (bounded : log.Bounded) (u : Nat) (r region : UInt64) :
    (log.stageWrite field row width bits value member chain).overlayUnion u r region =
      match member with
      | some (union, _) =>
        if u = union ∧ r = row then overlayLow (log.overlayUnion u r region) width bits
        else log.overlayUnion u r region
      | none => log.overlayUnion u r region := by
  have inside := memberWrites_bounded bounded u r
  rw [overlayUnion_eq, overlayUnion_eq, memberWrites_stageWrite]
  have kept := foldl_overlayAt_push log
    (log.stageWrite field row width bits value member chain) ops_stageWrite inside region
  cases member with
  | none => exact kept
  | some pair =>
    obtain ⟨union, tag⟩ := pair
    dsimp only at kept ⊢
    split
    · rw [Array.toList_push, List.foldl_append, kept]
      simp [overlayAt]
    · exact kept

theorem overlayUnion_stageSelect (bounded : log.Bounded) (u : Nat) (r region : UInt64) :
    (log.stageSelect union row tag chain).overlayUnion u r region =
      log.overlayUnion u r region := by
  rw [overlayUnion_eq, overlayUnion_eq]
  exact foldl_overlayAt_push log _ ops_stageSelect (memberWrites_bounded bounded u r) region

theorem Bounded.stageWrite (bounded : log.Bounded) :
    (log.stageWrite field row width bits value member chain).Bounded where
  latest cell p found := by
    rw [latest_stageWrite, getElem?_insert_cell] at found
    rw [ops_stageWrite, Array.size_push]
    split at found
    · cases found
      exact Nat.lt_succ_self _
    · exact Nat.lt_succ_of_lt (bounded.latest cell p found)
  writes cell positions found p inside := by
    rw [ops_stageWrite, Array.size_push]
    cases member with
    | none => exact Nat.lt_succ_of_lt (bounded.writes cell positions found p inside)
    | some pair =>
      obtain ⟨union, tag⟩ := pair
      simp only [PendingLog.stageWrite, getElem?_insert_cell] at found
      split at found
      · cases found
        rcases Array.mem_push.mp inside with old | rfl
        · have old : p ∈ (log.memberWrites union row).toList := by simpa [memberWrites] using old
          exact Nat.lt_succ_of_lt (memberWrites_bounded bounded union row p old)
        · exact Nat.lt_succ_self _
      · exact Nat.lt_succ_of_lt (bounded.writes cell positions found p inside)

theorem Bounded.stageSelect (bounded : log.Bounded) :
    (log.stageSelect union row tag chain).Bounded where
  latest cell p found := by
    rw [ops_stageSelect, Array.size_push]
    exact Nat.lt_succ_of_lt (bounded.latest cell p found)
  writes cell positions found p inside := by
    rw [ops_stageSelect, Array.size_push]
    exact Nat.lt_succ_of_lt (bounded.writes cell positions found p inside)

end PendingLog

open Layout

/-- The log answers what a replay of its operations on top of any contents would
give, and all its operations can be applied. -/
structure PendingLog.Answers (l : Layout) (log : PendingLog) : Prop where
  bounded : log.Bounded
  admits : ∀ op ∈ log.ops.toList, l.Admits op
  present : ∀ (c : Contents) (cell : Cell), (c.replay l log.ops.toList).present cell =
    (c.present cell || log.isPresent cell.id cell.row)
  tag : ∀ (c : Contents) (cell : Cell), (c.replay l log.ops.toList).tag cell =
    (log.tag? cell.id cell.row).getD (c.tag cell)
  region : ∀ (c : Contents) (cell : Cell), (c.replay l log.ops.toList).region cell =
    log.overlayUnion cell.id cell.row (c.region cell)
  value : ∀ (c : Contents) (cell : Cell) (f : FieldLayout), l.field? cell.id = some f →
    f.tag = none →
    (c.replay l log.ops.toList).value cell =
      (log.latestValue? cell.id cell.row).getD (c.value cell)

namespace PendingLog.Answers

variable {l : Layout} {log : PendingLog} {row : UInt64}

theorem empty : PendingLog.empty.Answers l where
  bounded := bounded_empty
  admits := by simp [PendingLog.empty]
  present c cell := by simp [PendingLog.empty, Contents.replay, isPresent]
  tag c cell := by simp [PendingLog.empty, Contents.replay, tag?]
  region c cell := by simp [PendingLog.empty, Contents.replay, overlayUnion]
  value c cell f _ _ := by simp [PendingLog.empty, Contents.replay, latestValue?]

theorem stageWrite (answers : log.Answers l) {field : FieldId} {f : FieldLayout} {bits : UInt64}
    {value : Value} (found : l.field? field = some f) (encoded : f.type.encode value = .ok bits) :
    (log.stageWrite field row f.width bits value (f.tag.map fun tag => (f.owner, tag))
      (l.chainOf f.owner)).Answers l where
  bounded := answers.bounded.stageWrite
  admits := by
    simp only [ops_stageWrite, Array.toList_push, List.forall_mem_append, List.forall_mem_singleton]
    exact ⟨answers.admits, .write found encoded⟩
  present c cell := by
    rw [ops_stageWrite, Array.toList_push, Contents.replay_concat, isPresent_stageWrite,
      ← Bool.or_assoc, ← answers.present]
    cases isMember : f.tag with
    | none => simp [Contents.apply_plain _ found isMember]
    | some tag => simp [Contents.apply_member _ found isMember]
  tag c cell := by
    rw [ops_stageWrite, Array.toList_push, Contents.replay_concat, tag?_stageWrite]
    obtain ⟨id, r⟩ := cell
    have before := answers.tag c ⟨id, r⟩
    cases isMember : f.tag with
    | none => simpa [Contents.apply_plain _ found isMember] using before
    | some tag =>
      rw [Contents.apply_member _ found isMember]
      by_cases same : id = f.owner ∧ r = row
      · simp [same]
      · simpa [same] using before
  region c cell := by
    rw [ops_stageWrite, Array.toList_push, Contents.replay_concat,
      overlayUnion_stageWrite answers.bounded]
    obtain ⟨id, r⟩ := cell
    have before := answers.region c ⟨id, r⟩
    cases isMember : f.tag with
    | none => simpa [Contents.apply_plain _ found isMember] using before
    | some tag =>
      rw [Contents.apply_member _ found isMember]
      by_cases same : id = f.owner ∧ r = row
      · obtain ⟨rfl, rfl⟩ := same
        simp [before]
      · simpa [same] using before
  value c cell f' found' plain := by
    rw [ops_stageWrite, Array.toList_push, Contents.replay_concat,
      latestValue?_stageWrite answers.bounded]
    obtain ⟨id, r⟩ := cell
    have before := answers.value c ⟨id, r⟩ f' found' plain
    cases isMember : f.tag with
    | none =>
      rw [Contents.apply_plain _ found isMember]
      by_cases same : id = field ∧ r = row
      · simp [same]
      · simpa [same] using before
    | some tag =>
      have other : ¬ (id = field ∧ r = row) := by
        rintro ⟨rfl, -⟩
        cases found.symm.trans found'
        cases isMember.symm.trans plain
      simpa [Contents.apply_member _ found isMember, other] using before

theorem stageSelect (answers : log.Answers l) {union : StructId} {s : StructLayout}
    {u : UnionRegion} {tag : Nat} (struct : l.struct? union = some s) (isUnion : s.union = some u)
    (bound : tag ≤ u.members.length) :
    (log.stageSelect union row tag (l.chainOf union)).Answers l where
  bounded := answers.bounded.stageSelect
  admits := by
    simp only [ops_stageSelect, Array.toList_push, List.forall_mem_append,
      List.forall_mem_singleton]
    exact ⟨answers.admits, .select struct isUnion bound⟩
  present c cell := by
    rw [ops_stageSelect, Array.toList_push, Contents.replay_concat, Contents.apply,
      isPresent_stageSelect, ← Bool.or_assoc, ← answers.present]
    simp
  tag c cell := by
    rw [ops_stageSelect, Array.toList_push, Contents.replay_concat, Contents.apply,
      tag?_stageSelect]
    obtain ⟨id, r⟩ := cell
    by_cases same : id = union ∧ r = row
    · simp [same]
    · simpa [same] using answers.tag c ⟨id, r⟩
  region c cell := by
    rw [ops_stageSelect, Array.toList_push, Contents.replay_concat, Contents.apply,
      overlayUnion_stageSelect answers.bounded]
    simpa using answers.region c cell
  value c cell f found plain := by
    rw [ops_stageSelect, Array.toList_push, Contents.replay_concat, Contents.apply,
      latestValue?_stageSelect answers.bounded]
    simpa using answers.value c cell f found plain

end PendingLog.Answers

/-- A staged read sees what a replay of the log would give. -/
theorem Table.Shows.sees_staged {t : Table} {c : Contents} (shows : t.Shows c)
    (answers : t.pending.Answers t.layout) (sound : t.layout.Sound) :
    t.Sees .staged (c.replay t.layout t.pending.ops.toList) where
  present id row here slot presence := by
    have committed := shows.sees.present id row here slot presence
    have none_staged : (View.committed == View.staged) = false := rfl
    rw [Table.hasOptional, none_staged, Bool.false_and, Bool.or_false] at committed
    rw [answers.present, ← committed]
    rfl
  tag id row here s u struct union := by
    rw [answers.tag, ← shows.sees.tag id row here s u struct union]
    rfl
  region id row here s u struct union := by
    obtain rfl := sound.struct?_id struct
    rw [answers.region, ← shows.sees.region s.id row here s u struct union]
    rfl
  value id row here f field plain := by
    obtain rfl := sound.field?_id field
    rw [answers.value c ⟨f.id, row⟩ f field plain, ← shows.sees.value f.id row here f field plain]
    rfl

end BitRecords
