import BitRecords.Proofs.Storage.Guarded
import BitRecords.Proofs.Storage.Tidy

/-!
# How storages are represented

As long as no length overflows, the buffers of a storage and of its lists are exactly as
long as their rows, with nothing behind them. Cursors are at rows that exist, and lists
hang below rows that exist. Every access to a buffer is then inside of it.
-/

namespace BitRecords

open Layout Table

namespace Table

/-- A cursor is at a row that exists. -/
def CursorInside (t : Table) : Prop := ∀ row, t.cursor = some row → row < t.capacity

/-- The buffers have the bits of all rows and no more, and the cursor is inside. -/
structure Represented (t : Table) : Prop where
  count : t.segments.size = t.layout.segments.length
  counted : ∀ k < t.segments.size, t.capacity.toNat * (t.layout.stride k).toNat < UInt64.size
  size : ∀ (k : Nat) (b : BitBuffer), t.segments[k]? = some b →
    b.size.toNat = t.capacity.toNat * (t.layout.stride k).toNat
  words : ∀ (k : Nat) (b : BitBuffer), t.segments[k]? = some b →
    b.words.size = (b.size.toNat + 63) / 64
  tail : ∀ (k : Nat) (b : BitBuffer), t.segments[k]? = some b → ∀ p, b.size.toNat ≤ p →
    b.bit p = false
  cursor : t.CursorInside

end Table

namespace Storage

/-- The storages that are reached without a length that overflows and leaves something
behind. A storage may take the place of a list of the same layout. -/
inductive Regular : Storage → Prop where
  | create {l : Layout} {capacity : Option UInt64} {s : Storage} : l.Compiled →
      create l capacity = .ok s → Regular s
  | call {s : Storage} (call : Call) : Regular s →
      (overflowed (s.perform call).1 = true → (s.perform call).2 = s) →
      Regular (s.perform call).2
  | list {s list : Storage} {cell : Cell} : Regular s → s.list? cell = some list → Regular list
  | restore {s after : Storage} {l : Layout} : Regular s → l.Compiled →
      s.snapshot.restore l = .ok after → Regular after
  | replace {s list other : Storage} {cell : Cell} : Regular s → s.list? cell = some list →
      Regular other → other.table.layout = list.table.layout → Regular (s.setList cell other)

variable {s : Storage}

theorem Regular.steady (regular : s.Regular) :
    s.Steady fun list other => other.table.layout = list.table.layout := by
  induction regular with
  | create compiled ok => exact .create compiled ok
  | @call s call _ unchanged ih =>
    cases overflow : overflowed (s.perform call).1 with
    | false => exact ih.call call overflow
    | true =>
      rw [unchanged overflow]
      exact ih
  | list _ found ih => exact .list ih found
  | restore _ compiled ok ih => exact .restore ih compiled ok
  | replace _ found _ same ih other => exact .replace ih found other same

theorem cursors_resize (intact : s.table.Intact) (all : s.Throughout CursorInside)
    (length : UInt64) : (s.resize length).2.Throughout CursorInside := by
  have step := resizes intact length
  generalize (s.resize length).1 = result at step
  generalize (s.resize length).2 = after at step ⊢
  cases step with
  | fixed => exact all
  | failed => exact all.withTable all.here
  | done =>
    refine .intro (fun row cursor => ?_) ?_
    · exact of_decide_eq_true (Option.filter_eq_some_iff.mp cursor).2
    · unfold trim
      split
      · exact fun entry member => all.lists entry (List.mem_filter.mp member).1
      · exact all.lists

theorem capacity_resize (intact : s.table.Intact) {length : UInt64}
    (ok : (s.resize length).1 = .ok ()) : (s.resize length).2.table.capacity = length := by
  obtain ⟨objects, segments, -, -, after⟩ := (resizes intact length).of_ok ok
  rw [after]

/-- An element that is appended is inside. -/
theorem cursors_push (intact : s.table.Intact) (all : s.Throughout CursorInside) :
    s.push.2.Throughout CursorInside := by
  have grown := cursors_resize intact all (s.table.capacity + 1)
  have length : (s.resize (s.table.capacity + 1)).1 = .ok () →
      (s.resize (s.table.capacity + 1)).2.table.capacity = s.table.capacity + 1 :=
    capacity_resize intact
  have step := pushes s
  generalize s.push = outcome at step ⊢
  obtain ⟨result, after⟩ := outcome
  cases step with
  | refused => exact all
  | failed resized =>
    rw [resized] at grown
    exact grown
  | done counted resized =>
    rw [resized] at grown length
    refine grown.withTable fun row cursor => ?_
    cases cursor
    exact length rfl ▸ lt_succ_row counted

theorem cursors_reset (all : s.Throughout CursorInside) (length : UInt64) :
    (s.reset length).2.Throughout CursorInside := by
  unfold reset
  dsimp only
  split
  · exact all.withTable all.here
  · exact .intro nofun (by simp)

theorem cursors_allocate {l : Layout} {length : UInt64} {growable : Bool} {list : Storage}
    (ok : allocate l length growable = .ok list) : list.Throughout CursorInside := by
  obtain ⟨t, tableOk, rfl⟩ := table_allocate ok
  obtain ⟨rfl, -⟩ := allocate_eq_ok tableOk
  exact .intro nofun (by simp)

theorem cursors_createOrClearList (all : s.Throughout CursorInside) (handle : StructHandle)
    (length : UInt64) : (s.createOrClearList handle length).2.Throughout CursorInside := by
  unfold createOrClearList
  split
  · exact all
  · split
    · next list found => exact all.setList _ (cursors_reset (all.lookup found) length)
    · split
      · exact all
      · next list ok => exact all.setList _ (cursors_allocate ok)

theorem cursors_perform (valid : s.Throughout Valid) (all : s.Throughout CursorInside)
    {call : Call} : (s.perform call).2.Throughout CursorInside := by
  induction call generalizing s with
  | select row =>
    refine all.onTable fun t ok => ?_
    obtain ⟨here, rfl⟩ := select_eq_ok.mp ok
    intro row cursor
    cases cursor
    exact here
  | write field value =>
    refine all.onTable fun t ok => ?_
    obtain ⟨row, f, bits, -, -, -, rfl⟩ := write_eq_ok.mp ok
    exact all.here
  | selectMember member =>
    refine all.onTable fun t ok => ?_
    obtain ⟨row, f, tag, -, -, -, rfl⟩ := selectMember_eq_ok.mp ok
    exact all.here
  | clear =>
    refine all.onTable fun t ok => ?_
    obtain ⟨row, union, -, -, rfl⟩ := clear_eq_ok.mp ok
    exact all.here
  | clearUnion union =>
    refine all.onTable fun t ok => ?_
    obtain ⟨row, struct, -, -, -, rfl⟩ := clearUnion_eq_ok.mp ok
    exact all.here
  | commit =>
    refine all.onTable fun t ok => ?_
    obtain ⟨result, ok⟩ := map_snd_eq_ok ok
    cases commits_of_ok ok with
    | idle => exact all.here
    | applied =>
      rw [CursorInside, Valid.sameApart_applyPending s.table]
      exact all.here
  | rollback =>
    refine all.withTable ?_
    unfold Table.rollback
    split <;> exact all.here
  | listen path label =>
    refine all.onTable fun t ok => ?_
    obtain ⟨listeners, rfl⟩ := listen_eq_ok ok
    exact all.here
  | listenField field label =>
    refine all.onTable fun t ok => ?_
    obtain ⟨listeners, rfl⟩ := listenField_eq_ok ok
    exact all.here
  | listenStruct struct label =>
    refine all.onTable fun t ok => ?_
    obtain ⟨listeners, rfl⟩ := listenStruct_eq_ok ok
    exact all.here
  | unlisten id => exact all.withTable all.here
  | resize length => exact cursors_resize valid.here.intact all length
  | push => exact cursors_push valid.here.intact all
  | reset length => exact cursors_reset all length
  | createOrClearList struct length => exact cursors_createOrClearList all struct length
  | inList struct call ih =>
    unfold perform
    cases found : s.list struct with
    | error e => exact all
    | ok place =>
      have kept := list_eq_ok found
      exact all.setList _ (ih (valid.lookup kept) (all.lookup kept))

/-- A storage that is restored has no cursors. -/
theorem cursors_restore (all : s.Throughout CursorInside) {l : Layout} {after : Storage}
    (good : l.Throughout SoundTyped) (ok : s.snapshot.restore l = .ok after) :
    after.Throughout CursorInside := by
  induction all generalizing l after with
  | intro _ _ ih =>
    obtain ⟨buffers, inner, -, -, -, -, listsOk, rfl⟩ := Snapshot.restore_eq_ok.mp ok
    exact .intro nofun
      (Snapshot.restoreLists_throughout (closed_throughout SoundTyped)
        (fun entry member l list => ih entry member) good listsOk)

theorem Regular.cursors (regular : s.Regular) : s.Throughout CursorInside := by
  induction regular with
  | create compiled ok =>
    obtain ⟨rows, -, ok⟩ := create_eq_ok.mp ok
    exact cursors_allocate ok
  | call call before _ ih => exact cursors_perform before.steady.reachable.valid ih
  | list _ found ih => exact ih.lookup found
  | restore _ compiled ok ih => exact cursors_restore ih compiled.soundTyped ok
  | replace _ _ _ _ ih other => exact ih.setList _ other

theorem Regular.represented (regular : s.Regular) : s.Throughout Represented := by
  have valid := regular.steady.reachable.valid
  have exact := persists_exact.steady regular.steady
  refine (valid.combine exact (R := fun t => t.Valid ∧ t.Exact) fun _ => .intro).combine
    regular.cursors fun t both cursor => ?_
  obtain ⟨valid, exact⟩ := both
  have stored := valid.intact.stored
  refine ⟨stored.count, fun k bound => ?_, exact, fun k b found => ?_, fun k b found => ?_, cursor⟩
  · rw [← exact k _ (Array.getElem?_eq_getElem bound)]
    exact UInt64.toNat_lt_size _
  · exact (stored.canonical k b found).words
  · exact (stored.canonical k b found).tail

/-- A storage and its lists, at any depth, are represented as their rows demand. Every
list hangs below a row that exists, under a list struct whose elements have the layout
of the list. No access of a call or a question is out of bounds, and pending operations
are refused for their row alone. -/
theorem representation {s : Storage} (regular : s.Regular) :
    s.Throughout Represented ∧ s.Tidy Eq ∧
    s.Throughout (fun t => ∀ op ∈ t.pending.ops.toList, t.checkOp op =
      if t.capacity ≤ op.row then .error (.index op.row t.capacity) else .ok ()) ∧
    (∀ call, Guarded.perform s call = some (s.perform call)) ∧
    (∀ query, Guarded.query s query = some (s.query query)) := by
  have valid := regular.steady.reachable.valid
  refine ⟨regular.represented, ?_, ?_, Guarded.perform_eq valid, Guarded.query_eq valid⟩
  · refine regular.steady.tidy (fun _ => rfl) fun list other element same of => ?_
    rw [of, same]
  · exact valid.mono fun t valid op member =>
      checkOp_of_admits valid.intact.stored.good (valid.answers.admits op member)

/-- No call of the run overflows. -/
def counts (s : Storage) : List Call → Bool
  | [] => true
  | call :: calls =>
    !overflowed (s.perform call).1 && (s.perform call).2.counts calls

theorem Regular.run (regular : s.Regular) {calls : List Call} (counts : s.counts calls = true) :
    (s.run calls).Regular := by
  induction calls generalizing s with
  | nil => exact regular
  | cons call rest ih =>
    simp only [Storage.counts, Bool.and_eq_true, Bool.not_eq_true'] at counts
    obtain ⟨fits, others⟩ := counts
    exact ih (regular.call call fun overflow => absurd (fits.symm.trans overflow) nofun) others

/-- The filled albums after the second album got a third page, with a picture that waits
for a commit, and lost its last two pages. -/
def shortened : Storage :=
  albums.run (filling ++ [.inList pages .push,
    .inList pages (paste pageLayout 0 (some ⟨"cat"⟩)), .inList pages (.resize 1)])

theorem shortened_regular : shortened.Regular :=
  (Regular.create albumLayout_compiled create_albums).run (by decide +kernel)

/-- The only page that is left has no cursor, and the picture that waits is refused
for its row. -/
theorem representation_shortened :
    shortened.Regular ∧ shortened.table.Represented ∧ shortened.Tidy Eq ∧
    ∃ list, shortened.list? ⟨1, 1⟩ = some list ∧ list.table.capacity = 1 ∧
      list.table.Represented ∧ list.table.pending.size = 1 ∧
      (∀ op ∈ list.table.pending.ops.toList, list.table.checkOp op = .error (.index 2 1)) ∧
      Guarded.perform shortened (.inList pages (.resize 0)) =
        some (shortened.perform (.inList pages (.resize 0))) := by
  obtain ⟨represented, tidy, checked, performed, -⟩ := representation shortened_regular
  have found : shortened.list? ⟨1, 1⟩ = some ((shortened.list? ⟨1, 1⟩).get (by decide +kernel)) :=
    (Option.some_get _).symm
  generalize laid : (shortened.list? ⟨1, 1⟩).get _ = list at found
  have capacity : list.table.capacity = 1 := by
    rw [← laid]
    decide +kernel
  have rows : list.table.pending.ops.toList.map (·.row) = [2] := by
    rw [← laid]
    decide +kernel
  refine ⟨shortened_regular, represented.here, tidy, list, found, capacity,
    (represented.lookup found).here, ?_, fun op member => ?_, performed _⟩
  · rw [← laid]
    decide +kernel
  · have row : op.row = 2 := List.mem_singleton.mp (rows ▸ List.mem_map_of_mem member)
    rw [(checked.lookup found).here op member, capacity, row]
    rfl

end Storage

end BitRecords
