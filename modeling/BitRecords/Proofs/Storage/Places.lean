import BitRecords.Proofs.Storage.Obtainable
import BitRecords.Storage.Session

/-!
# Places of storages

A storage and all lists in it are a tree, and cells lead from the storage to each of
them. Whatever the storage at the top is told, every storage in the tree is told one call
at most. It changes by this call and in no other way, unless it is dropped.
-/

namespace BitRecords.Storage

/-- The storage at a place. -/
def at? (s : Storage) : List Cell → Option Storage
  | [] => some s
  | cell :: place => (s.list? cell).bind fun list => list.at? place

/-- What a call tells the list at a cell. -/
def passes (s : Storage) (cell : Cell) : Call → Option Call
  | .inList struct call =>
    match s.list struct with
    | .ok (other, _) => if other = cell then some call else none
    | .error _ => none
  | .createOrClearList struct length =>
    match s.listCell struct with
    | .ok (other, _) => if other = cell then some (.reset length) else none
    | .error _ => none
  | _ => none

/-- What a call tells the storage at a place, and what that storage answers. -/
def hears (s : Storage) (call : Call) : List Cell → Option (Call × Except Error Reply)
  | [] => some (call, s.answer call)
  | cell :: place =>
    (s.passes cell call).bind fun inner => (s.list? cell).bind fun list => list.hears inner place

variable {s list : Storage} {cell : Cell} {place : List Cell} {call : Call}

/-- Lists that are dropped by their cells do not make room for others. -/
theorem lookup_of_filter {kept : Cell → Bool} {lists : List (Cell × Storage)}
    (found : (lists.filter fun entry => kept entry.1).lookup cell = some list) :
    kept cell = true ∧ lists.lookup cell = some list := by
  induction lists with
  | nil => cases found
  | cons entry rest ih =>
    obtain ⟨key, value⟩ := entry
    rw [lookup_cons]
    by_cases keeps : kept key = true
    · simp only [List.filter_cons, if_pos keeps, lookup_cons] at found
      by_cases same : cell = key
      · rw [if_pos same] at found ⊢
        exact ⟨same ▸ keeps, found⟩
      · rw [if_neg same] at found ⊢
        exact ih found
    · simp only [List.filter_cons, if_neg keeps] at found
      obtain ⟨keeps', found⟩ := ih found
      have other : cell ≠ key := by
        rintro rfl
        exact keeps keeps'
      rw [if_neg other]
      exact ⟨keeps', found⟩

theorem list?_resize {length : UInt64} (found : (s.resize length).2.list? cell = some list) :
    s.list? cell = some list := by
  have trimmed (trim : Storage)
      (same : (if length < s.table.capacity then s.releaseRows length else s) = trim)
      (found : trim.list? cell = some list) : s.list? cell = some list := by
    subst same
    split at found
    · exact (@lookup_of_filter list cell (fun cell => cell.row < length) s.lists found).2
    · exact found
  unfold resize at found
  split at found
  · exact found
  · generalize same : (if length < s.table.capacity then s.releaseRows length else s) = trim
      at found
    dsimp only at found
    split at found
    · exact trimmed trim same found
    · exact trimmed trim same found

theorem list?_push (found : s.push.2.list? cell = some list) : s.list? cell = some list := by
  have grown (found : (s.resize (s.table.capacity + 1)).2.list? cell = some list) :=
    list?_resize found
  have step := pushes s
  generalize s.push = outcome at step found
  obtain ⟨result, after⟩ := outcome
  cases step with
  | refused => exact found
  | failed resized | done _ resized =>
    rw [resized] at grown
    exact grown found

theorem list?_reset {length : UInt64} (found : (s.reset length).2.list? cell = some list) :
    s.list? cell = some list := by
  unfold reset at found
  dsimp only at found
  split at found
  · exact found
  · cases found

theorem list?_onTable (outcome : Except Error Table) :
    (s.onTable outcome).2.list? cell = s.list? cell := by
  cases outcome <;> rfl

/-- A list after a call on the storage around it is new, or it was told a call at most. -/
theorem list?_perform {after : Storage} (found : (s.perform call).2.list? cell = some after) :
    (s.list? cell = none ∧ ∃ l length, allocate l length true = .ok after) ∨
      ∃ list, s.list? cell = some list ∧
        after = (s.passes cell call).elim list fun inner => (list.perform inner).2 := by
  cases call with
  | select | write | selectMember | clear | clearUnion | commit | rollback | listen | listenField
  | listenStruct | unlisten =>
    rw [perform, list?_onTable] at found
    exact .inr ⟨after, found, rfl⟩
  | resize => exact .inr ⟨after, list?_resize found, rfl⟩
  | push => exact .inr ⟨after, list?_push found, rfl⟩
  | reset => exact .inr ⟨after, list?_reset found, rfl⟩
  | createOrClearList struct length =>
    simp only [perform, createOrClearList] at found
    simp only [passes]
    cases cellOk : s.listCell struct with
    | error e =>
      rw [cellOk] at found
      exact .inr ⟨after, found, rfl⟩
    | ok place =>
      obtain ⟨other, element⟩ := place
      rw [cellOk] at found
      dsimp only at found ⊢
      cases kept : s.list? other with
      | some list =>
        rw [kept] at found
        dsimp only at found
        rw [list?_setList] at found
        by_cases same : cell = other
        · rw [if_pos same] at found
          rw [if_pos same.symm]
          exact .inr ⟨list, same ▸ kept, (Option.some.inj found).symm⟩
        · rw [if_neg same] at found
          rw [if_neg (Ne.symm same)]
          exact .inr ⟨after, found, rfl⟩
      | none =>
        rw [kept] at found
        dsimp only at found
        cases ok : allocate element length true with
        | error e =>
          rw [ok] at found
          by_cases same : cell = other
          · cases (same ▸ kept).symm.trans found
          · rw [if_neg (Ne.symm same)]
            exact .inr ⟨after, found, rfl⟩
        | ok list =>
          rw [ok] at found
          dsimp only at found
          rw [list?_setList] at found
          by_cases same : cell = other
          · rw [if_pos same] at found
            cases found
            exact .inl ⟨same ▸ kept, element, length, ok⟩
          · rw [if_neg same] at found
            rw [if_neg (Ne.symm same)]
            exact .inr ⟨after, found, rfl⟩
  | inList struct call =>
    simp only [perform] at found
    simp only [passes]
    cases ok : s.list struct with
    | error e =>
      rw [ok] at found
      exact .inr ⟨after, found, rfl⟩
    | ok place =>
      obtain ⟨other, list⟩ := place
      rw [ok] at found
      dsimp only at found ⊢
      rw [list?_setList] at found
      by_cases same : cell = other
      · rw [if_pos same] at found
        rw [if_pos same.symm]
        exact .inr ⟨list, same ▸ list_eq_ok ok, (Option.some.inj found).symm⟩
      · rw [if_neg same] at found
        rw [if_neg (Ne.symm same)]
        exact .inr ⟨after, found, rfl⟩

theorem hears_eq_some {told : Call × Except Error Reply} (hears : s.hears call place = some told) :
    ∃ x, s.at? place = some x ∧ told.2 = x.answer told.1 := by
  induction place generalizing s call with
  | nil =>
    cases hears
    exact ⟨s, rfl, rfl⟩
  | cons cell place ih =>
    obtain ⟨inner, -, hears⟩ := Option.bind_eq_some_iff.mp hears
    obtain ⟨list, found, hears⟩ := Option.bind_eq_some_iff.mp hears
    obtain ⟨x, here, answer⟩ := ih hears
    exact ⟨x, by rw [at?, found]; exact here, answer⟩

/-- A storage in the tree after a call is new, or it was told a call at most. -/
theorem at?_perform {after : Storage} (found : (s.perform call).2.at? place = some after) :
    (s.at? place = none ∧ ∃ l length, allocate l length true = .ok after) ∨
      ∃ x, s.at? place = some x ∧
        after = (s.hears call place).elim x fun told => (x.perform told.1).2 := by
  induction place generalizing s call with
  | nil =>
    cases found
    exact .inr ⟨s, rfl, rfl⟩
  | cons cell place ih =>
    obtain ⟨below, there, found⟩ := Option.bind_eq_some_iff.mp found
    simp only [at?, hears]
    rcases list?_perform there with ⟨none, l, length, ok⟩ | ⟨list, kept, rfl⟩
    · rw [none]
      obtain ⟨t, -, rfl⟩ := table_allocate ok
      cases place with
      | nil =>
        cases found
        exact .inl ⟨rfl, l, length, ok⟩
      | cons => cases found
    · rw [kept]
      cases passed : s.passes cell call with
      | none =>
        rw [passed] at found
        exact .inr ⟨after, found, rfl⟩
      | some inner =>
        rw [passed] at found
        exact ih found

theorem Throughout.at? {P : Table → Prop} {x : Storage} (all : s.Throughout P)
    (found : s.at? place = some x) : x.Throughout P := by
  induction place generalizing s with
  | nil =>
    cases found
    exact all
  | cons cell place ih =>
    obtain ⟨list, there, found⟩ := Option.bind_eq_some_iff.mp found
    exact ih (all.lookup there) found

/-- The notices that a call gives to the listeners of the storage at a place. -/
def noticesAt (s : Storage) (call : Call) (place : List Cell) : List Notice :=
  (s.notified call).filterMap fun notice => if notice.1 = place then some notice.2 else none

/-- The notices of what a storage was told and answered. -/
def noticesOf : Call × Except Error Reply → List Notice
  | (.commit, .ok (.committed result)) => result.notices
  | _ => []

theorem notified_inList {struct : StructHandle} (ok : s.list struct = .ok (cell, list)) :
    s.notified (.inList struct call) =
      (list.notified call).map fun notice => (cell :: notice.1, notice.2) := by
  have answer : s.answer (.inList struct call) = list.answer call := by
    rw [Storage.answer, ok]
    rfl
  have callee : s.callee (.inList struct call) = cell :: list.callee call := by
    rw [Storage.callee, ok]
  rw [notified, answer, callee, notified]
  split
  · rw [List.map_map]
    rfl
  · rfl

theorem place_of_mem_notified {notice : List Cell × Notice} (member : notice ∈ s.notified call) :
    notice.1 = s.callee call := by
  unfold notified at member
  split at member
  · obtain ⟨_, -, rfl⟩ := List.mem_map.mp member
    rfl
  · cases member

/-- A call is on a storage in the tree. -/
theorem at?_callee (s : Storage) (call : Call) : ∃ x, s.at? (s.callee call) = some x := by
  induction call generalizing s with
  | inList struct call ih =>
    unfold callee
    cases ok : s.list struct with
    | error e => exact ⟨s, rfl⟩
    | ok found =>
      obtain ⟨x, here⟩ := ih found.2
      refine ⟨x, ?_⟩
      dsimp only
      rw [at?, list_eq_ok ok]
      exact here
  | select | write | selectMember | clear | clearUnion | commit | rollback | listen | listenField
  | listenStruct | unlisten | resize | push | reset | createOrClearList => exact ⟨s, rfl⟩

/-- Only commits give notices. -/
theorem notified_of_ne_commit (other : call ≠ .commit)
    (here : ∀ struct inner, call ≠ .inList struct inner) : s.notified call = [] := by
  have plain (outcome : Except Error Unit) (answers : s.answer call = outcome.map fun _ => .done) :
      s.notified call = [] := by
    rw [notified, answers]
    cases outcome <;> rfl
  cases call with
  | commit => exact absurd rfl other
  | inList struct inner => exact absurd rfl (here struct inner)
  | select | write | selectMember | clear | clearUnion | rollback | resize | reset
  | createOrClearList => exact plain _ rfl
  | unlisten => rfl
  | listen path label =>
    rw [notified, answer]
    cases s.table.listen path label <;> rfl
  | listenField field label =>
    rw [notified, answer]
    cases s.table.listenField field label <;> rfl
  | listenStruct struct label =>
    rw [notified, answer]
    cases s.table.listenStruct struct label <;> rfl
  | push =>
    rw [notified, answer]
    cases s.push.1 <;> rfl

theorem noticesOf_of_ne_commit (other : call ≠ .commit) (answer : Except Error Reply) :
    noticesOf (call, answer) = [] := by
  unfold noticesOf
  split
  · next same =>
    cases same
    exact absurd rfl other
  · rfl

theorem noticesAt_inList_nil {struct : StructHandle} (ok : s.list struct = .ok (cell, list)) :
    s.noticesAt (.inList struct call) [] = [] := by
  simp [noticesAt, notified_inList ok]

theorem noticesAt_inList_cons {struct : StructHandle} (ok : s.list struct = .ok (cell, list))
    (other : Cell) : s.noticesAt (.inList struct call) (other :: place) =
      if cell = other then list.noticesAt call place else [] := by
  simp only [noticesAt, notified_inList ok, List.filterMap_map, Function.comp_def,
    List.cons.injEq]
  by_cases same : cell = other
  · simp [same]
  · simp [same]

theorem noticesAt_of_ne_commit (other : call ≠ .commit)
    (here : ∀ struct inner, call ≠ .inList struct inner) : s.noticesAt call place = [] := by
  rw [noticesAt, notified_of_ne_commit other here]
  rfl

theorem noticesAt_commit : s.noticesAt .commit place =
    if place = [] then noticesOf (.commit, s.answer .commit) else [] := by
  have callee : s.callee .commit = [] := rfl
  rw [noticesAt, notified, callee]
  generalize s.answer .commit = answer
  cases answer with
  | error => simp [noticesOf]
  | ok reply =>
    cases reply with
    | committed => by_cases top : place = [] <;> simp [noticesOf, top, eq_comm]
    | done | status | value | truth | member | length | row | field | struct | listener =>
      simp [noticesOf]

theorem noticesAt_inList_error {struct : StructHandle} {e : Error}
    (failed : s.list struct = .error e) : s.noticesAt (.inList struct call) place = [] := by
  have answer : s.answer (.inList struct call) = .error e := by
    rw [Storage.answer, failed]
    rfl
  rw [noticesAt, notified, answer]
  rfl

/-- The listeners of a storage get the notices of what the storage was told itself. -/
theorem noticesAt_eq : s.noticesAt call place = (s.hears call place).elim [] noticesOf := by
  induction place generalizing s call with
  | nil =>
    change s.noticesAt call [] = noticesOf (call, s.answer call)
    by_cases commit : call = .commit
    · rw [commit, noticesAt_commit, if_pos rfl]
    · rw [noticesOf_of_ne_commit commit]
      cases call with
      | inList struct inner =>
        cases ok : s.list struct with
        | error e => exact noticesAt_inList_error ok
        | ok place => exact noticesAt_inList_nil ok
      | select | write | selectMember | clear | clearUnion | commit | rollback | listen
      | listenField | listenStruct | unlisten | resize | push | reset | createOrClearList =>
        exact noticesAt_of_ne_commit commit (by simp)
  | cons cell place ih =>
    have silent {inner : Call} (list : Storage) (other : inner ≠ .commit)
        (here : ∀ struct call, inner ≠ .inList struct call) :
        (list.hears inner place).elim [] noticesOf = [] := by
      rw [← ih]
      exact noticesAt_of_ne_commit other here
    rw [hears]
    cases call with
    | select | write | selectMember | clear | clearUnion | rollback | listen | listenField
    | listenStruct | unlisten | resize | push | reset =>
      exact noticesAt_of_ne_commit (by simp) (by simp)
    | commit =>
      rw [noticesAt_commit, if_neg (by simp)]
      rfl
    | createOrClearList struct length =>
      rw [noticesAt_of_ne_commit (by simp) (by simp), passes]
      cases s.listCell struct with
      | error e => rfl
      | ok found =>
        dsimp only
        split
        · cases s.list? cell with
          | none => rfl
          | some list => exact (silent list (by simp) (by simp)).symm
        · rfl
    | inList struct inner =>
      rw [passes]
      cases ok : s.list struct with
      | error e => exact noticesAt_inList_error ok
      | ok found =>
        obtain ⟨other, list⟩ := found
        rw [noticesAt_inList_cons ok cell]
        dsimp only
        by_cases same : other = cell
        · rw [if_pos same, if_pos same, ← same, Option.bind_some, list_eq_ok ok,
            Option.bind_some, ih]
        · rw [if_neg same, if_neg same]
          rfl

end BitRecords.Storage
