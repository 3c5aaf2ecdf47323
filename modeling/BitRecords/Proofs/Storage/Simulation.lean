import BitRecords.Proofs.Storage.Ownership
import BitRecords.Proofs.Storage.TwinCommit
import BitRecords.Proofs.Storage.TwinResets
import BitRecords.Storage.Session

/-!
# Sessions with twins

Twins give the same answers in a session, up to the renaming of their layouts:
each answer is the same, and each call leaves twins. So do the lists of a row.
-/

namespace BitRecords

open Layout Table

section Rename

variable (ρ : Fingerprint → Fingerprint)

def Reply.rename : Reply → Reply
  | .status s => .status { s with layout := ρ s.layout }
  | .member m => .member (m.map (·.rename ρ))
  | .field handle => .field (handle.rename ρ)
  | .struct handle => .struct (handle.rename ρ)
  | .committed result => .committed (result.rename ρ)
  | other => other

/-- An answer with its handles and errors renamed. -/
def renameAnswer : Except Error Reply → Except Error Reply
  | .ok reply => .ok (reply.rename ρ)
  | .error e => .error (e.rename ρ)

def Query.rename : Query → Query
  | .read view handle => .read view (handle.rename ρ)
  | .isPresent handle => .isPresent (handle.rename ρ)
  | .activeMember handle => .activeMember (handle.rename ρ)
  | .listLength handle => .listLength (handle.rename ρ)
  | .inList handle query => .inList (handle.rename ρ) query.rename
  | other => other

def Call.rename : Call → Call
  | .write field value => .write (field.rename ρ) value
  | .selectMember member => .selectMember (member.rename ρ)
  | .clearUnion union => .clearUnion (union.rename ρ)
  | .listenField field label => .listenField (field.rename ρ) label
  | .listenStruct struct label => .listenStruct (struct.rename ρ) label
  | .createOrClearList struct length => .createOrClearList (struct.rename ρ) length
  | .inList struct call => .inList (struct.rename ρ) call.rename
  | other => other

/-- The request with its handles renamed. -/
def Request.rename : Request → Request
  | .ask query => .ask (query.rename ρ)
  | .tell call => .tell (call.rename ρ)

end Rename

@[simp] theorem renameAnswer_id (answer : Except Error Reply) :
    renameAnswer id answer = answer := by
  cases answer with
  | error e => rw [renameAnswer, rename_id_error]
  | ok reply =>
    cases reply with
    | member field => cases field <;> rfl
    | committed result => rw [renameAnswer, Reply.rename, rename_id_commitResult]
    | done | status | value | truth | length | row | field | struct | listener => rfl

@[simp] theorem rename_id_query (query : Query) : query.rename id = query := by
  induction query with
  | inList struct query ih => rw [Query.rename, ih, rename_id_structHandle]
  | status | read | isPresent | activeMember | listLength | field | fieldOfType | struct => rfl

@[simp] theorem rename_id_call (call : Call) : call.rename id = call := by
  induction call with
  | inList struct call ih => rw [Call.rename, ih, rename_id_structHandle]
  | select | write | selectMember | clear | clearUnion | commit | rollback | listen | listenField
  | listenStruct | unlisten | resize | push | reset | createOrClearList => rfl

@[simp] theorem rename_id_request (request : Request) : request.rename id = request := by
  cases request with
  | ask query => rw [Request.rename, rename_id_query]
  | tell call => rw [Request.rename, rename_id_call]

variable {ρ : Fingerprint → Fingerprint} {fixed : Prop}

theorem rename_ask (query : Query) : (Request.ask query).rename ρ = .ask (query.rename ρ) := rfl

theorem rename_tell (call : Call) : (Request.tell call).rename ρ = .tell (call.rename ρ) := rfl

/-- The second answer is the renamed first one. -/
def SameReply (ρ : Fingerprint → Fingerprint) (a b : Reply) : Prop := b = a.rename ρ

theorem Matches.answer {x y : Except Error Reply} (same : Matches ρ (SameReply ρ) x y) :
    y = renameAnswer ρ x := by
  cases same with
  | ok same => exact congrArg Except.ok same
  | error e => rfl

namespace Storage

namespace Twins

variable {s s' : Storage} (twins : s.Twins ρ fixed s')
include twins

theorem status : s'.status = { s.status with layout := ρ s.status.layout } := by
  have tables := twins.table
  have even := tables.objects
  have live : s'.table.objects.live = s.table.objects.live := by
    rw [ObjectTable.live, even.size, even.free, ObjectTable.live]
  have held (s : Storage) (consistent : s.table.objects.Consistent) :
      s.snapshot.liveObjects = s.table.objects.live := by
    cases s
    rw [snapshot]
    exact Nat.eq_sub_of_add_eq consistent.countP_slots
  have cells : s'.lists.map (·.1) = s.lists.map (·.1) := by
    cases twins with
    | intro _ cells => exact cells.symm
  simp only [Storage.status, tables.alike.fingerprint, tables.state.capacity,
    tables.state.growable, tables.state.cursor, tables.state.pending, tables.state.listeners,
    even.size, live, cells, held s tables.valid.intact.consistent,
    held s' tables.valid'.intact.consistent]

theorem listCell (handle : StructHandle) :
    Matches ρ (fun a b => b.1 = a.1 ∧ a.2.Alike ρ b.2 ∧ (fixed → b.2 = a.2) ∧
      a.2.Throughout SoundTyped ∧ b.2.Throughout SoundTyped) (s.listCell handle)
      (s'.listCell (handle.rename ρ)) := by
  have tables := twins.table
  refine tables.selected.bind ?_
  rintro _ row ⟨rfl, here⟩
  refine (tables.alike.structOf handle).bind ?_
  rintro struct struct' ⟨found, found', same⟩
  have elements := tables.alike.element same
  have fixes (layouts : fixed) : struct' = struct := by
    rw [tables.layout layouts] at found'
    exact Option.some.inj (found'.symm.trans found)
  rw [same.path, same.id]
  cases element : struct.element with
  | none =>
    rw [element] at elements
    generalize struct'.element = y at elements
    cases elements
    exact .error (.mismatch struct.path .listStruct .struct)
  | some inner =>
    rw [element] at elements
    cases element' : struct'.element with
    | none =>
      rw [element'] at elements
      cases elements
    | some inner' =>
      rw [element'] at elements
      cases elements with
      | some alike =>
        refine .ok ⟨rfl, alike, fun layouts => ?_,
          tables.valid.elements.element same.member element,
          tables.valid'.elements.element same.member' element'⟩
        rw [fixes layouts] at element'
        exact Option.some.inj (element'.symm.trans element)

theorem list (handle : StructHandle) :
    Matches ρ (fun a b => b.1 = a.1 ∧ a.2.Twins ρ fixed b.2) (s.list handle)
      (s'.list (handle.rename ρ)) := by
  refine (twins.listCell handle).bind ?_
  rintro ⟨_, element⟩ ⟨cell, element'⟩ ⟨rfl, -⟩
  have lists := twins.list? cell
  dsimp only
  generalize s.list? cell = x at lists
  generalize s'.list? cell = y at lists
  cases lists with
  | some inner => exact .ok ⟨rfl, inner⟩
  | none =>
    have structs := twins.table.alike.struct? cell.id
    generalize s.table.layout.struct? cell.id = x at structs
    generalize s'.table.layout.struct? cell.id = y at structs
    cases structs with
    | none => exact .error (.listNotCreated _ cell.row)
    | some same =>
      dsimp only [Option.map_some]
      rw [same.path]
      exact .error (.listNotCreated _ cell.row)

/-- Twins give the same answers to a question. -/
theorem query (query : Query) :
    Matches ρ (SameReply ρ) (s.query query) (s'.query (query.rename ρ)) := by
  induction query generalizing s s' with
  | status => exact .ok (congrArg Reply.status twins.status)
  | read view field => exact (twins.table.read view field).map fun _ _ => congrArg Reply.value
  | isPresent struct => exact (twins.table.isPresent struct).map fun _ _ => congrArg Reply.truth
  | activeMember union =>
    exact (twins.table.activeMember union).map fun _ _ => congrArg Reply.member
  | listLength struct =>
    refine ((twins.list struct).bind fun _ _ both => ?_).map fun a b same =>
      congrArg Reply.length same
    exact .ok both.2.table.state.capacity
  | field path => exact (twins.table.alike.fieldHandle path).map fun _ _ => congrArg Reply.field
  | fieldOfType path type =>
    exact (twins.table.alike.fieldHandleOfType path type).map fun _ _ => congrArg Reply.field
  | struct path => exact (twins.table.alike.structHandle path).map fun _ _ => congrArg Reply.struct
  | inList struct query ih => exact (twins.list struct).bind fun _ _ both => ih both.2

theorem push (fits : fixed ∨ overflowed s.push.1 = false ∧ overflowed s'.push.1 = false) :
    Matches ρ (fun row row' => row' = row) s.push.1 s'.push.1 ∧
      s.push.2.Twins ρ fixed s'.push.2 := by
  have state := twins.table.state
  have resized := twins.resize (s.table.capacity + 1)
  unfold Storage.push at fits ⊢
  rw [state.capacity, state.growable] at fits ⊢
  dsimp only at fits ⊢
  split
  · exact ⟨.error (.index s.table.capacity s.table.capacity), twins⟩
  split
  · exact ⟨.error .overflow, twins⟩
  · next grows counted =>
    rw [if_neg grows, if_neg grows, if_neg counted, if_neg counted] at fits
    generalize s.resize (s.table.capacity + 1) = outcome at fits resized
    generalize s'.resize (s.table.capacity + 1) = outcome' at fits resized
    obtain ⟨result, after⟩ := outcome
    obtain ⟨result', after'⟩ := outcome'
    have fits : fixed ∨ overflowed result = false ∧ overflowed result' = false := by
      cases result <;> cases result' <;> exact fits
    obtain ⟨results, afters⟩ := resized fits
    dsimp only at results afters
    cases results with
    | error e => exact ⟨.error e, afters⟩
    | ok =>
      refine ⟨.ok rfl, afters.withTable (afters.table.step ⟨rfl, rfl, rfl, rfl⟩
        ⟨rfl, rfl, rfl, rfl⟩ { afters.table.state with cursor := rfl } ?_ ?_)⟩
      · exact afters.table.valid.congr ⟨rfl, rfl, rfl, rfl⟩ rfl rfl rfl
      · exact afters.table.valid'.congr ⟨rfl, rfl, rfl, rfl⟩ rfl rfl rfl

end Twins

/-- An allocation fails only when a size overflows. -/
theorem isOverflow_allocate {l : Layout} {length : UInt64} {growable : Bool} {e : Error}
    (failed : allocate l length growable = .error e) : e.isOverflow = true := by
  have sizes {segments : List Segment} {e : Error}
      (failed : (segments.mapM fun s => do
        return BitBuffer.zeroed (← l.segmentBits length s.stride)) = .error e) :
      e.isOverflow = true := by
    induction segments with
    | nil => cases failed
    | cons g rest ih =>
      rw [List.mapM_cons] at failed
      unfold Layout.segmentBits at failed ih
      split at failed
      · cases others : (rest.mapM fun s => do
          return BitBuffer.zeroed (← l.segmentBits length s.stride)) with
        | error e' =>
          unfold Layout.segmentBits at others
          rw [others] at failed ih
          cases failed
          exact ih rfl
        | ok buffers =>
          unfold Layout.segmentBits at others
          rw [others] at failed
          cases failed
      · cases failed
        rfl
  unfold allocate Table.allocate at failed
  cases buffers : (l.segments.mapM fun s => do
      return BitBuffer.zeroed (← l.segmentBits length s.stride)) with
  | error e' =>
    rw [buffers] at failed
    cases failed
    exact sizes buffers
  | ok buffers' =>
    rw [buffers] at failed
    cases failed

/-- New storages of layouts with the same outline are twins. -/
theorem twins_allocate {l l' : Layout} (alike : l.Alike ρ l') (good : l.Throughout SoundTyped)
    (good' : l'.Throughout SoundTyped) (layouts : fixed → l' = l) (length : UInt64)
    (growable : Bool) (fits : fixed ∨ overflowed (allocate l length growable) = false ∧
      overflowed (allocate l' length growable) = false) :
    Matches ρ (Twins ρ fixed) (allocate l length growable) (allocate l' length growable) := by
  have twins {list list' : Storage} (ok : allocate l length growable = .ok list)
      (ok' : allocate l' length growable = .ok list') : list.Twins ρ fixed list' := by
    obtain ⟨t, tableOk, rfl⟩ := table_allocate ok
    obtain ⟨t', tableOk', rfl⟩ := table_allocate ok'
    obtain ⟨valid, shows⟩ := allocate_spec good tableOk
    obtain ⟨valid', shows'⟩ := allocate_spec good' tableOk'
    rw [alike.blank] at shows'
    obtain ⟨rfl, -⟩ := allocate_eq_ok tableOk
    obtain ⟨rfl, -⟩ := allocate_eq_ok tableOk'
    refine throughout₂_iff.mpr ⟨⟨alike, ⟨rfl, rfl, rfl, rfl, rfl, rfl, rfl⟩, valid, valid',
      ⟨_, shows, shows'⟩, ⟨.refl _, rfl⟩, fun same => ?_, fun _ => ?_⟩, .nil⟩
    · cases layouts same
      exact .of_segments valid.intact.stored valid'.intact.stored rfl rfl rfl
    · exact sameSlots_of_empty alike rfl valid.intact valid'.intact rfl rfl
  cases first : allocate l length growable with
  | ok list =>
    cases second : allocate l' length growable with
    | ok list' => exact .ok (twins first second)
    | error e =>
      rcases fits with same | ⟨-, fits⟩
      · rw [layouts same, first] at second
        cases second
      · rw [second] at fits
        exact absurd (isOverflow_allocate second) (by simpa [overflowed] using fits)
  | error e =>
    have overflow := isOverflow_allocate first
    rcases fits with same | ⟨fits, -⟩
    · rw [layouts same, first]
      have failed : Matches ρ (Twins ρ fixed) (.error e) (.error (e.rename ρ)) := .error e
      rwa [rename_of_isOverflow overflow] at failed
    · rw [first] at fits
      exact absurd overflow (by simpa [overflowed] using fits)

namespace Twins

variable {s s' : Storage} (twins : s.Twins ρ fixed s')
include twins

theorem createOrClearList (handle : StructHandle) (length : UInt64)
    (fits : fixed ∨ overflowed (s.createOrClearList handle length).1 = false ∧
      overflowed (s'.createOrClearList (handle.rename ρ) length).1 = false) :
    Matches ρ (fun _ _ => True) (s.createOrClearList handle length).1
        (s'.createOrClearList (handle.rename ρ) length).1 ∧
      (s.createOrClearList handle length).2.Twins ρ fixed
        (s'.createOrClearList (handle.rename ρ) length).2 := by
  have cells := twins.listCell handle
  unfold Storage.createOrClearList at fits ⊢
  generalize s.listCell handle = x at fits cells
  generalize s'.listCell (handle.rename ρ) = y at fits cells
  cases cells with
  | error e => exact ⟨.error e, twins⟩
  | @ok a b both =>
    obtain ⟨cell, element⟩ := a
    obtain ⟨cell', element'⟩ := b
    obtain ⟨rfl, alike, layouts, good, good'⟩ := both
    have lists : Option.Rel (Twins ρ fixed) (s.list? cell') (s'.list? cell') := twins.list? cell'
    dsimp only at fits lists ⊢
    generalize s.list? cell' = x at fits lists
    generalize s'.list? cell' = y at fits lists
    cases lists with
    | @some list list' inner =>
      dsimp only at fits ⊢
      rw [overflowed_map, overflowed_map] at fits
      obtain ⟨results, afters⟩ := inner.reset length fits
      exact ⟨results.map fun _ _ _ => trivial, twins.setList _ afters⟩
    | none =>
      dsimp only at fits ⊢
      have news := twins_allocate alike good good' layouts length true
      generalize allocate element length true = x at fits news
      generalize allocate element' length true = y at fits news
      have fits : fixed ∨ overflowed x = false ∧ overflowed y = false := by
        cases x <;> cases y <;> exact fits
      cases news fits with
      | error e => exact ⟨.error e, twins⟩
      | ok inner => exact ⟨.ok trivial, twins.setList _ inner⟩

theorem onTable {outcome outcome' : Except Error Table}
    (tables : Matches ρ (Table.Twins ρ fixed) outcome outcome') :
    Matches ρ (fun _ _ => True) (s.onTable outcome).1 (s'.onTable outcome').1 ∧
      (s.onTable outcome).2.Twins ρ fixed (s'.onTable outcome').2 := by
  cases tables with
  | ok after => exact ⟨.ok trivial, twins.withTable after⟩
  | error e => exact ⟨.error e, twins⟩

omit twins in
/-- The answer to a call that only succeeds or fails. -/
theorem done {outcome outcome' : Except Error Unit × Storage}
    (both : Matches ρ (fun _ _ => True) outcome.1 outcome'.1 ∧
      outcome.2.Twins ρ fixed outcome'.2) :
    Matches ρ (SameReply ρ) (outcome.1.map fun _ => .done) (outcome'.1.map fun _ => .done) ∧
      outcome.2.Twins ρ fixed outcome'.2 :=
  ⟨both.1.map fun _ _ _ => rfl, both.2⟩

/-- The answer to a call on the table that tells something. -/
theorem told {α : Type} {outcome outcome' : Except Error (α × Table)} {reply : α → Reply}
    {R : α → α → Prop} (same : ∀ a b, R a b → SameReply ρ (reply a) (reply b))
    (both : Matches ρ (fun a b => R a.1 b.1 ∧ a.2.Twins ρ fixed b.2) outcome outcome') :
    Matches ρ (SameReply ρ) (outcome.map (reply ·.1)) (outcome'.map (reply ·.1)) ∧
      (s.onTable (outcome.map (·.2))).2.Twins ρ fixed (s'.onTable (outcome'.map (·.2))).2 :=
  ⟨both.map fun _ _ related => same _ _ related.1,
    (twins.onTable (both.map fun _ _ related => related.2)).2⟩

/-- Twins give the same answer to a call and stay twins. -/
theorem call (call : Call) (fits : fixed ∨ overflowed (s.perform call).1 = false ∧
      overflowed (s'.perform (call.rename ρ)).1 = false) :
    Matches ρ (SameReply ρ) (s.answer call) (s'.answer (call.rename ρ)) ∧
      (s.perform call).2.Twins ρ fixed (s'.perform (call.rename ρ)).2 := by
  have tables := twins.table
  induction call generalizing s s' with
  | select row => exact done (twins.onTable (tables.select row))
  | write field value => exact done (twins.onTable (tables.write field value))
  | selectMember member => exact done (twins.onTable (tables.selectMember member))
  | clear => exact done (twins.onTable tables.clear)
  | clearUnion union => exact done (twins.onTable (tables.clearUnion union))
  | commit => exact twins.told (fun _ _ same => congrArg Reply.committed same) tables.commit
  | rollback => exact done (twins.onTable (.ok tables.rollback))
  | listen path label =>
    exact twins.told (fun _ _ same => congrArg Reply.listener same) (tables.listen path label)
  | listenField field label =>
    exact twins.told (fun _ _ same => congrArg Reply.listener same) (tables.listenField field label)
  | listenStruct struct label =>
    exact twins.told (fun _ _ same => congrArg Reply.listener same)
      (tables.listenStruct struct label)
  | unlisten id =>
    obtain ⟨found, after⟩ := tables.unlisten id
    exact ⟨.ok (congrArg Reply.truth found), (twins.onTable (.ok after)).2⟩
  | resize length => exact done (twins.resize length fits)
  | push =>
    have fits : fixed ∨ overflowed s.push.1 = false ∧ overflowed s'.push.1 = false := by
      simpa only [Call.rename, perform, overflowed_map] using fits
    obtain ⟨rows, afters⟩ := twins.push fits
    exact ⟨rows.map fun _ _ same => congrArg Reply.row same, afters⟩
  | reset length => exact done (twins.reset length fits)
  | createOrClearList struct length =>
    have fits : fixed ∨ overflowed (s.createOrClearList struct length).1 = false ∧
        overflowed (s'.createOrClearList (struct.rename ρ) length).1 = false := by
      simpa only [Call.rename, perform, overflowed_map] using fits
    obtain ⟨results, afters⟩ := twins.createOrClearList struct length fits
    exact done ⟨results.map fun _ _ _ => trivial, afters⟩
  | inList struct call ih =>
    have lists := twins.list struct
    unfold perform at fits ⊢
    unfold answer
    dsimp only [Call.rename] at fits ⊢
    generalize s.list struct = x at fits lists
    generalize s'.list (struct.rename ρ) = y at fits lists
    cases lists with
    | error e => exact ⟨.error e, twins⟩
    | @ok a b both =>
      obtain ⟨cell, list⟩ := a
      obtain ⟨cell', list'⟩ := b
      obtain ⟨rfl, inner⟩ := both
      obtain ⟨answers, afters⟩ := ih inner fits inner.table
      exact ⟨answers, twins.setList _ afters⟩

/-- Twins give the same answers in a session and stay twins. -/
theorem session (requests : List Request)
    (fits : fixed ∨ (∀ a ∈ s.answers requests, overflowed a = false) ∧
      ∀ a ∈ s'.answers (requests.map (·.rename ρ)), overflowed a = false) :
    s'.answers (requests.map (·.rename ρ)) = (s.answers requests).map (renameAnswer ρ) ∧
      (s.afterwards requests).Twins ρ fixed (s'.afterwards (requests.map (·.rename ρ))) := by
  have performed (s : Storage) (call : Call) (fits : overflowed (s.answer call) = false) :
      overflowed (s.perform call).1 = false := by
    rw [← map_answer, overflowed_map]
    exact fits
  induction requests generalizing s s' with
  | nil => exact ⟨rfl, twins⟩
  | cons request rest ih =>
    rw [List.map_cons]
    cases request with
    | ask query =>
      simp only [rename_ask, Storage.answers, Storage.afterwards, List.forall_mem_cons,
        List.map_cons] at fits ⊢
      obtain ⟨answers, afters⟩ := ih twins (fits.imp_right fun both => ⟨both.1.2, both.2.2⟩)
      rw [(twins.query query).answer, answers]
      exact ⟨rfl, afters⟩
    | tell call =>
      simp only [rename_tell, Storage.answers, Storage.afterwards, List.forall_mem_cons,
        List.map_cons] at fits ⊢
      obtain ⟨answer, after⟩ := twins.call call (fits.imp_right fun both =>
        ⟨performed s call both.1.1, performed s' _ both.2.1⟩)
      obtain ⟨answers, afters⟩ := ih after (fits.imp_right fun both => ⟨both.1.2, both.2.2⟩)
      rw [answer.answer, answers]
      exact ⟨rfl, afters⟩

end Twins

end Storage

end BitRecords
