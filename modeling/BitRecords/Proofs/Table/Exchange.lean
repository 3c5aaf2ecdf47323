import BitRecords.Proofs.Layout.Exchange
import BitRecords.Proofs.Table.Valid

/-!
# Tables over another layout

A table can be read and written over every layout that is interchangeable with its own:
all reads give the same values, and all calls stage or change the same. Only errors that
name the root may have another text.
-/

namespace BitRecords

open Layout

namespace Table

/-- The table laid over another layout. -/
def relaid (t : Table) (l : Layout) : Table := { t with layout := l }

variable {t : Table} {l : Layout} (same : t.layout.Interchangeable l)
include same

theorem getBits_relaid (slot : Slot) (row : UInt64) (width : Nat) :
    (t.relaid l).getBits slot row width = t.getBits slot row width := by
  rw [getBits, getBits, address, address, relaid, same.stride]

theorem setBits_relaid (slot : Slot) (row : UInt64) (width : Nat) (bits : UInt64) :
    (t.relaid l).setBits slot row width bits = (t.setBits slot row width bits).relaid l := by
  rw [setBits, setBits, address, address, relaid, relaid, same.stride]

theorem hasOptional_relaid (view : View) (id : StructId) (row : UInt64) :
    (t.relaid l).hasOptional view id row = t.hasOptional view id row := by
  have presence : (t.relaid l).layout.presence? id = t.layout.presence? id := same.presence? id
  rw [hasOptional, hasOptional, presenceBit, presenceBit, presence]
  cases t.layout.presence? id with
  | none => rfl
  | some slot =>
    dsimp only
    rw [getBits_relaid same]
    rfl

theorem firstAbsent?_relaid (view : View) (s : StructLayout) (row : UInt64) :
    (t.relaid l).firstAbsent? view s row = t.firstAbsent? view s row := by
  rw [firstAbsent?, firstAbsent?]
  congr 1
  funext id
  rw [hasOptional_relaid same]

theorem tag_relaid (view : View) (id : StructId) (u : UnionRegion) (row : UInt64) :
    (t.relaid l).tag view id u row = t.tag view id u row := by
  have committed : (t.relaid l).committedTag u row = t.committedTag u row := by
    rw [committedTag, committedTag, getBits_relaid same]
  cases view with
  | committed => exact committed
  | staged => exact congrArg (Option.getD (t.pending.tag? id row)) committed

theorem region_relaid (view : View) (s : StructLayout) (u : UnionRegion) (row : UInt64) :
    (t.relaid l).region view s u row = t.region view s u row := by
  have bits := getBits_relaid same (u.place s.segment) row u.width
  cases view with
  | committed => exact bits
  | staged => exact congrArg (t.pending.overlayUnion s.id row) bits

theorem content_relaid (f : FieldLayout) (row : UInt64) :
    (t.relaid l).content f row = t.content f row := by
  rw [content, content, getBits_relaid same]
  rfl

theorem readAt_relaid (view : View) (f : FieldLayout) (row : UInt64) :
    (t.relaid l).readAt view f row = t.readAt view f row := by
  have owners : Option.Rel StructLayout.Stands (t.layout.struct? f.owner)
    ((t.relaid l).layout.struct? f.owner) := same.struct? f.owner
  unfold readAt
  generalize t.layout.struct? f.owner = x at owners
  generalize (t.relaid l).layout.struct? f.owner = y at owners
  cases owners with
  | none => rfl
  | @some s s' stands =>
    have absent : Option.Rel StructLayout.Stands
        ((t.firstAbsent? view s row).bind t.layout.struct?)
        (((t.relaid l).firstAbsent? view s' row).bind (t.relaid l).layout.struct?) := by
      have chain :
          (t.relaid l).firstAbsent? view s' row = (t.relaid l).firstAbsent? view s row := by
        rw [stands.same]
        rfl
      rw [chain, firstAbsent?_relaid same]
      cases t.firstAbsent? view s row with
      | none => exact .none
      | some o => exact same.struct? o
    dsimp only
    generalize (t.firstAbsent? view s row).bind t.layout.struct? = x at absent
    generalize ((t.relaid l).firstAbsent? view s' row).bind (t.relaid l).layout.struct? = y
      at absent
    cases absent with
    | some above => rw [above.same]
    | none =>
      have union : s'.union = s.union := by rw [stands.same]
      have id : s'.id = s.id := by rw [stands.same]
      have region (u : UnionRegion) :
          (t.relaid l).region view s' u row = t.region view s u row := by
        rw [← region_relaid same, stands.same]
        rfl
      have path : s'.path = s.path := by rw [stands.same]
      dsimp only
      simp only [union, id, path, tag_relaid same, region, content_relaid same]
      rfl

theorem read_relaid (view : View) (handle : FieldHandle) :
    (t.relaid l).read view handle = t.read view handle := by
  have found : (t.relaid l).layout.fieldOf handle = _ := same.fieldOf handle
  rw [read, read, found]
  change t.selected >>= _ = _
  refine bind_congr fun row => ?_
  cases t.layout.fieldOf handle with
  | error e => rfl
  | ok f => exact readAt_relaid same view f row

theorem isPresent_relaid (handle : StructHandle) :
    (t.relaid l).isPresent handle = t.isPresent handle := by
  have selected : (t.relaid l).selected = t.selected := rfl
  have found : (t.relaid l).layout.structOf handle = _ := same.structOf handle
  rw [isPresent, isPresent, found, selected]
  refine bind_congr fun row => ?_
  cases named : t.layout.structOf handle with
  | error e => dsimp only [Except.map, bind, Except.bind]
  | ok s =>
    obtain ⟨-, struct⟩ := structOf_eq_ok.mp named
    have absent : (t.relaid l).firstAbsent? .staged (l.standIn handle.id s) row =
        t.firstAbsent? .staged s row := (firstAbsent?_relaid same _ _ _).trans rfl
    have flags : (l.standIn handle.id s).flags = s.flags := rfl
    have path : (l.standIn handle.id s).path = s.path := rfl
    dsimp only [Except.map, bind, Except.bind]
    rw [(same.stands_standIn struct).isList, absent, flags, path]

theorem activeMember_relaid (handle : StructHandle) :
    (t.relaid l).activeMember handle = t.activeMember handle := by
  have found : (t.relaid l).layout.structOf handle = _ := same.structOf handle
  have member (id : FieldId) :
      ((t.relaid l).layout.field? id).map (t.relaid l).layout.handleOf =
        (t.layout.field? id).map t.layout.handleOf := by
    have field : (t.relaid l).layout.field? id = _ := same.field?_eq id
    rw [field]
    cases t.layout.field? id with
    | none => rfl
    | some f => exact congrArg some (same.handleOf f)
  rw [activeMember, activeMember, found]
  change t.selected >>= _ = _
  refine bind_congr fun row => ?_
  cases t.layout.structOf handle with
  | error e => rfl
  | ok s =>
    dsimp only [Except.map, bind, Except.bind, standIn]
    cases s.union with
    | none => rfl
    | some u =>
      dsimp only
      rw [tag_relaid same]
      split
      · rfl
      · cases u.members[t.tag .staged s.id u row - 1]? with
        | none => rfl
        | some id => exact congrArg Except.ok (member id)

theorem fieldOf_relaid {handle : FieldHandle} {f' : FieldLayout} :
    l.fieldOf handle = .ok f' ↔
      ∃ f, t.layout.fieldOf handle = .ok f ∧ f' = l.standInField handle.id f := by
  rw [same.fieldOf]
  cases t.layout.fieldOf handle <;> simp [Except.map, eq_comm]

theorem structOf_relaid {handle : StructHandle} {s' : StructLayout} :
    l.structOf handle = .ok s' ↔
      ∃ s, t.layout.structOf handle = .ok s ∧ s' = l.standIn handle.id s := by
  rw [same.structOf]
  cases t.layout.structOf handle <;> simp [Except.map, eq_comm]

theorem staged_relaid (f : FieldLayout) (id : FieldId) (row bits : UInt64) (value : Value) :
    (t.relaid l).staged (l.standInField id f) row bits value =
      (t.staged f row bits value).relaid l := by
  have chain : l.chainOf f.owner = t.layout.chainOf f.owner := same.chainOf f.owner
  change { t with
    layout := l
    pending := t.pending.stageWrite f.id row f.width bits value
      (f.tag.map fun tag => (f.owner, tag)) (l.chainOf f.owner)
    activeUnion := if f.tag.isSome then some f.owner else t.activeUnion } = _
  rw [chain]
  rfl

omit same in
theorem select_relaid (t : Table) (l : Layout) (row : UInt64) :
    SameOutcome (fun a b => b = a.relaid l) (t.select row) ((t.relaid l).select row) := by
  have capacity : (t.relaid l).capacity = t.capacity := rfl
  rw [select, select, capacity]
  split
  · exact .ok rfl
  · exact .error

theorem write_relaid (handle : FieldHandle) (value : Value) :
    SameOutcome (fun a b => b = a.relaid l) (t.write handle value)
      ((t.relaid l).write handle value) := by
  refine .of_ok fun t' => ?_
  simp only [write_eq_ok]
  constructor
  · rintro ⟨row, f', bits, selected, found, encoded, rfl⟩
    obtain ⟨f, named, rfl⟩ := (fieldOf_relaid same).mp found
    exact ⟨_, ⟨row, f, bits, selected, named, encoded, rfl⟩, staged_relaid same f _ row bits value⟩
  · rintro ⟨_, ⟨row, f, bits, selected, found, encoded, rfl⟩, rfl⟩
    exact ⟨row, _, bits, selected, (fieldOf_relaid same).mpr ⟨f, found, rfl⟩, encoded,
      (staged_relaid same f _ row bits value).symm⟩

theorem stageSelect_relaid (union : StructId) (row : UInt64) (tag : Nat) :
    (t.relaid l).stageSelect union row tag = (t.stageSelect union row tag).relaid l := by
  have chain : ((l.struct? union).map StructLayout.chain).getD [] =
      ((t.layout.struct? union).map StructLayout.chain).getD [] := same.chainOf union
  have staged (t : Table) : t.stageSelect union row tag = { t with
      pending := t.pending.stageSelect union row tag
        (((t.layout.struct? union).map StructLayout.chain).getD []) } := rfl
  rw [staged, staged, ← chain]
  rfl

theorem selectMember_relaid (handle : FieldHandle) :
    SameOutcome (fun a b => b = a.relaid l) (t.selectMember handle)
      ((t.relaid l).selectMember handle) := by
  have staged (f : FieldLayout) (row : UInt64) (tag : Nat) :
      { (t.relaid l).stageSelect f.owner row tag with activeUnion := some f.owner } =
        ({ t.stageSelect f.owner row tag with activeUnion := some f.owner } : Table).relaid l := by
    rw [stageSelect_relaid same]
    rfl
  refine .of_ok fun t' => ?_
  simp only [selectMember_eq_ok]
  constructor
  · rintro ⟨row, f', tag, selected, found, isMember, rfl⟩
    obtain ⟨f, named, rfl⟩ := (fieldOf_relaid same).mp found
    exact ⟨_, ⟨row, f, tag, selected, named, isMember, rfl⟩, staged f row tag⟩
  · rintro ⟨_, ⟨row, f, tag, selected, found, isMember, rfl⟩, rfl⟩
    exact ⟨row, _, tag, selected, (fieldOf_relaid same).mpr ⟨f, found, rfl⟩, isMember,
      (staged f row tag).symm⟩

theorem clearTarget?_relaid : (t.relaid l).clearTarget? = t.clearTarget? := by
  have root : ((l.struct? 0).bind (·.union)) = (t.layout.struct? 0).bind (·.union) := by
    rw [same.struct?_eq]
    cases t.layout.struct? 0 <;> rfl
  rw [clearTarget?, clearTarget?]
  cases active : t.activeUnion with
  | some id => simp [relaid, active]
  | none => simp [relaid, active, root]

theorem clear_relaid : SameOutcome (fun a b => b = a.relaid l) t.clear (t.relaid l).clear := by
  refine .of_ok fun t' => ?_
  simp only [clear_eq_ok, clearTarget?_relaid same, stageSelect_relaid same]
  constructor
  · rintro ⟨row, union, selected, target, rfl⟩
    exact ⟨_, ⟨row, union, selected, target, rfl⟩, rfl⟩
  · rintro ⟨_, ⟨row, union, selected, target, rfl⟩, rfl⟩
    exact ⟨row, union, selected, target, rfl⟩

theorem clearUnion_relaid (handle : StructHandle) :
    SameOutcome (fun a b => b = a.relaid l) (t.clearUnion handle)
      ((t.relaid l).clearUnion handle) := by
  refine .of_ok fun t' => ?_
  simp only [clearUnion_eq_ok, stageSelect_relaid same]
  constructor
  · rintro ⟨row, s', selected, found, isUnion, rfl⟩
    obtain ⟨s, named, rfl⟩ := (structOf_relaid same).mp found
    exact ⟨_, ⟨row, s, selected, named, isUnion, rfl⟩, rfl⟩
  · rintro ⟨_, ⟨row, s, selected, found, isUnion, rfl⟩, rfl⟩
    exact ⟨row, _, selected, (structOf_relaid same).mpr ⟨s, found, rfl⟩, isUnion, rfl⟩

omit same in
theorem rollback_relaid (t : Table) (l : Layout) : (t.relaid l).rollback = t.rollback.relaid l := by
  have pending : (t.relaid l).pending = t.pending := rfl
  rw [rollback, rollback, pending]
  split <;> rfl

theorem checkOp_relaid (op : PendingOp) : (t.relaid l).checkOp op = t.checkOp op := by
  have extent (path : String) (slot : Slot) (width : Nat) :
      (t.relaid l).checkExtent path slot width = t.checkExtent path slot width := by
    rw [checkExtent, checkExtent, relaid, same.stride]
  unfold checkOp
  by_cases outside : t.capacity ≤ op.row
  · rw [if_pos outside, if_pos (show (t.relaid l).capacity ≤ op.row from outside)]
    rfl
  · rw [if_neg outside, if_neg (show ¬ (t.relaid l).capacity ≤ op.row from outside)]
    cases op with
    | write field row width bits value =>
      have found : (t.relaid l).layout.field? field = _ := same.field?_eq field
      dsimp only
      rw [found]
      cases t.layout.field? field with
      | none => rfl
      | some f => exact extent f.path f.place f.width
    | select union row tag =>
      have found : (t.relaid l).layout.struct? union = _ := same.struct?_eq union
      dsimp only
      rw [found]
      cases t.layout.struct? union with
      | none => rfl
      | some s =>
        obtain ⟨id, name, path, parent, flags, segment, offset, stride, presence, chain, union,
          children, fields, element⟩ := s
        cases union with
        | none => rfl
        | some u => exact extent path u.tag u.tagWidth

theorem checkPending_relaid : (t.relaid l).checkPending = t.checkPending := by
  have checks : (t.relaid l).checkOp = t.checkOp := funext (checkOp_relaid same)
  have writes : (t.relaid l).writesObject = t.writesObject := by
    funext op
    cases op with
    | select => rfl
    | write field =>
      have found : (t.relaid l).layout.field? field = _ := same.field?_eq field
      rw [writesObject, writesObject, found]
      cases t.layout.field? field <;> rfl
  rw [checkPending, checkPending, checks, writes]
  rfl

theorem markPresent_relaid (chain : List StructId) (row : UInt64) :
    (t.relaid l).markPresent chain row = (t.markPresent chain row).relaid l := by
  unfold markPresent
  induction chain generalizing t with
  | nil => rfl
  | cons id rest ih =>
    have presence : (t.relaid l).layout.presence? id = t.layout.presence? id := same.presence? id
    rw [List.foldl_cons, List.foldl_cons, presence]
    cases t.layout.presence? id with
    | none => exact ih same
    | some slot =>
      dsimp only
      rw [setBits_relaid same]
      exact ih same

theorem setContent_relaid (f : FieldLayout) (row bits : UInt64) (value : Value) :
    (t.relaid l).setContent f row bits value = (t.setContent f row bits value).relaid l := by
  have stored (objects : ObjectTable) (slot : Nat) :
      ({ t.relaid l with objects := objects } : Table).setBits f.place row f.width
          (UInt64.ofNat slot) =
        (({ t with objects := objects } : Table).setBits f.place row f.width
          (UInt64.ofNat slot)).relaid l :=
    setBits_relaid (t := { t with objects }) same _ _ _ _
  unfold setContent
  rw [getBits_relaid same]
  split
  · exact stored _ _
  · exact setBits_relaid same _ _ _ _

theorem setTag_relaid (u : UnionRegion) (row : UInt64) (tag : Nat) :
    (t.relaid l).setTag u row tag = (t.setTag u row tag).relaid l := setBits_relaid same _ _ _ _

theorem apply_relaid (op : PendingOp) : (t.relaid l).apply op = (t.apply op).relaid l := by
  have kept (chain : List StructId) (row : UInt64) :
      (t.markPresent chain row).layout.Interchangeable l := by
    rw [layout_markPresent]
    exact same
  cases op with
  | write field row width bits value =>
    have found : (t.relaid l).layout.field? field = _ := same.field?_eq field
    rw [apply, apply, found]
    cases t.layout.field? field with
    | none => rfl
    | some f =>
      have owner : (t.relaid l).layout.struct? f.owner = _ := same.struct?_eq f.owner
      dsimp only [Option.map, standInField]
      rw [owner]
      cases t.layout.struct? f.owner with
      | none => rfl
      | some s =>
        dsimp only [Option.map, standIn]
        rw [markPresent_relaid same]
        have here := kept s.chain row
        cases s.union with
        | none => exact setContent_relaid here _ row bits value
        | some u =>
          cases f.tag with
          | none => exact setContent_relaid here _ row bits value
          | some tag =>
            dsimp only
            rw [setTag_relaid here]
            exact setContent_relaid (t := (t.markPresent s.chain row).setTag u row tag) here _ row
              bits value
  | select union row tag =>
    have found : (t.relaid l).layout.struct? union = _ := same.struct?_eq union
    rw [apply, apply, found]
    cases t.layout.struct? union with
    | none => rfl
    | some s =>
      dsimp only [Option.map, standIn]
      rw [markPresent_relaid same]
      cases s.union with
      | none => rfl
      | some u => exact setTag_relaid (kept s.chain row) u row tag

theorem applyPending_relaid : (t.relaid l).applyPending = t.applyPending.relaid l := by
  have steps (ops : List PendingOp) (t : Table) (same : t.layout.Interchangeable l) :
      ops.foldl apply (t.relaid l) = (ops.foldl apply t).relaid l := by
    induction ops generalizing t with
    | nil => rfl
    | cons op rest ih =>
      have next : (t.apply op).layout.Interchangeable l := by
        rw [sameApart_apply]
        exact same
      rw [List.foldl_cons, List.foldl_cons, apply_relaid same, ih _ next]
  rw [applyPending, applyPending, ← Array.foldl_toList, ← Array.foldl_toList]
  exact steps t.pending.ops.toList { t with pending := .empty, committedUnion := t.activeUnion }
    same

theorem change?_relaid {after : Table} (kept : after.layout = t.layout) (cell : Cell) :
    (t.relaid l).change? (after.relaid l) cell = t.change? after cell := by
  have found : (after.relaid l).layout.field? cell.id = _ := same.field?_eq cell.id
  rw [change?, change?, found, kept]
  cases t.layout.field? cell.id with
  | none => rfl
  | some f =>
    have content (u : Table) (same : u.layout.Interchangeable l) :
        (u.relaid l).content (l.standInField cell.id f) cell.row = u.content f cell.row :=
      (content_relaid (l := l) same (l.standInField cell.id f) cell.row).trans rfl
    have handle : (after.relaid l).layout.handleOf (l.standInField cell.id f) = _ := same.handleOf f
    dsimp only [Option.map]
    rw [content t same, content after (kept ▸ same), handle]
    rfl

theorem notices_relaid (changes : List Change) (registry : ListenerRegistry) :
    registry.notices l changes = registry.notices t.layout changes := by
  have within (field : FieldId) (target : ListenTarget) :
      target.matches l field = target.matches t.layout field := by
    cases target with
    | field => rfl
    | struct id => exact same.isWithin field id
  simp only [ListenerRegistry.notices, within]

theorem commit_relaid :
    (t.relaid l).commit = t.commit.map fun outcome => (outcome.1, outcome.2.relaid l) := by
  have kept := layout_applyPending t
  have pending : (t.relaid l).pending = t.pending := rfl
  rw [commit, commit, pending, checkPending_relaid same, applyPending_relaid same]
  split
  · rfl
  · cases t.checkPending with
    | error e => rfl
    | ok =>
      have changes : (t.relaid l).change? (t.applyPending.relaid l) = t.change? t.applyPending :=
        funext (change?_relaid same kept)
      have notices (changes : List Change) :
          (t.applyPending.relaid l).listeners.notices (t.applyPending.relaid l).layout changes =
            t.applyPending.listeners.notices t.applyPending.layout changes :=
        notices_relaid (t := t.applyPending) (kept ▸ same) changes t.applyPending.listeners
      change Except.ok _ = Except.ok _
      rw [changes, notices]

omit same in
theorem checkListenable_stands {s s' : StructLayout} (stands : s.Stands s') :
    checkListenable s' = checkListenable s := by
  have path : s'.path = s.path := by rw [stands.same]
  rw [checkListenable, checkListenable, path, stands.isList]

theorem listen_relaid (path label : String) :
    (t.relaid l).listen path label =
      (t.listen path label).map fun outcome => (outcome.1, outcome.2.relaid l) := by
  have related : Option.Rel Target.Stands (t.layout.target? path)
    ((t.relaid l).layout.target? path) := same.target? path
  unfold listen
  generalize t.layout.target? path = x at related
  generalize (t.relaid l).layout.target? path = y at related
  cases related with
  | none => rfl
  | some target =>
    cases target with
    | field stands =>
      rw [stands.same]
      rfl
    | struct stands =>
      have id := congrArg StructLayout.id stands.same
      dsimp only at id ⊢
      rw [checkListenable_stands stands, id]
      cases checkListenable _ <;> rfl

theorem listenField_relaid (handle : FieldHandle) (label : String) :
    (t.relaid l).listenField handle label =
      (t.listenField handle label).map fun outcome => (outcome.1, outcome.2.relaid l) := by
  have found : (t.relaid l).layout.fieldOf handle = _ := same.fieldOf handle
  rw [listenField, listenField, found]
  cases t.layout.fieldOf handle <;> rfl

theorem listenStruct_relaid (handle : StructHandle) (label : String) :
    (t.relaid l).listenStruct handle label =
      (t.listenStruct handle label).map fun outcome => (outcome.1, outcome.2.relaid l) := by
  have found : (t.relaid l).layout.structOf handle = _ := same.structOf handle
  rw [listenStruct, listenStruct, found]
  cases named : t.layout.structOf handle with
  | error e => rfl
  | ok s =>
    obtain ⟨-, struct⟩ := structOf_eq_ok.mp named
    change (checkListenable (l.standIn handle.id s) >>= fun _ => _) = _
    rw [checkListenable_stands (same.stands_standIn struct)]
    change _ = Except.map _ (checkListenable s >>= fun _ => _)
    cases checkListenable s <;> rfl

end Table

end BitRecords
