import BitRecords.Proofs.Bits.Guarded
import BitRecords.Proofs.Table.SameBits
import BitRecords.Proofs.Table.Valid
import BitRecords.Proofs.Table.Writes

/-!
# Guarded access to rows

A guarded function on a table has no result when the address of a slot wraps around,
when there is no buffer for it, or when the access is not inside the buffer. In a table
whose buffers have room for all rows none of this happens, so reads and commits are the
same with and without guards.
-/

namespace BitRecords

open Layout

namespace Guarded

/-- The first bit of a slot in a row, if it has a number. -/
def address (t : Table) (slot : Slot) (row : UInt64) : Option UInt64 :=
  if row.toNat * (t.layout.stride slot.segment).toNat + slot.offset.toNat < UInt64.size then
    some (t.address slot row)
  else none

def getBits (t : Table) (slot : Slot) (row : UInt64) (width : Nat) : Option UInt64 := do
  let buffer ← t.segments[slot.segment]?
  get buffer (← address t slot row) width

def setBits (t : Table) (slot : Slot) (row : UInt64) (width : Nat) (bits : UInt64) :
    Option Table := do
  let buffer ← t.segments[slot.segment]?
  let buffer ← set buffer (← address t slot row) width bits
  return { t with segments := t.segments.setIfInBounds slot.segment buffer }

/-- Whether the struct's own presence bit is set in a row. -/
def presenceBit (t : Table) (id : StructId) (row : UInt64) : Option Bool :=
  match t.layout.presence? id with
  | some slot => do return (← getBits t slot row 1) == 1
  | none => some true

/-- Whether the optional struct is present in a row, apart from those around it. -/
def hasOptional (t : Table) (view : View) (id : StructId) (row : UInt64) : Option Bool := do
  return (← presenceBit t id row) || (view == .staged && t.pending.isPresent id row)

/-- The outermost optional struct around `s`, or `s` itself, that is absent. -/
def firstAbsent? (t : Table) (view : View) (s : StructLayout) (row : UInt64) :
    Option (Option StructId) :=
  s.chain.findM? fun id => do return !(← hasOptional t view id row)

/-- The committed tag of a union. -/
def committedTag (t : Table) (u : UnionRegion) (row : UInt64) : Option Nat := do
  return (← getBits t u.tag row u.tagWidth).toNat

/-- The tag of a union. -/
def tag (t : Table) (view : View) (id : StructId) (u : UnionRegion) (row : UInt64) : Option Nat :=
  match view with
  | .committed => committedTag t u row
  | .staged => do return (t.pending.tag? id row).getD (← committedTag t u row)

/-- The bits of a union's region. -/
def region (t : Table) (view : View) (s : StructLayout) (u : UnionRegion) (row : UInt64) :
    Option UInt64 := do
  let bits ← getBits t (u.place s.segment) row u.width
  match view with
  | .committed => return bits
  | .staged => return t.pending.overlayUnion s.id row bits

/-- The committed content of a field, whether or not a read would be allowed. -/
def content (t : Table) (f : FieldLayout) (row : UInt64) : Option Value := do
  let bits ← getBits t f.place row f.width
  match f.type with
  | .object => return .object (t.objects.get? bits.toNat)
  | type => return type.decode bits

/-- Reads a field of a row. -/
def readAt (t : Table) (view : View) (f : FieldLayout) (row : UInt64) :
    Option (Except Error Value) :=
  match t.layout.struct? f.owner with
  | none => some (.error (.unknown (.struct f.owner)))
  | some owner => do
    match (← firstAbsent? t view owner row).bind t.layout.struct? with
    | some absent => return .error (.absentChild absent.path row)
    | none =>
      match owner.union with
      | some u =>
        if (← tag t view owner.id u row) = 0 then return .error (.unselectedUnion owner.path row)
        else return .ok (f.type.decode (← region t view owner u row))
      | none =>
        match view with
        | .committed => return .ok (← content t f row)
        | .staged => return .ok ((t.pending.latestValue? f.id row).getD (← content t f row))

/-- Goes on with a result, and passes on an error. -/
def andThen {α β : Type} (x : Except Error α) (f : α → Option (Except Error β)) :
    Option (Except Error β) :=
  match x with
  | .error e => some (.error e)
  | .ok a => f a

/-- Reads a field of the selected row. -/
def read (t : Table) (view : View) (handle : FieldHandle) : Option (Except Error Value) :=
  andThen t.selected fun row =>
  andThen (t.layout.fieldOf handle) fun f => readAt t view f row

/-- Whether an optional struct and all optional structs around it are present in
the selected row, pending operations included. -/
def isPresent (t : Table) (handle : StructHandle) : Option (Except Error Bool) :=
  andThen t.selected fun row =>
  andThen (t.layout.structOf handle) fun s => do
    if s.flags.optional && !s.isList then return .ok (← firstAbsent? t .staged s row).isNone
    else return .error (.mismatch s.path .optionalStruct .struct)

/-- The selected member of a union in the selected row, pending operations
included. -/
def activeMember (t : Table) (handle : StructHandle) : Option (Except Error (Option FieldHandle)) :=
  andThen t.selected fun row =>
  andThen (t.layout.structOf handle) fun s =>
    match s.union with
    | none => some (.error (.mismatch s.path .unionStruct .struct))
    | some u => do
      let tag ← tag t .staged s.id u row
      if tag = 0 then return .ok none
      else return .ok ((u.members[tag - 1]?.bind t.layout.field?).map t.layout.handleOf)

/-- Sets the presence bits of optional structs in a row. -/
def markPresent (t : Table) (chain : List StructId) (row : UInt64) : Option Table :=
  chain.foldlM (fun t id =>
    match t.layout.presence? id with
    | some slot => setBits t slot row 1 1
    | none => some t) t

/-- Sets the tag of a union in a row. -/
def setTag (t : Table) (u : UnionRegion) (row : UInt64) (tag : Nat) : Option Table :=
  setBits t u.tag row u.tagWidth (UInt64.ofNat tag)

/-- Writes a value with its encoding into a field. -/
def setContent (t : Table) (f : FieldLayout) (row : UInt64) (bits : UInt64) (value : Value) :
    Option Table :=
  if f.type.isObject then do
    let objects := t.objects.release (← getBits t f.place row f.width).toNat
    let (slot, objects) := match value with
      | .object (some o) => objects.insert o
      | _ => (0, objects)
    setBits { t with objects } f.place row f.width (UInt64.ofNat slot)
  else setBits t f.place row f.width bits

/-- Applies an operation to the buffers. -/
def apply (t : Table) : PendingOp → Option Table
  | .write field row _ bits value =>
    match t.layout.field? field with
    | none => some t
    | some f =>
      match t.layout.struct? f.owner with
      | none => some t
      | some owner => do
        let t ← markPresent t owner.chain row
        let t ← match owner.union, f.tag with
          | some u, some tag => setTag t u row tag
          | _, _ => some t
        setContent t f row bits value
  | .select union row tag =>
    match t.layout.struct? union with
    | none => some t
    | some s => do
      let t ← markPresent t s.chain row
      match s.union with
      | some u => setTag t u row tag
      | none => some t

/-- The change of a cell from one table to another, if its content differs. -/
def change? (before after : Table) (cell : Cell) : Option (Option Change) :=
  match after.layout.field? cell.id with
  | none => some none
  | some f => do
    let old ← content before f cell.row
    let new ← content after f cell.row
    if old = new then return none
    else return some { field := after.layout.handleOf f, path := f.path, row := cell.row, old, new }

/-- The table after all pending operations. -/
def applyPending (t : Table) : Option Table :=
  t.pending.ops.toList.foldlM apply { t with pending := .empty, committedUnion := t.activeUnion }

/-- Applies all pending operations in issue order. -/
def commit (t : Table) : Option (Except Error (CommitResult × Table)) :=
  if t.pending.isEmpty then some (.ok ({}, t))
  else andThen t.checkPending fun _ => do
    let after ← applyPending t
    let changes := (← (Table.writtenCells t.pending.ops.toList).mapM (change? t after)).filterMap id
    return .ok ({ changes, notices := after.listeners.notices after.layout changes }, after)

variable {t : Table} {use : Use} {slot : Slot} {row : UInt64} {width : Nat}

/-- What the layout stores has a buffer in each row that exists, and is inside of it. -/
theorem address_eq (stored : t.Stored) (stores : t.layout.Stores use slot width)
    (here : row < t.capacity) : ∃ b, t.segments[slot.segment]? = some b ∧
      address t slot row = some (t.address slot row) ∧
      (t.address slot row).toNat + width ≤ b.size.toNat := by
  obtain ⟨b, found, start, fits, room⟩ := stored.buffer stores here
  refine ⟨b, found, if_pos ?_, Nat.le_trans fits room⟩
  rw [← start]
  exact UInt64.toNat_lt_size _

theorem getBits_eq (stored : t.Stored) (stores : t.layout.Stores use slot width)
    (here : row < t.capacity) : getBits t slot row width = some (t.getBits slot row width) := by
  obtain ⟨b, found, counted, inside⟩ := address_eq stored stores here
  simp only [getBits, Table.getBits, found, counted, Option.bind_eq_bind, Option.bind_some]
  exact get_eq stores.narrow inside

theorem setBits_eq (stored : t.Stored) (stores : t.layout.Stores use slot width)
    (here : row < t.capacity) (bits : UInt64) :
    setBits t slot row width bits = some (t.setBits slot row width bits) := by
  obtain ⟨b, found, counted, inside⟩ := address_eq stored stores here
  have changed : t.segments.setIfInBounds slot.segment (b.set (t.address slot row) width bits) =
      t.segments.modify slot.segment fun buffer => buffer.set (t.address slot row) width bits := by
    refine Array.ext_getElem? fun k => ?_
    rw [Array.getElem?_setIfInBounds, Array.getElem?_modify]
    split
    · next same =>
      subst same
      rw [found, if_pos (Array.getElem?_eq_some_iff.mp found).1]
      rfl
    · rfl
  simp only [setBits, Table.setBits, found, counted, ← changed, Option.bind_eq_bind,
    Option.bind_some]
  rw [set_eq stores.narrow inside]
  rfl

theorem presenceBit_eq (stored : t.Stored) (here : row < t.capacity) (id : StructId) :
    presenceBit t id row = some (t.presenceBit id row) := by
  unfold presenceBit Table.presenceBit
  cases presence : t.layout.presence? id with
  | none => rfl
  | some slot =>
    dsimp only
    rw [getBits_eq stored (stored.good.sound.stores_presence presence) here]
    rfl

theorem hasOptional_eq (stored : t.Stored) (here : row < t.capacity) (view : View)
    (id : StructId) : hasOptional t view id row = some (t.hasOptional view id row) := by
  rw [hasOptional, presenceBit_eq stored here]
  rfl

theorem findM?_eq {α : Type} {p : α → Option Bool} {q : α → Bool} {xs : List α}
    (each : ∀ x ∈ xs, p x = some (q x)) : xs.findM? p = some (xs.find? q) := by
  induction xs with
  | nil => rfl
  | cons x rest ih =>
    obtain ⟨first, others⟩ := List.forall_mem_cons.mp each
    rw [List.findM?, first, List.find?_cons]
    cases q x with
    | true => rfl
    | false => exact ih others

theorem firstAbsent?_eq (stored : t.Stored) (here : row < t.capacity) (view : View)
    (s : StructLayout) : firstAbsent? t view s row = some (t.firstAbsent? view s row) := by
  refine findM?_eq fun id _ => ?_
  rw [hasOptional_eq stored here]
  rfl

section Union

variable {id : StructId} {s : StructLayout} {u : UnionRegion}

theorem tag_eq (stored : t.Stored) (struct : t.layout.struct? id = some s)
    (union : s.union = some u) (here : row < t.capacity) (view : View) (id' : StructId) :
    tag t view id' u row = some (t.tag view id' u row) := by
  have stores := stored.good.sound.stores_tag stored.good.typed struct union
  cases view with
  | committed | staged =>
    simp only [tag, committedTag, getBits_eq stored stores here]
    rfl

theorem region_eq (stored : t.Stored) (struct : t.layout.struct? id = some s)
    (union : s.union = some u) (here : row < t.capacity) (view : View) :
    region t view s u row = some (t.region view s u row) := by
  have stores := stored.good.sound.stores_region struct union
  cases view with
  | committed | staged =>
    simp only [region, getBits_eq stored stores here]
    rfl

end Union

theorem content_eq (stored : t.Stored) {id : FieldId} {f : FieldLayout}
    (field : t.layout.field? id = some f) (here : row < t.capacity) :
    content t f row = some (t.content f row) := by
  obtain ⟨use, stores⟩ := stored.good.stores_place field
  unfold content Table.content
  rw [getBits_eq stored stores here]
  cases f.type <;> rfl

theorem readAt_eq (stored : t.Stored) {id : FieldId} {f : FieldLayout}
    (field : t.layout.field? id = some f) (here : row < t.capacity) (view : View) :
    readAt t view f row = some (t.readAt view f row) := by
  obtain ⟨s, struct, -, -⟩ := stored.good.sound.owner field
  unfold readAt Table.readAt
  rw [struct]
  dsimp only
  rw [firstAbsent?_eq stored here, Option.bind_eq_bind, Option.bind_some]
  cases (t.firstAbsent? view s row).bind t.layout.struct? with
  | some absent => rfl
  | none =>
    cases union : s.union with
    | some u =>
      simp only [tag_eq stored struct union here, region_eq stored struct union here,
        Option.bind_eq_bind, Option.bind_some]
      split <;> rfl
    | none =>
      simp only [content_eq stored field here, Option.bind_eq_bind, Option.bind_some]
      cases view <;> rfl

/-- Going on with a result is the same with guards if what follows is. -/
theorem andThen_eq {α β : Type} {x : Except Error α} {f : α → Option (Except Error β)}
    {g : α → Except Error β} (each : ∀ a, x = .ok a → f a = some (g a)) :
    andThen x f = some (x >>= g) := by
  cases x with
  | error => rfl
  | ok a => exact each a rfl

theorem read_eq (stored : t.Stored) (view : View) (handle : FieldHandle) :
    read t view handle = some (t.read view handle) := by
  refine andThen_eq fun row selected => andThen_eq fun f found => ?_
  exact readAt_eq stored (Table.fieldOf_eq_ok.mp found).2 (Table.selected_eq_ok.mp selected).2 view

theorem isPresent_eq (stored : t.Stored) (handle : StructHandle) :
    isPresent t handle = some (t.isPresent handle) := by
  refine andThen_eq fun row selected => andThen_eq fun s _ => ?_
  rw [firstAbsent?_eq stored (Table.selected_eq_ok.mp selected).2]
  split <;> rfl

theorem activeMember_eq (stored : t.Stored) (handle : StructHandle) :
    activeMember t handle = some (t.activeMember handle) := by
  refine andThen_eq fun row selected => andThen_eq fun s found => ?_
  cases union : s.union with
  | none => rfl
  | some u =>
    dsimp only
    rw [tag_eq stored (Table.structOf_eq_ok.mp found).2 union (Table.selected_eq_ok.mp selected).2,
      Option.bind_eq_bind, Option.bind_some]
    split <;> rfl

theorem markPresent_eq (stored : t.Stored) (here : row < t.capacity) (chain : List StructId) :
    markPresent t chain row = some (t.markPresent chain row) := by
  unfold markPresent Table.markPresent
  induction chain generalizing t with
  | nil => rfl
  | cons id rest ih =>
    rw [List.foldlM_cons, List.foldl_cons]
    cases presence : t.layout.presence? id with
    | none => exact ih stored here
    | some slot =>
      have stores := stored.good.sound.stores_presence presence
      dsimp only
      rw [setBits_eq stored stores here, Option.bind_eq_bind, Option.bind_some]
      exact ih (stored.setBits stores here 1) here

theorem setTag_eq (stored : t.Stored) {id : StructId} {s : StructLayout} {u : UnionRegion}
    (struct : t.layout.struct? id = some s) (union : s.union = some u) (here : row < t.capacity)
    (tag : Nat) : setTag t u row tag = some (t.setTag u row tag) :=
  setBits_eq stored (stored.good.sound.stores_tag stored.good.typed struct union) here _

theorem setContent_eq (stored : t.Stored) {id : FieldId} {f : FieldLayout}
    (field : t.layout.field? id = some f) (here : row < t.capacity) (bits : UInt64)
    (value : Value) : setContent t f row bits value = some (t.setContent f row bits value) := by
  obtain ⟨use, stores⟩ := stored.good.stores_place field
  unfold setContent Table.setContent
  split
  · have written (pair : Nat × ObjectTable) :
        setBits { t with objects := pair.2 } f.place row f.width (UInt64.ofNat pair.1) =
          some (Table.setBits { t with objects := pair.2 } f.place row f.width
            (UInt64.ofNat pair.1)) :=
      have rows : ({ t with objects := pair.2 } : Table).Stored := stored.congr rfl rfl rfl
      setBits_eq rows stores here _
    rw [getBits_eq stored stores here, Option.bind_eq_bind, Option.bind_some]
    exact written _
  · exact setBits_eq stored stores here bits

/-- Applying an operation that was staged to a row that exists. -/
theorem apply_eq (stored : t.Stored) {op : PendingOp} (admits : t.layout.Admits op)
    (here : op.row < t.capacity) : apply t op = some (t.apply op) := by
  have same : t.SameBits t := .of_segments stored stored rfl rfl rfl
  cases admits with
  | @write field row bits value f found encoded =>
    change row < t.capacity at here
    obtain ⟨s, struct, -, -⟩ := stored.good.sound.owner found
    have marked := (same.markPresent s.chain here).stored
    have layout := Table.layout_markPresent t s.chain row
    have capacity := Table.capacity_markPresent t s.chain row
    simp only [apply, Table.apply, found, struct]
    rw [markPresent_eq stored here, Option.bind_eq_bind, Option.bind_some]
    have plain : setContent (t.markPresent s.chain row) f row bits value =
        some ((t.markPresent s.chain row).setContent f row bits value) :=
      setContent_eq marked (layout ▸ found) (capacity ▸ here) bits value
    cases union : s.union with
    | none => exact plain
    | some u =>
      cases isMember : f.tag with
      | none => exact plain
      | some tag =>
        have tagged := ((same.markPresent s.chain here).setTag (layout ▸ struct) union
          (capacity ▸ here) tag).stored
        dsimp only
        rw [setTag_eq marked (layout ▸ struct) union (capacity ▸ here), Option.bind_some]
        exact setContent_eq tagged (layout ▸ found) (capacity ▸ here) bits value
  | @select union row tag s u struct isUnion bound =>
    change row < t.capacity at here
    have marked := (same.markPresent s.chain here).stored
    simp only [apply, Table.apply, struct, isUnion]
    rw [markPresent_eq stored here, Option.bind_eq_bind, Option.bind_some]
    exact setTag_eq marked ((Table.layout_markPresent t s.chain row) ▸ struct) isUnion
      ((Table.capacity_markPresent t s.chain row) ▸ here) tag

theorem applyAll_eq (stored : t.Stored) (ops : List PendingOp)
    (admits : ∀ op ∈ ops, t.layout.Admits op) (here : ∀ op ∈ ops, op.row < t.capacity) :
    ops.foldlM apply t = some (ops.foldl Table.apply t) := by
  induction ops generalizing t with
  | nil => rfl
  | cons op rest ih =>
    obtain ⟨admitsHere, admits⟩ := List.forall_mem_cons.mp admits
    obtain ⟨inside, here⟩ := List.forall_mem_cons.mp here
    have same : t.SameBits t := .of_segments stored stored rfl rfl rfl
    have apart : t.apply op = _ := Table.sameApart_apply t op
    have layout : (t.apply op).layout = t.layout := by rw [apart]
    have capacity : (t.apply op).capacity = t.capacity := by rw [apart]
    rw [List.foldlM_cons, List.foldl_cons, apply_eq stored admitsHere inside,
      Option.bind_eq_bind, Option.bind_some]
    exact ih (same.apply admitsHere inside).stored (layout ▸ admits) (capacity ▸ here)

theorem change?_eq {after : Table} (stored : t.Stored) (stored' : after.Stored)
    (layout : after.layout = t.layout) (capacity : after.capacity = t.capacity) {cell : Cell}
    (here : cell.row < t.capacity) : change? t after cell = some (t.change? after cell) := by
  unfold change? Table.change?
  cases field : after.layout.field? cell.id with
  | none => rfl
  | some f =>
    dsimp only
    rw [content_eq stored (layout ▸ field) here, content_eq stored' field (capacity ▸ here)]
    simp only [Option.bind_eq_bind, Option.bind_some]
    split <;> rfl

theorem mapM_eq {α β : Type} {f : α → Option β} {g : α → β} {xs : List α}
    (each : ∀ x ∈ xs, f x = some (g x)) : xs.mapM f = some (xs.map g) := by
  induction xs with
  | nil => rfl
  | cons x rest ih =>
    obtain ⟨first, others⟩ := List.forall_mem_cons.mp each
    rw [List.mapM_cons, first, ih others]
    rfl

theorem commit_eq (valid : t.Valid) : commit t = some t.commit := by
  unfold commit Table.commit
  split
  · rfl
  · refine andThen_eq fun _ checked => ?_
    have stored := valid.intact.stored
    have inside := (Table.of_checkPending checked).1
    have applied : applyPending t = some t.applyPending := by
      have rows : ({ t with pending := .empty, committedUnion := t.activeUnion } : Table).Stored :=
        stored.congr rfl rfl rfl
      rw [Table.applyPending_eq]
      exact applyAll_eq rows _ valid.answers.admits inside
    have stored' := (valid.applyPending checked).intact.stored
    have apart := Table.Valid.sameApart_applyPending t
    have changed (cell : Cell) (member : cell ∈ Table.writtenCells t.pending.ops.toList) :
        change? t t.applyPending cell = some (t.change? t.applyPending cell) := by
      obtain ⟨op, staged, writes⟩ := Table.mem_writtenCells.mp member
      refine change?_eq stored stored' (by rw [apart]) (by rw [apart]) ?_
      rw [← op.row_of_writes writes]
      exact inside op staged
    rw [applied, Option.bind_eq_bind, Option.bind_some, mapM_eq changed]
    simp only [Option.bind_eq_bind, Option.bind_some, List.filterMap_map]
    rfl

end Guarded

end BitRecords
