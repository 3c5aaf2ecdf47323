import BitRecords.Layout
import BitRecords.Layout.Strategy
import BitRecords.Schema.Build

/-!
# Placing a schema

The body of a struct is laid out from a running cursor: its own fields first,
one slot each, then its children in order. The members of a union share one
region, which the tag of the union follows. A plain child is placed inside the
body, an optional child takes one presence slot there and a segment of its own,
and a list child takes nothing: its elements are laid out separately. The
strategy rounds the extent of the body to its stride.

The cursor is a 64-bit word, and a placement stops where the cursor would leave
the word range. Ids are handed out depth first, so a struct comes before all
structs below it, and the parts of its children follow each other.
-/

namespace BitRecords

/-- What a layout is made by: a slot strategy and the largest stride a struct
may have. -/
structure LayoutRules where
  strategy : Strategy := .packed
  maxStride : UInt64 := 0xFFFFFFFF

namespace Layout

/-- How many structs, fields and segments have been placed, and so the next id
of each. -/
structure Counts where
  structs : Nat
  fields : Nat
  segments : Nat
deriving DecidableEq

/-- A run of placed structs with their fields and with the segments they own
besides the one they lie in. -/
structure Part where
  structs : List StructLayout := []
  fields : List FieldLayout := []
  segments : List Segment := []

namespace Part

def append (a b : Part) : Part where
  structs := a.structs ++ b.structs
  fields := a.fields ++ b.fields
  segments := a.segments ++ b.segments

instance : Append Part := ⟨append⟩

@[simp] theorem structs_append (a b : Part) : (a ++ b).structs = a.structs ++ b.structs := rfl

@[simp] theorem fields_append (a b : Part) : (a ++ b).fields = a.fields ++ b.fields := rfl

@[simp] theorem segments_append (a b : Part) : (a ++ b).segments = a.segments ++ b.segments := rfl

/-- The layout of a part that was placed as a root of the given stride. -/
def toLayout (p : Part) (strategy : String) (stride : UInt64) : Layout where
  strategy
  structs := p.structs
  fields := p.fields
  segments := ⟨0, stride⟩ :: p.segments

end Part

/-- The counts after a part has been placed. -/
def Counts.after (c : Counts) (p : Part) : Counts where
  structs := c.structs + p.structs.length
  fields := c.fields + p.fields.length
  segments := c.segments + p.segments.length

/-- Where a struct is to be placed: below which struct, under which path, from
which bit of a row of which segment, inside which optional structs, and with
which presence bit if it is optional itself. -/
structure Place where
  parent : Option StructId
  path : String
  segment : SegmentId
  offset : UInt64
  chain : List StructId
  presence : Option Slot

/-- The place of a root: at the start of segment 0. -/
def Place.root : Place := ⟨none, "", 0, 0, [], none⟩

/-- Before a root is placed, only segment 0 is taken. -/
def Counts.root : Counts := ⟨0, 0, 1⟩

/-- The own fields of a struct, and where they end. -/
structure OwnFields where
  fields : List FieldLayout
  union : Option UnionRegion
  finish : UInt64

/-- The children of a struct, and where they end. -/
structure Children where
  ids : List StructId
  part : Part
  finish : UInt64

/-- The number of bits that hold the numbers from zero to `members`. -/
def tagWidth (members : Nat) : Nat :=
  if members = 0 then 0 else Nat.log2 members + 1

/-- The width of the widest field. -/
def widest (fields : List Field) : Nat :=
  fields.foldl (fun width f => max width f.type.width) 0

end Layout

namespace LayoutRules

open Layout

/-- The bits that a slot of the given width takes. -/
def slot (r : LayoutRules) (path : String) (width : Nat) : Except Error UInt64 :=
  let slot := r.strategy.slotBits width
  if slot.toNat < width then
    .error (.compilation path (.slotTooSmall r.strategy.name slot width))
  else .ok slot

/-- The stride of a body of the given extent. A root is named in the error,
since its path is empty. -/
def stride (r : LayoutRules) (path name : String) (extent : UInt64) : Except Error UInt64 :=
  let stride := r.strategy.roundStride extent
  let shown := if path.isEmpty then name else path
  if stride < extent then
    .error (.compilation shown (.strideTooSmall r.strategy.name extent stride))
  else if r.maxStride < stride then
    .error (.compilation shown (.strideOverLimit stride r.maxStride))
  else .ok stride

/-- The cursor after some bits. -/
def advance (cursor bits : UInt64) : Except Error UInt64 :=
  if cursor.toNat + bits.toNat < UInt64.size then .ok (cursor + bits) else .error .overflow

/-- Places fields one after another. -/
def placeFields (r : LayoutRules) (place : Place) (owner : StructId) :
    FieldId → UInt64 → List Field → Except Error (List FieldLayout × UInt64)
  | _, cursor, [] => .ok ([], cursor)
  | id, cursor, f :: rest => do
    let slot ← r.slot place.path f.type.width
    let placed : FieldLayout :=
      { id, name := f.name, path := joinPath place.path f.name, owner, type := f.type
        segment := place.segment, offset := cursor, slot, tag := none }
    let next ← advance cursor slot
    let (fields, finish) ← r.placeFields place owner (id + 1) next rest
    return (placed :: fields, finish)

/-- Places the members of a union, all at the start of its region. -/
def placeMembers (place : Place) (owner : StructId) (region : UInt64) :
    FieldId → Nat → List Field → List FieldLayout
  | _, _, [] => []
  | id, tag, f :: rest =>
    { id, name := f.name, path := joinPath place.path f.name, owner, type := f.type
      segment := place.segment, offset := place.offset, slot := region, tag := some tag } ::
      placeMembers place owner region (id + 1) (tag + 1) rest

/-- Places the shared region of a union, its tag and its members. -/
def placeUnion (r : LayoutRules) (place : Place) (counts : Counts) (fields : List Field) :
    Except Error OwnFields := do
  let width := widest fields
  if 64 < width then throw (.compilation place.path (.unionTooWide width))
  let region ← r.slot place.path width
  let next ← advance place.offset region
  let tag : Slot := ⟨place.segment, next⟩
  let bits := tagWidth fields.length
  let slot ← r.slot place.path bits
  let finish ← advance next slot
  let members := placeMembers place counts.structs region counts.fields 1 fields
  return {
    fields := members
    union := some ⟨place.offset, width, tag, bits, members.map (·.id)⟩
    finish }

/-- Places the own fields of a struct. -/
def placeOwn (r : LayoutRules) (place : Place) (counts : Counts) (s : Schema) (union : Bool) :
    Except Error OwnFields := do
  if union then
    s.checkUnion
    r.placeUnion place counts s.fields
  else
    let (fields, finish) ← r.placeFields place counts.structs counts.fields place.offset s.fields
    return { fields, union := none, finish }

mutual

/-- Places a struct and everything below it that shares its ids. Returns the
part and the struct's stride. -/
def placeStruct (r : LayoutRules) (place : Place) (counts : Counts) :
    Schema → Except Error (Part × UInt64)
  | { name, fields, children, flags } => do
    let id := counts.structs
    let flags : Flags := if place.parent.isNone then { union := flags.union } else flags
    let chain := if flags.optional then place.chain ++ [id] else place.chain
    let own ← r.placeOwn place counts { name, fields, children, flags } flags.union
    let below : Place := { place with parent := some id, chain, presence := none }
    let next : Counts := ⟨id + 1, counts.fields + own.fields.length, counts.segments⟩
    let inner ← r.placeChildren below own.finish next children
    let stride ← r.stride place.path name (inner.finish - place.offset)
    let placed : StructLayout :=
      { id, name, path := place.path, parent := place.parent, flags, segment := place.segment
        offset := place.offset, stride, presence := place.presence, chain, union := own.union
        children := inner.ids, fields := own.fields.map (·.id), element := none }
    return ({ structs := [placed], fields := own.fields } ++ inner.part, stride)

/-- Places the children of the struct `below.parent`, whose path, segment and
chain `below` holds, from the cursor on. -/
def placeChildren (r : LayoutRules) (below : Place) (cursor : UInt64) (counts : Counts) :
    List Schema → Except Error Children
  | [] => .ok { ids := [], part := {}, finish := cursor }
  | child :: rest => do
    let id := counts.structs
    let place : Place := { below with path := joinPath below.path child.name, offset := cursor }
    let (part, finish) ←
      if child.flags.list then do
        let (inner, stride) ← r.placeStruct .root .root child
        let placed : StructLayout :=
          { id, name := child.name, path := place.path, parent := place.parent
            flags := child.flags, segment := place.segment, offset := cursor, stride := 0
            presence := none, chain := place.chain, union := none, children := [], fields := []
            element := some (inner.toLayout r.strategy.name stride) }
        pure (({ structs := [placed] } : Part), cursor)
      else if child.flags.optional then do
        let slot ← r.slot below.path 1
        let presence : Slot := ⟨below.segment, cursor⟩
        let next ← advance cursor slot
        let segment := counts.segments
        let (inner, stride) ←
          r.placeStruct { place with segment, offset := 0, presence := some presence }
            { counts with segments := segment + 1 } child
        pure ({ inner with segments := ⟨id, stride⟩ :: inner.segments }, next)
      else do
        let (inner, stride) ← r.placeStruct place counts child
        let next ← advance cursor stride
        pure (inner, next)
    let others ← r.placeChildren below finish (counts.after part) rest
    return { ids := id :: others.ids, part := part ++ others.part, finish := others.finish }

end

/-- Lays out a schema as a root. -/
def layout (r : LayoutRules) (s : Schema) : Except Error Layout := do
  s.checkRoot
  let (part, stride) ← r.placeStruct .root .root s
  return part.toLayout r.strategy.name stride

end LayoutRules

end BitRecords
