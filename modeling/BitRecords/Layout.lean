import BitRecords.Layout.Fingerprint

/-!
# Layouts

A layout is a schema whose structs and fields have been given their places. The
structs are in depth-first order, the root first, and so are the fields and the
segments; an id is a position in one of these lists.

Segment 0 holds the rows. Each optional struct has a segment of its own, indexed
by the same row number. A plain child lies inside its parent, and a list child
takes no bits: it carries the layout of its elements, which storage creates for
each row that has a list.
-/

namespace BitRecords

/-- The position of a struct in its layout. -/
abbrev StructId := Nat

/-- The position of a field in its layout. -/
abbrev FieldId := Nat

/-- A place for the rows of one struct and of the plain structs inside it. -/
structure Segment where
  owner : StructId
  stride : UInt64
deriving DecidableEq, Inhabited

/-- The shared region of a union and the tag that tells which of its members is
selected, counted from one. The tag is zero before any selection. -/
structure UnionRegion where
  offset : UInt64
  width : Nat
  tag : Slot
  tagWidth : Nat
  members : List FieldId
deriving DecidableEq, Inhabited

/-- A field with its place. `tag` is the member number of a union member. -/
structure FieldLayout where
  id : FieldId
  name : String
  path : String
  owner : StructId
  type : FieldType
  segment : SegmentId
  offset : UInt64
  slot : UInt64
  tag : Option Nat
deriving DecidableEq, Inhabited

mutual

/-- Where the bits of a schema's structs and fields are. -/
structure Layout where
  strategy : String
  structs : List StructLayout
  fields : List FieldLayout
  segments : List Segment

/-- A struct with its place. `chain` lists the optional structs that have to be
present for this one to be, outermost first and itself included. -/
structure StructLayout where
  id : StructId
  name : String
  path : String
  parent : Option StructId
  flags : Flags
  segment : SegmentId
  offset : UInt64
  stride : UInt64
  presence : Option Slot
  chain : List StructId
  union : Option UnionRegion
  children : List StructId
  fields : List FieldId
  element : Option Layout

end

/-- The number of bits a field's value takes. -/
def FieldLayout.width (f : FieldLayout) : Nat := f.type.width

/-- Whether the struct is a list of elements that have a layout of their own. -/
def StructLayout.isList (s : StructLayout) : Bool := s.element.isSome

/-- What the fingerprint of its layout holds of the struct. -/
def StructLayout.mark (s : StructLayout) : StructMark where
  path := s.path
  flags := s.flags
  segment := s.segment
  offset := s.offset
  stride := s.stride
  presence := s.presence
  union := s.union.map fun u => ⟨u.offset, u.width, u.tag⟩

/-- What the fingerprint of its layout holds of the field. -/
def FieldLayout.mark (f : FieldLayout) : FieldMark where
  path := f.path
  type := f.type
  segment := f.segment
  offset := f.offset
  tag := f.tag

namespace Layout

def struct? (l : Layout) (id : StructId) : Option StructLayout := l.structs[id]?

def field? (l : Layout) (id : FieldId) : Option FieldLayout := l.fields[id]?

/-- The bits that one row takes in a segment. -/
def stride (l : Layout) (segment : SegmentId) : UInt64 :=
  match l.segments[segment]? with
  | some s => s.stride
  | none => 0

def rowStride (l : Layout) : UInt64 := l.stride 0

/-- The name of the root struct. -/
def rootName (l : Layout) : String :=
  match l.structs with
  | root :: _ => root.name
  | [] => ""

mutual

def fingerprint : Layout → Fingerprint
  | { strategy, structs, fields, segments } =>
    { strategy
      structs := structs.map (·.mark)
      fields := fields.map (·.mark)
      strides := segments.map (·.stride)
      elements := elementFingerprints structs }

/-- The fingerprints of the element layouts of the list structs among them. -/
def elementFingerprints : List StructLayout → List Fingerprint
  | [] => []
  | { element := none, .. } :: rest => elementFingerprints rest
  | { element := some element, .. } :: rest => element.fingerprint :: elementFingerprints rest

end

/-- The struct and the structs around it, inside out. A parent comes before its
children, so the walk ends. -/
def ancestors (l : Layout) (id : StructId) : List StructId :=
  match l.struct? id with
  | none => []
  | some s =>
    match s.parent with
    | none => [id]
    | some parent => if parent < id then id :: l.ancestors parent else [id]
termination_by id

/-- Whether the field lies in the struct or in a struct below it. -/
def isWithin (l : Layout) (field : FieldId) (struct : StructId) : Bool :=
  match l.field? field with
  | none => false
  | some f => (l.ancestors f.owner).contains struct

end Layout

end BitRecords
