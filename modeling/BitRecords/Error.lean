import BitRecords.Bits.Image
import BitRecords.Layout.Fingerprint

/-!
# Errors

Every operation that can fail names the cause. Most causes have a kind that a
caller may branch on and the dotted path they concern; the remaining ones are
plain, but for an overflow, which no caller gets to see. The wording of all of
them is in this module.

Some messages name a layout, which is known by its fingerprint. How a
fingerprint is written is up to the caller of `Error.message`.
-/

namespace BitRecords

/-- What a caller may branch on. -/
inductive ErrorKind where
  | schema
  | compilation
  | unknownField
  | typeMismatch
  | index
  | absentChild
  | unselectedUnion
  | notFound
deriving DecidableEq, Inhabited

/-- Why a schema is refused. -/
inductive SchemaFault where
  | emptyName
  | dottedName
  | unsignedWidth (width : Nat)
  | duplicateField
  | duplicateStruct
  | emptyUnion
  | objectInUnion
  | flaggedRoot
  /-- A fault in its reporter's own words. -/
  | stated (text : String)
deriving DecidableEq

/-- Why a layout cannot be made, or cannot be used as it is. -/
inductive LayoutFault where
  | alignment (bits : UInt64)
  | unionTooWide (width : Nat)
  | slotTooSmall (strategy : String) (slot : UInt64) (width : Nat)
  | strideTooSmall (strategy : String) (extent stride : UInt64)
  | strideOverLimit (stride limit : UInt64)
  | capacityTooLarge (capacity stride : UInt64)
  | slotOutsideStride (offset : UInt64) (width : Nat) (stride : UInt64)
  | objectsExhausted
  | snapshotMismatch (snapshot layout : Fingerprint)
  | snapshotListUnknown (id : Nat)
  /-- A fault in its reporter's own words. -/
  | stated (text : String)
deriving DecidableEq

/-- What a name or handle fails to name. -/
inductive Unknown where
  | path (path : String)
  | field (id : Nat)
  | struct (id : Nat)
  /-- A field handle of another layout. -/
  | foreignField (id : Nat) (layout : Fingerprint)
  /-- A struct handle of another layout. -/
  | foreignStruct (id : Nat) (layout : Fingerprint)
deriving DecidableEq

/-- What a path, a handle or a value should be, or is. -/
inductive Role where
  | field
  | struct
  | list
  | optionalStruct
  | unionStruct
  | listStruct
  | unionMember
  | fieldOrSingleStruct
  | fieldType (type : FieldType)
  | misfit (reason : Misfit)
  /-- A role in its reporter's own words. -/
  | stated (text : String)
deriving DecidableEq

inductive Error where
  | schema (path : String) (fault : SchemaFault)
  | compilation (path : String) (fault : LayoutFault)
  /-- A sum that is no 64-bit word. It stops the program. -/
  | overflow
  | unknown (target : Unknown)
  | mismatch (path : String) (expected found : Role)
  /-- A row at or past the capacity. -/
  | index (row capacity : UInt64)
  /-- No row is selected. -/
  | noSelection
  | absentChild (path : String) (row : UInt64)
  | unselectedUnion (path : String) (row : UInt64)
  | listNotCreated (path : String) (row : UInt64)
  | capacityUnset
  | headerTooShort (size : Nat)
  | headerMagic
  | snapshotTooLarge
  | image (fault : ImageFault)
  | snapshotListRow (row capacity : UInt64)
  /-- A plain error in its reporter's own words. -/
  | stated (text : String)
deriving DecidableEq

def SchemaFault.text : SchemaFault → String
  | emptyName => "names cannot be empty"
  | dottedName => "names cannot contain '.'"
  | unsignedWidth width => s!"unsigned width must be 1..=63, got {width}"
  | duplicateField => "duplicate field name"
  | duplicateStruct => "duplicate struct name"
  | emptyUnion => "a union needs at least one field"
  | objectInUnion => "object fields cannot be union members"
  | flaggedRoot => "a root struct cannot be a list or optional"
  | stated text => text

def LayoutFault.text (label : Fingerprint → String) : LayoutFault → String
  | alignment bits => s!"alignment boundary must be a power of two in 8..=64, got {bits.toNat}"
  | unionTooWide width => s!"union region of {width} bits exceeds the 64-bit limit"
  | slotTooSmall strategy slot width =>
    s!"strategy '{strategy}' reserved {slot.toNat} bits for a {width}-bit slot"
  | strideTooSmall strategy extent stride =>
    s!"strategy '{strategy}' rounded a {extent.toNat}-bit body down to {stride.toNat} bits"
  | strideOverLimit stride limit =>
    s!"stride of {stride.toNat} bits exceeds the addressable limit of {limit.toNat} bits"
  | capacityTooLarge capacity stride =>
    s!"{capacity.toNat} instances of {stride.toNat} bits overflow the addressable range"
  | slotOutsideStride offset width stride =>
    s!"slot at {offset.toNat}+{width} exceeds segment stride {stride.toNat}"
  | objectsExhausted => "object table exhausted: too many object writes in one commit"
  | snapshotMismatch snapshot layout =>
    s!"snapshot layout {label snapshot} does not match schema {label layout}"
  | snapshotListUnknown id => s!"snapshot names struct #{id} as a list"
  | stated text => text

def Unknown.text (label : Fingerprint → String) : Unknown → String
  | path p => p
  | field id => s!"field #{id}"
  | struct id => s!"struct #{id}"
  | foreignField id layout => s!"field #{id} of schema {label layout}"
  | foreignStruct id layout => s!"struct #{id} of schema {label layout}"

def Role.text : Role → String
  | field => "field"
  | struct => "struct"
  | list => "list"
  | optionalStruct => "optional struct"
  | unionStruct => "union struct"
  | listStruct => "list struct"
  | unionMember => "union member"
  | fieldOrSingleStruct => "field or non-list struct"
  | fieldType type => type.name
  | misfit reason => reason.text
  | stated text => text

namespace Error

/-- The kind of an error. A plain error has none. -/
def kind? : Error → Option ErrorKind
  | schema .. => some .schema
  | compilation .. => some .compilation
  | unknown .. => some .unknownField
  | mismatch .. => some .typeMismatch
  | index .. | noSelection => some .index
  | absentChild .. => some .absentChild
  | unselectedUnion .. => some .unselectedUnion
  | listNotCreated .. => some .notFound
  | overflow | capacityUnset | headerTooShort .. | headerMagic | snapshotTooLarge | image ..
  | snapshotListRow .. | stated .. => none

/-- The path an error names. -/
def path? : Error → Option String
  | schema path _ | compilation path _ | unknown (.path path) | mismatch path _ _
  | absentChild path _ | unselectedUnion path _ | listNotCreated path _ => some path
  | _ => none

def message (label : Fingerprint → String) : Error → String
  | schema path fault => s!"schema error at '{path}': {fault.text}"
  | compilation path fault => s!"compilation error at '{path}': {fault.text label}"
  | overflow => "attempt to add with overflow"
  | unknown target => s!"unknown field or struct '{target.text label}'"
  | mismatch path expected found =>
    s!"type mismatch at '{path}': expected {expected.text}, found {found.text}"
  | index row capacity => s!"index {row.toNat} out of bounds for capacity {capacity.toNat}"
  | noSelection => "no structure selected"
  | absentChild path row => s!"optional child '{path}' is absent at index {row.toNat}"
  | unselectedUnion path row => s!"union '{path}' has no selected member at index {row.toNat}"
  | listNotCreated path row => s!"list '{path}' has not been created at index {row.toNat}"
  | capacityUnset => "storage capacity must be set before build()"
  | headerTooShort size => s!"buffer too small for SnapshotHeader: {size} < 40"
  | headerMagic => "invalid snapshot: magic bytes mismatch"
  | snapshotTooLarge => "snapshot capacity overflows segment size"
  | image fault => fault.text
  | snapshotListRow row capacity =>
    s!"list child at parent index {row.toNat} outside capacity {capacity.toNat}"
  | stated text => text

end Error

end BitRecords
