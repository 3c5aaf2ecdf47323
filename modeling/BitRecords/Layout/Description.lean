import BitRecords.Layout

/-!
# Layouts as text

A layout is described in one line per struct and field, indented by depth. Since
structs are stored depth first, they are described in the order of their ids. A
list struct is a line that names its element layout, and the elements follow two
steps deeper than the list's parent.
-/

namespace BitRecords.Layout

/-- The number of structs around a struct. -/
def depth (l : Layout) (id : StructId) : Nat := (l.ancestors id).length - 1

def indent (depth : Nat) : String := String.ofList (List.replicate (2 * depth) ' ')

def flagText (flags : Flags) : String :=
  ",".intercalate
    ((if flags.list then ["list"] else []) ++ (if flags.optional then ["optional"] else []) ++
      (if flags.union then ["union"] else []))

def structLine (depth : Nat) (s : StructLayout) : String :=
  indent depth ++
    s!"{s.name} [{flagText s.flags}] seg={s.segment} off={s.offset.toNat} stride={s.stride.toNat}\n"

def fieldLine (depth : Nat) (f : FieldLayout) : String :=
  let place := s!"seg={f.segment} off={f.offset.toNat} width={f.width}"
  let tag := match f.tag with
    | some tag => s!" tag={tag}"
    | none => ""
  indent depth ++ s!"  .{f.name}: {f.type.name} {place}{tag}\n"

/-- Describes structs of the layout, of which the root has the depth `base`. -/
def describeStructs (label : Fingerprint → String) (l : Layout) (base : Nat) :
    List StructLayout → String
  | [] => ""
  | s :: rest =>
    let depth := base + l.depth s.id
    let lines := match s with
      | { name, element := some element, .. } =>
        indent depth ++ s!"{name} [list] -> schema {label element.fingerprint}\n" ++
          match element with
          | { structs, .. } => describeStructs label element (depth + 1) structs
      | { fields, element := none, .. } =>
        structLine depth s ++ String.join ((fields.filterMap l.field?).map (fieldLine depth))
    lines ++ describeStructs label l base rest

/-- One line about the layout, and one about each of its structs and fields. -/
def describe (label : Fingerprint → String) (l : Layout) : String :=
  s!"schema {label l.fingerprint} strategy={l.strategy} row_stride={l.rowStride.toNat}b " ++
    s!"segments={l.segments.length}\n" ++ describeStructs label l 0 l.structs

end BitRecords.Layout
