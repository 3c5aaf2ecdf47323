import BitRecords.Layout.Path
import BitRecords.Proofs.Result

/-!
# Renaming layouts

Handles name their layout by its fingerprint, and so do the errors about handles
of other layouts. A renaming `ρ` puts other fingerprints in their place and leaves
everything else. Results match when both are errors, the second one the renamed
first one, or both are no errors and related.
-/

namespace BitRecords

section Rename

variable (ρ : Fingerprint → Fingerprint)

def FieldHandle.rename (handle : FieldHandle) : FieldHandle :=
  { handle with layout := ρ handle.layout }

def StructHandle.rename (handle : StructHandle) : StructHandle :=
  { handle with layout := ρ handle.layout }

def Unknown.rename : Unknown → Unknown
  | .foreignField id layout => .foreignField id (ρ layout)
  | .foreignStruct id layout => .foreignStruct id (ρ layout)
  | other => other

def LayoutFault.rename : LayoutFault → LayoutFault
  | .snapshotMismatch snapshot layout => .snapshotMismatch (ρ snapshot) (ρ layout)
  | other => other

def Error.rename : Error → Error
  | .unknown target => .unknown (target.rename ρ)
  | .compilation path fault => .compilation path (fault.rename ρ)
  | other => other

end Rename

@[simp] theorem rename_id_fieldHandle (handle : FieldHandle) : handle.rename id = handle := rfl

@[simp] theorem rename_id_structHandle (handle : StructHandle) : handle.rename id = handle := rfl

@[simp] theorem rename_id_error (e : Error) : e.rename id = e := by
  cases e with
  | unknown target => cases target <;> rfl
  | compilation path fault => cases fault <;> rfl
  | schema | mismatch | index | noSelection | absentChild | unselectedUnion | listNotCreated
  | capacityUnset | headerTooShort | headerMagic | snapshotTooLarge | image | snapshotListRow
  | overflow | stated => rfl

/-- The first result renamed is the second one, where `R` relates what is given
without an error. -/
inductive Matches (ρ : Fingerprint → Fingerprint) {α β : Type} (R : α → β → Prop) :
    Except Error α → Except Error β → Prop where
  | ok {a : α} {b : β} : R a b → Matches ρ R (.ok a) (.ok b)
  | error (e : Error) : Matches ρ R (.error e) (.error (e.rename ρ))

namespace Matches

variable {ρ : Fingerprint → Fingerprint} {α β γ δ : Type}
variable {R : α → β → Prop} {Q : γ → δ → Prop} {x : Except Error α} {y : Except Error β}

theorem bind {f : α → Except Error γ} {g : β → Except Error δ} (first : Matches ρ R x y)
    (rest : ∀ a b, R a b → Matches ρ Q (f a) (g b)) : Matches ρ Q (x >>= f) (y >>= g) := by
  cases first with
  | ok related => exact rest _ _ related
  | error e => exact .error e

theorem map {f : α → γ} {g : β → δ} (first : Matches ρ R x y)
    (rest : ∀ a b, R a b → Q (f a) (g b)) : Matches ρ Q (x.map f) (y.map g) := by
  cases first with
  | ok related => exact .ok (rest _ _ related)
  | error e => exact .error e

end Matches

end BitRecords
