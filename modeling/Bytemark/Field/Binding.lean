import Bytemark.Registry.Standard

/-!
# Binding fields

A field is bound to its coding once, when the codec of its record is made. A field of a built-in kind is coded directly
by the registry's codec for its type, provided that is the codec of just this kind. Otherwise a field of the very type
that is being defined is left to the codec being made, a field of any type to the registry, and every other field to the
codec that the registry has for its type.
-/

set_option autoImplicit false

namespace Bytemark.FieldKind

/-- The built-in kind whose codec reads and writes fields of this kind directly. -/
def builtin? : FieldKind → Option Builtin
  | atom type => some (.atom type)
  | sequence kind => some (.sequence kind)
  | map => some .map
  | _ => none

/-- The coding of a field through the codec of its type. -/
def bindBoxed (building : ValueType) (kind : FieldKind) : Resolve Binding :=
  if kind.valueType = building then return .self
  else if kind.valueType = .any then return .through .any
  else return .through (.boxed (← Registry.lookup kind.valueType))

/-- The coding of a field in a codec for values of the type `building`. -/
def bind (building : ValueType) (kind : FieldKind) : Resolve Binding := fun registry =>
  match kind.builtin? with
  | some builtin =>
    match Registry.lookupKind builtin kind.valueType registry with
    | .ok codec registry => .ok (.through (.direct codec)) registry
    | .error _ registry => kind.bindBoxed building registry
  | none => kind.bindBoxed building registry

end Bytemark.FieldKind
