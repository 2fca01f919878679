import Bytemark.Codec.Builtin
import Bytemark.Registry.Basic

/-!
# Registries of built-in codecs

The standard registry holds every built-in codec, each at the lowest free markers.
-/

set_option autoImplicit false

namespace Bytemark.Registry

/-- Registers a built-in codec at the lowest free marker. -/
def registerNext (inline : Nat) (builtin : Builtin) : Resolve Codec := do
  let base ← ofExcept (← get).nextFree
  register (← ofExcept (builtin.codec base inline))

/-- The registry of all built-in codecs, whose strings tell lengths below `inline` by the marker. -/
def standard (inline : Nat) : Except Error Registry :=
  match Builtin.standard.mapM (registerNext inline) empty with
  | .ok _ registry => .ok registry
  | .error e _ => .error e

/-- Looks the codec for a type up, which must be of the given built-in kind. -/
def lookupKind (builtin : Builtin) (type : ValueType) : Resolve Codec := do
  let codec ← lookup type
  if codec.builtin? = some builtin then return codec
  throw (.missingCodec type (some builtin.codecText))

end Bytemark.Registry
