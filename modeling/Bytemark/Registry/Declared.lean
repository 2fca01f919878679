import Bytemark.Registry.Basic

/-!
# Declared codecs

Codecs of enumerations, which list their variants, and of arrays, which declare the type of their items.
-/

set_option autoImplicit false

namespace Bytemark.Codec

/-- A codec at `marker` for the variants of the enumeration named `type`, numbered as listed. -/
def ofVariants (marker : Marker) (type : String) (variants : List UInt16) : Except Error Codec :=
  if variants.length ≤ 256 then
    return .enumeration (← MarkerRange.single marker) type variants
  else
    throw (.generation type (.tooManyVariants variants.length))

/-- The coding of an array's items: by the codec that the registry has for their type now. -/
def itemElement (type : ValueType) : Resolve Element :=
  if type = .any then return .any else return .boxed (← Registry.lookup type)

/-- A codec at `marker` for arrays with items of a type. -/
def ofItems (marker : Marker) (type : ValueType) : Resolve Codec := do
  let element ← itemElement type
  return .array (← ofExcept (MarkerRange.single marker)) type element

end Bytemark.Codec
