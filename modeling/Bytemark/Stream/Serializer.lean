import Bytemark.Registry.Write

/-!
# Serializers

A serializer appends encoded values to the bytes it holds. A value is appended whole or not at all.
-/

set_option autoImplicit false

namespace Bytemark

/-- The bytes of the values appended so far, and the registry that writes them. -/
structure Serializer where
  registry : Registry
  output : Output

namespace Serializer

/-- A serializer that has written nothing. -/
def empty (registry : Registry) : Serializer := ⟨registry, #[]⟩

/-- Appends what `write` writes, if it succeeds. -/
def run (write : Write) : EStateM Error Serializer Unit := fun ⟨registry, output⟩ =>
  match Output.guarded write output with
  | .ok _ output => .ok () ⟨registry, output⟩
  | .error e output => .error e ⟨registry, output⟩

/-- Appends a value with the codec for its type. -/
def append [RecordEquality] (value : Value) : EStateM Error Serializer Unit := do
  run ((← get).registry.write value)

/-- Appends a value coded as `element`; null stands for no value. -/
def appendAs [RecordEquality] (element : Element) (value : Value) : EStateM Error Serializer Unit := do
  run ((← get).registry.writeAs value element)

/-- Bytes written so far. -/
def size (serializer : Serializer) : Nat := serializer.output.size

/-- The bytes written so far. -/
def toList (serializer : Serializer) : List UInt8 := serializer.output.toList

/-- Forgets everything written. -/
def clear (serializer : Serializer) : Serializer := { serializer with output := #[] }

end Serializer

end Bytemark
