import Bytemark.Registry.Read

/-!
# Deserializers

A deserializer reads one value after the other from the bytes it was given. A read that fails moves nothing; iteration
stops for good after the first failure.
-/

set_option autoImplicit false

namespace Bytemark

/-- The bytes not read yet out of `total`, and the registry that reads them. -/
structure Deserializer where
  registry : Registry
  total : Nat
  input : Input

namespace Deserializer

/-- A deserializer at the start of some bytes. -/
def ofBytes (registry : Registry) (data : List UInt8) : Deserializer := ⟨registry, data.length, data⟩

/-- A deserializer at the start of the `length` bytes of `data` from `offset` on. -/
def ofWindow (registry : Registry) (data : List UInt8) (offset length : Nat) : Except Error Deserializer := do
  return ofBytes registry (← Input.window data offset length)

/-- Bytes left to read. -/
def available (deserializer : Deserializer) : Nat := deserializer.input.length

/-- Whether all bytes have been read. -/
def isEmpty (deserializer : Deserializer) : Bool := deserializer.input.isEmpty

/-- Bytes read so far. -/
def position (deserializer : Deserializer) : Nat := deserializer.total - deserializer.available

/-- Runs `read` on the bytes left; if it fails, they are left as they were. -/
def run {α : Type} (read : Read α) : EStateM Error Deserializer α := fun ⟨registry, total, input⟩ =>
  match Input.guarded read input with
  | .ok a input => .ok a ⟨registry, total, input⟩
  | .error e input => .error e ⟨registry, total, input⟩

/-- Reads the next value. -/
def read [RecordEquality] : EStateM Error Deserializer Value := do
  run (← get).registry.read

/-- Reads the next value, coded as `element`; nothing if none is there. -/
def readAs [RecordEquality] (element : Element) : EStateM Error Deserializer (Option Value) := do
  let value ← run ((← get).registry.readAs element)
  return if value.isNull ∧ ¬ element.admitsNull then none else some value

/-- A deserializer with no bytes left to read. -/
def skipToEnd (deserializer : Deserializer) : Deserializer :=
  match Input.skipToEnd deserializer.input with
  | .ok _ rest | .error _ rest => { deserializer with input := rest }

/-- Skipping leaves no bytes. -/
theorem skipToEnd_eq (deserializer : Deserializer) :
    deserializer.skipToEnd = { deserializer with input := [] } := rfl

/-- The next value or the error that stops the iteration; nothing at the end of the bytes. -/
def next [RecordEquality] (deserializer : Deserializer) : Option (Except Error Value × Deserializer) :=
  if deserializer.isEmpty then none
  else
    match read deserializer with
    | .ok value rest => some (.ok value, rest)
    | .error e rest => some (.error e, rest.skipToEnd)

/-- At most `bound` steps of the iteration. -/
def drainUpTo [RecordEquality] : (bound : Nat) → Deserializer → List (Except Error Value) × Deserializer
  | 0, deserializer => ([], deserializer)
  | bound + 1, deserializer =>
    match deserializer.next with
    | none => ([], deserializer)
    | some (item, rest) =>
      let (items, final) := drainUpTo bound rest
      (item :: items, final)

/-- Everything the iteration yields. Each step takes at least one byte, so there are no more steps than bytes. -/
def drain [RecordEquality] (deserializer : Deserializer) : List (Except Error Value) × Deserializer :=
  drainUpTo deserializer.available deserializer

end Deserializer

end Bytemark
