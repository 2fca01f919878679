import Bytemark.Registry.Basic

/-!
# Reading values

A codec reads its marker first, and then its parts. So each part starts at least one byte after the value it belongs to,
and the depth of a value is bounded by the bytes there are: `Registry.readPart` counts the depth down, and finds no byte
to read when the count is used up.
-/

set_option autoImplicit false

namespace Bytemark

/-- Whether null is a part like any other. -/
def Element.admitsNull : Element → Bool
  | any => true
  | boxed _ => true
  | direct _ => false

/-- Reads a part of `target` with `nested`; a part that is absent does not belong there. -/
def Element.readIn (nested : Element → Read Value) (element : Element) (target : String) : Read Value := do
  let value ← nested element
  if value.isNull ∧ ¬ element.admitsNull then throw (.unexpectedNull target)
  return value

/-- A sequence of one kind from the elements that were read. -/
def SequenceKind.collect [RecordEquality] (kind : SequenceKind) (items : List Value) : Value :=
  match kind with
  | .set => .sequence .set (Value.distinct items)
  | kind => .sequence kind items

/-- Reads at most `bound` elements up to the marker `last`, with the elements of `done`, last first, behind. -/
def readUntil {α : Type} (last : Marker) (item : Read α) : (bound : Nat) → (done : List α) → Read (List α)
  | 0, _ => Input.underflow 1
  | bound + 1, done => do
    if (← Input.peek) = last then
      let _ ← Input.marker
      return done.reverse
    else
      let value ← item
      readUntil last item bound (value :: done)

/-- Reads elements up to the marker `last`. Every element takes at least one byte, so there are no more of them than
bytes left. -/
def readDelimited {α : Type} (last : Marker) (item : Read α) : Read (List α) := fun input =>
  readUntil last item input.length [] input

/-- The slots with a new value for one of them. -/
def setSlot (slots : List (String × Value)) (name : String) (value : Value) : List (String × Value) :=
  slots.map fun slot => if slot.1 = name then (name, value) else slot

/-- Reads the value of a field of a record whose codec is `self`. -/
def Field.read [RecordEquality] (nested : Element → Read Value) (self : Codec) (field : Field) : Read Value := do
  let type := field.info.type
  match field.binding.resolve self with
  | .direct codec =>
    let value ← nested (.direct codec)
    if value.isNull ∧ ¬ type.optional then throw (.unexpectedNull field.info.name)
    return value
  | element => ofExcept (type.convert (← nested element))

/-- Reads a value that starts with the first marker of a run; the null marker is null instead. -/
def MarkerRange.opening (markers : MarkerRange) (target : String) (content : Read Value) : Read Value := do
  let marker ← Input.marker
  if marker = Marker.null then return .null
  if marker ≠ markers.base then throw (.decode target marker)
  content

/-- Reads a value with a codec, and its parts with `nested`. -/
def Codec.read [RecordEquality] (nested : Element → Read Value) (codec : Codec) : Read Value :=
  match codec with
  | .null => MarkerRange.null.opening codec.name (return .null)
  | .atom codec => do
    return (← codec.read).elim .null .atom
  | .enumeration markers type variants => markers.opening type do
    match variants[((← Input.signed 1) + 128).toNat]? with
    | some index => return .variant type index
    | none => throw (.decode type markers.base)
  | .sequence markers kind element => do
    let items ← Size.counted markers.base kind.name fun count =>
      Input.repeated count (element.readIn nested kind.name)
    return items.elim .null kind.collect
  | .collection markers element => markers.opening codec.name do
    return .sequence .list (← readDelimited (markers.markerAt 1) (element.readIn nested codec.name))
  | .map markers key value => do
    let entries ← Size.counted markers.base codec.name fun count => Input.repeated count do
      let key ← key.readIn nested "map key"
      let value ← value.readIn nested "map value"
      return (key, value)
    return entries.elim .null fun entries => .map (Value.distinctEntries entries)
  | .array markers type element => markers.opening codec.name do
    let count ← Input.signed 4
    if count < 0 then throw (.decode codec.name markers.base)
    return .array type (← Input.repeated count.toNat (nested element))
  | .record markers type fresh fields => markers.opening type do
    return .record type (← fields.foldlM (fun slots field => do
      return setSlot slots field.info.target (← field.read nested codec)) fresh)

namespace Registry

/-- The codec that reads a part which starts with the next byte. -/
def select (registry : Registry) : Element → Read Codec
  | .any => do ofExcept (registry.codecForMarker (← Input.peek))
  | .boxed codec => return codec
  | .direct codec => return codec

/-- Reads a part that is at most `depth` deep. -/
def readPart [RecordEquality] (registry : Registry) : (depth : Nat) → Element → Read Value
  | 0, _ => Input.underflow 1
  | depth + 1, element => do
    let codec ← registry.select element
    codec.read (registry.readPart depth)

/-- Reads a value coded as `element`; null if there is none. -/
def readAs [RecordEquality] (registry : Registry) (element : Element) : Read Value := do
  registry.readPart (← get).length element

/-- Reads a value of any type. -/
def read [RecordEquality] (registry : Registry) : Read Value := registry.readAs .any

end Registry

end Bytemark
