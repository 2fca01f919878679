import Bytemark.Registry.Write

/-!
# Writing values and keeping answers

Values are written with a registry that keeps the answers it gives: every look-up that a part of a value needs is one
more answer kept. `Registry.encodeAs` writes what `Registry.writeAs` writes, and has the registry at hand all the while;
a write that fails half-way keeps what was found until then.
-/

set_option autoImplicit false

namespace Bytemark

/-- A computation that writes bytes and looks codecs up, in a registry that keeps the answers. -/
abbrev Encode (α : Type) : Type := EStateM Error (Registry × Output) α

namespace Encode

/-- Writes bytes and leaves the registry alone. -/
def ofWrite (write : Write) : Encode Unit := fun (registry, output) =>
  match write output with
  | .ok _ written => .ok () (registry, written)
  | .error e written => .error e (registry, written)

/-- Asks the registry and writes nothing. -/
def ofResolve {α : Type} (resolve : Resolve α) : Encode α := fun (registry, output) =>
  match resolve registry with
  | .ok a next => .ok a (next, output)
  | .error e next => .error e (next, output)

end Encode

/-- The codec that writes a part of a type, which is looked up if the coding does not name it. -/
def Element.find (type : ValueType) : Element → Encode Codec
  | any => .ofResolve (Registry.lookup type)
  | boxed codec => return codec
  | direct codec => return codec

/-- Writes a field of a record whose codec is `self`, where `slots` write the values of the slots. -/
def Field.encode (slots : List (String × (Element → Encode Unit))) (self : Codec) (field : Field) : Encode Unit :=
  match slots.lookup field.info.source with
  | some slot => slot (field.binding.resolve self)
  | none => .ofWrite (Output.marker Marker.null)

namespace Registry

variable [RecordEquality]

mutual

/-- Writes a value coded as an element. -/
def encodeAs : Value → Element → Encode Unit
  | .null, _ => .ofWrite (Output.marker Marker.null)
  | .atom value, element => do
    match ← element.find (.atom value.type) with
    | .atom codec => .ofWrite (codec.write value)
    | codec => .ofWrite (codec.mismatch (.atom value.type))
  | .variant type index, element => do
    match ← element.find (.enumeration type) with
    | .enumeration markers type' variants =>
      if type = type' then
        match Codec.ordinal? type variants index with
        | some ordinal => .ofWrite (Output.markerAnd markers.base (ordinal - 128) 1)
        | none => .ofWrite (throw (.typeMismatch type (.unlisted type index)))
      else
        .ofWrite ((Codec.enumeration markers type' variants).mismatch (.enumeration type))
    | codec => .ofWrite (codec.mismatch (.enumeration type))
  | .sequence kind items, element => do
    match ← element.find (.sequence kind) with
    | .sequence markers kind' part =>
      if kind = kind' then
        .ofWrite (Size.write markers.base items.length)
        encodeItems items part
      else
        .ofWrite ((Codec.sequence markers kind' part).mismatch (.sequence kind))
    | .collection markers part =>
      if element.collects kind then
        .ofWrite (Output.marker markers.base)
        encodeItems items part
        .ofWrite (Output.marker (markers.markerAt 1))
      else
        .ofWrite ((Codec.collection markers part).mismatch (.sequence kind))
    | codec => .ofWrite (codec.mismatch (.sequence kind))
  | .map entries, element => do
    match ← element.find .map with
    | .map markers key value =>
      .ofWrite (Size.write markers.base entries.length)
      encodeEntries entries key value
    | codec => .ofWrite (codec.mismatch .map)
  | .array type items, element => do
    match ← element.find (.array type) with
    | .array markers type' part =>
      if type = type' then
        if items.length ≤ Size.max then
          .ofWrite (Output.markerAnd markers.base items.length 4)
          encodeItems items part
        else
          .ofWrite (throw (.sizeOverflow items.length))
      else
        .ofWrite ((Codec.array markers type' part).mismatch (.array type))
    | codec => .ofWrite (codec.mismatch (.array type))
  | .record type slots, element => do
    match ← element.find (.record type) with
    | .record markers type' fresh fields =>
      let codec := Codec.record markers type' fresh fields
      if type = type' then
        .ofWrite (Output.marker markers.base)
        let encoders := slotEncoders slots
        fields.forM fun field => field.encode encoders codec
      else
        .ofWrite (codec.mismatch (.record type))
    | codec => .ofWrite (codec.mismatch (.record type))

/-- Writes values one after the other, each coded as the element. -/
def encodeItems : List Value → Element → Encode Unit
  | [], _ => return ()
  | item :: items, element => do
    encodeAs item element
    encodeItems items element

/-- Writes the key and the value of every entry. -/
def encodeEntries : List (Value × Value) → Element → Element → Encode Unit
  | [], _, _ => return ()
  | (key, value) :: entries, keyElement, valueElement => do
    encodeAs key keyElement
    encodeAs value valueElement
    encodeEntries entries keyElement valueElement

/-- How the values of slots are written, by the slots' names. -/
def slotEncoders : List (String × Value) → List (String × (Element → Encode Unit))
  | [] => []
  | (name, value) :: slots => (name, encodeAs value) :: slotEncoders slots

end

end Registry

end Bytemark
