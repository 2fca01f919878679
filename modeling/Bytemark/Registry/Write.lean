import Bytemark.Registry.Basic

/-!
# Writing values

A value is written by the codec its coding names or the registry has for its type; its parts are written one after the
other as that codec says. Null is the null marker, whatever the codec.
-/

set_option autoImplicit false

namespace Bytemark

/-- The codec that writes a part of a type. -/
def Element.writer (registry : Registry) (type : ValueType) : Element → Except Error Codec
  | any => registry.codecForType type
  | boxed codec => .ok codec
  | direct codec => .ok codec

/-- Whether the codec of collections, coded so, writes sequences of a kind. Taken directly it stands for the lists that
it reads; otherwise it writes every kind. -/
def Element.collects (kind : SequenceKind) : Element → Bool
  | direct _ => kind = .list
  | _ => true

/-- The place of a variant among those listed: the first that it equals. -/
def Codec.ordinal? [RecordEquality] (type : String) (variants : List UInt16) (index : UInt16) : Option Nat :=
  variants.findIdx? fun variant => RecordEquality.variants type index variant

/-- The variant that a variant is written as. -/
def Codec.listed? [RecordEquality] (type : String) (variants : List UInt16) (index : UInt16) : Option UInt16 :=
  variants.find? fun variant => RecordEquality.variants type index variant

/-- A value that a codec does not write. -/
def Codec.mismatch (codec : Codec) (type : ValueType) : Write :=
  throw (.typeMismatch codec.name (.foreign type))

/-- Writes a field of a record whose codec is `self`, where `slots` write the values of the slots. -/
def Field.write (slots : List (String × (Element → Write))) (self : Codec) (field : Field) : Write :=
  match slots.lookup field.info.source with
  | some slot => slot (field.binding.resolve self)
  | none => Output.marker Marker.null

namespace Registry

variable [RecordEquality]

mutual

/-- Writes a value coded as an element. -/
def writeAs (registry : Registry) : Value → Element → Write
  | .null, _ => Output.marker Marker.null
  | .atom value, element => do
    match ← ofExcept (element.writer registry (.atom value.type)) with
    | .atom codec => codec.write value
    | codec => codec.mismatch (.atom value.type)
  | .variant type index, element => do
    match ← ofExcept (element.writer registry (.enumeration type)) with
    | .enumeration markers type' variants =>
      if type = type' then
        match Codec.ordinal? type variants index with
        | some ordinal => Output.markerAnd markers.base (ordinal - 128) 1
        | none => throw (.typeMismatch type (.unlisted type index))
      else
        (Codec.enumeration markers type' variants).mismatch (.enumeration type)
    | codec => codec.mismatch (.enumeration type)
  | .sequence kind items, element => do
    match ← ofExcept (element.writer registry (.sequence kind)) with
    | .sequence markers kind' part =>
      if kind = kind' then
        Size.write markers.base items.length
        writeItems registry items part
      else
        (Codec.sequence markers kind' part).mismatch (.sequence kind)
    | .collection markers part =>
      if element.collects kind then
        Output.marker markers.base
        writeItems registry items part
        Output.marker (markers.markerAt 1)
      else
        (Codec.collection markers part).mismatch (.sequence kind)
    | codec => codec.mismatch (.sequence kind)
  | .map entries, element => do
    match ← ofExcept (element.writer registry .map) with
    | .map markers key value =>
      Size.write markers.base entries.length
      writeEntries registry entries key value
    | codec => codec.mismatch .map
  | .array type items, element => do
    match ← ofExcept (element.writer registry (.array type)) with
    | .array markers type' part =>
      if type = type' then
        if items.length ≤ Size.max then
          Output.markerAnd markers.base items.length 4
          writeItems registry items part
        else
          throw (.sizeOverflow items.length)
      else
        (Codec.array markers type' part).mismatch (.array type)
    | codec => codec.mismatch (.array type)
  | .record type slots, element => do
    match ← ofExcept (element.writer registry (.record type)) with
    | .record markers type' fresh fields =>
      let codec := Codec.record markers type' fresh fields
      if type = type' then
        Output.marker markers.base
        let writers := slotWriters registry slots
        fields.forM fun field => field.write writers codec
      else
        codec.mismatch (.record type)
    | codec => codec.mismatch (.record type)

/-- Writes values one after the other, each coded as the element. -/
def writeItems (registry : Registry) : List Value → Element → Write
  | [], _ => return ()
  | item :: items, element => do
    writeAs registry item element
    writeItems registry items element

/-- Writes the key and the value of every entry. -/
def writeEntries (registry : Registry) : List (Value × Value) → Element → Element → Write
  | [], _, _ => return ()
  | (key, value) :: entries, keyElement, valueElement => do
    writeAs registry key keyElement
    writeAs registry value valueElement
    writeEntries registry entries keyElement valueElement

/-- How the values of slots are written, by the slots' names. -/
def slotWriters (registry : Registry) : List (String × Value) → List (String × (Element → Write))
  | [] => []
  | (name, value) :: slots => (name, writeAs registry value) :: slotWriters registry slots

end

/-- Writes a value with the codec for its type. -/
def write (registry : Registry) (value : Value) : Write := registry.writeAs value .any

end Registry

end Bytemark
