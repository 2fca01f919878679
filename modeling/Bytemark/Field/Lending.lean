import Bytemark.Registry.Write

/-!
# Lending the values of fields

A record's codec need not hand a field's value on as a value of its own. A field that is bound to a codec *lends* its
value to it: a codec of collections takes the elements of a sequence of any kind, the codec of an enumeration takes a
variant, and the codec of a record type takes a record, whose fields lend their values in turn. Other codecs are given
the value as it is. A field that is bound to a built-in codec of just its kind, or to none, has nothing to lend. An
optional field without a value is null, however it is bound.
-/

set_option autoImplicit false

namespace Bytemark

variable [RecordEquality]

/-- Writes a variant by its place in an enumeration. -/
def Codec.writeVariant (markers : MarkerRange) (type : String) (variants : List UInt16) (index : UInt16) : Write :=
  match ordinal? type variants index with
  | some ordinal => Output.markerAnd markers.base (ordinal - 128) 1
  | none => throw (.typeMismatch type (.unlisted type index))

/-- Writes a field's value, which `lend` lends to a codec, in a record whose codec is `self`. -/
def Binding.writeLent (registry : Registry) (value : Value) (lend : FieldKind → Codec → Write) (type : FieldType)
    (self : Codec) (binding : Binding) : Write :=
  if type.optional ∧ value.isNull then
    registry.writeAs .null (binding.resolve self)
  else
    match binding with
    | through (.boxed codec) => lend type.kind codec
    | .self => lend type.kind self
    | through element => registry.writeAs value element

/-- Lends the value of a field of a record whose codec is `self`, where `slots` lend the values of the slots. -/
def Field.lend (slots : List (String × (FieldType → Codec → Binding → Write))) (self : Codec) (field : Field) : Write :=
  match slots.lookup field.info.source with
  | some slot => slot field.info.type self field.binding
  | none => Output.marker Marker.null

namespace Registry

/-- Writes elements between the markers of a codec of collections. -/
def writeCollection (registry : Registry) (markers : MarkerRange) (items : List Value) : Write := do
  Output.marker markers.base
  registry.writeItems items .any
  Output.marker (markers.markerAt 1)

mutual

/-- Lends the value of a field of a kind to a codec. -/
def lend (registry : Registry) : Value → FieldKind → Codec → Write
  | .variant type index, kind, codec =>
    match kind, codec with
    | .enumeration _, .enumeration markers type' variants =>
      if type = type' then Codec.writeVariant markers type variants index
      else registry.writeAs (.variant type index) (.boxed codec)
    | _, codec => registry.writeAs (.variant type index) (.boxed codec)
  | .sequence kind items, fieldKind, codec =>
    match fieldKind, codec with
    | .sequence _, .collection markers .any => registry.writeCollection markers items
    | _, codec => registry.writeAs (.sequence kind items) (.boxed codec)
  | .record type slots, kind, codec =>
    match kind, codec with
    | .record _, .record markers type' fresh fields =>
      if type = type' then do
        Output.marker markers.base
        let lenders := slotLenders registry slots
        fields.forM fun field => field.lend lenders (.record markers type' fresh fields)
      else
        registry.writeAs (.record type slots) (.boxed codec)
    | _, codec => registry.writeAs (.record type slots) (.boxed codec)
  | value, _, codec => registry.writeAs value (.boxed codec)

/-- How the values of slots are lent, by the slots' names. -/
def slotLenders (registry : Registry) : List (String × Value) →
    List (String × (FieldType → Codec → Binding → Write))
  | [] => []
  | (name, value) :: slots =>
    (name, fun type self binding => binding.writeLent registry value (lend registry value) type self) ::
      slotLenders registry slots

end

end Registry

/-- Writes the value of a field in a record whose codec is `self`. -/
def Binding.write (registry : Registry) (self : Codec) (type : FieldType) (value : Value) (binding : Binding) : Write :=
  binding.writeLent registry value (registry.lend value) type self

end Bytemark
