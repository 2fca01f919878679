import Bytemark.Codec.Atom
import Bytemark.Field.Type

/-!
# Codecs

A codec claims a run of markers and owns everything written after one of them. Codecs of containers, arrays and records
say how their parts are coded:

* `Element.any`: each part by whatever codec a registry has for it;
* `Element.boxed codec`: every part by one codec, where null is a part like any other;
* `Element.direct codec`: every part by one codec, where null is the absence of a part.

A registry holds containers whose parts are coded by `any`; the other forms bind the parts once and for all and skip the
look-up. A field of a record can also be coded by the codec of the very record it belongs to.
-/

set_option autoImplicit false

namespace Bytemark

/-- What a codec of records knows of a field, its coding aside. On writing the field's value is taken from the slot
`source`, on reading it is put into the slot `target`. -/
structure FieldInfo where
  name : String
  source : String
  target : String
  type : FieldType
  deriving DecidableEq, Repr

mutual

/-- A codec. -/
inductive Codec
  /-- The codec of the null marker. -/
  | null
  | atom (codec : AtomCodec)
  /-- An enumeration: a marker, and the variant's place in `variants` in one byte. -/
  | enumeration (markers : MarkerRange) (type : String) (variants : List UInt16)
  /-- A sequence of one kind: its size, and its elements. -/
  | sequence (markers : MarkerRange) (kind : SequenceKind) (element : Element)
  /-- A sequence of any kind: a marker, its elements, and a marker that ends it. It reads back as a list. -/
  | collection (markers : MarkerRange) (element : Element)
  /-- A map: its size, and a key and a value for each entry. -/
  | map (markers : MarkerRange) (key value : Element)
  /-- An array with items of the type `type`: a marker, their number in four bytes, and the items. -/
  | array (markers : MarkerRange) (type : ValueType) (element : Element)
  /-- A record: a marker, and its fields one after the other. Reading starts from the slots `fresh`. -/
  | record (markers : MarkerRange) (type : String) (fresh : List (String × Value)) (fields : List Field)

/-- How the parts of a value are coded. -/
inductive Element
  | any
  | boxed (codec : Codec)
  | direct (codec : Codec)

/-- A field of a record's codec. -/
inductive Field
  | mk (info : FieldInfo) (binding : Binding)

/-- How a field is coded. -/
inductive Binding
  | through (element : Element)
  /-- By the codec of the record it belongs to. -/
  | self

end

instance : Inhabited Codec := ⟨.null⟩

/-- What the codec knows of the field. -/
def Field.info : Field → FieldInfo
  | mk info _ => info

/-- How the field is coded. -/
def Field.binding : Field → Binding
  | mk _ binding => binding

/-- How a field is coded in the codec `self`. -/
def Binding.resolve (self : Codec) : Binding → Element
  | through element => element
  | .self => .boxed self

namespace Codec

/-- The name by which messages know the codec. -/
def name : Codec → String
  | null => "null"
  | atom codec => codec.name
  | enumeration _ type _ => type
  | sequence _ kind _ => kind.name
  | collection _ _ => "collection"
  | map _ _ _ => "map"
  | array _ _ _ => "array"
  | record _ type _ _ => type

/-- The markers that the codec claims. -/
def markers : Codec → MarkerRange
  | null => MarkerRange.null
  | atom codec => codec.markers
  | enumeration markers _ _ => markers
  | sequence markers _ _ => markers
  | collection markers _ => markers
  | map markers _ _ => markers
  | array markers _ _ => markers
  | record markers _ _ _ => markers

/-- Whether the codec writes values of a type. -/
def writes (type : ValueType) : Codec → Bool
  | null => type = .null
  | atom codec => type = .atom codec.form.type
  | enumeration _ name _ => type = .enumeration name
  | sequence _ kind _ => type = .sequence kind
  | collection _ _ => type = .sequence .list ∨ type = .sequence .set ∨ type = .sequence .queue
  | map _ _ _ => type = .map
  | array _ element _ => type = .array element
  | record _ name _ _ => type = .record name

/-- The names of a record codec's fields, in the order they are written. -/
def fieldNames : Codec → List String
  | record _ _ _ fields => fields.map fun field => field.info.name
  | _ => []

end Codec

end Bytemark
