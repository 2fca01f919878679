import Bytemark.Error
import Bytemark.Value.Equality

/-!
# Types of record fields

A field holds values of one type; an optional field also holds null. `FieldType.convert` fits a value that was read to
the field: sequences become the field's kind of sequence, and everything else must have the field's type already.
-/

set_option autoImplicit false

namespace Bytemark

/-- What a field holds, null aside. -/
inductive FieldKind
  | atom (type : AtomType)
  | enumeration (name : String)
  | sequence (kind : SequenceKind)
  | map
  | record (name : String)
  | any
  deriving DecidableEq, Repr

/-- The type of a field. -/
structure FieldType where
  kind : FieldKind
  optional : Bool
  deriving DecidableEq, Repr

namespace FieldKind

/-- The type of the values that the field holds. -/
def valueType : FieldKind → ValueType
  | atom type => .atom type
  | enumeration name => .enumeration name
  | sequence kind => .sequence kind
  | map => .map
  | record name => .record name
  | any => .any

/-- The spelling of a word type in messages about fields. -/
def wordText : WordKind → String
  | .byte => "i8"
  | .short => "i16"
  | .int => "i32"
  | .long => "i64"
  | .float => "f32"
  | .double => "f64"

/-- The spelling of the kind in messages about fields. -/
def text : FieldKind → String
  | atom .bool => "bool"
  | atom .char => "char"
  | atom (.word kind) => wordText kind
  | atom .string => "String"
  | atom .bools => "Vec<bool>"
  | atom .chars => "Vec<char>"
  | atom (.words .byte) => "Vec<u8>"
  | atom (.words kind) => "Vec<" ++ wordText kind ++ ">"
  | enumeration name => name
  | sequence .list => "Vec<Value>"
  | sequence .set => "IndexSet<Value>"
  | sequence .queue => "VecDeque<Value>"
  | map => "IndexMap<Value, Value>"
  | record name => name
  | any => "Value"

/-- The value that a fresh field of the kind holds. -/
def default : FieldKind → Value
  | atom .bool => .atom (.bool false)
  | atom .char => .atom (.char (Char.ofNat 0))
  | atom (.word kind) => .atom (.word kind 0)
  | atom .string => .atom (.string "")
  | atom .bools => .atom (.bools [])
  | atom .chars => .atom (.chars [])
  | atom (.words kind) => .atom (.words kind [])
  | enumeration name => .variant name 0
  | sequence kind => .sequence kind []
  | map => .map []
  | record name => .record name []
  | any => .null

end FieldKind

namespace FieldType

/-- The value that a fresh field holds; an optional field starts as null. -/
def default (type : FieldType) : Value := if type.optional then .null else type.kind.default

/-- Fits a value to a field. A set made from another sequence keeps the first of equal elements. -/
def convert [RecordEquality] (type : FieldType) (value : Value) : Except Error Value :=
  if type.optional ∧ value.isNull then
    .ok .null
  else
    match type.kind, value with
    | .any, value => .ok value
    | .sequence .set, .sequence .set items => .ok (.sequence .set items)
    | .sequence .set, .sequence _ items => .ok (.sequence .set (Value.distinct items))
    | .sequence kind, .sequence _ items => .ok (.sequence kind items)
    | kind, value =>
      if value.type = kind.valueType then .ok value
      else .error (.typeMismatch kind.text (.foreign value.type))

end FieldType

end Bytemark
