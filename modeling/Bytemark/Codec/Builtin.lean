import Bytemark.Codec.Basic

/-!
# Built-in codecs

The codecs of types that are not the user's: atoms, sequences, maps, and the collections that take any sequence. They
need nothing but markers.
-/

set_option autoImplicit false

namespace Bytemark

/-- What a built-in codec codes. -/
inductive Builtin
  | atom (type : AtomType)
  | sequence (kind : SequenceKind)
  | map
  | collection
  deriving DecidableEq, Repr

namespace Builtin

/-- The name of its codecs. -/
def name : Builtin → String
  | atom type => type.name
  | sequence kind => kind.name
  | map => "map"
  | collection => "collection"

/-- The word type's part in the spelling of its codecs. -/
def wordText : WordKind → String
  | .byte => "Byte"
  | .short => "Short"
  | .int => "Int"
  | .long => "Long"
  | .float => "Float"
  | .double => "Double"

/-- The spelling of its codecs in messages. -/
def codecText : Builtin → String
  | atom .bool => "BoolCodec"
  | atom .char => "CharCodec"
  | atom (.word kind) => wordText kind ++ "Codec"
  | atom .string => "StringCodec"
  | atom .bools => "BoolArrayCodec"
  | atom .chars => "CharArrayCodec"
  | atom (.words kind) => wordText kind ++ "ArrayCodec"
  | sequence .list => "ListCodec"
  | sequence .set => "SetCodec"
  | sequence .queue => "QueueCodec"
  | map => "MapCodec"
  | collection => "CollectionCodec"

/-- The form of an atom's codec, with a number of inline lengths that matters to strings alone. -/
def form (inline : Nat) : AtomType → AtomForm
  | .bool => .bool
  | .char => .char
  | .word kind => .word kind
  | .string => .string inline
  | .bools => .bools
  | .chars => .chars
  | .words kind => .words kind

/-- A codec whose markers start at `base` and whose parts, if it has any, are coded as the given elements. Keys of maps
take the first element, values and all other parts the second. -/
def codecOf (builtin : Builtin) (base : Marker) (inline : Nat) (key part : Element) : Except Error Codec :=
  match builtin with
  | atom type => return .atom (← AtomCodec.of (form inline type) base)
  | sequence kind => return .sequence (← MarkerRange.of base Size.markers) kind part
  | map => return .map (← MarkerRange.of base Size.markers) key part
  | collection => return .collection (← MarkerRange.of base 2) part

/-- A codec whose markers start at `base` and whose parts are of any type. -/
def codec (builtin : Builtin) (base : Marker) (inline : Nat) : Except Error Codec :=
  builtin.codecOf base inline .any .any

/-- The built-in codecs in the order of a standard registry. Collections come last, so that sequences keep the codecs
that write their size. -/
def standard : List Builtin :=
  [.atom .bool, .atom (.word .byte), .atom .char, .atom (.word .double), .atom (.word .float),
    .atom (.word .int), .atom (.word .long), .atom (.word .short), .atom .string,
    .atom .bools, .atom (.words .byte), .atom .chars, .atom (.words .double), .atom (.words .float),
    .atom (.words .int), .atom (.words .long), .atom (.words .short),
    .map, .sequence .queue, .sequence .set, .sequence .list, .collection]

/-- The built-in kind of a name. -/
def ofName? (name : String) : Option Builtin := standard.find? fun builtin => builtin.name = name

end Builtin

/-- What the codec codes, if it is built in. -/
def Codec.builtin? : Codec → Option Builtin
  | atom codec => some (.atom codec.form.type)
  | sequence _ kind _ => some (.sequence kind)
  | map _ _ _ => some .map
  | collection _ _ => some .collection
  | _ => none

end Bytemark
