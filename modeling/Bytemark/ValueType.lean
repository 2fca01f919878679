/-!
# Kinds of values

Every value has a *type*, and the type decides which codec writes it. Types without parts are *atoms*: booleans,
characters, machine words, text, and the packed arrays of those. Everything else is a user type known by name, a
container, or an array that declares the type of its items.

A user type is either an *enumeration*, whose values are listed and told by a number, or a *record*, whose values are
made of named slots. It is never both: a codec that lists the values of a type and a codec that names their fields are
codecs of two types, also if the types share a name.

`ValueType.text` is the spelling used in messages. It is for people: packed arrays of words and declared arrays of the
same words share a spelling.
-/

set_option autoImplicit false

namespace Bytemark

/-- The machine words. `float` and `double` are carried as their raw IEEE bits and never interpreted. -/
inductive WordKind
  | byte | short | int | long | float | double
  deriving DecidableEq, Repr

namespace WordKind

/-- Bytes in a word. -/
def width : WordKind → Nat
  | byte => 1
  | short => 2
  | int => 4
  | long => 8
  | float => 4
  | double => 8

/-- The word's spelling in messages. -/
def name : WordKind → String
  | byte => "byte"
  | short => "short"
  | int => "int"
  | long => "long"
  | float => "float"
  | double => "double"

/-- A machine word takes at least one byte. -/
theorem width_pos (k : WordKind) : 0 < k.width := by cases k <;> decide

/-- A machine word takes at most eight bytes. -/
theorem width_le (k : WordKind) : k.width ≤ 8 := by cases k <;> decide

end WordKind

/-- The bits of a machine word. -/
abbrev Word (k : WordKind) : Type := BitVec (8 * k.width)

/-- The three kinds of sequences. A set keeps the order in which its elements were first seen. -/
inductive SequenceKind
  | list | set | queue
  deriving DecidableEq, Repr

/-- The kind's spelling in messages. -/
def SequenceKind.name : SequenceKind → String
  | list => "list"
  | set => "set"
  | queue => "queue"

/-- The types whose values have no parts. -/
inductive AtomType
  | bool
  | char
  | word (kind : WordKind)
  | string
  /-- Arrays of booleans. -/
  | bools
  /-- Arrays of characters. -/
  | chars
  /-- Arrays of machine words. -/
  | words (kind : WordKind)
  deriving DecidableEq, Repr

/-- The type's spelling in messages; an array is spelt as its element followed by brackets. -/
def AtomType.name : AtomType → String
  | bool => "bool"
  | char => "char"
  | word kind => kind.name
  | string => "string"
  | bools => "bool[]"
  | chars => "char[]"
  | words kind => kind.name ++ "[]"

/-- The type of a value. -/
inductive ValueType
  | null
  | atom (type : AtomType)
  /-- A user type with numbered variants and no fields. -/
  | enumeration (name : String)
  | sequence (kind : SequenceKind)
  | map
  /-- Arrays whose items all have the declared type, or are null. -/
  | array (element : ValueType)
  /-- A user type with named slots. -/
  | record (name : String)
  /-- Stands for every type; no value has it. -/
  | any
  deriving DecidableEq, Repr

/-- The type's spelling in messages. -/
def ValueType.text : ValueType → String
  | null => "null"
  | atom type => type.name
  | enumeration name => name
  | sequence kind => kind.name
  | map => "map"
  | array element => element.text ++ "[]"
  | record name => name
  | any => "any"

end Bytemark
