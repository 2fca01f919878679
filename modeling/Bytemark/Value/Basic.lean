import Bytemark.ValueType

/-!
# Values

A value is null, an atom, a variant of a user enumeration, a container, an array that declares its items' type, or a
record: a bag of named slots. `Value.type` is the type the value is written by.

A value of a user type is no more than this: a variant is its number, and a record is its slots. What user types compare
by is left open, in `Bytemark.Value.Equality`.

Sets and maps are lists in insertion order. That their elements and keys differ is not part of the type; the operations
that build them, in `Bytemark.Value.Equality`, see to it.
-/

set_option autoImplicit false

namespace Bytemark

/-- A value without parts. -/
inductive Atom
  | bool (value : Bool)
  | char (value : Char)
  | word (kind : WordKind) (bits : Word kind)
  | string (text : String)
  | bools (items : List Bool)
  | chars (items : List Char)
  | words (kind : WordKind) (items : List (Word kind))
  deriving DecidableEq, Repr

/-- The type of an atom. -/
def Atom.type : Atom → AtomType
  | bool _ => .bool
  | char _ => .char
  | word kind _ => .word kind
  | string _ => .string
  | bools _ => .bools
  | chars _ => .chars
  | words kind _ => .words kind

/-- A value. -/
inductive Value
  | null
  | atom (atom : Atom)
  /-- A variant of the enumeration named `type`, by its number. -/
  | variant (type : String) (index : UInt16)
  | sequence (kind : SequenceKind) (items : List Value)
  | map (entries : List (Value × Value))
  /-- An array of items of one declared type, null standing for an empty place. -/
  | array (element : ValueType) (items : List Value)
  /-- A record of the type named `type`: its slots by name. -/
  | record (type : String) (slots : List (String × Value))
  deriving Repr, Inhabited

namespace Value

/-- The type of a value. -/
protected def type : Value → ValueType
  | .null => .null
  | .atom a => .atom a.type
  | .variant name _ => .enumeration name
  | .sequence kind _ => .sequence kind
  | .map _ => .map
  | .array element _ => .array element
  | .record name _ => .record name

/-- Whether the value is null. -/
def isNull : Value → Bool
  | .null => true
  | _ => false

/-- The boolean, if the value is one. -/
def bool? : Value → Option Bool
  | .atom (.bool value) => some value
  | _ => none

/-- The signed number, if the value is an integer of any width. -/
def integer? : Value → Option Int
  | .atom (.word .byte bits) => some bits.toInt
  | .atom (.word .short bits) => some bits.toInt
  | .atom (.word .int bits) => some bits.toInt
  | .atom (.word .long bits) => some bits.toInt
  | _ => none

/-- The text, if the value is a string. -/
def string? : Value → Option String
  | .atom (.string text) => some text
  | _ => none

/-- The slots, if the value is a record of the type named `type`. -/
def slots? (type : String) : Value → Option (List (String × Value))
  | .record name slots => if name = type then some slots else none
  | _ => none

/-- Induction on values, where the parts of a value are the members of its list. -/
@[elab_as_elim]
theorem induction {motive : Value → Prop} (null : motive .null) (atom : ∀ atom, motive (.atom atom))
    (variant : ∀ type index, motive (.variant type index))
    (sequence : ∀ kind items, (∀ item ∈ items, motive item) → motive (.sequence kind items))
    (map : ∀ entries, (∀ entry ∈ entries, motive entry.1 ∧ motive entry.2) → motive (.map entries))
    (array : ∀ element items, (∀ item ∈ items, motive item) → motive (.array element items))
    (record : ∀ type slots, (∀ slot ∈ slots, motive slot.2) → motive (.record type slots)) (value : Value) :
    motive value :=
  @Value.rec motive (fun items => ∀ item ∈ items, motive item)
    (fun entries => ∀ entry ∈ entries, motive entry.1 ∧ motive entry.2)
    (fun slots => ∀ slot ∈ slots, motive slot.2) (fun entry => motive entry.1 ∧ motive entry.2)
    (fun slot => motive slot.2)
    null atom variant sequence map array record
    (fun _ h => nomatch h) (fun _ _ head tail => List.forall_mem_cons.2 ⟨head, tail⟩)
    (fun _ h => nomatch h) (fun _ _ head tail => List.forall_mem_cons.2 ⟨head, tail⟩)
    (fun _ h => nomatch h) (fun _ _ head tail => List.forall_mem_cons.2 ⟨head, tail⟩)
    (fun _ _ key value => ⟨key, value⟩) (fun _ _ value => value) value

/-- A slot that is found by its name is one of the slots. -/
theorem mem_of_lookup {slots : List (String × Value)} {name : String} {value : Value}
    (h : slots.lookup name = some value) : (name, value) ∈ slots := by
  obtain ⟨before, after, rfl, -⟩ := List.lookup_eq_some_iff.1 h
  exact List.mem_append_right _ List.mem_cons_self

/-- Null is the only value of its type. -/
theorem type_eq_null_iff {value : Value} : value.type = .null ↔ value = .null := by
  cases value <;> simp [Value.type]

/-- No value has the type that stands for all types. -/
theorem type_ne_any (value : Value) : value.type ≠ .any := by
  cases value <;> simp [Value.type]

end Value

end Bytemark
