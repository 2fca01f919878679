import Bytemark.Value.Basic

/-!
# Equality of values

Two values are equal when they have the same type and equal content. Words compare by their bits, so every NaN equals
itself and the two zeros differ. The order of a set's elements and of a map's entries does not count; the order of
everything else does.

What a user type compares by is its own affair. `RecordEquality` stands for it, as an instance that whatever depends on
equality takes along. It need not be lawful: a record of numbers may well differ from itself.

Sets and maps are kept free of repetitions by `insertElement` and `insertEntry`: the first element or key of its like
stays where it is, and a repeated key takes the later value.
-/

set_option autoImplicit false

namespace Bytemark

/-- What the values of user types compare by: the variants of an enumeration, which are given by their numbers, and the
records of a type, which are given by their slots. -/
class RecordEquality where
  variants : (type : String) → (index other : UInt16) → Bool
  slots : (type : String) → (slots others : List (String × Value)) → Bool

namespace Value

variable [RecordEquality]

mutual

/-- Whether two values are equal. -/
protected def equal : Value → Value → Bool
  | .null, .null => true
  | .atom left, .atom right => left == right
  | .variant name left, .variant name' right => name == name' && RecordEquality.variants name left right
  | .sequence .set left, .sequence .set right => left.length == right.length && allFound left right
  | .sequence kind left, .sequence kind' right => kind == kind' && equalItems left right
  | .map left, .map right => left.length == right.length && allAssigned left right
  | .array element left, .array element' right => element == element' && equalItems left right
  | .record name left, .record name' right => name == name' && RecordEquality.slots name left right
  | _, _ => false

/-- Whether two lists are equal, place by place. -/
def equalItems : List Value → List Value → Bool
  | [], [] => true
  | left :: lefts, right :: rights => Value.equal left right && equalItems lefts rights
  | _, _ => false

/-- Whether every value of the first list is in the second. -/
def allFound : List Value → List Value → Bool
  | [], _ => true
  | left :: lefts, rights => rights.any (fun right => Value.equal left right) && allFound lefts rights

/-- Whether the second list of entries assigns every key of the first an equal value. -/
def allAssigned : List (Value × Value) → List (Value × Value) → Bool
  | [], _ => true
  | (key, value) :: lefts, rights =>
    (match rights.find? (fun entry => Value.equal key entry.1) with
      | some entry => Value.equal value entry.2
      | none => false) && allAssigned lefts rights

end

instance : BEq Value := ⟨Value.equal⟩

/-- Lists of values compare place by place. -/
theorem equalItems_eq (left right : List Value) : equalItems left right = left.isEqv right Value.equal := by
  induction left generalizing right with
  | nil => cases right <;> simp [equalItems, List.isEqv]
  | cons item left ih => cases right <;> simp [equalItems, List.isEqv, ih]

/-- Every value of the one list is looked for in the other. -/
theorem allFound_eq (left right : List Value) :
    allFound left right = left.all fun item => right.any fun other => item.equal other := by
  induction left with
  | nil => simp [allFound]
  | cons item left ih => rw [allFound, List.all_cons, ih]

/-- Every key of the one list of entries is looked up in the other. -/
theorem allAssigned_eq (left right : List (Value × Value)) :
    allAssigned left right = left.all fun entry =>
      (right.find? fun other => entry.1.equal other.1).any fun other => entry.2.equal other.2 := by
  induction left with
  | nil => simp [allAssigned]
  | cons entry left ih =>
    rw [allAssigned, List.all_cons, ih]
    cases right.find? (fun other => entry.1.equal other.1) <;> rfl

/-- The elements of a set with one more; an element it already has changes nothing. -/
def insertElement (elements : List Value) (value : Value) : List Value :=
  if elements.any (fun element => value.equal element) then elements else elements ++ [value]

/-- The set of some values, in the order of their first occurrence. -/
def distinct (values : List Value) : List Value := values.foldl insertElement []

/-- The entries of a map with one more; a key it already has stays where it is and takes the new value. -/
def insertEntry : List (Value × Value) → Value × Value → List (Value × Value)
  | [], entry => [entry]
  | (key, value) :: entries, entry =>
    if entry.1.equal key then (key, entry.2) :: entries else (key, value) :: insertEntry entries entry

/-- The map of some entries, in the order of their keys' first occurrence. -/
def distinctEntries (entries : List (Value × Value)) : List (Value × Value) := entries.foldl insertEntry []

end Value

end Bytemark
