import Bytemark.Value.Equality

/-!
# Records that compare slot by slot

The plainest comparison of records: slots of the same names hold equal values, place by place. It asks for the equality
of values, which in turn asks for the comparison of the records inside them, one level further down.
`RecordEquality.nested` compares records of up to so many levels; `RecordEquality.slotwise` takes as many as there are.
-/

set_option autoImplicit false

namespace Bytemark

namespace Value

mutual

/-- How many levels of records there are in a value. -/
def levels : Value → Nat
  | .sequence _ items => levelsOfItems items
  | .map entries => levelsOfEntries entries
  | .array _ items => levelsOfItems items
  | .record _ slots => levelsOfSlots slots + 1
  | _ => 0

/-- The most levels of records there are in one of the values. -/
def levelsOfItems : List Value → Nat
  | [] => 0
  | item :: items => max (levels item) (levelsOfItems items)

/-- The most levels of records there are in a key or value. -/
def levelsOfEntries : List (Value × Value) → Nat
  | [] => 0
  | (key, value) :: entries => max (max (levels key) (levels value)) (levelsOfEntries entries)

/-- The most levels of records there are in a slot. -/
def levelsOfSlots : List (String × Value) → Nat
  | [] => 0
  | (_, value) :: slots => max (levels value) (levelsOfSlots slots)

end

/-- Whether two lists of slots have the same names and equal values, place by place. -/
def equalSlots [RecordEquality] (left right : List (String × Value)) : Bool :=
  left.isEqv right fun slot other => slot.1 == other.1 && slot.2.equal other.2

end Value

namespace RecordEquality

/-- Variants compare by their numbers, and records slot by slot, as long as the records in the slots have fewer levels
than the bound. -/
@[reducible] def nested : (bound : Nat) → RecordEquality
  | 0 => ⟨fun _ index other => index == other, fun _ _ _ => false⟩
  | bound + 1 => ⟨fun _ index other => index == other, fun _ slots others =>
      letI := nested bound
      Value.equalSlots slots others⟩

/-- Variants compare by their numbers, and records slot by slot. -/
@[reducible] def slotwise : RecordEquality where
  variants _ index other := index == other
  slots type slots others := (nested (Value.levelsOfSlots slots + 1)).slots type slots others

end RecordEquality

end Bytemark
