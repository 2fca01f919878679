import Bytemark.Field.Type
import Bytemark.Value.Slotwise

/-!
# Layouts of records

A layout names a record type and its slots. Every slot of a fresh record holds its type's default. Records that have a
layout compare slot by slot.
-/

set_option autoImplicit false

namespace Bytemark

/-- The comparison of records that have a layout. -/
instance : RecordEquality := .slotwise

/-- A record type: its name, and its slots with their types. -/
structure Layout where
  name : String
  slots : List (String × FieldType)

namespace Layout

/-- The slots of a fresh record. -/
def fresh (layout : Layout) : List (String × Value) :=
  layout.slots.map fun (name, type) => (name, type.default)

/-- The slots of a record with the given values in some of them, each fitted to its slot. -/
def fill [RecordEquality] (layout : Layout) (values : List (String × Value)) : Except Error (List (String × Value)) :=
  layout.slots.mapM fun (name, type) =>
    match values.lookup name with
    | some value => return (name, ← type.convert value)
    | none => return (name, type.default)

end Layout

end Bytemark
