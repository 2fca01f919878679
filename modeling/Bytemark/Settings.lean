import Bytemark.Registry.Standard
import Bytemark.Text.Json

/-!
# Settings

How many string lengths the standard registry tells by the marker, and how many bytes a serializer sets aside at first;
the latter is a hint without effect on what is written. Settings are kept as JSON text. Missing settings have their
defaults, unknown ones are skipped, and a setting given twice is an error.
-/

set_option autoImplicit false

-- A power of a number is the core library's, also where monoids have powers of their own.
attribute [local instance (2000)] instPowNat instNatPowNat Int.instNatPow

namespace Bytemark

/-- The settings. -/
structure Settings where
  inlineLengths : UInt8 := 16
  initialCapacity : UInt64 := 1024
  deriving DecidableEq, Repr

namespace Settings

/-- The JSON key of `inlineLengths`. -/
def inlineLengthsKey : String := "optimizedStringMarkers"

/-- The JSON key of `initialCapacity`. -/
def initialCapacityKey : String := "initialBufferCapacity"

/-- The number of some bits that a JSON text starts with. -/
def number? (bits : Nat) (text : List Char) : Option (Nat × List Char) := do
  let (value, rest) ← Json.natural? text
  if value < 2 ^ bits then some (value, rest) else none

/-- What has been read of an object: each setting at most once. -/
structure Found where
  inlineLengths : Option Nat := none
  initialCapacity : Option Nat := none

/-- The settings found, with defaults for the others. -/
def Found.settings (found : Found) : Settings where
  inlineLengths := (found.inlineLengths.map UInt8.ofNat).getD 16
  initialCapacity := (found.initialCapacity.map UInt64.ofNat).getD 1024

/-- Reads a member's value into what has been found. -/
def member? (key : String) (found : Found) (text : List Char) : Option (Found × List Char) :=
  if key = inlineLengthsKey then
    if found.inlineLengths.isSome then none
    else do
      let (value, rest) ← number? 8 text
      some ({ found with inlineLengths := some value }, rest)
  else if key = initialCapacityKey then
    if found.initialCapacity.isSome then none
    else do
      let (value, rest) ← number? 64 text
      some ({ found with initialCapacity := some value }, rest)
  else
    (Json.skipValue? text).map fun rest => (found, rest)

/-- Reads an item at a place into what has been found: the settings in order, and nothing after them. -/
def item? (place : Nat) (found : Found) (text : List Char) : Option (Found × List Char) :=
  match place with
  | 0 => member? inlineLengthsKey found text
  | 1 => member? initialCapacityKey found text
  | _ => none

/-- The settings of a JSON text: an object, or an array that gives them in order. -/
def ofText? (text : String) : Option Settings := do
  let (found, rest) ← match Json.skipBlank text.toList with
    | '{' :: rest => Json.members? member? {} rest
    | '[' :: rest => Json.items? item? {} rest
    | _ => none
  if (Json.skipBlank rest).isEmpty then some found.settings else none

/-- The settings as a JSON object. -/
def text (settings : Settings) : String :=
  "\x7b\"" ++ inlineLengthsKey ++ "\":" ++ toString settings.inlineLengths.toNat ++ ",\"" ++ initialCapacityKey ++
    "\":" ++ toString settings.initialCapacity.toNat ++ "\x7d"

/-- The standard registry under the settings. -/
def registry (settings : Settings) : Except Error Registry := Registry.standard settings.inlineLengths.toNat

end Settings

end Bytemark
