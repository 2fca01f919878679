import Bytemark.Codec.Basic

/-!
# Registries

A registry is a table of the codecs that own the markers, and the list of the same codecs in the order of their
registration. It answers two questions: which codec owns a marker, and which codec writes a type. The null codec owns
-128 in every registry and is not part of the list.

Registration refuses a codec one of whose markers has an owner, so that a marker has one owner at most. A type may have
several writers; the first one counts. The answer to a look-up by type is kept and given again to every later one, so
registrations must change no answer already given.
-/

set_option autoImplicit false

namespace Bytemark

/-- Codecs by the markers they own and by the types they write. -/
structure Registry where
  /-- The owner of each marker, by the marker's slot. -/
  slots : Vector (Option Codec) 256
  /-- Codecs in the order of their registration. -/
  codecs : List Codec
  /-- Types that were looked up, and the codecs found for them. -/
  resolved : List (ValueType × Codec)

/-- A computation that looks codecs up in a registry, or adds some. -/
abbrev Resolve : Type → Type := EStateM Error Registry

namespace Registry

/-- The table with a codec as the owner of some markers. -/
def claim (slots : Vector (Option Codec) 256) (codec : Codec) (markers : List Marker) : Vector (Option Codec) 256 :=
  markers.foldl (fun slots marker => slots.set marker.slot (some codec) marker.slot_lt) slots

/-- The registry of the null codec alone. -/
def empty : Registry where
  slots := claim (Vector.replicate 256 none) .null [Marker.null]
  codecs := []
  resolved := []

/-- The codec that owns a marker. -/
def owner? (registry : Registry) (marker : Marker) : Option Codec :=
  registry.slots.get ⟨marker.slot, marker.slot_lt⟩

/-- The lowest marker of a codec that has an owner, and the owner. -/
def conflict? (registry : Registry) (codec : Codec) : Option (Marker × Codec) :=
  codec.markers.toList.findSome? fun marker => (registry.owner? marker).map fun owner => (marker, owner)

/-- Makes a codec the owner of its markers and the last in order. -/
def register (codec : Codec) : Resolve Codec := fun registry =>
  match registry.conflict? codec with
  | some (marker, owner) => .error (.markerCollision marker owner.name) registry
  | none =>
    .ok codec { registry with
      slots := claim registry.slots codec codec.markers.toList
      codecs := registry.codecs ++ [codec] }

/-- The lowest marker without an owner. -/
def nextFree (registry : Registry) : Except Error Marker :=
  match Marker.all.find? fun marker => (registry.owner? marker).isNone with
  | some marker => .ok marker
  | none => .error .markersExhausted

/-- The codec that owns a marker, which must have one. -/
def codecForMarker (registry : Registry) (marker : Marker) : Except Error Codec :=
  match registry.owner? marker with
  | some codec => .ok codec
  | none => .error (.unknownMarker marker)

/-- The first codec in order that writes a type. -/
def firstWriter? (registry : Registry) (type : ValueType) : Option Codec :=
  registry.codecs.find? fun codec => codec.writes type

/-- The codec for a type: the one found before, or else the first that writes it. -/
def codecForType (registry : Registry) (type : ValueType) : Except Error Codec :=
  if type = .null then .ok .null
  else
    match (registry.resolved.lookup type).or (registry.firstWriter? type) with
    | some codec => .ok codec
    | none => .error (.missingCodec type none)

/-- The registry that has found a codec for a type. Null has its codec without being looked up. -/
def remember (registry : Registry) (type : ValueType) (codec : Codec) : Registry :=
  if type = .null ∨ (registry.resolved.lookup type).isSome then registry
  else { registry with resolved := (type, codec) :: registry.resolved }

/-- Looks the codec for a type up, and keeps the answer. -/
def lookup (type : ValueType) : Resolve Codec := fun registry =>
  match registry.codecForType type with
  | .ok codec => .ok codec (registry.remember type codec)
  | .error e => .error e registry

/-- Looks the codec for a value's type up. -/
def lookupFor (value : Value) : Resolve Codec := lookup value.type

/-- The owned markers and the names of their owners, in ascending order; neighbours with owners of one name are drawn
together into a run, given by its first and last marker. -/
def runs (registry : Registry) : List (Marker × Marker × String) :=
  let owned := Marker.all.filterMap fun marker =>
    (registry.owner? marker).map fun owner => (marker, owner.name)
  owned.foldr (fun (marker, name) runs =>
    match runs with
    | [] => [(marker, marker, name)]
    | (first, last, name') :: later =>
      if marker.slot + 1 = first.slot ∧ name = name' then (marker, last, name) :: later
      else (marker, marker, name) :: runs) []

/-- The codecs and their markers on one line. -/
def text (registry : Registry) : String :=
  let codecs := registry.codecs.map fun codec => "\"" ++ codec.name ++ " " ++ codec.markers.text ++ "\""
  "Registry \x7b codecs: [" ++ ", ".intercalate codecs ++ "] \x7d"

end Registry

end Bytemark
