import Bytemark.Bytes.Input
import Bytemark.Bytes.Output

/-!
# Sizes

A size is written after one of four consecutive markers, one per *tier*. Tier `t` spends `t + 1` bytes on the distance
of the size from the tier's `offset`. The first three tiers use the full signed range of their bytes, so each starts
where the one before ends; the last holds the size itself.

| tier | sizes                  | bytes | offset  |
|------|------------------------|-------|---------|
| 0    | 0 to 255               | 1     | 128     |
| 1    | 256 to 65791           | 2     | 33024   |
| 2    | 65792 to 16843007      | 3     | 8454400 |
| 3    | 16843008 to 2147483647 | 4     | 0       |
-/

set_option autoImplicit false

namespace Bytemark.Size

/-- The greatest size that can be written. -/
def max : Nat := 2147483647

/-- Markers that a size needs. -/
def markers : Nat := 4

/-- The least tier that holds a size. -/
def tier (size : Nat) : Nat :=
  if size < 256 then 0 else if size < 65792 then 1 else if size < 16843008 then 2 else 3

/-- What a tier's bytes are counted from. -/
def offset : (tier : Nat) → Int
  | 0 => 128
  | 1 => 33024
  | 2 => 8454400
  | _ => 0

/-- Bytes that a size takes, its marker included. -/
def encodedLength (size : Nat) : Nat := tier size + 2

/-- Writes a size after the tier markers that start at `base`. -/
def write (base : Marker) (size : Nat) : Write :=
  if size ≤ max then
    Output.markerAnd (base + Int8.ofNat (tier size)) (size - offset (tier size)) (tier size + 1)
  else
    throw (.sizeOverflow size)

/-- Reads the rest of a size whose marker has been consumed. -/
def readPayload (marker base : Marker) (target : String) : Read Nat := do
  let tier := marker.toInt - base.toInt
  if 0 ≤ tier ∧ tier < markers then
    let size := (← Input.signed (tier.toNat + 1)) + offset tier.toNat
    if size < 0 then throw (.decode target marker)
    return size.toNat
  else
    throw (.decode target marker)

/-- Reads a size whose tier markers start at `base`; the null marker is no size. -/
def read (base : Marker) (target : String) : Read (Option Nat) := do
  let marker ← Input.marker
  if marker = Marker.null then return none
  return some (← readPayload marker base target)

/-- Reads a size and the payload it announces; without a size there is no payload. -/
def counted {α : Type} (base : Marker) (target : String) (payload : Nat → Read α) : Read (Option α) := do
  match ← read base target with
  | some size => return some (← payload size)
  | none => return none

end Bytemark.Size
