import Bytemark.Bytes.BigEndian
import Bytemark.Error

/-!
# Writing bytes

A writer is a function of the bytes written so far. It only ever appends to them, also when it fails.
-/

set_option autoImplicit false

namespace Bytemark

/-- The bytes written so far. -/
abbrev Output : Type := Array UInt8

/-- A computation that writes bytes. -/
abbrev Write : Type := EStateM Error Output Unit

namespace Output

/-- Writes raw bytes. -/
def bytes (data : List UInt8) : Write := fun output => .ok () (output.appendList data)

/-- Writes a marker. -/
def marker (marker : Marker) : Write := fun output => .ok () (output.push marker.toByte)

/-- Writes the low `width` bytes of a number. -/
def signed (value : Int) (width : Nat) : Write := bytes (BigEndian.encode width value)

/-- Writes a marker and the low `width` bytes of a number. -/
def markerAnd (marker : Marker) (value : Int) (width : Nat) : Write := do
  Output.marker marker
  signed value width

/-- Forgets all bytes after the first `length`. -/
def truncate (output : Output) (length : Nat) : Output := output.shrink length

/-- Runs `write`; if it fails, nothing has been written. -/
def guarded (write : Write) : Write := fun output =>
  let start := output.size
  match write output with
  | .ok _ written => .ok () written
  | .error e written => .error e (truncate written start)

/-- Bytes are appended to what has been written. -/
theorem bytes_apply (data : List UInt8) (output : Output) : bytes data output = .ok () (output ++ data) := rfl

/-- A marker is appended as its byte. -/
theorem marker_apply (value : Marker) (output : Output) :
    marker value output = .ok () (output ++ [value.toByte]) := by
  simp [marker]

/-- A marker and a number are written as their bytes, one after the other. -/
theorem markerAnd_apply (value : Marker) (number : Int) (width : Nat) (output : Output) :
    markerAnd value number width output = .ok () (output ++ (value.toByte :: BigEndian.encode width number)) := by
  simp [markerAnd, bind, EStateM.bind, marker, signed, bytes]

/-- What was appended since can be forgotten. -/
theorem truncate_append (output : Output) (data : List UInt8) : truncate (output ++ data) output.size = output := by
  apply Array.toList_inj.1
  simp [truncate]

end Output

end Bytemark
