import Bytemark.Marker
import Bytemark.ValueType

/-!
# What can go wrong

Errors are causes; `Error.message` puts them into words. Reading fails because bytes are missing or do not fit the
codec at hand, writing fails because a value has no codec or does not fit the one it got, and building a registry fails
because markers or plans clash.
-/

set_option autoImplicit false

namespace Bytemark

/-- Why bytes are not UTF-8. `index` counts the bytes before the first one that cannot be part of a character. -/
inductive Utf8Fault
  /-- A sequence of `length` bytes at `index` starts no character. -/
  | malformed (length index : Nat)
  /-- The bytes end inside a character that starts at `index`. -/
  | incomplete (index : Nat)
  deriving DecidableEq, Repr

/-- The fault in words. -/
def Utf8Fault.message : Utf8Fault → String
  | malformed length index => s!"invalid utf-8 sequence of {length} bytes from index {index}"
  | incomplete index => s!"incomplete utf-8 byte sequence from index {index}"

/-- Why no codec can be made for a user type. -/
inductive PlanFault
  | noConstructor
  /-- Two setters have the same canonical name; `name` is the earlier one's. -/
  | duplicateSetter (name : String)
  /-- Two fields or getters have the same canonical name; `name` is the later one's. -/
  | duplicateField (name : String)
  /-- A getter has no setter left to pair with. -/
  | immutableField (name : String)
  /-- A setter has no getter. -/
  | orphanSetter (name : String)
  /-- A getter and its setter have different types. -/
  | disagreement (name : String)
  /-- More variants than one byte can number. -/
  | tooManyVariants (count : Nat)
  deriving DecidableEq, Repr

/-- The fault in words, for the user type `type`. -/
def PlanFault.message (type : String) : PlanFault → String
  | noConstructor => s!"{type} has no constructor"
  | duplicateSetter name => s!"duplicate setter `{name}` on {type}"
  | duplicateField name => s!"duplicate field `{name}` on {type}"
  | immutableField name => s!"field `{name}` on {type} is immutable"
  | orphanSetter name => s!"setter `{name}` on {type} has no getter"
  | disagreement name => s!"getter and setter of field `{name}` on {type} disagree on its type"
  | tooManyVariants count => s!"{type} has {count} variants, at most 256 fit in one byte"

/-- What a codec was handed and does not write: a value of a foreign type, or a variant it does not list. -/
inductive Misfit
  | foreign (type : ValueType)
  | unlisted (type : String) (index : UInt16)
  deriving DecidableEq, Repr

/-- The misfit in words. -/
def Misfit.text : Misfit → String
  | foreign type => type.text
  | unlisted type index => s!"{type}({index.toNat})"

/-- Everything that can go wrong. -/
inductive Error
  /-- The marker does not belong to the codec that reads it, or its payload is out of range. -/
  | decode (target : String) (marker : Marker)
  /-- Fewer bytes are left than needed. -/
  | underflow (needed available : Nat)
  /-- No codec writes the type, or, when `narrow` names a codec, the type's codec is another one. -/
  | missingCodec (type : ValueType) (narrow : Option String)
  | unknownMarker (marker : Marker)
  | markerCollision (marker : Marker) (owner : String)
  | markersExhausted
  /-- A run of markers covers null, is empty, or ends past 127. -/
  | markerOverflow (base : Marker) (count : Nat)
  | generation (type : String) (fault : PlanFault)
  | typeMismatch (codec : String) (found : Misfit)
  | invalidUtf8 (fault : Utf8Fault)
  /-- A character's payload, as an unsigned 32-bit number, is no Unicode scalar value. -/
  | invalidChar (code : Nat)
  | sizeOverflow (size : Nat)
  | unexpectedNull (target : String)
  deriving DecidableEq, Repr

/-- The error in words. -/
def Error.message : Error → String
  | decode target marker => s!"Could not deserialize as {target}: unexpected marker {marker.toInt}"
  | underflow needed available => s!"Buffer underflow: needed {needed} bytes, only {available} available"
  | missingCodec type none => "No registered codec for: " ++ type.text
  | missingCodec type (some codec) => "No registered codec for: " ++ type.text ++ " as " ++ codec
  | unknownMarker marker => s!"No codec registered for marker {marker.toInt}"
  | markerCollision marker owner => s!"Marker {marker.toInt} already registered by {owner}"
  | markersExhausted => "The codec registry is full"
  | markerOverflow base count => s!"{count} markers starting at {base.toInt} do not fit in the marker space"
  | generation type fault => "Codec generation failed: " ++ fault.message type
  | typeMismatch codec found => s!"{codec} codec cannot write a value of type {found.text}"
  | invalidUtf8 fault => "Invalid UTF-8 payload: " ++ fault.message
  | invalidChar code => "Invalid char code point: 0x" ++ String.ofList (Nat.toDigits 16 code)
  | sizeOverflow size => s!"Size {size} exceeds the maximum encodable size"
  | unexpectedNull target => s!"Unexpected null while reading {target}"

section Steps

variable {σ α β : Type} {state last : σ}

/-- A sequence of two computations succeeds if both do, the second in the state that the first has left. -/
theorem bind_eq_ok_iff {first : EStateM Error σ α} {next : α → EStateM Error σ β} {b : β} :
    (first >>= next) state = .ok b last ↔ ∃ a mid, first state = .ok a mid ∧ next a mid = .ok b last := by
  simp only [bind, EStateM.bind]
  cases h : first state with
  | error e mid => simp
  | ok a mid =>
    constructor
    · exact fun hnext => ⟨a, mid, rfl, hnext⟩
    · rintro ⟨_, _, heq, hnext⟩
      cases heq
      exact hnext

/-- A sequence of two computations fails if the first does, or the second in the state that the first has left. -/
theorem bind_eq_error_iff {first : EStateM Error σ α} {next : α → EStateM Error σ β} {e : Error} :
    (first >>= next) state = .error e last ↔
      first state = .error e last ∨ ∃ a mid, first state = .ok a mid ∧ next a mid = .error e last := by
  simp only [bind, EStateM.bind]
  cases h : first state with
  | error e' mid => simp
  | ok a mid =>
    constructor
    · exact fun hnext => .inr ⟨a, mid, rfl, hnext⟩
    · rintro (hfirst | ⟨_, _, heq, hnext⟩)
      · cases hfirst
      · cases heq
        exact hnext

/-- An answer that is given as a step succeeds if it is one, and leaves the state as it is. -/
theorem ofExcept_eq_ok_iff {answer : Except Error α} {a : α} :
    (ofExcept answer : EStateM Error σ α) state = .ok a last ↔ answer = .ok a ∧ last = state := by
  cases answer with
  | ok b => simp [ofExcept, pure, EStateM.pure, eq_comm]
  | error e => exact ⟨fun h => (nomatch h), fun h => (nomatch h.1)⟩

/-- A sequence of two answers is given if both are. -/
theorem answer_bind_eq_ok_iff {ε : Type} {answer : Except ε α} {next : α → Except ε β} {b : β} :
    (answer >>= next) = .ok b ↔ ∃ a, answer = .ok a ∧ next a = .ok b := by
  cases answer with
  | ok a => simp [bind, Except.bind]
  | error e => simp [bind, Except.bind]

end Steps

end Bytemark
