import Bytemark.Bytes.BigEndian
import Bytemark.Error

/-!
# Reading bytes

A reader is a function of the bytes not read yet. It leaves behind what it did not consume, also when it fails; a single
read that finds too few bytes consumes none of them.
-/

set_option autoImplicit false

namespace Bytemark

/-- The bytes not read yet. -/
abbrev Input : Type := List UInt8

/-- A computation that reads bytes. -/
abbrev Read : Type → Type := EStateM Error Input

namespace Input

/-- Fails because `needed` bytes are needed and fewer are left. -/
def underflow {α : Type} (needed : Nat) : Read α := fun input =>
  .error (.underflow needed input.length) input

/-- The next marker, which stays unread. -/
def peek : Read Marker := fun input =>
  match input with
  | [] => underflow 1 input
  | byte :: _ => .ok (Marker.ofByte byte) input

/-- Consumes the next marker. -/
def marker : Read Marker := fun input =>
  match input with
  | [] => underflow 1 input
  | byte :: rest => .ok (Marker.ofByte byte) rest

/-- Consumes exactly `count` bytes. -/
def bytes (count : Nat) : Read (List UInt8) := fun input =>
  let taken := input.take count
  if taken.length = count then .ok taken (input.drop count) else underflow count input

/-- Consumes a signed number of `width` bytes. -/
def signed (width : Nat) : Read Int := do
  return BigEndian.decode (← bytes width)

/-- Consumes everything. -/
def skipToEnd : Read Unit := fun _ => .ok () []

/-- Runs `item` `count` times, with the results of `done`, last first, behind. -/
def repeatOnto {α : Type} (item : Read α) : (count : Nat) → (done : List α) → Read (List α)
  | 0, done, input => .ok done.reverse input
  | count + 1, done, input =>
    match item input with
    | .ok a rest => repeatOnto item count (a :: done) rest
    | .error e rest => .error e rest

/-- Runs `item` `count` times. -/
def repeated {α : Type} (count : Nat) (item : Read α) : Read (List α) := repeatOnto item count []

/-- Runs `read`; if it fails, nothing has been consumed. -/
def guarded {α : Type} (read : Read α) : Read α := fun input =>
  match read input with
  | .ok a rest => .ok a rest
  | .error e _ => .error e input

/-- The `length` bytes of `data` from `offset` on. A window past the end is an underflow of the window's end, which is
counted up to the greatest 64-bit number. -/
def window (data : List UInt8) (offset length : Nat) : Except Error Input :=
  if offset + length ≤ data.length then
    .ok ((data.drop offset).take length)
  else
    .error (.underflow (min (offset + length) (UInt64.size - 1)) data.length)

/-- Bytes that are there are read, whatever follows them. -/
theorem bytes_append (front rest : List UInt8) : bytes front.length (front ++ rest) = .ok front rest := by
  simp [bytes]

/-- What is read is the front of the input, of exactly the length asked for. -/
theorem bytes_eq_ok_iff {count : Nat} {input front rest : List UInt8} :
    bytes count input = .ok front rest ↔ input = front ++ rest ∧ front.length = count := by
  constructor
  · intro h
    simp only [bytes] at h
    split at h
    · rename_i hlength
      injection h with htaken hleft
      subst htaken hleft
      exact ⟨(List.take_append_drop count input).symm, hlength⟩
    · cases h
  · rintro ⟨rfl, rfl⟩
    exact bytes_append front rest

/-- Too few bytes are all left as they are. -/
theorem bytes_of_lt {count : Nat} {input : List UInt8} (h : input.length < count) :
    bytes count input = .error (.underflow count input.length) input := by
  rw [bytes, if_neg (by simp; omega)]
  rfl

/-- The number that bytes spell is read from them, whatever follows. -/
theorem signed_append {width : Nat} (front rest : List UInt8) (h : front.length = width) :
    signed width (front ++ rest) = .ok (BigEndian.decode front) rest := by
  subst h
  simp [signed, bind, EStateM.bind, bytes_append, pure, EStateM.pure]

/-- The number that is read is the one that the front of the input spells. -/
theorem signed_eq_ok_iff {width : Nat} {input rest : List UInt8} {value : Int} :
    signed width input = .ok value rest ↔
      ∃ front, input = front ++ rest ∧ front.length = width ∧ value = BigEndian.decode front := by
  constructor
  · intro h
    obtain ⟨front, _, hbytes, hanswer⟩ := bind_eq_ok_iff.1 h
    cases hanswer
    obtain ⟨rfl, hlength⟩ := bytes_eq_ok_iff.1 hbytes
    exact ⟨front, rfl, hlength, rfl⟩
  · rintro ⟨front, rfl, hlength, rfl⟩
    exact signed_append front rest hlength

end Input

end Bytemark
