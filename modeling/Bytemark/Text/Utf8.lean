import Bytemark.Error

/-!
# UTF-8

Characters as bytes and back. `decode` accepts the shortest form of every Unicode scalar value and nothing else; on any
other bytes it says where the first character breaks off and how many bytes could still have begun one.
-/

set_option autoImplicit false

namespace Bytemark.Utf8

/-- The bytes of one character. -/
def encodeChar (char : Char) : List UInt8 :=
  let code := char.toNat
  if code < 0x80 then
    [UInt8.ofNat code]
  else if code < 0x800 then
    [UInt8.ofNat (0xC0 + code / 0x40), UInt8.ofNat (0x80 + code % 0x40)]
  else if code < 0x10000 then
    [UInt8.ofNat (0xE0 + code / 0x1000), UInt8.ofNat (0x80 + code / 0x40 % 0x40),
      UInt8.ofNat (0x80 + code % 0x40)]
  else
    [UInt8.ofNat (0xF0 + code / 0x40000), UInt8.ofNat (0x80 + code / 0x1000 % 0x40),
      UInt8.ofNat (0x80 + code / 0x40 % 0x40), UInt8.ofNat (0x80 + code % 0x40)]

/-- The bytes of a text. -/
def encode (chars : List Char) : List UInt8 := chars.flatMap encodeChar

/-- The form of a character, as its first byte announces it. -/
structure Lead where
  /-- Bytes after the first. -/
  tail : Nat
  /-- The first byte's share of the code point. -/
  bits : Nat
  /-- Bounds on the second byte; they exclude longer forms of smaller code points, surrogates, and code points past
  the last. -/
  low : Nat
  high : Nat

/-- What a first byte announces; a byte that starts no character announces nothing. -/
def lead? (byte : Nat) : Option Lead :=
  if byte < 0x80 then some ⟨0, byte, 0x80, 0xBF⟩
  else if byte < 0xC2 then none
  else if byte < 0xE0 then some ⟨1, byte - 0xC0, 0x80, 0xBF⟩
  else if byte = 0xE0 then some ⟨2, 0, 0xA0, 0xBF⟩
  else if byte = 0xED then some ⟨2, 0xD, 0x80, 0x9F⟩
  else if byte < 0xF0 then some ⟨2, byte - 0xE0, 0x80, 0xBF⟩
  else if byte = 0xF0 then some ⟨3, 0, 0x90, 0xBF⟩
  else if byte < 0xF4 then some ⟨3, byte - 0xF0, 0x80, 0xBF⟩
  else if byte = 0xF4 then some ⟨3, 4, 0x80, 0x8F⟩
  else none

/-- Takes `tail` more bytes into `code`, the first of them between `low` and `high` and the others any continuation
byte. `taken` counts the bytes of the character so far; a failure reports it, or nothing when the bytes ran out. -/
def decodeTail : (tail code low high taken : Nat) → List UInt8 → Except (Option Nat) (Nat × List UInt8)
  | 0, code, _, _, _, rest => .ok (code, rest)
  | _ + 1, _, _, _, _, [] => .error none
  | tail + 1, code, low, high, taken, byte :: rest =>
    if low ≤ byte.toNat ∧ byte.toNat ≤ high then
      decodeTail tail (0x40 * code + (byte.toNat - 0x80)) 0x80 0xBF (taken + 1) rest
    else
      .error (some taken)

/-- The first character of some bytes, and the bytes after it. -/
def decodeChar (byte : UInt8) (rest : List UInt8) : Except (Option Nat) (Char × List UInt8) :=
  match lead? byte.toNat with
  | none => .error (some 1)
  | some lead =>
    match decodeTail lead.tail lead.bits lead.low lead.high 1 rest with
    | .ok (code, rest) => .ok (Char.ofNat code, rest)
    | .error taken => .error taken

/-- Decodes at most `bound` characters, with `index` bytes and the characters of `done`, last first, behind. -/
def decodeFrom : (bound index : Nat) → (done : List Char) → List UInt8 → Except Utf8Fault (List Char)
  | 0, _, done, _ => .ok done.reverse
  | _ + 1, _, done, [] => .ok done.reverse
  | bound + 1, index, done, byte :: rest =>
    match decodeChar byte rest with
    | .ok (char, rest') => decodeFrom bound (index + char.utf8Size) (char :: done) rest'
    | .error (some length) => .error (.malformed length index)
    | .error none => .error (.incomplete index)

/-- The characters of a text. Every character takes at least one byte, so there are no more of them than bytes. -/
def decode (bytes : List UInt8) : Except Utf8Fault (List Char) := decodeFrom bytes.length 0 [] bytes

/-- Every character takes a byte. -/
theorem encodeChar_ne_nil (char : Char) : encodeChar char ≠ [] := by
  simp only [encodeChar]
  repeat' split
  all_goals simp

end Bytemark.Utf8
