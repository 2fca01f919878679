/-!
# Signed numbers as bytes

A number is written in a given number of bytes, most significant first, in two's complement. `minWidth` is the number
of bytes in the shortest form that still tells the number's sign.
-/

set_option autoImplicit false

-- A power of a number is the core library's, also where monoids have powers of their own.
attribute [local instance (2000)] instPowNat instNatPowNat Int.instNatPow

namespace Bytemark.BigEndian

/-- The low `width` bytes of `value`, most significant first. -/
def encode : (width : Nat) → (value : Int) → List UInt8
  | 0, _ => []
  | width + 1, value => UInt8.ofInt (value / 256 ^ width) :: encode width value

/-- The number the bytes spell without a sign. -/
def magnitude (bytes : List UInt8) : Nat := bytes.foldl (fun total byte => 256 * total + byte.toNat) 0

/-- The number the bytes spell in two's complement. -/
def decode (bytes : List UInt8) : Int := Int.bmod (magnitude bytes) (256 ^ bytes.length)

/-- Bits that tell `value` from others of its sign. -/
def significantBits (value : Int) : Nat :=
  let magnitude := if value < 0 then (-value - 1).toNat else value.toNat
  if magnitude = 0 then 0 else Nat.log2 magnitude + 1

/-- The least number of bytes whose two's complement form holds `value`: one bit for the sign, and whole bytes. -/
def minWidth (value : Int) : Nat := (significantBits value + 8) / 8

/-- As many bytes are written as were asked for. -/
@[simp] theorem length_encode (width : Nat) (value : Int) : (encode width value).length = width := by
  induction width with
  | zero => rfl
  | succ width ih => simp [encode, ih]

/-- Every number takes a byte, zero too: the byte holds the sign. -/
theorem minWidth_pos (value : Int) : 0 < minWidth value := by
  simp only [minWidth]
  omega

end Bytemark.BigEndian
