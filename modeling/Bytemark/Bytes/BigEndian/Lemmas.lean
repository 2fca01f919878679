import Bytemark.Bytes.BigEndian

/-!
# Laws of signed numbers as bytes

`decode_encode` and `encode_decode` say that numbers in the range of a width and strings of that many bytes correspond
one to one; `minWidth_le_iff` that `minWidth` is the least width whose range holds the number.
-/

set_option autoImplicit false

-- A power of a number is the core library's, also where monoids have powers of their own.
attribute [local instance (2000)] instPowNat instNatPowNat Int.instNatPow

namespace Bytemark.BigEndian

/-- The fold of `magnitude`, from any start. -/
theorem magnitude_foldl (bytes : List UInt8) (start : Nat) :
    bytes.foldl (fun total byte => 256 * total + byte.toNat) start =
      start * 256 ^ bytes.length + magnitude bytes := by
  induction bytes generalizing start with
  | nil => simp [magnitude]
  | cons byte bytes ih =>
    simp only [List.foldl_cons, List.length_cons, magnitude]
    rw [ih, ih (256 * 0 + byte.toNat), Nat.pow_succ]
    grind

/-- The first byte is the digit in front of the others, in base 256. -/
theorem magnitude_cons (byte : UInt8) (bytes : List UInt8) :
    magnitude (byte :: bytes) = byte.toNat * 256 ^ bytes.length + magnitude bytes := by
  rw [magnitude, List.foldl_cons, magnitude_foldl]
  simp

/-- The bytes spell a number below the number of strings of their length. -/
theorem magnitude_lt (bytes : List UInt8) : magnitude bytes < 256 ^ bytes.length := by
  induction bytes with
  | nil => simp [magnitude]
  | cons byte bytes ih =>
    have := UInt8.toNat_lt byte
    rw [magnitude_cons, List.length_cons, Nat.pow_succ]
    have : (byte.toNat + 1) * 256 ^ bytes.length ≤ 256 * 256 ^ bytes.length :=
      Nat.mul_le_mul_right _ (by omega)
    rw [Nat.add_mul, Nat.one_mul] at this
    omega

/-- The byte of a number is its remainder by 256, also if the number is negative. -/
theorem toNat_ofInt (value : Int) : ((UInt8.ofInt value).toNat : Int) = value % 256 := by
  rw [UInt8.ofInt, UInt8.toNat_ofNat']
  have hlow := Int.emod_nonneg value (show (256 : Int) ≠ 0 by decide)
  have hhigh := Int.emod_lt_of_pos value (show (0 : Int) < 256 by decide)
  have : (value % 2 ^ (8 : Nat)).toNat % 2 ^ (8 : Nat) = (value % 256).toNat := by
    rw [show (2 : Int) ^ (8 : Nat) = 256 by decide]
    exact Nat.mod_eq_of_lt (by omega)
  rw [this]
  omega

/-- Splits a remainder at its highest byte. -/
theorem emod_pow_succ (value : Int) (width : Nat) :
    value % 256 ^ (width + 1) = value / 256 ^ width % 256 * 256 ^ width + value % 256 ^ width := by
  have hpos : (0 : Int) < 256 ^ width := Int.pow_pos (by decide)
  rw [Int.pow_succ]
  generalize (256 : Int) ^ width = unit at hpos ⊢
  have hsplit : value = (value / unit % 256 * unit + value % unit) + unit * 256 * (value / unit / 256) := by
    have houter := Int.mul_ediv_add_emod value unit
    have hinner := Int.mul_ediv_add_emod (value / unit) 256
    grind
  have hrest := Int.emod_lt_of_pos value hpos
  have hrest_nonneg := Int.emod_nonneg value (Int.ne_of_gt hpos)
  have hdigit_nonneg := Int.emod_nonneg (value / unit) (show (256 : Int) ≠ 0 by decide)
  have hdigit := Int.emod_lt_of_pos (value / unit) (show (0 : Int) < 256 by decide)
  have hlow := Int.mul_nonneg hdigit_nonneg (Int.le_of_lt hpos)
  have hhigh := Int.mul_le_mul_of_nonneg_right (show value / unit % 256 ≤ 255 by omega) (Int.le_of_lt hpos)
  calc value % (unit * 256)
      = ((value / unit % 256 * unit + value % unit) + unit * 256 * (value / unit / 256)) % (unit * 256) := by
        rw [← hsplit]
    _ = (value / unit % 256 * unit + value % unit) % (unit * 256) := Int.add_mul_emod_self_left ..
    _ = value / unit % 256 * unit + value % unit := Int.emod_eq_of_lt (by omega) (by omega)

/-- Only the low bytes of a number are written. -/
theorem encode_emod (width : Nat) (value : Int) : encode width (value % 256 ^ width) = encode width value := by
  induction width generalizing value with
  | zero => rfl
  | succ width ih =>
    have hpos : (0 : Int) < 256 ^ width := Int.pow_pos (by decide)
    have hrest : encode width (value % 256 ^ (width + 1)) = encode width value := by
      rw [← ih, Int.emod_emod_of_dvd _ ⟨256, Int.pow_succ ..⟩, ih]
    have htop : value % 256 ^ (width + 1) / 256 ^ width = value / 256 ^ width % 256 := by
      rw [emod_pow_succ, Int.add_comm, Int.add_mul_ediv_right _ _ (Int.ne_of_gt hpos),
        Int.ediv_eq_zero_of_lt (Int.emod_nonneg _ (Int.ne_of_gt hpos)) (Int.emod_lt_of_pos _ hpos), Int.zero_add]
    have hdigit : UInt8.ofInt (value / 256 ^ width % 256) = UInt8.ofInt (value / 256 ^ width) := by
      apply UInt8.toNat_inj.1
      have hone := toNat_ofInt (value / 256 ^ width % 256)
      have hother := toNat_ofInt (value / 256 ^ width)
      rw [Int.emod_emod_of_dvd _ (Int.dvd_refl 256)] at hone
      omega
    rw [encode, encode, hrest, htop, hdigit]

/-- Bytes are those of the number that they spell. -/
theorem encode_magnitude (bytes : List UInt8) : encode bytes.length (magnitude bytes) = bytes := by
  induction bytes with
  | nil => rfl
  | cons byte bytes ih =>
    have hpos : (0 : Int) < 256 ^ bytes.length := Int.pow_pos (by decide)
    have hsmall : ((magnitude bytes : Nat) : Int) < 256 ^ bytes.length := by
      have := Int.ofNat_lt.2 (magnitude_lt bytes)
      rwa [Int.natCast_pow] at this
    have hsplit : ((magnitude (byte :: bytes) : Nat) : Int)
        = magnitude bytes + byte.toNat * 256 ^ bytes.length := by
      rw [magnitude_cons, Int.natCast_add, Int.natCast_mul, Int.natCast_pow, Int.add_comm]
      rfl
    have htop : ((magnitude (byte :: bytes) : Nat) : Int) / 256 ^ bytes.length = byte.toNat := by
      rw [hsplit, Int.add_mul_ediv_right _ _ (Int.ne_of_gt hpos),
        Int.ediv_eq_zero_of_lt (Int.natCast_nonneg _) hsmall, Int.zero_add]
    have hrest : encode bytes.length (magnitude (byte :: bytes)) = bytes := by
      rw [← encode_emod, hsplit, Int.add_mul_emod_self_right, encode_emod, ih]
    rw [List.length_cons, encode, htop, hrest]
    congr 1
    apply UInt8.toNat_inj.1
    have := toNat_ofInt (byte.toNat : Int)
    have := UInt8.toNat_lt byte
    omega

/-- Without a sign, the written bytes spell the remainder that they have room for. -/
theorem magnitude_encode (width : Nat) (value : Int) :
    (magnitude (encode width value) : Int) = value % 256 ^ width := by
  induction width with
  | zero => simp [magnitude, encode]
  | succ width ih =>
    rw [encode, magnitude_cons, length_encode]
    have hcast :
        (((UInt8.ofInt (value / 256 ^ width)).toNat * 256 ^ width + magnitude (encode width value) : Nat) : Int) =
          (UInt8.ofInt (value / 256 ^ width)).toNat * 256 ^ width + magnitude (encode width value) := by
      simp
    rw [hcast, toNat_ofInt, ih, emod_pow_succ]

/-- A number within the range of a width is read back as it was written. -/
theorem decode_encode {width : Nat} {value : Int}
    (hlow : -(128 * 256 ^ width) ≤ value) (hhigh : value < 128 * 256 ^ width) :
    decode (encode (width + 1) value) = value := by
  have hpos : (0 : Int) < 256 ^ width := Int.pow_pos (by decide)
  have hunit : ((256 ^ (width + 1) : Nat) : Int) = 256 ^ width * 256 := by
    rw [Nat.pow_succ]
    simp
  rw [decode, length_encode, magnitude_encode,
    show (256 : Int) ^ (width + 1) = ((256 ^ (width + 1) : Nat) : Int) by simp, Int.emod_bmod]
  apply Int.bmod_eq_of_le <;> omega

/-- What is read from some bytes is within the range of their number. -/
theorem decode_lt {width : Nat} {bytes : List UInt8} (h : bytes.length = width + 1) :
    decode bytes < 128 * 256 ^ width := by
  have hunit : ((256 ^ (width + 1) : Nat) : Int) = 256 ^ width * 256 := by
    rw [Nat.pow_succ]
    simp
  have hbelow := Int.bmod_lt (x := magnitude bytes) (m := 256 ^ (width + 1)) (Nat.pow_pos (by decide))
  rw [decode, h]
  omega

/-- What is read from some bytes is not below the range of their number. -/
theorem le_decode {width : Nat} {bytes : List UInt8} (h : bytes.length = width + 1) :
    -(128 * 256 ^ width) ≤ decode bytes := by
  have hunit : ((256 ^ (width + 1) : Nat) : Int) = 256 ^ width * 256 := by
    rw [Nat.pow_succ]
    simp
  have habove := Int.le_bmod (x := magnitude bytes) (m := 256 ^ (width + 1)) (Nat.pow_pos (by decide))
  rw [decode, h]
  omega

/-- Every string of bytes is the written form of the number read from it. -/
theorem encode_decode (bytes : List UInt8) : encode bytes.length (decode bytes) = bytes := by
  have := encode_magnitude bytes
  rw [← encode_emod] at this ⊢
  rw [decode, show (256 : Int) ^ bytes.length = ((256 ^ bytes.length : Nat) : Int) by simp, Int.bmod_emod]
  simpa using this

/-- A number fits a width exactly if its least width is not greater. -/
theorem minWidth_le_iff {value : Int} {width : Nat} :
    minWidth value ≤ width + 1 ↔ -(128 * 256 ^ width) ≤ value ∧ value < 128 * 256 ^ width := by
  have hunit : (2 : Nat) ^ (8 * width + 7) = 128 * 256 ^ width := by
    rw [Nat.pow_add, Nat.pow_mul, Nat.mul_comm]
  have hcast : ((2 ^ (8 * width + 7) : Nat) : Int) = 128 * 256 ^ width := by
    rw [hunit]
    simp
  have hbits (m : Nat) : (if m = 0 then 0 else Nat.log2 m + 1) ≤ 8 * width + 7 ↔ m < 2 ^ (8 * width + 7) := by
    split
    · have hpos : 0 < 256 ^ width := Nat.pow_pos (by decide)
      simp_all
    · rename_i hnonzero
      rw [← Nat.log2_lt hnonzero]
      omega
  have hsmall := hbits (if value < 0 then (-value - 1).toNat else value.toNat)
  simp only [minWidth, significantBits]
  generalize (if (if value < 0 then (-value - 1).toNat else value.toNat) = 0 then 0
    else Nat.log2 (if value < 0 then (-value - 1).toNat else value.toNat) + 1) = count at hsmall ⊢
  rw [← hcast]
  generalize (2 : Nat) ^ (8 * width + 7) = bound at hsmall ⊢
  split at hsmall <;> omega

end Bytemark.BigEndian
