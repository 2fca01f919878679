/-!
# Markers

Every encoded value starts with a *marker*: one byte, read as a signed number, that tells which codec wrote what
follows. The least marker, -128, always means null.
-/

set_option autoImplicit false

namespace Bytemark

/-- The signed first byte of an encoded value. -/
abbrev Marker : Type := Int8

namespace Marker

/-- The marker of null, understood by every codec. -/
def null : Marker := -128

/-- The marker a byte stands for. -/
def ofByte (byte : UInt8) : Marker := byte.toInt8

/-- The byte a marker is written as. -/
def toByte (marker : Marker) : UInt8 := marker.toUInt8

/-- Position of a marker among all 256 in ascending order; null comes first. -/
def slot (marker : Marker) : Nat := (marker.toInt + 128).toNat

/-- The marker at a position below 256. -/
def ofSlot (index : Nat) : Marker := Int8.ofInt (index - 128)

/-- Every marker, in ascending order. -/
def all : List Marker := (List.range 256).map ofSlot

/-- A marker is read back from its byte. -/
@[simp] theorem ofByte_toByte (marker : Marker) : ofByte marker.toByte = marker := by
  simp [ofByte, toByte]

/-- A byte is the one that its marker is written as. -/
@[simp] theorem toByte_ofByte (byte : UInt8) : toByte (ofByte byte) = byte := by
  simp [ofByte, toByte]

/-- Null's marker is the only one below -127. -/
theorem ne_null_of_le {marker : Marker} (hlow : -127 ≤ marker.toInt) : marker ≠ null := by
  rintro rfl
  revert hlow
  decide

/-- There are 256 positions. -/
theorem slot_lt (marker : Marker) : marker.slot < 256 := by
  have hlow := Int8.le_toInt marker
  have hhigh := Int8.toInt_lt marker
  simp only [slot]
  omega

/-- A marker is told by its position. -/
theorem ofSlot_slot (marker : Marker) : ofSlot marker.slot = marker := by
  have hlow := Int8.le_toInt marker
  simp only [ofSlot, slot]
  rw [show ((marker.toInt + 128).toNat : Int) - 128 = marker.toInt by omega]
  exact Int8.ofInt_toInt marker

/-- Every position below 256 is that of the marker there. -/
theorem slot_ofSlot {index : Nat} (h : index < 256) : (ofSlot index).slot = index := by
  simp only [ofSlot, slot]
  rw [Int8.toInt_ofInt_of_le (by omega) (by omega)]
  omega

/-- Markers of one position are one marker. -/
theorem slot_inj {marker other : Marker} : marker.slot = other.slot ↔ marker = other := by
  constructor
  · intro h
    rw [← ofSlot_slot marker, h, ofSlot_slot]
  · rintro rfl
    rfl

/-- Positions are in the order of the markers. -/
theorem slot_lt_slot {marker other : Marker} : marker.slot < other.slot ↔ marker < other := by
  have hlow := Int8.le_toInt marker
  have hlow' := Int8.le_toInt other
  rw [Int8.lt_iff_toInt_lt]
  simp only [slot]
  omega

/-- No marker is missing from the list of all. -/
theorem mem_all (marker : Marker) : marker ∈ all :=
  List.mem_map.2 ⟨marker.slot, List.mem_range.2 marker.slot_lt, ofSlot_slot marker⟩

/-- All markers are listed in ascending order, each of them once. -/
theorem pairwise_all : all.Pairwise (· < ·) := by
  rw [all, List.pairwise_map]
  refine List.Pairwise.imp_of_mem ?_ List.pairwise_lt_range
  intro one other hone hother hless
  rw [← slot_lt_slot, slot_ofSlot (List.mem_range.1 hone), slot_ofSlot (List.mem_range.1 hother)]
  exact hless

end Marker

end Bytemark
