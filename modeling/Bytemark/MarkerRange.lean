import Bytemark.Error

/-!
# Runs of markers

A codec claims a contiguous run of markers. A run never reaches past 127; only the null codec's run holds -128, and
`MarkerRange.of` makes every other one.
-/

set_option autoImplicit false

namespace Bytemark

/-- A non-empty run of `count` markers that starts at `base`. -/
structure MarkerRange where
  base : Marker
  count : Nat
  count_pos : 0 < count
  fits : base.toInt + count ≤ 128
  deriving DecidableEq, Repr

namespace MarkerRange

/-- The run of the null marker alone. -/
def null : MarkerRange := ⟨Marker.null, 1, by decide, by decide⟩

/-- The run of `count` markers from `base`, refused when it is empty, covers null or ends past 127. -/
def of (base : Marker) (count : Nat) : Except Error MarkerRange :=
  if h : 0 < count ∧ base ≠ Marker.null ∧ base.toInt + count ≤ 128 then
    .ok ⟨base, count, h.1, h.2.2⟩
  else
    .error (.markerOverflow base count)

/-- A run of markers above null's that ends at 127 or before can be made. -/
theorem exists_of {base : Marker} {count : Nat} (hcount : 0 < count) (hlow : -127 ≤ base.toInt)
    (hfits : base.toInt + count ≤ 128) : ∃ range, of base count = .ok range ∧ range.base = base ∧ range.count = count :=
  ⟨_, dif_pos ⟨hcount, Marker.ne_null_of_le hlow, hfits⟩, rfl, rfl⟩

/-- The run of one marker. -/
def single (marker : Marker) : Except Error MarkerRange := of marker 1

/-- The last marker of the run. -/
def last (range : MarkerRange) : Marker := Int8.ofInt (range.base.toInt + range.count - 1)

/-- The marker `offset` places after the base. -/
def markerAt (range : MarkerRange) (offset : Nat) : Marker := Int8.ofInt (range.base.toInt + offset)

/-- The markers of the run, ascending. -/
def toList (range : MarkerRange) : List Marker := (List.range range.count).map range.markerAt

instance : Membership Marker MarkerRange where
  mem range marker := range.base.toInt ≤ marker.toInt ∧ marker.toInt < range.base.toInt + range.count

instance (marker : Marker) (range : MarkerRange) : Decidable (marker ∈ range) :=
  inferInstanceAs (Decidable (_ ∧ _))

/-- A marker is in a run if it is neither below the base nor past the last one. -/
theorem mem_iff {marker : Marker} {range : MarkerRange} :
    marker ∈ range ↔
      range.base.toInt ≤ marker.toInt ∧ marker.toInt < range.base.toInt + range.count :=
  Iff.rfl

/-- How far a marker of the run lies from the base. -/
def offset? (range : MarkerRange) (marker : Marker) : Option Nat :=
  if marker ∈ range then some (marker.toInt - range.base.toInt).toNat else none

/-- The run as text: one marker, or the first and the last. -/
def text (range : MarkerRange) : String :=
  if range.count = 1 then s!"[{range.base.toInt}]" else s!"[{range.base.toInt}..={range.last.toInt}]"

/-- Inside a run a marker is its base and the distance from it; no number wraps around there. -/
theorem toInt_markerAt (range : MarkerRange) {offset : Nat} (h : offset < range.count) :
    (range.markerAt offset).toInt = range.base.toInt + offset := by
  have hlow := Int8.le_toInt range.base
  have hfits := range.fits
  exact Int8.toInt_ofInt_of_le (by omega) (by omega)

/-- The markers at distances below the count are in the run. -/
theorem markerAt_mem (range : MarkerRange) {offset : Nat} (h : offset < range.count) :
    range.markerAt offset ∈ range := by
  rw [mem_iff, toInt_markerAt range h]
  omega

/-- The distance of a marker is the one at which it was found. -/
@[simp] theorem offset?_markerAt (range : MarkerRange) {offset : Nat} (h : offset < range.count) :
    range.offset? (range.markerAt offset) = some offset := by
  simp only [offset?, markerAt_mem range h, if_pos, toInt_markerAt range h, Option.some.injEq]
  omega

/-- A marker has one distance, if it is in the run, and the distance tells the marker. -/
theorem offset?_eq_some_iff {range : MarkerRange} {marker : Marker} {offset : Nat} :
    range.offset? marker = some offset ↔
      offset < range.count ∧ marker = range.markerAt offset := by
  constructor
  · intro h
    simp only [offset?] at h
    split at h
    · rename_i hmem
      rw [mem_iff] at hmem
      injection h with h
      refine ⟨by omega, ?_⟩
      rw [markerAt, show range.base.toInt + offset = marker.toInt by omega, Int8.ofInt_toInt]
    · cases h
  · rintro ⟨hoffset, rfl⟩
    exact offset?_markerAt range hoffset

/-- The markers that are listed are those of the run. -/
theorem mem_toList {marker : Marker} {range : MarkerRange} : marker ∈ range.toList ↔ marker ∈ range := by
  simp only [toList, List.mem_map, List.mem_range]
  constructor
  · rintro ⟨offset, hoffset, rfl⟩
    exact markerAt_mem range hoffset
  · intro hmem
    have hsome : range.offset? marker = some (marker.toInt - range.base.toInt).toNat := if_pos hmem
    obtain ⟨hoffset, heq⟩ := offset?_eq_some_iff.1 hsome
    exact ⟨_, hoffset, heq.symm⟩

/-- The markers of a run are listed in ascending order, each of them once. -/
theorem pairwise_toList (range : MarkerRange) : range.toList.Pairwise (· < ·) := by
  rw [toList, List.pairwise_map]
  refine List.Pairwise.imp_of_mem ?_ List.pairwise_lt_range
  intro one other hone hother hless
  rw [List.mem_range] at hone hother
  rw [Int8.lt_iff_toInt_lt, toInt_markerAt range hone, toInt_markerAt range hother]
  omega

end MarkerRange

end Bytemark
