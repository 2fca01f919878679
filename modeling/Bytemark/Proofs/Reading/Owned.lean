import Bytemark.Proofs.Coding.Discipline
import Mathlib.Tactic.ByContra

/-!
# What a codec reads is its own

A codec that claims as many markers as its form writes reads null and what starts with one of its markers, and fails on
everything else. So whoever reads a value by one codec of a registry could have found this codec by the first byte: the
table has it as the owner of that marker, and null is read alike by all.
-/

set_option autoImplicit false

namespace Bytemark

/-- The reader succeeds only on null and on bytes that start with one of the markers. -/
def Owns {α : Type} (markers : MarkerRange) (read : Read α) : Prop :=
  ∀ ⦃input rest : Input⦄ ⦃a : α⦄, read input = .ok a rest →
    ∃ marker tail, input = marker.toByte :: tail ∧ (marker = Marker.null ∨ marker ∈ markers)

/-- A codec that claims what its form writes reads null and what starts with a marker of its own, and nothing else. -/
theorem Codec.owns_read [RecordEquality] {codec : Codec} (hlegal : codec.Legal) (nested : Element → Read Value) :
    Owns codec.markers (codec.read nested) := by
  intro input rest value hok
  cases input with
  | nil =>
    obtain ⟨body, -, hread, -⟩ := Codec.opens_read nested nested codec
    rw [hread] at hok
    cases hok
  | cons byte tail =>
    refine ⟨Marker.ofByte byte, tail, by rw [Marker.toByte_ofByte], ?_⟩
    by_contra hforeign
    obtain ⟨hnull, hmem⟩ := not_or.1 hforeign
    have hrefused := (Codec.gated_read hlegal nested).refuses _ tail hnull hmem
    rw [Marker.toByte_ofByte, hok] at hrefused
    cases hrefused

/-- What a registered codec reads, the registry reads too when it goes by the first byte. -/
theorem Registry.Sound.readAs_any_of_boxed [RecordEquality] {registry : Registry} (hsound : registry.Sound)
    {codec : Codec} (hmem : codec ∈ registry.codecs) {input rest : Input} {value : Value}
    (h : registry.readAs (.boxed codec) input = .ok value rest) : registry.readAs .any input = .ok value rest := by
  have hread : codec.read registry.readAs input = .ok value rest := by
    rwa [registry.readAs_boxed] at h
  obtain ⟨marker, tail, rfl, hmarker⟩ := (Codec.owns_read (hsound.legal hmem) _) hread
  by_cases hnull : marker = Marker.null
  · subst hnull
    have hcodec := Codec.decodes_null registry.readAs (.inr (hsound.base_ne_null hmem)) tail
    have hsame := hread.symm.trans hcodec
    injection hsame with hvalue hrest
    rw [hvalue, hrest]
    exact hsound.decodes_null Element.fits_any tail
  · have howner := hsound.consistent.owner_of_mem hmem (hmarker.resolve_left hnull)
    have hcodec : registry.codecForMarker marker = .ok codec := by
      rw [Registry.codecForMarker, howner]
    rw [registry.readAs_eq]
    refine bind_eq_ok_iff.2 ⟨codec, _, ?_, hread⟩
    simp [Registry.select, bind, EStateM.bind, Input.peek, hcodec, ofExcept, pure, EStateM.pure]

end Bytemark
