import Bytemark.Proofs.Stream.Law
import Bytemark.Proofs.Writing.Domain
import Bytemark.Settings

/-!
# Reading and writing again

A standard registry accepts more than it writes. Whatever it accepts, it can write again: what was read is tidy, and
made of no more values than there were bytes, so every size fits. Nothing is lost in this, because sequences and maps
have codecs of their own kind. So writing what was read gives bytes that stand for the same value, and these bytes are
kept by reading and writing them once more. They are the normal form of all bytes that are read as the value.
-/

set_option autoImplicit false

namespace Bytemark

open Registry

variable {registry : Registry} {value : Value}

/-! ## Tidy values come back as they were -/

/-- Tidy values come back as they were, whatever the registry. -/
theorem Value.Tidy.restores [RecordEquality] (h : value.Tidy) (registry : Registry) : registry.Restores value := by
  induction h with
  | null => exact .null
  | atom _ => exact .atom _
  | sequence _ hdistinct ih => exact .sequence ih hdistinct
  | map _ _ hdistinct ihkeys ihvalues => exact .map ihkeys ihvalues hdistinct

/-- Tidy values hold no user types, so every registry admits them. -/
theorem Value.Tidy.admits [RecordEquality] (h : value.Tidy) (registry : Registry) : registry.Admits value := by
  induction h with
  | null => exact .null
  | atom _ => exact .atom _
  | sequence _ _ ih => exact .sequence ih
  | map _ _ _ ihkeys ihvalues => exact .map ihkeys ihvalues

namespace Registry.OfBuiltins

/-! ## Codecs by type -/

/-- Every type of atoms has its codec. -/
theorem codecForType_atom (h : registry.OfBuiltins) (type : AtomType) :
    ∃ codec : AtomCodec, registry.codecForType (.atom type) = .ok (.atom codec) ∧ codec.form.type = type := by
  have hkind : Builtin.standard.find? (Builtin.writes (.atom type)) = some (.atom type) := by
    cases type with
    | word kind => cases kind <;> rfl
    | words kind => cases kind <;> rfl
    | _ => rfl
  obtain ⟨codec, hanswer, hbuiltin⟩ := h.answer hkind
  cases codec with
  | atom codec =>
    cases hbuiltin
    exact ⟨codec, hanswer, rfl⟩
  | _ => cases hbuiltin

/-- Every kind of sequence has a codec of its own kind, which codes elements of any type. -/
theorem codecForType_sequence (h : registry.OfBuiltins) (kind : SequenceKind) :
    ∃ markers, registry.codecForType (.sequence kind) = .ok (.sequence markers kind .any) := by
  have hkind : Builtin.standard.find? (Builtin.writes (.sequence kind)) = some (.sequence kind) := by
    cases kind <;> rfl
  obtain ⟨codec, hanswer, hbuiltin⟩ := h.answer hkind
  cases codec with
  | sequence markers kind part =>
    cases hbuiltin
    have hmem := h.sound.mem_of_writer Element.fits_any hanswer Codec.noConfusion
    cases h.sound.fits hmem
    exact ⟨markers, hanswer⟩
  | _ => cases hbuiltin

/-- Maps have a codec, which codes keys and values of any type. -/
theorem codecForType_map (h : registry.OfBuiltins) :
    ∃ markers, registry.codecForType .map = .ok (.map markers .any .any) := by
  have hkind : Builtin.standard.find? (Builtin.writes .map) = some .map := rfl
  obtain ⟨codec, hanswer, hbuiltin⟩ := h.answer hkind
  cases codec with
  | map markers key part =>
    have hmem := h.sound.mem_of_writer Element.fits_any hanswer Codec.noConfusion
    cases h.sound.fits hmem
    exact ⟨markers, hanswer⟩
  | _ => cases hbuiltin

/-- No kind of sequence is left to the codec of collections. -/
theorem keepsKinds (h : registry.OfBuiltins) : registry.KeepsKinds := by
  intro kind markers part hcollection
  obtain ⟨_, hsequence⟩ := h.codecForType_sequence kind
  rw [hsequence] at hcollection
  cases hcollection

/-! ## Tidy values can be written -/

/-- No array has built-in items, so items are coded like all parts. -/
theorem made (h : registry.OfBuiltins) : registry.Made := by
  refine ⟨h.sound, fun {codec} hcodec => ?_⟩
  obtain ⟨kind, hkind⟩ := h.builtin hcodec
  cases codec with
  | array _ _ _ => cases hkind
  | _ => trivial

/-- Every tidy value that is made of no more values than a size can tell has codecs for itself and all its parts. -/
theorem encodable [RecordEquality] (h : registry.OfBuiltins) (htidy : value.Tidy) (hcount : value.count ≤ Size.max) :
    registry.Encodable .any value := by
  induction htidy with
  | null => exact .null
  | @atom atom hsize =>
    obtain ⟨codec, hanswer, htype⟩ := h.codecForType_atom atom.type
    have hwrites : (Codec.atom codec).writes (.atom atom.type) := Codec.writes_atom_iff.2 ⟨codec, rfl, htype.symm⟩
    refine .coded hanswer hwrites (fun size hsome => ?_) trivial fun part hpart => nomatch hpart
    cases hsome
    exact hsize
  | @sequence kind items _ _ ih =>
    obtain ⟨markers, hanswer⟩ := h.codecForType_sequence kind
    obtain ⟨hlength, hitems⟩ := Value.countItems_bounds items
    rw [Value.count] at hcount
    have hwrites : (Codec.sequence markers kind .any).writes (.sequence kind) :=
      Codec.writes_sequence_iff.2 (.inl ⟨markers, .any, rfl⟩)
    refine .coded hanswer hwrites (fun size hsome => ?_) trivial fun part hpart => ?_
    · cases hsome
      omega
    · obtain ⟨item, hitem, rfl⟩ := List.mem_map.1 hpart
      have hbound := hitems item hitem
      exact ih item hitem (by omega)
  | @map entries _ _ _ ihkeys ihvalues =>
    obtain ⟨markers, hanswer⟩ := h.codecForType_map
    obtain ⟨hlength, hentries⟩ := Value.countEntries_bounds entries
    rw [Value.count] at hcount
    have hwrites : (Codec.map markers .any .any).writes .map := Codec.writes_map_iff.2 ⟨markers, .any, .any, rfl⟩
    refine .coded hanswer hwrites (fun size hsome => ?_) trivial fun part hpart => ?_
    · cases hsome
      omega
    · obtain ⟨entry, hentry, hside⟩ := List.mem_flatMap.1 hpart
      have hbound := hentries entry hentry
      unfold Value.countEntry at hbound
      rcases List.mem_pair.1 hside with rfl | rfl
      · exact ihkeys entry hentry (by omega)
      · exact ihvalues entry hentry (by omega)

/-- A registry of built-in codecs writes every tidy value that is made of no more values than a size can tell. -/
theorem writes_of_tidy [RecordEquality] (h : registry.OfBuiltins) (htidy : value.Tidy)
    (hcount : value.count ≤ Size.max) : Writes (registry.write value) :=
  (h.made.writes_iff Element.fits_any nofun).2 (h.encodable htidy hcount)

end Registry.OfBuiltins

/-! ## The normal form -/

/-- Let a standard registry read a value from bytes, however they are laid out. Then it writes the value, and reads from
what it has written just this value again, to the last byte, which is written in the same way. -/
theorem Settings.reencoding_canonical [RecordEquality] {settings : Settings}
    (hstandard : settings.registry = .ok registry) {input rest : Input} (hlength : input.length ≤ Size.max)
    (hread : registry.read input = .ok value rest) :
    ∃ bytes, registry.encode value = .ok bytes ∧
      ∃ again, registry.read bytes = .ok again [] ∧ again = value ∧ registry.encode again = .ok bytes := by
  have hbuiltins := ofBuiltins_standard hstandard
  have htidy := hbuiltins.yields_read hread
  have hadmits := htidy.admits registry
  have hpaid := registry.pays_readAs .any hread
  obtain ⟨bytes, hemits⟩ := hbuiltins.writes_of_tidy htidy (by omega)
  have hback : registry.back value = value :=
    hbuiltins.sound.backAs_eq_self hbuiltins.keepsKinds Element.fits_any hadmits (htidy.restores registry)
  have hdecodes := hbuiltins.sound.decodes_write hadmits hemits []
  rw [List.append_nil, hback] at hdecodes
  have hencode := Registry.encode_eq_ok_iff.2 hemits
  exact ⟨bytes, hencode, value, hdecodes, rfl, hencode⟩

/-- A collection of a set with a size in four bytes, a wide number and the same number in one byte; of a short string
behind a size; of a boolean with the spare bits set; and of a map that gives a key twice. -/
def Settings.loose : Input :=
  [229, 224, 0, 0, 0, 3, 152, 0, 5, 151, 5, 128, 177, 129, 97, 181, 129, 255, 213, 130, 129, 128, 129, 151, 5, 230]

/-- What the standard registry writes for the value that it reads from all of the bytes. -/
def Settings.rewritten? [RecordEquality] (settings : Settings) (input : Input) : Option (List UInt8) :=
  match settings.registry with
  | .error _ => none
  | .ok registry =>
    match registry.read input with
    | .ok value [] => (registry.encode value).toOption
    | _ => none

/-- Bytes that are rewritten are read as some value, and this value is written. -/
theorem Settings.exists_of_rewritten? [RecordEquality] {settings : Settings} {input : Input} {bytes : List UInt8}
    (h : settings.rewritten? input = some bytes) :
    ∃ registry value, settings.registry = .ok registry ∧ registry.read input = .ok value [] ∧
      registry.encode value = .ok bytes := by
  unfold Settings.rewritten? at h
  split at h
  · cases h
  · rename_i registry hstandard
    split at h
    · rename_i value hread
      cases hencode : registry.encode value with
      | error fault => rw [hencode] at h; cases h
      | ok written =>
        rw [hencode] at h
        cases h
        exact ⟨registry, value, hstandard, hread, hencode⟩
    · cases h

/-- These bytes are read under the default settings, and written again as a list of shorter parts. -/
theorem Settings.reencoding_canonical_loose :
    ∃ registry value, ({} : Settings).registry = .ok registry ∧ loose.length ≤ Size.max ∧
      registry.read loose = .ok value [] ∧
      registry.encode value =
        .ok [225, 132, 221, 130, 151, 5, 128, 162, 97, 181, 129, 128, 213, 129, 129, 151, 5] ∧
      ∃ bytes, registry.encode value = .ok bytes ∧
        ∃ again, registry.read bytes = .ok again [] ∧ again = value ∧ registry.encode again = .ok bytes := by
  have hrewritten : ({} : Settings).rewritten? Settings.loose =
      some [225, 132, 221, 130, 151, 5, 128, 162, 97, 181, 129, 128, 213, 129, 129, 151, 5] := by
    decide +kernel
  obtain ⟨registry, value, hstandard, hread, hencode⟩ := Settings.exists_of_rewritten? hrewritten
  have hlength : Settings.loose.length ≤ Size.max := by decide
  exact ⟨registry, value, hstandard, hlength, hread, hencode, Settings.reencoding_canonical hstandard hlength hread⟩

end Bytemark
