import Bytemark.Proofs.Coding.Atoms
import Bytemark.Registry.Read

/-!
# Codecs read back what they write

One lemma for each codec, where the parts of a value are known to be read back. None of them asks where the codec comes
from or which other codecs there are: a reader that has its codec at hand needs no look-up, so it does not matter whom
else the markers belong to. The one exception is the run of elements that ends with a marker, in which no element may
start with that marker.

Null is the null marker in all of them.
-/

set_option autoImplicit false

namespace Bytemark

variable {nested : Element → Read Value}

/-! ## Null -/

/-- Instead of a size there may be null's marker; then nothing follows. -/
theorem Size.decodes_counted_null {α : Type} (base : Marker) (target : String) (payload : Nat → Read α) :
    Decodes (counted base target payload) [Marker.null.toByte] none := by
  have hread : Decodes (read base target) [Marker.null.toByte] none := by
    refine Decodes.marker_bind ?_
    rw [if_pos rfl]
    exact .pure none
  exact hread.bind_pure (.pure none)

/-- Instead of a number there may be null's marker. -/
theorem Shortest.decodes_read_null (range : MarkerRange) (target : String) :
    Decodes (read range target) [Marker.null.toByte] none := by
  refine Decodes.marker_bind ?_
  rw [if_pos rfl]
  exact .pure none

/-- Instead of an opening marker there may be null's. -/
theorem MarkerRange.decodes_opening_null (range : MarkerRange) (target : String) (content : Read Value) :
    Decodes (range.opening target content) [Marker.null.toByte] .null := by
  refine Decodes.marker_bind ?_
  rw [if_pos rfl]
  exact .pure Value.null

/-- The codecs of atoms read null from its marker. -/
theorem AtomCodec.decodes_null {codec : AtomCodec} (hbase : codec.markers.base ≠ Marker.null) :
    Decodes codec.read [Marker.null.toByte] none := by
  unfold AtomCodec.read
  dsimp only
  split
  · refine Decodes.marker_bind ?_
    have hnone : codec.markers.offset? Marker.null = none := by
      unfold MarkerRange.offset?
      exact if_neg fun hmem => codec.markers.ne_null_of_mem hbase hmem rfl
    rw [hnone, if_pos rfl]
    exact .pure none
  · exact (Shortest.decodes_read_null _ _).bind_pure (.pure none)
  · exact (Shortest.decodes_read_null _ _).bind_pure (.pure none)
  · refine Decodes.marker_bind ?_
    rw [if_pos rfl]
    exact .pure none
  all_goals exact (Size.decodes_counted_null _ _ _).bind_pure (.pure none)

/-! ## Parts -/

/-- A part is read back, unless it is null where null is the absence of a part. -/
theorem Decodes.readIn {part : Element} {bytes : List UInt8} {value : Value} (h : Decodes (nested part) bytes value)
    (hnull : part.admitsNull ∨ value ≠ .null) (target : String) :
    Decodes (part.readIn nested target) bytes value := by
  refine h.bind_pure ?_
  have hthere : ¬ (value.isNull ∧ ¬ part.admitsNull) := by
    rintro ⟨habsent, hneeded⟩
    refine hnull.elim hneeded fun hvalue => hvalue ?_
    cases value <;> first | rfl | cases habsent
  rw [if_neg hthere]
  exact .pure value

/-- At the place of a variant is the one that it is written as. -/
theorem getElem?_of_ordinal? [RecordEquality] {type : String} {variants : List UInt16} {index : UInt16} {ordinal : Nat}
    (h : Codec.ordinal? type variants index = some ordinal) :
    ∃ variant, variants[ordinal]? = some variant ∧ Codec.listed? type variants index = some variant ∧
      ordinal < variants.length := by
  induction variants generalizing ordinal with
  | nil => cases h
  | cons variant variants ih =>
    rw [Codec.ordinal?, List.findIdx?_cons] at h
    rw [Codec.listed?, List.find?_cons]
    split at h
    · rename_i hsame
      cases h
      exact ⟨variant, rfl, by rw [hsame], Nat.zero_lt_succ _⟩
    · rename_i hother
      obtain ⟨before, hbefore, rfl⟩ := Option.map_eq_some_iff.1 h
      obtain ⟨listed, hlisted, hfound, hbound⟩ := ih hbefore
      exact ⟨listed, hlisted, by rwa [Bool.eq_false_iff.2 hother], Nat.succ_lt_succ hbound⟩

/-! ## The codecs -/

namespace Codec

variable {markers : MarkerRange} {items : List Value} {size : List UInt8} {parts : List (List UInt8)}

/-- Every codec that leaves null's marker to null reads it as null. -/
theorem decodes_null [RecordEquality] {codec : Codec} (nested : Element → Read Value)
    (hbase : codec = .null ∨ codec.markers.base ≠ Marker.null) :
    Decodes (codec.read nested) [Marker.null.toByte] .null := by
  cases codec with
  | atom codec =>
    have hatom := hbase.resolve_left Codec.noConfusion
    exact (AtomCodec.decodes_null hatom).bind_pure (.pure Value.null)
  | sequence markers kind part => exact (Size.decodes_counted_null _ _ _).bind_pure (.pure Value.null)
  | map markers key value => exact (Size.decodes_counted_null _ _ _).bind_pure (.pure Value.null)
  | _ => exact MarkerRange.decodes_opening_null _ _ _

/-- What the codec of an atom writes starts with one of its markers, and is read back as the atom. -/
theorem decodes_atom [RecordEquality] {codec : AtomCodec} (nested : Element → Read Value)
    (hbase : codec.markers.base ≠ Marker.null) (hcount : codec.markers.count = codec.form.count) {atom : Atom}
    {bytes : List UInt8} (hbytes : Emits (codec.write atom) bytes) :
    StartsIn codec.markers bytes ∧ Decodes ((Codec.atom codec).read nested) bytes (.atom atom) := by
  obtain ⟨hstart, hread⟩ := AtomCodec.decodes_read hbase hcount hbytes
  exact ⟨hstart, hread.bind_pure (.pure (Value.atom atom))⟩

/-- The place of a variant is read as the variant that is listed there. -/
theorem decodes_enumeration [RecordEquality] {name : String} {variants : List UInt16} {index : UInt16} {ordinal : Nat}
    (nested : Element → Read Value) (hbase : markers.base ≠ Marker.null) (hlength : variants.length ≤ 256)
    (hordinal : ordinal? name variants index = some ordinal) :
    Decodes ((Codec.enumeration markers name variants).read nested)
      (markers.base.toByte :: BigEndian.encode 1 (ordinal - 128))
      (.variant name ((listed? name variants index).getD index)) := by
  obtain ⟨variant, hvariant, hlisted, hbound⟩ := getElem?_of_ordinal? hordinal
  have hbyte : Decodes (Input.signed 1) (BigEndian.encode 1 (ordinal - 128)) (ordinal - 128) :=
    Decodes.signed (by omega) (by omega)
  have hplace : ((ordinal : Int) - 128 + 128).toNat = ordinal := by omega
  refine MarkerRange.decodes_opening hbase (hbyte.bind_pure ?_)
  rw [hplace, hvariant, hlisted]
  exact .pure (Value.variant name variant)

/-- A sequence is put together from what its parts are read as, if its size stands in front of them. -/
theorem decodes_sequence [RecordEquality] {kind : SequenceKind} {part : Element} (decoded : Value → Value)
    (hbase : markers.base ≠ Marker.null) (hcount : markers.count = Size.markers)
    (hsize : Emits (Size.write markers.base items.length) size) (hlength : parts.length = items.length)
    (hparts : ∀ pair ∈ items.zip parts, Decodes (part.readIn nested kind.name) pair.2 (decoded pair.1)) :
    StartsIn markers (size ++ parts.flatten) ∧
      Decodes ((Codec.sequence markers kind part).read nested) (size ++ parts.flatten)
        (kind.collect (items.map decoded)) := by
  have hrun := Decodes.repeated id decoded hlength hparts
  rw [List.flatMap_id] at hrun
  obtain ⟨hstart, hread⟩ := Size.decodes_counted hbase hcount
    (fun count => Input.repeated count (part.readIn nested kind.name)) hsize hrun kind.name
  exact ⟨hstart, hread.bind_pure (.pure _)⟩

/-- Elements up to the end marker are read back if none of them starts with that marker. -/
theorem decodes_collection [RecordEquality] {part : Element} (decoded : Value → Value)
    (hbase : markers.base ≠ Marker.null) (hlength : parts.length = items.length)
    (hparts : ∀ pair ∈ items.zip parts, Decodes (part.readIn nested "collection") pair.2 (decoded pair.1) ∧
      ∃ marker tail, pair.2 = marker.toByte :: tail ∧ marker ≠ markers.markerAt 1) :
    Decodes ((Codec.collection markers part).read nested)
      (markers.base.toByte :: (parts.flatten ++ [(markers.markerAt 1).toByte]))
      (.sequence .list (items.map decoded)) := by
  have hrun := Decodes.readDelimited decoded hlength hparts
  exact MarkerRange.decodes_opening hbase (hrun.bind_pure (.pure _))

/-- A map is put together from what its keys and values are read as, in turn, if its size stands in front. -/
theorem decodes_map [RecordEquality] {key value : Element} {entries : List (Value × Value)}
    {parts : List (List UInt8 × List UInt8)} (decodedKey decodedValue : Value → Value)
    (hbase : markers.base ≠ Marker.null) (hcount : markers.count = Size.markers)
    (hsize : Emits (Size.write markers.base entries.length) size) (hlength : parts.length = entries.length)
    (hkeys : ∀ pair ∈ entries.zip parts, Decodes (key.readIn nested "map key") pair.2.1 (decodedKey pair.1.1))
    (hvalues : ∀ pair ∈ entries.zip parts,
      Decodes (value.readIn nested "map value") pair.2.2 (decodedValue pair.1.2)) :
    StartsIn markers (size ++ parts.flatMap fun part => part.1 ++ part.2) ∧
      Decodes ((Codec.map markers key value).read nested) (size ++ parts.flatMap fun part => part.1 ++ part.2)
        (.map (Value.distinctEntries (entries.map fun entry => (decodedKey entry.1, decodedValue entry.2)))) := by
  have hentries : ∀ pair ∈ entries.zip parts, Decodes (do
        let key ← key.readIn nested "map key"
        let value ← value.readIn nested "map value"
        return (key, value)) (pair.2.1 ++ pair.2.2) (decodedKey pair.1.1, decodedValue pair.1.2) :=
    fun pair hpair => (hkeys pair hpair).bind ((hvalues pair hpair).bind_pure (.pure _))
  have hrun := Decodes.repeated (fun part => part.1 ++ part.2)
    (fun entry => (decodedKey entry.1, decodedValue entry.2)) hlength hentries
  obtain ⟨hstart, hread⟩ := Size.decodes_counted hbase hcount
    (fun count => Input.repeated count do
      let key ← key.readIn nested "map key"
      let value ← value.readIn nested "map value"
      return (key, value)) hsize hrun "map"
  exact ⟨hstart, hread.bind_pure (.pure _)⟩

/-- An array is put together from what its items are read as, behind the raw count of them. -/
theorem decodes_array [RecordEquality] {type : ValueType} {part : Element} (decoded : Value → Value)
    (hbase : markers.base ≠ Marker.null) (hmax : items.length ≤ Size.max) (hlength : parts.length = items.length)
    (hparts : ∀ pair ∈ items.zip parts, Decodes (nested part) pair.2 (decoded pair.1)) :
    Decodes ((Codec.array markers type part).read nested)
      (markers.base.toByte :: (BigEndian.encode 4 items.length ++ parts.flatten))
      (.array type (items.map decoded)) := by
  have hsize : Decodes (Input.signed 4) (BigEndian.encode 4 items.length) items.length := by
    unfold Size.max at hmax
    exact Decodes.signed (by omega) (by omega)
  have hrun := Decodes.repeated id decoded hlength hparts
  rw [List.flatMap_id] at hrun
  refine MarkerRange.decodes_opening hbase (hsize.bind ?_)
  rw [if_neg (by omega), Int.toNat_natCast]
  exact hrun.bind_pure (.pure _)

end Codec

/-! ## The first byte -/

/-- A codec that claims as many markers as its form writes, none of them null's. How it codes its parts does not
matter. -/
inductive Codec.Legal : Codec → Prop
  | null : Legal .null
  | atom {codec : AtomCodec} (hbase : codec.markers.base ≠ Marker.null)
      (hcount : codec.markers.count = codec.form.count) : Legal (.atom codec)
  | enumeration {markers : MarkerRange} {type : String} {variants : List UInt16}
      (hbase : markers.base ≠ Marker.null) : Legal (.enumeration markers type variants)
  | sequence {markers : MarkerRange} {kind : SequenceKind} {part : Element} (hbase : markers.base ≠ Marker.null)
      (hcount : markers.count = Size.markers) : Legal (.sequence markers kind part)
  | collection {markers : MarkerRange} {part : Element} (hbase : markers.base ≠ Marker.null)
      (hcount : markers.count = 2) : Legal (.collection markers part)
  | map {markers : MarkerRange} {key value : Element} (hbase : markers.base ≠ Marker.null)
      (hcount : markers.count = Size.markers) : Legal (.map markers key value)
  | array {markers : MarkerRange} {type : ValueType} {part : Element} (hbase : markers.base ≠ Marker.null) :
      Legal (.array markers type part)
  | record {markers : MarkerRange} {type : String} {fresh : List (String × Value)} {fields : List Field}
      (hbase : markers.base ≠ Marker.null) : Legal (.record markers type fresh fields)

/-- Only the codec of null has null's marker. -/
theorem Codec.Legal.base_ne_null {codec : Codec} (h : codec.Legal) :
    codec = .null ∨ codec.markers.base ≠ Marker.null := by
  cases h with
  | null => exact .inl rfl
  | atom hbase _ => exact .inr hbase
  | enumeration hbase => exact .inr hbase
  | sequence hbase _ => exact .inr hbase
  | collection hbase _ => exact .inr hbase
  | map hbase _ => exact .inr hbase
  | array hbase => exact .inr hbase
  | record hbase => exact .inr hbase

/-- The base is a marker to start with. -/
theorem StartsIn.base (markers : MarkerRange) (tail : List UInt8) : StartsIn markers (markers.base.toByte :: tail) :=
  ⟨_, _, rfl, markers.base_mem⟩

/-- A size starts with one of the markers of its tiers. -/
theorem StartsIn.of_size {markers : MarkerRange} {size : Nat} {front : List UInt8}
    (hbase : markers.base ≠ Marker.null) (hcount : markers.count = Size.markers)
    (hsize : Emits (Size.write markers.base size) front) (back : List UInt8) : StartsIn markers (front ++ back) := by
  obtain ⟨⟨marker, tail, rfl, hmarker⟩, -⟩ := Size.decodes_read hbase hcount hsize ""
  exact ⟨marker, tail ++ back, rfl, hmarker⟩

/-- What is written for a value other than null starts with a marker of the codec that writes it. -/
theorem Encodes.startsIn [RecordEquality] {registry : Registry} {value : Value} {element : Element} {bytes : List UInt8}
    {codec : Codec} (h : Encodes registry value element bytes) (hvalue : value ≠ .null)
    (hwriter : element.writer registry value.type = .ok codec) (hlegal : codec.Legal) :
    StartsIn codec.markers bytes := by
  cases h with
  | null => exact absurd rfl hvalue
  | atom hfound hbytes =>
    cases hfound.symm.trans hwriter
    cases hlegal with
    | atom hbase hcount => exact (AtomCodec.decodes_read hbase hcount hbytes).1
  | variant hfound _ =>
    cases hfound.symm.trans hwriter
    exact .base _ _
  | sized hfound hsize _ _ =>
    cases hfound.symm.trans hwriter
    cases hlegal with
    | sequence hbase hcount => exact .of_size hbase hcount hsize _
  | delimited hfound _ _ _ =>
    cases hfound.symm.trans hwriter
    exact .base _ _
  | map hfound hsize _ _ _ =>
    cases hfound.symm.trans hwriter
    cases hlegal with
    | map hbase hcount => exact .of_size hbase hcount hsize _
  | array hfound _ _ _ =>
    cases hfound.symm.trans hwriter
    exact .base _ _
  | record hfound _ _ =>
    cases hfound.symm.trans hwriter
    exact .base _ _

end Bytemark
