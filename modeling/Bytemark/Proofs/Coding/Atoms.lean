import Bytemark.Proofs.Coding.Packing
import Bytemark.Proofs.Coding.Texts

/-!
# Atoms are read back

Every atom is read back by the codec that wrote it, words and floating-point bits unchanged, and its first byte is one
of the codec's markers. A codec has to claim as many markers as its form needs, and none of them may be null; the codecs
that `AtomCodec.of` makes do so.
-/

set_option autoImplicit false

-- A power of a number is the core library's, also where monoids have powers of their own.
attribute [local instance (2000)] instPowNat instNatPowNat Int.instNatPow

namespace Bytemark

/-- The code point of a character is read as this character. -/
theorem scalar_toNat (char : Char) : scalar char.toNat = .ok char := by
  have hbounds := Utf8.toNat_bounds char
  have hcode : ((char.toNat : Int) % 2 ^ (32 : Nat)).toNat = char.toNat := by
    rw [Int.emod_eq_of_lt (by omega) (by omega), Int.toNat_natCast]
  unfold scalar
  dsimp only
  rw [hcode, if_pos (show char.toNat.isValidChar from char.valid), Char.ofNat_toNat]

/-- A code point takes at most three bytes. -/
theorem minWidth_toNat_le (char : Char) : BigEndian.minWidth char.toNat ≤ 3 := by
  have hbounds := Utf8.toNat_bounds char
  apply BigEndian.minWidth_le_iff.2
  omega

/-- A word takes no more bytes than its kind has. -/
theorem minWidth_toInt_le {kind : WordKind} (bits : Word kind) : BigEndian.minWidth bits.toInt ≤ kind.width := by
  have hlow := bits.le_toInt
  have hhigh := bits.toInt_lt
  cases kind <;>
    exact BigEndian.minWidth_le_iff.2 ⟨by simpa [WordKind.width] using hlow, by simpa [WordKind.width] using hhigh⟩

/-- A word of an array is read back from its shortest form, under the markers that words have there. -/
theorem AtomCodec.decodes_readWord {kind : WordKind} {word : Word kind} {bytes : List UInt8}
    (h : Emits (Shortest.write kind.innerMarkers word.toInt) bytes) (array : String) :
    Decodes (readWord kind array) bytes word := by
  have hbase : kind.innerMarkers.base ≠ Marker.null := by
    show (0 : Marker) ≠ Marker.null
    decide
  obtain ⟨-, hread⟩ := Shortest.decodes_read hbase (minWidth_toInt_le word) h kind.name
  refine hread.bind_pure ?_
  dsimp only
  rw [Word.ofInt, BitVec.ofInt_toInt]
  exact .pure word

/-- What the words of an array are written as does not depend on what stands in front of them. -/
theorem AtomCodec.uniform_writeWords {kind : WordKind} (items : List (Word kind)) :
    Uniform (items.forM fun item => Shortest.write kind.innerMarkers item.toInt) :=
  .forM fun _ _ => Shortest.uniform_write ..

/-- Words of eight bits are the bytes of their values. -/
theorem map_toBitVec_map_ofNat (items : List (Word .byte)) :
    (items.map fun item => UInt8.ofNat item.toNat).map UInt8.toBitVec = items := by
  rw [List.map_map]
  conv => rhs; rw [← List.map_id items]
  refine List.map_congr_left fun item _ => ?_
  apply BitVec.eq_of_toNat_eq
  exact Nat.mod_eq_of_lt item.isLt

/-- The words of an array are read back one after the other. -/
theorem AtomCodec.decodes_repeated_readWord {kind : WordKind} {items : List (Word kind)} {bytes : List UInt8}
    (h : Emits (items.forM fun item => Shortest.write kind.innerMarkers item.toInt) bytes) (array : String) :
    Decodes (Input.repeated items.length (readWord kind array)) bytes items := by
  obtain ⟨parts, rfl, hlength, hparts⟩ := h.forM_parts id _ (fun item _ => Shortest.uniform_write ..)
    fun item _ bytes hbytes => ⟨bytes, rfl, decodes_readWord hbytes array⟩
  have hall := Decodes.repeated id id hlength hparts
  rwa [List.map_id] at hall

/-! ## One form after the other -/

namespace AtomCodec

section Forms

variable {markers : MarkerRange} {bytes : List UInt8}

/-- A boolean is told by its marker alone. -/
theorem decodes_bool (hcount : markers.count = AtomForm.count .bool) {value : Bool}
    (h : Emits (write ⟨.bool, markers⟩ (.bool value)) bytes) :
    StartsIn markers bytes ∧ Decodes (read ⟨.bool, markers⟩) bytes (some (.bool value)) := by
  have hoffset : (if value then 0 else 1) < markers.count := by
    rw [hcount]
    cases value <;> decide
  have hmem := markers.markerAt_mem hoffset
  obtain rfl := h.unique (.marker _)
  refine ⟨⟨_, _, rfl, hmem⟩, Decodes.marker_bind ?_⟩
  rw [MarkerRange.offset?_markerAt markers hoffset]
  cases value <;> exact .pure _

/-- A character is read back from the shortest form of its code point. -/
theorem decodes_char (hbase : markers.base ≠ Marker.null) (hcount : markers.count = AtomForm.count .char)
    {value : Char} (h : Emits (write ⟨.char, markers⟩ (.char value)) bytes) :
    StartsIn markers bytes ∧ Decodes (read ⟨.char, markers⟩) bytes (some (.char value)) := by
  have hwidth : BigEndian.minWidth value.toNat ≤ markers.count := by
    rw [hcount]
    exact minWidth_toNat_le value
  obtain ⟨hstart, hread⟩ := Shortest.decodes_read hbase hwidth h (name ⟨.char, markers⟩)
  refine ⟨hstart, hread.bind_pure ?_⟩
  exact (Decodes.ofExcept (scalar_toNat value)).bind_pure (.pure _)

/-- A word is read back from its shortest form. -/
theorem decodes_word {kind : WordKind} (hbase : markers.base ≠ Marker.null) (hcount : markers.count = kind.width)
    {bits : Word kind} (h : Emits (Shortest.write markers bits.toInt) bytes) :
    StartsIn markers bytes ∧ Decodes (read ⟨.word kind, markers⟩) bytes (some (.word kind bits)) := by
  have hwidth : BigEndian.minWidth bits.toInt ≤ markers.count := by
    rw [hcount]
    exact minWidth_toInt_le bits
  obtain ⟨hstart, hread⟩ := Shortest.decodes_read hbase hwidth h (name ⟨.word kind, markers⟩)
  refine ⟨hstart, hread.bind_pure ?_⟩
  rw [Option.map_some, Word.ofInt, BitVec.ofInt_toInt]
  exact .pure _

/-- A text is read back, whether its length is in the marker or in a size of its own. -/
theorem decodes_string {inline : Nat} (hbase : markers.base ≠ Marker.null)
    (hcount : markers.count = AtomForm.count (.string inline)) {text : String}
    (h : Emits (write ⟨.string inline, markers⟩ (.string text)) bytes) :
    StartsIn markers bytes ∧ Decodes (read ⟨.string inline, markers⟩) bytes (some (.string text)) := by
  obtain ⟨hmax, rfl⟩ := (emits_string_iff (inline_le_max hcount)).1 h
  have hheader : TextHeader markers inline text.utf8ByteSize _ := .of_written hmax
  refine ⟨startsIn_header hcount hheader _, fun rest => ?_⟩
  exact (read_string_eq_some_iff hcount hbase).2 ⟨text, _, rfl, hheader, rfl⟩

/-- Packed booleans are read back from their count and the bytes that they fill. -/
theorem decodes_bools (hbase : markers.base ≠ Marker.null) (hcount : markers.count = Size.markers)
    {items : List Bool} (h : Emits (write ⟨.bools, markers⟩ (.bools items)) bytes) :
    StartsIn markers bytes ∧ Decodes (read ⟨.bools, markers⟩) bytes (some (.bools items)) := by
  obtain ⟨front, back, hfront, hback, rfl⟩ := (Size.uniform_write ..).emits_bind (.of_emits (.bytes _)) h
  obtain rfl := hback.unique (.bytes _)
  obtain ⟨hstart, hread⟩ := Size.decodes_counted hbase hcount Bits.read hfront (Bits.decodes_read items) _
  exact ⟨hstart, hread.bind_pure (.pure _)⟩

/-- An array of characters is read back from the size of its text. -/
theorem decodes_chars (hbase : markers.base ≠ Marker.null) (hcount : markers.count = Size.markers)
    {items : List Char} (h : Emits (write ⟨.chars, markers⟩ (.chars items)) bytes) :
    StartsIn markers bytes ∧ Decodes (read ⟨.chars, markers⟩) bytes (some (.chars items)) := by
  obtain ⟨front, back, hfront, hback, rfl⟩ := (Size.uniform_write ..).emits_bind (.of_emits (.bytes _)) h
  obtain rfl := hback.unique (.bytes _)
  obtain ⟨hstart, hread⟩ := Size.decodes_counted hbase hcount Utf8.read hfront (Utf8.decodes_read items) _
  exact ⟨hstart, hread.bind_pure (.pure _)⟩

/-- An array of words is read back, both from plain bytes and from words with markers of their own. -/
theorem decodes_words {kind : WordKind} (hbase : markers.base ≠ Marker.null) (hcount : markers.count = Size.markers)
    {items : List (Word kind)} (h : Emits (write ⟨.words kind, markers⟩ (.words kind items)) bytes) :
    StartsIn markers bytes ∧ Decodes (read ⟨.words kind, markers⟩) bytes (some (.words kind items)) := by
  unfold write at h
  dsimp only at h
  rw [if_pos rfl] at h
  -- Bytes are written as they are, and every other word with a marker of its own.
  cases kind with
  | byte =>
    obtain ⟨front, back, hfront, hback, rfl⟩ := (Size.uniform_write ..).emits_bind (.of_emits (.bytes _)) h
    obtain rfl := hback.unique (.bytes _)
    have hbytes := Decodes.bytes (items.map fun item => UInt8.ofNat item.toNat) (List.length_map ..)
    obtain ⟨hstart, hread⟩ := Size.decodes_counted hbase hcount Input.bytes hfront hbytes _
    refine ⟨hstart, hread.bind_pure fun rest => ?_⟩
    exact congrArg (fun words => EStateM.Result.ok (some (Atom.words .byte words)) rest) (map_toBitVec_map_ofNat items)
  | _ =>
    obtain ⟨front, back, hfront, hback, rfl⟩ := (Size.uniform_write ..).emits_bind (uniform_writeWords items) h
    obtain ⟨hstart, hread⟩ := Size.decodes_counted hbase hcount
      (fun count => Input.repeated count (readWord _ _)) hfront (decodes_repeated_readWord hback _) _
    exact ⟨hstart, hread.bind_pure (.pure _)⟩

end Forms

/-- An atom is read back by the codec that wrote it. -/
theorem decodes_read {codec : AtomCodec} (hbase : codec.markers.base ≠ Marker.null)
    (hcount : codec.markers.count = codec.form.count) {atom : Atom} {bytes : List UInt8}
    (h : Emits (codec.write atom) bytes) :
    StartsIn codec.markers bytes ∧ Decodes codec.read bytes (some atom) := by
  obtain ⟨form, markers⟩ := codec
  have hform := h
  unfold write at hform
  dsimp only at hbase hcount hform ⊢
  split at hform
  · exact decodes_bool hcount h
  · exact decodes_char hbase hcount h
  · split at hform
    · subst_vars
      exact decodes_word hbase hcount hform
    · exact absurd hform not_emits_throw
  · exact decodes_string hbase hcount h
  · exact decodes_bools hbase hcount h
  · exact decodes_chars hbase hcount h
  · split at hform
    · subst_vars
      exact decodes_words hbase hcount h
    · exact absurd hform not_emits_throw
  · exact absurd hform not_emits_throw

end AtomCodec

end Bytemark
