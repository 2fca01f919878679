import Bytemark.Codec.Atom
import Bytemark.Proofs.Coding.Sizes
import Bytemark.Text.Utf8.Lemmas

/-!
# The forms of a string

A string is a *header*, which announces the number of its bytes, and the bytes. What is read as a string is a header of
its length and its bytes, and nothing else (`AtomCodec.read_string_eq_some_iff`). So the bytes of a string have as many
forms as its length has headers: the marker of its own that a short length has, and the length as a size in every tier
that holds it. The shortest one is written, and the others are the *loose* ones (`TextHeader.eq_or_loose`).

The bytes of a string are Lean's own UTF-8, to which the characters' bytes are proved equal first.
-/

set_option autoImplicit false

namespace Bytemark

namespace Utf8

variable {count : Nat} {input rest payload : List UInt8} {chars : List Char}

/-- Characters are written as the standard library writes them. -/
theorem encodeChar_eq_utf8EncodeChar (char : Char) : encodeChar char = String.utf8EncodeChar char := by
  have hbounds := toNat_bounds char
  unfold encodeChar String.utf8EncodeChar
  rw [show char.val.toNat = char.toNat from rfl]
  generalize char.toNat = code at hbounds ⊢
  -- The two agree on where the longer forms start, and a digit keeps its value below the first byte's own bits.
  dsimp only
  by_cases hone : code < 0x80
  · rw [if_pos hone, if_pos (by omega)]
  rw [if_neg hone, if_neg (show ¬ code ≤ 127 by omega)]
  by_cases htwo : code < 0x800
  · rw [if_pos htwo, if_pos (by omega), show 0xC0 + code / 0x40 = code / 64 % 32 + 192 by omega,
      Nat.add_comm 0x80]
  rw [if_neg htwo, if_neg (show ¬ code ≤ 2047 by omega)]
  by_cases hthree : code < 0x10000
  · rw [if_pos hthree, if_pos (by omega), show 0xE0 + code / 0x1000 = code / 4096 % 16 + 224 by omega,
      Nat.add_comm 0x80, Nat.add_comm 0x80]
  rw [if_neg hthree, if_neg (show ¬ code ≤ 65535 by omega),
    show 0xF0 + code / 0x40000 = code / 262144 % 8 + 240 by omega, Nat.add_comm 0x80, Nat.add_comm 0x80,
    Nat.add_comm 0x80]

/-- Texts are written as the standard library writes them. -/
theorem utf8Encode_eq_encode (chars : List Char) : chars.utf8Encode = (encode chars).toByteArray := by
  have hchars : encodeChar = String.utf8EncodeChar := funext encodeChar_eq_utf8EncodeChar
  rw [List.utf8Encode, encode, hchars]

/-- The bytes of a string's characters are the bytes of the string. -/
theorem encode_toList (text : String) : encode text.toList = text.toUTF8.data.toList := by
  have hbytes : text.toUTF8 = (encode text.toList).toByteArray := by
    rw [← utf8Encode_eq_encode, String.utf8Encode_toList]
    rfl
  rw [hbytes, List.toList_data_toByteArray]

/-- The standard library takes the bytes as a text if they are the written form of one. -/
theorem isValidUTF8_iff : payload.toByteArray.IsValidUTF8 ↔ ∃ chars, payload = encode chars := by
  constructor
  · rintro ⟨chars, hpayload⟩
    rw [utf8Encode_eq_encode] at hpayload
    have hbytes := congrArg (fun bytes => bytes.data.toList) hpayload
    refine ⟨chars, ?_⟩
    simpa only [List.toList_data_toByteArray] using hbytes
  · rintro ⟨chars, rfl⟩
    exact ⟨chars, (utf8Encode_eq_encode chars).symm⟩

/-- What is read as so many bytes of text is the text's only form. -/
theorem read_eq_ok_iff :
    read count input = .ok chars rest ↔ input = encode chars ++ rest ∧ (encode chars).length = count := by
  constructor
  · intro h
    obtain ⟨bytes, mid, hbytes, hchars⟩ := bind_eq_ok_iff.1 h
    obtain ⟨rfl, hlength⟩ := Input.bytes_eq_ok_iff.1 hbytes
    cases hdecode : decode bytes with
    | ok chars' =>
      rw [hdecode] at hchars
      cases hchars
      obtain rfl := decode_eq_ok_iff.1 hdecode
      exact ⟨rfl, hlength⟩
    | error fault =>
      rw [hdecode] at hchars
      cases hchars
  · rintro ⟨rfl, hlength⟩
    refine bind_eq_ok_iff.2 ⟨_, rest, Input.bytes_eq_ok_iff.2 ⟨rfl, hlength⟩, ?_⟩
    rw [decode_encode]
    rfl

/-- A text is read back from its bytes, if their number is known. -/
theorem decodes_read (chars : List Char) : Decodes (read (encode chars).length) (encode chars) chars :=
  fun _ => read_eq_ok_iff.2 ⟨rfl, rfl⟩

/-- Bytes that are no text are refused. -/
theorem read_of_not_isValidUTF8 (hlength : payload.length = count) (hpayload : ¬ payload.toByteArray.IsValidUTF8) :
    ∃ fault, read count (payload ++ rest) = .error (.invalidUtf8 fault) rest := by
  cases hdecode : decode payload with
  | ok chars => exact absurd (isValidUTF8_iff.2 ⟨chars, decode_eq_ok_iff.1 hdecode⟩) hpayload
  | error fault =>
    refine ⟨fault, bind_eq_error_iff.2 (.inr ⟨payload, rest, ?_, ?_⟩)⟩
    · exact Input.bytes_eq_ok_iff.2 ⟨rfl, hlength⟩
    · rw [hdecode]
      rfl

end Utf8

/-! ## What announces the length of a string -/

/-- What announces `length` bytes of a string: the marker of its own that each of the first `inline` lengths has, and
the length as a size in a tier that holds it, behind the markers after those. -/
inductive TextHeader (markers : MarkerRange) (inline length : Nat) : List UInt8 → Prop
  | inline (hshort : length < inline) : TextHeader markers inline length [(markers.markerAt length).toByte]
  | sized {tier : Nat} (htier : tier < Size.markers) (hholds : Size.Holds tier length) :
      TextHeader markers inline length (Size.form (markers.markerAt inline) tier length)

/-- A size is loose where the length has a marker of its own, and in the last tier where an earlier one holds it. -/
def TextHeader.Loose (markers : MarkerRange) (inline length : Nat) (header : List UInt8) : Prop :=
  ∃ tier, tier < Size.markers ∧ header = Size.form (markers.markerAt inline) tier length ∧
    (length < inline ∨ tier = 3 ∧ length < 16843008)

/-- The header that is written. -/
def TextHeader.written (markers : MarkerRange) (inline length : Nat) : List UInt8 :=
  if length < inline then
    [(markers.markerAt length).toByte]
  else
    Size.form (markers.markerAt inline) (Size.tier length) length

namespace TextHeader

variable {markers : MarkerRange} {inline length : Nat} {header : List UInt8}

/-- An accepted header never announces more than a size can tell. -/
theorem length_le_max (hinline : inline ≤ Size.max) (h : TextHeader markers inline length header) :
    length ≤ Size.max := by
  cases h with
  | inline hshort => omega
  | sized htier hholds => exact ((Size.holds_iff htier).1 hholds).1

/-- The header that is written is one of those that are accepted. -/
theorem of_written (hmax : length ≤ Size.max) : TextHeader markers inline length (written markers inline length) := by
  unfold written
  split
  · rename_i hshort
    exact .inline hshort
  · exact .sized (Size.tier_lt length) ((Size.holds_iff (Size.tier_lt length)).2 ⟨hmax, .inl rfl⟩)

/-- A loose header is longer than the one that is written, and every other header is the written one. -/
theorem eq_or_loose (h : TextHeader markers inline length header) :
    (Loose markers inline length header ∧ (written markers inline length).length < header.length) ∨
      (¬ Loose markers inline length header ∧ header = written markers inline length) := by
  cases h with
  | inline hshort =>
    refine .inr ⟨?_, (if_pos hshort).symm⟩
    rintro ⟨tier, -, hsame, -⟩
    have hlengths := congrArg List.length hsame
    rw [Size.length_form] at hlengths
    cases hlengths
  | @sized tier htier hholds =>
    have hform := ((Size.holds_iff htier).1 hholds).2
    have hlast : Size.tier length = 3 ↔ 16843008 ≤ length := Size.tier_eq_three_iff
    have hleast := Size.tier_le_three length
    by_cases hloose : length < inline ∨ tier = 3 ∧ length < 16843008
    · refine .inl ⟨⟨tier, htier, rfl, hloose⟩, ?_⟩
      unfold written
      split
      · rw [Size.length_form, List.length_singleton]
        omega
      · rw [Size.length_form, Size.length_form]
        omega
    · refine .inr ⟨?_, ?_⟩
      · rintro ⟨tier', -, hsame, hloose'⟩
        have hlengths := congrArg List.length hsame
        rw [Size.length_form, Size.length_form] at hlengths
        omega
      · have htiers : tier = Size.tier length := by omega
        rw [written, if_neg (by omega), htiers]

end TextHeader

namespace AtomCodec

variable {markers : MarkerRange} {inline length : Nat} {header input rest tail : List UInt8} {atom : Atom}

/-- Reads a string of so many bytes. -/
def readAnnounced (length : Nat) : Read (Option Atom) := do
  return some (.string (String.ofList (← Utf8.read length)))

/-- The bytes of a string are read as this string alone. -/
theorem readAnnounced_eq_some_iff : readAnnounced length input = .ok (some atom) rest ↔
    ∃ text : String, atom = .string text ∧ text.utf8ByteSize = length ∧
      input = text.toUTF8.data.toList ++ rest := by
  have hsize : ∀ text : String, text.toUTF8.data.toList.length = text.utf8ByteSize := fun _ => rfl
  constructor
  · intro h
    obtain ⟨chars, mid, hchars, hpure⟩ := bind_eq_ok_iff.1 h
    cases hpure
    obtain ⟨rfl, hlength⟩ := Utf8.read_eq_ok_iff.1 hchars
    have hbytes := Utf8.encode_toList (String.ofList chars)
    rw [String.toList_ofList] at hbytes
    refine ⟨String.ofList chars, rfl, ?_, by rw [hbytes]⟩
    rw [← hsize, ← hbytes, hlength]
  · rintro ⟨text, rfl, rfl, rfl⟩
    refine bind_eq_ok_iff.2 ⟨text.toList, rest, ?_, ?_⟩
    · rw [Utf8.read_eq_ok_iff, Utf8.encode_toList]
      exact ⟨rfl, hsize text⟩
    · rw [String.ofList_toList]
      rfl

section Header

variable (hcount : markers.count = AtomForm.count (.string inline)) (hbase : markers.base ≠ Marker.null)

section Count

include hcount

/-- Lengths that a marker can tell are far below the greatest size. -/
theorem inline_le_max : inline ≤ Size.max := by
  have hfits := markers.fits
  have hleast := Int8.le_toInt markers.base
  simp only [hcount, AtomForm.count, Size.markers, Size.max] at hfits ⊢
  omega

/-- The marker of a tier is the one so many places after the first `inline`. -/
theorem markerAt_inline_add {tier : Nat} (htier : tier < Size.markers) :
    inline + tier < markers.count ∧
      (markers.markerAt (inline + tier)).toInt = (markers.markerAt inline).toInt + tier ∧
      markers.markerAt inline + Int8.ofNat tier = markers.markerAt (inline + tier) := by
  have hfits := markers.fits
  have hmarkers : markers.count = inline + Size.markers := hcount
  have hpos : 0 < Size.markers := by decide
  have hoffset : inline + tier < markers.count := by omega
  have hlast := markers.toInt_markerAt hoffset
  have hfirst := markers.toInt_markerAt (show inline < markers.count by omega)
  have hsum : (markers.markerAt (inline + tier)).toInt = (markers.markerAt inline).toInt + tier := by omega
  refine ⟨hoffset, hsum, ?_⟩
  apply Int8.toInt_inj.1
  rw [Size.toInt_add_ofNat (by omega) htier, hsum]

/-- Every accepted header starts with a marker of the codec. -/
theorem startsIn_header (hheader : TextHeader markers inline length header) (tail : List UInt8) :
    StartsIn markers (header ++ tail) := by
  have hmarkers : markers.count = inline + Size.markers := hcount
  cases hheader with
  | inline hshort => exact ⟨_, _, rfl, markers.markerAt_mem (by omega)⟩
  | sized htier hholds =>
    obtain ⟨hoffset, -, hadd⟩ := markerAt_inline_add hcount htier
    rw [Size.form, hadd]
    exact ⟨_, _, rfl, markers.markerAt_mem hoffset⟩

end Count

include hbase

/-- The distance of the marker is the length itself, or leads to the tier of a size. -/
theorem read_string_markerAt {offset : Nat} (hoffset : offset < markers.count) (tail : List UInt8) :
    read ⟨.string inline, markers⟩ ((markers.markerAt offset).toByte :: tail) =
      (if offset < inline then readAnnounced offset
        else Size.readPayload (markers.markerAt offset) (markers.markerAt inline) "string" >>= readAnnounced) tail := by
  have hnull := markers.ne_null_of_mem hbase (markers.markerAt_mem hoffset)
  simp only [read, bind, EStateM.bind, Input.marker, Marker.ofByte_toByte, if_neg hnull,
    markers.offset?_markerAt hoffset]
  split <;> rfl

include hcount

/-- Behind an accepted header the text is read by the length that the header announces. -/
theorem read_string_header (hheader : TextHeader markers inline length header) (tail : List UInt8) :
    read ⟨.string inline, markers⟩ (header ++ tail) = readAnnounced length tail := by
  have hmarkers : markers.count = inline + Size.markers := hcount
  cases hheader with
  | inline hshort =>
    rw [List.singleton_append, read_string_markerAt hbase (by omega), if_pos hshort]
  | @sized tier htier hholds =>
    obtain ⟨hoffset, hmarker, hadd⟩ := markerAt_inline_add hcount htier
    have hpayload := Size.decodes_distance hmarker htier hholds "string" tail
    rw [Size.form, hadd, List.cons_append, read_string_markerAt hbase hoffset, if_neg (by omega)]
    simp only [bind, EStateM.bind, hpayload]

/-- What is read as an atom starts with a header, which announces the rest. -/
theorem exists_header (hread : read ⟨.string inline, markers⟩ input = .ok (some atom) rest) :
    ∃ length header tail, TextHeader markers inline length header ∧ input = header ++ tail ∧
      readAnnounced length tail = .ok (some atom) rest := by
  cases input with
  | nil => cases hread
  | cons byte tail =>
    obtain ⟨offset, hoffset, rfl⟩ : ∃ offset, offset < markers.count ∧ byte = (markers.markerAt offset).toByte := by
      obtain ⟨marker, mid, hmarker, hrest⟩ := bind_eq_ok_iff.1 hread
      cases hmarker
      by_cases hnull : Marker.ofByte byte = Marker.null
      · rw [if_pos hnull] at hrest
        cases hrest
      rw [if_neg hnull] at hrest
      cases hoffset : markers.offset? (Marker.ofByte byte) with
      | none =>
        rw [hoffset] at hrest
        cases hrest
      | some offset =>
        obtain ⟨hbound, hmarker⟩ := MarkerRange.offset?_eq_some_iff.1 hoffset
        exact ⟨offset, hbound, by rw [← hmarker, Marker.toByte_ofByte]⟩
    rw [read_string_markerAt hbase hoffset] at hread
    by_cases hshort : offset < inline
    · rw [if_pos hshort] at hread
      exact ⟨offset, _, tail, .inline hshort, rfl, hread⟩
    · rw [if_neg hshort] at hread
      obtain ⟨length, mid, hpayload, htext⟩ := bind_eq_ok_iff.1 hread
      obtain ⟨tier, htier, hmarker, hholds, rfl⟩ := Size.readPayload_eq_ok_iff.1 hpayload
      obtain ⟨hoffset', hmarker', hadd⟩ := markerAt_inline_add hcount htier
      have hsame : markers.markerAt (inline + tier) = markers.markerAt offset := by
        apply Int8.toInt_inj.1
        rw [hmarker, hmarker']
      refine ⟨length, _, mid, .sized htier hholds, ?_, htext⟩
      rw [Size.form, hadd, hsame]
      rfl

/-- What is read as a string is a header of its length and its bytes. -/
theorem read_string_eq_some_iff : read ⟨.string inline, markers⟩ input = .ok (some atom) rest ↔
    ∃ (text : String) (header : List UInt8), atom = .string text ∧
      TextHeader markers inline text.utf8ByteSize header ∧ input = header ++ text.toUTF8.data.toList ++ rest := by
  constructor
  · intro hread
    obtain ⟨length, header, tail, hheader, rfl, htext⟩ := exists_header hcount hbase hread
    obtain ⟨text, rfl, rfl, rfl⟩ := readAnnounced_eq_some_iff.1 htext
    exact ⟨text, header, rfl, hheader, by rw [List.append_assoc]⟩
  · rintro ⟨text, header, rfl, hheader, rfl⟩
    rw [List.append_assoc, read_string_header hcount hbase hheader]
    exact readAnnounced_eq_some_iff.2 ⟨text, rfl, rfl, rfl⟩

end Header

/-- A string is written as its shortest header and its bytes. -/
theorem emits_string_iff (hinline : inline ≤ Size.max) {text : String} {bytes : List UInt8} :
    Emits (write ⟨.string inline, markers⟩ (.string text)) bytes ↔ text.utf8ByteSize ≤ Size.max ∧
      bytes = TextHeader.written markers inline text.utf8ByteSize ++ text.toUTF8.data.toList := by
  have hlength : (Utf8.encode text.toList).length = text.utf8ByteSize := by
    rw [Utf8.encode_toList]
    rfl
  have hcontent (header : List UInt8) : Uniform (Output.bytes header) := .of_emits (.bytes header)
  unfold write TextHeader.written
  dsimp only
  rw [hlength, Utf8.encode_toList]
  split
  · have hboth : Emits (do
        Output.marker (markers.markerAt text.utf8ByteSize)
        Output.bytes text.toUTF8.data.toList) _ := (Emits.marker _).bind (Emits.bytes _)
    constructor
    · intro h
      exact ⟨by omega, h.unique hboth⟩
    · rintro ⟨-, rfl⟩
      exact hboth
  · constructor
    · intro h
      obtain ⟨header, content, hheader, hbytes, rfl⟩ := (Size.uniform_write ..).emits_bind (hcontent _) h
      obtain ⟨hmax, rfl⟩ := Size.emits_write_iff.1 hheader
      obtain rfl := hbytes.unique (.bytes _)
      exact ⟨hmax, rfl⟩
    · rintro ⟨hmax, rfl⟩
      exact (Size.emits_write_iff.2 ⟨hmax, rfl⟩).bind (Emits.bytes _)

/-- The codec of strings with any number of inline lengths can be made wherever its markers are above null's and end at
127 or before. A string is written as the marker of its length if that is one of the inline lengths, and as the size of
its length at the last four markers otherwise, before its UTF-8 bytes; so written it is read back, whatever follows.
What is read is a header of a string's length and the string's bytes, and nothing else. Unless the header is loose, the
bytes are those that the string is written in, and if it is loose, the string is written in fewer. Bytes that are not
UTF-8 are refused behind every header. -/
theorem string_canonical {base : Marker} (hlow : -127 ≤ base.toInt)
    (hfits : base.toInt + (inline + Size.markers : Nat) ≤ 128) :
    ∃ codec, AtomCodec.of (.string inline) base = .ok codec ∧ codec.markers.base = base ∧
      (∀ text : String, text.utf8ByteSize ≤ Size.max → ∃ header,
        (text.utf8ByteSize < inline → header = [(codec.markers.markerAt text.utf8ByteSize).toByte]) ∧
        (inline ≤ text.utf8ByteSize → Emits (Size.write (codec.markers.markerAt inline) text.utf8ByteSize) header) ∧
        Emits (codec.write (.string text)) (header ++ text.toUTF8.data.toList) ∧
        Decodes codec.read (header ++ text.toUTF8.data.toList) (some (.string text))) ∧
      (∀ input atom rest, codec.read input = .ok (some atom) rest ↔
        ∃ (text : String) (header : List UInt8), atom = .string text ∧
          TextHeader codec.markers inline text.utf8ByteSize header ∧
          input = header ++ text.toUTF8.data.toList ++ rest) ∧
      (∀ (text : String) (header : List UInt8), TextHeader codec.markers inline text.utf8ByteSize header →
        ∃ written, Emits (codec.write (.string text)) written ∧
          (¬ TextHeader.Loose codec.markers inline text.utf8ByteSize header →
            written = header ++ text.toUTF8.data.toList) ∧
          (TextHeader.Loose codec.markers inline text.utf8ByteSize header →
            written.length < (header ++ text.toUTF8.data.toList).length)) ∧
      ∀ header payload rest, TextHeader codec.markers inline payload.length header →
        ¬ payload.toByteArray.IsValidUTF8 → ∃ fault,
          codec.read (header ++ payload ++ rest) = .error (.invalidUtf8 fault) rest := by
  obtain ⟨markers, hof, rfl, hcount⟩ := @exists_of (.string inline) base hlow hfits
  have hbase := Marker.ne_null_of_le hlow
  have hinline := inline_le_max hcount
  refine ⟨⟨_, markers⟩, hof, rfl, fun text hmax => ?_, fun input atom rest => read_string_eq_some_iff hcount hbase,
    fun text header hheader => ?_, fun header payload rest hheader hpayload => ?_⟩
  · refine ⟨TextHeader.written markers inline text.utf8ByteSize, fun hshort => if_pos hshort, fun hlong => ?_,
      (emits_string_iff hinline).2 ⟨hmax, rfl⟩, fun rest => ?_⟩
    · rw [TextHeader.written, if_neg (by omega)]
      exact Size.emits_write_iff.2 ⟨hmax, rfl⟩
    · exact (read_string_eq_some_iff hcount hbase).2 ⟨text, _, rfl, .of_written hmax, rfl⟩
  · refine ⟨_, (emits_string_iff hinline).2 ⟨hheader.length_le_max hinline, rfl⟩, ?_⟩
    rcases hheader.eq_or_loose with ⟨hloose, hlonger⟩ | ⟨htight, hsame⟩
    · refine ⟨fun htight => absurd hloose htight, fun _ => ?_⟩
      simpa only [List.length_append, Nat.add_lt_add_iff_right] using hlonger
    · exact ⟨fun _ => by rw [hsame], fun hloose => absurd hloose htight⟩
  · obtain ⟨fault, hfault⟩ : ∃ fault, Utf8.read payload.length (payload ++ rest) = .error (.invalidUtf8 fault) rest :=
      Utf8.read_of_not_isValidUTF8 rfl hpayload
    refine ⟨fault, ?_⟩
    rw [List.append_assoc, read_string_header hcount hbase hheader]
    exact bind_eq_error_iff.2 (.inl hfault)

/-- With three inline lengths at the last seven markers, two bytes of text have a marker of their own; behind a size
they are read too, and a byte that starts no character is refused. -/
theorem string_canonical_edge :
    -127 ≤ (121 : Marker).toInt ∧ (121 : Marker).toInt + (3 + Size.markers : Nat) ≤ 128 ∧
    ∃ codec, AtomCodec.of (.string 3) 121 = .ok codec ∧
      Emits (codec.write (.string "λ")) [123, 206, 187] ∧
      Decodes codec.read [124, 130, 206, 187] (some (.string "λ")) ∧
      ∀ rest, ∃ fault, codec.read (122 :: 0xFF :: rest) = .error (.invalidUtf8 fault) rest := by
  have hlow : -127 ≤ (121 : Marker).toInt := by decide
  have hfits : (121 : Marker).toInt + (3 + Size.markers : Nat) ≤ 128 := by decide
  obtain ⟨codec, hof, hbase, hwrite, hread, -, hrefused⟩ := string_canonical hlow hfits
  have hmarker : ∀ offset, codec.markers.markerAt offset = Int8.ofInt (121 + offset) := by
    intro offset
    rw [MarkerRange.markerAt, hbase]
    rfl
  refine ⟨hlow, hfits, codec, hof, ?_, fun rest => ?_, fun rest => ?_⟩
  · obtain ⟨header, hshort, -, hemits, -⟩ := hwrite "λ" (by decide)
    obtain rfl := hshort (by decide)
    rw [hmarker] at hemits
    exact hemits
  · refine (hread _ _ rest).2 ⟨"λ", [124, 130], rfl, ?_, rfl⟩
    have hsized : TextHeader codec.markers 3 "λ".utf8ByteSize (Size.form (codec.markers.markerAt 3) 0 2) :=
      .sized (by decide) ⟨by decide, by decide⟩
    rw [hmarker] at hsized
    exact hsized
  · have hinline : TextHeader codec.markers 3 [(0xFF : UInt8)].length [(codec.markers.markerAt 1).toByte] :=
      .inline (by decide)
    rw [hmarker] at hinline
    refine hrefused _ _ rest hinline ?_
    rw [Utf8.isValidUTF8_iff]
    rintro ⟨chars, hchars⟩
    have hdecode := Utf8.decode_eq_ok_iff.2 hchars
    cases hdecode

end AtomCodec

end Bytemark
