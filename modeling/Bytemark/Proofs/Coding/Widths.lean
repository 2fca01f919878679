import Bytemark.Proofs.Coding.Atoms
import Mathlib.Order.Bounds.Basic

/-!
# Numbers in every width

A character or a word is written as a number behind a marker that tells its width. A number has one form in each width
that holds it (`NumberForm.unique`) and none in a narrower one (`NumberForm.fits`), and its reader takes the forms in
all widths that it has markers for (`Shortest.read_eq_some_iff`). The writer takes the least width that holds the
number, so it writes the one form that is shorter than all others.

What a payload spells is said here without the reader: its first byte counts with a sign and the others without, as
two's complement has it (`BigEndian.signedValue`).
-/

set_option autoImplicit false

-- A power of a number is the core library's, also where monoids have powers of their own.
attribute [local instance (2000)] instPowNat instNatPowNat Int.instNatPow

namespace Bytemark

namespace BigEndian

/-- The number that bytes spell in two's complement: the first byte counts with its sign, the others without. -/
def signedValue : List UInt8 → Int
  | [] => 0
  | byte :: bytes => byte.toInt8.toInt * 256 ^ bytes.length + magnitude bytes

/-- The numbers that have a two's complement form of so many bytes. -/
def Fits (width : Nat) (number : Int) : Prop :=
  -(2 ^ (8 * width - 1)) ≤ number ∧ number < 2 ^ (8 * width - 1)

/-- Half the range of some bytes is 128 times that of one byte less. -/
theorem two_pow_eq (width : Nat) : (2 : Int) ^ (8 * (width + 1) - 1) = 128 * 256 ^ width := by
  have hbits : 8 * (width + 1) - 1 = 7 + 8 * width := by omega
  rw [hbits, Int.pow_add, Int.pow_mul]
  rfl

/-- The least width is the first that a number fits. -/
theorem minWidth_le_iff_fits {number : Int} {width : Nat} (hpos : 0 < width) :
    minWidth number ≤ width ↔ Fits width number := by
  obtain ⟨fewer, rfl⟩ : ∃ fewer, width = fewer + 1 := ⟨width - 1, by omega⟩
  rw [minWidth_le_iff, Fits, two_pow_eq]

/-- The width that a number is written in is the least that holds it. -/
theorem isLeast_minWidth (number : Int) : IsLeast {width | 0 < width ∧ Fits width number} (minWidth number) := by
  constructor
  · have hpos := minWidth_pos number
    exact ⟨hpos, (minWidth_le_iff_fits hpos).1 (Nat.le_refl _)⟩
  · rintro width ⟨hpos, hfits⟩
    exact (minWidth_le_iff_fits hpos).2 hfits

/-- With a sign or without, a byte is the same number, up to 256. -/
theorem toNat_eq_toInt_toInt8 (byte : UInt8) :
    ∃ carry : Int, (byte.toNat : Int) = byte.toInt8.toInt + 256 * carry := by
  have hsigned : byte.toInt8.toInt = (byte.toNat : Int).bmod 256 := by
    show (byte.toInt8.toBitVec).toInt = _
    rw [BitVec.toInt_eq_toNat_bmod]
    rfl
  refine ⟨((byte.toNat : Int) - byte.toInt8.toInt) / 256, ?_⟩
  have hdvd : (256 : Int) ∣ byte.toNat - (byte.toNat : Int).bmod 256 := Int.dvd_self_sub_bmod
  rw [hsigned]
  omega

/-- A payload spells a number that its width holds. -/
theorem fits_signedValue {payload : List UInt8} (h : payload ≠ []) : Fits payload.length (signedValue payload) := by
  obtain ⟨byte, bytes, rfl⟩ := List.exists_cons_of_ne_nil h
  rw [Fits, List.length_cons, two_pow_eq, signedValue]
  have hpos : (0 : Int) < 256 ^ bytes.length := Int.pow_pos (by decide)
  have hsmall : (magnitude bytes : Int) < 256 ^ bytes.length := by
    have := Int.ofNat_lt.2 (magnitude_lt bytes)
    rwa [Int.natCast_pow] at this
  have hlow := Int.mul_le_mul_of_nonneg_right (Int8.le_toInt byte.toInt8) (Int.le_of_lt hpos)
  have hhigh := Int.mul_le_mul_of_nonneg_right (Int.le_sub_one_of_lt (Int8.toInt_lt byte.toInt8)) (Int.le_of_lt hpos)
  simp only [Int.reducePow, Int.reduceNeg, Int.reduceSub] at hlow hhigh
  generalize byte.toInt8.toInt * 256 ^ bytes.length = top at *
  generalize (256 : Int) ^ bytes.length = unit at *
  omega

/-- Bytes are read as the number that they spell in two's complement. -/
theorem decode_eq_signedValue (payload : List UInt8) : decode payload = signedValue payload := by
  cases payload with
  | nil => rfl
  | cons byte bytes =>
    obtain ⟨carry, hcarry⟩ := toNat_eq_toInt_toInt8 byte
    have hmagnitude : (magnitude (byte :: bytes) : Int) =
        signedValue (byte :: bytes) + ((256 ^ (bytes.length + 1) : Nat) : Int) * carry := by
      rw [magnitude_cons, Int.natCast_add, Int.natCast_mul, hcarry, Nat.pow_succ, signedValue]
      simp only [Int.natCast_mul, Int.natCast_pow, Int.cast_ofNat_Int]
      grind
    have hfits := fits_signedValue (List.cons_ne_nil byte bytes)
    rw [Fits, List.length_cons, two_pow_eq] at hfits
    have hunit : ((256 ^ (bytes.length + 1) : Nat) : Int) = 256 ^ bytes.length * 256 := by
      rw [Nat.pow_succ]
      simp
    rw [decode, hmagnitude, List.length_cons, Int.add_mul_bmod_self_left]
    apply Int.bmod_eq_of_le <;> omega

end BigEndian

/-! ## Numbers behind the marker that tells their width -/

/-- The bytes of a number in a width: the marker that stands for the width, and the number in two's complement. -/
def NumberForm (base : Marker) (width : Nat) (number : Int) (bytes : List UInt8) : Prop :=
  ∃ (marker : Marker) (payload : List UInt8), bytes = marker.toByte :: payload ∧
    marker.toInt = base.toInt + width - 1 ∧ payload.length = width ∧ BigEndian.signedValue payload = number

/-- A form of a number takes the marker and the bytes of its width. -/
theorem NumberForm.length {base : Marker} {width : Nat} {number : Int} {bytes : List UInt8}
    (h : NumberForm base width number bytes) : bytes.length = width + 1 := by
  obtain ⟨marker, payload, rfl, -, rfl, -⟩ := h
  rfl

/-- In each width a number has one form. -/
theorem NumberForm.unique {base : Marker} {width : Nat} {number : Int} {bytes bytes' : List UInt8}
    (h : NumberForm base width number bytes) (h' : NumberForm base width number bytes') : bytes = bytes' := by
  obtain ⟨marker, payload, rfl, hmarker, hlength, hnumber⟩ := h
  obtain ⟨marker', payload', rfl, hmarker', hlength', hnumber'⟩ := h'
  obtain rfl : marker = marker' := Int8.toInt_inj.1 (hmarker.trans hmarker'.symm)
  have hspelt : payload = payload' := by
    rw [← BigEndian.encode_decode payload, ← BigEndian.encode_decode payload', hlength, hlength',
      BigEndian.decode_eq_signedValue, BigEndian.decode_eq_signedValue, hnumber, hnumber']
  rw [hspelt]

namespace Shortest

variable {range : MarkerRange}

/-- A number that fits the range is written in the form of its least width. -/
theorem emits_write (range : MarkerRange) {number : Int} (hwidth : BigEndian.minWidth number ≤ range.count) :
    ∃ bytes, Emits (write range number) bytes ∧
      NumberForm range.base (BigEndian.minWidth number) number bytes := by
  have hpos := BigEndian.minWidth_pos number
  obtain ⟨fewer, hfewer⟩ : ∃ fewer, BigEndian.minWidth number = fewer + 1 := ⟨BigEndian.minWidth number - 1, by omega⟩
  obtain ⟨hlow, hhigh⟩ := BigEndian.minWidth_le_iff.1 (Nat.le_of_eq hfewer)
  refine ⟨_, .markerAnd _ _ _, _, _, rfl, ?_, BigEndian.length_encode .., ?_⟩
  · rw [range.toInt_markerAt (by omega)]
    omega
  · rw [hfewer, ← BigEndian.decode_eq_signedValue, BigEndian.decode_encode hlow hhigh]

/-- What is read as a number is one of the number's forms, in a width that the codec has a marker for. -/
theorem read_eq_some_iff (hbase : range.base ≠ Marker.null) {target : String} {number : Int} {input rest : Input} :
    read range target input = .ok (some number) rest ↔
      ∃ width bytes, 0 < width ∧ width ≤ range.count ∧ NumberForm range.base width number bytes ∧
        input = bytes ++ rest := by
  constructor
  · intro h
    obtain ⟨marker, mid, hmarker, hrest⟩ := bind_eq_ok_iff.1 h
    cases input with
    | nil => cases hmarker
    | cons byte tail =>
      cases hmarker
      by_cases hnull : Marker.ofByte byte = Marker.null
      · rw [if_pos hnull] at hrest
        cases hrest
      rw [if_neg hnull] at hrest
      cases hoffset : range.offset? (Marker.ofByte byte) with
      | none =>
        rw [hoffset] at hrest
        cases hrest
      | some offset =>
        rw [hoffset] at hrest
        obtain ⟨hbound, hmarker⟩ := MarkerRange.offset?_eq_some_iff.1 hoffset
        obtain ⟨value, _, hsigned, hpure⟩ := bind_eq_ok_iff.1 hrest
        cases hpure
        obtain ⟨payload, rfl, hlength, rfl⟩ := Input.signed_eq_ok_iff.1 hsigned
        refine ⟨offset + 1, byte :: payload, Nat.succ_pos _, hbound, ?_, rfl⟩
        refine ⟨Marker.ofByte byte, payload, by rw [Marker.toByte_ofByte], ?_, hlength, ?_⟩
        · rw [hmarker, range.toInt_markerAt hbound]
          omega
        · exact (BigEndian.decode_eq_signedValue payload).symm
  · rintro ⟨width, _, hpos, hwidth, ⟨marker, payload, rfl, hmarker, rfl, rfl⟩, rfl⟩
    obtain ⟨offset, hoffset⟩ : ∃ offset, payload.length = offset + 1 := ⟨payload.length - 1, by omega⟩
    obtain rfl : marker = range.markerAt offset := by
      apply Int8.toInt_inj.1
      rw [range.toInt_markerAt (by omega), hmarker]
      omega
    have hmem := range.markerAt_mem (show offset < range.count by omega)
    have hread : Decodes (read range target) ((range.markerAt offset).toByte :: payload)
        (some (BigEndian.signedValue payload)) := by
      refine Decodes.marker_bind ?_
      rw [if_neg (range.ne_null_of_mem hbase hmem), range.offset?_markerAt (by omega)]
      refine Decodes.bind_pure (a := BigEndian.signedValue payload) (fun rest => ?_) (.pure _)
      rw [Input.signed_append payload rest hoffset, BigEndian.decode_eq_signedValue]
    exact hread rest

end Shortest

/-! ## Atoms that are written as numbers -/

/-- The number that an atom is written as: a character's code point, and the bits of a word with their sign. -/
def Atom.number? : Atom → Option Int
  | char value => some value.toNat
  | word _ bits => some bits.toInt
  | _ => none

/-- The forms of codecs that write a number. -/
inductive AtomForm.Numeric : AtomForm → Prop
  | char : Numeric .char
  | word (kind : WordKind) : Numeric (.word kind)

/-- The code points that are characters. -/
def IsScalar (code : Int) : Prop := 0 ≤ code ∧ code < 0xD800 ∨ 0xDFFF < code ∧ code < 0x110000

/-- What fits some bytes fits more of them. -/
theorem BigEndian.Fits.mono {width width' : Nat} {number : Int} (h : Fits width number) (hpos : 0 < width)
    (hle : width ≤ width') : Fits width' number := by
  rw [← minWidth_le_iff_fits (by omega)]
  exact Nat.le_trans ((minWidth_le_iff_fits hpos).2 h) hle

/-- A number fits the bytes of each of its forms. -/
theorem NumberForm.fits {base : Marker} {width : Nat} {number : Int} {bytes : List UInt8}
    (h : NumberForm base width number bytes) (hpos : 0 < width) : BigEndian.Fits width number := by
  obtain ⟨marker, payload, -, -, rfl, rfl⟩ := h
  exact BigEndian.fits_signedValue (List.ne_nil_of_length_pos hpos)

/-- The form in the least width is shorter than every other. -/
theorem NumberForm.eq_or_longer {base : Marker} {width : Nat} {number : Int} {bytes shortest : List UInt8}
    (h : NumberForm base width number bytes) (hpos : 0 < width)
    (hshortest : NumberForm base (BigEndian.minWidth number) number shortest) :
    bytes = shortest ∨ shortest.length < bytes.length := by
  have hleast := (BigEndian.isLeast_minWidth number).2 ⟨hpos, h.fits hpos⟩
  rcases Nat.eq_or_lt_of_le hleast with heq | hlt
  · subst heq
    exact .inl (h.unique hshortest)
  · right
    rw [hshortest.length, h.length]
    omega

section Scalars

variable {code : Int} (hfits : BigEndian.Fits 3 code)
include hfits

/-- Three bytes hold no number that is a character's but for multiples of 2^32. -/
theorem isValidChar_iff : ((code % 2 ^ (32 : Nat)).toNat).isValidChar ↔ IsScalar code := by
  simp only [BigEndian.Fits, Nat.isValidChar, IsScalar] at hfits ⊢
  omega

/-- A number is read as a character if it is the code point of this character. -/
theorem scalar_eq_ok_iff {char : Char} : scalar code = .ok char ↔ (char.toNat : Int) = code := by
  constructor
  · intro h
    simp only [scalar] at h
    split at h
    · rename_i hvalid
      have hscalar := (isValidChar_iff hfits).1 hvalid
      cases h
      rw [Utf8.toNat_ofNat_char hvalid]
      simp only [IsScalar] at hscalar
      omega
    · cases h
  · rintro rfl
    exact scalar_toNat char

/-- A number that is no code point is refused, as an unsigned number of 32 bits. -/
theorem scalar_of_not_isScalar (h : ¬ IsScalar code) : scalar code = .error
    (.invalidChar (code % 2 ^ (32 : Nat)).toNat) := by
  simp only [scalar]
  rw [if_neg (mt (isValidChar_iff hfits).1 h)]

end Scalars

/-- A word holds the numbers that fit its bytes. -/
theorem Word.toInt_ofInt {kind : WordKind} {number : Int} (h : BigEndian.Fits kind.width number) :
    (Word.ofInt kind number).toInt = number := by
  obtain ⟨hlow, hhigh⟩ := h
  have hpos := kind.width_pos
  exact BitVec.toInt_ofInt_eq_self (by omega) hlow hhigh

namespace AtomCodec

variable {form : AtomForm} {markers : MarkerRange} {atom : Atom} {number : Int} {input rest : Input}

/-- An atom is read where its number is. -/
theorem read_eq_some_iff (hform : form.Numeric) (hbase : markers.base ≠ Marker.null)
    (hcount : markers.count = form.count) :
    read ⟨form, markers⟩ input = .ok (some atom) rest ↔ atom.type = form.type ∧
      ∃ number width bytes, atom.number? = some number ∧ 0 < width ∧ width ≤ form.count ∧
        NumberForm markers.base width number bytes ∧ input = bytes ++ rest := by
  -- The number alone is read by the reader of shortest forms; what is left is the number's own atom.
  suffices hnumber : read ⟨form, markers⟩ input = .ok (some atom) rest ↔ atom.type = form.type ∧
      ∃ number, atom.number? = some number ∧ BigEndian.Fits form.count number ∧
        Shortest.read markers (name ⟨form, markers⟩) input = .ok (some number) rest by
    rw [hnumber]
    simp only [Shortest.read_eq_some_iff hbase, hcount]
    constructor
    · rintro ⟨htype, number, hatom, -, width, bytes, hform⟩
      exact ⟨htype, number, width, bytes, hatom, hform⟩
    · rintro ⟨htype, number, width, bytes, hatom, hpos, hwidth, hform, hinput⟩
      exact ⟨htype, number, hatom, (hform.fits hpos).mono hpos hwidth, width, bytes, hpos, hwidth, hform, hinput⟩
  have hfits : ∀ {number mid}, Shortest.read markers (name ⟨form, markers⟩) input = .ok (some number) mid →
      BigEndian.Fits form.count number := by
    intro number mid hread
    obtain ⟨width, bytes, hpos, hwidth, hspelt, -⟩ := (Shortest.read_eq_some_iff hbase).1 hread
    rw [← hcount]
    exact (hspelt.fits hpos).mono hpos hwidth
  cases hform with
  | char =>
    constructor
    · intro h
      obtain ⟨answer, mid, hread, hrest⟩ := bind_eq_ok_iff.1 h
      cases answer with
      | none => cases hrest
      | some code =>
        obtain ⟨char, _, hscalar, hpure⟩ := bind_eq_ok_iff.1 hrest
        cases hpure
        obtain ⟨hchar, rfl⟩ := ofExcept_eq_ok_iff.1 hscalar
        have hcode := (scalar_eq_ok_iff (hfits hread)).1 hchar
        exact ⟨rfl, code, congrArg some hcode, hfits hread, hread⟩
    · rintro ⟨htype, number, hatom, hnumber, hread⟩
      cases atom with
      | char value =>
        obtain rfl := Option.some.inj hatom
        refine bind_eq_ok_iff.2 ⟨_, _, hread, bind_eq_ok_iff.2 ⟨value, rest, ?_, rfl⟩⟩
        exact ofExcept_eq_ok_iff.2 ⟨scalar_toNat value, rfl⟩
      | _ => cases htype
  | word kind =>
    constructor
    · intro h
      obtain ⟨answer, mid, hread, hpure⟩ := bind_eq_ok_iff.1 h
      cases answer with
      | none => cases hpure
      | some value =>
        cases hpure
        have hnumber := hfits hread
        exact ⟨rfl, value, congrArg some (Word.toInt_ofInt hnumber), hnumber, hread⟩
    · rintro ⟨htype, number, hatom, hnumber, hread⟩
      cases atom with
      | word kind' bits =>
        cases htype
        obtain rfl := Option.some.inj hatom
        refine bind_eq_ok_iff.2 ⟨_, _, hread, ?_⟩
        simp [Word.ofInt, pure, EStateM.pure]
      | _ => cases htype

/-- Just the forms of its number are read as an atom. -/
theorem read_append_eq_some_iff (hform : form.Numeric) (hbase : markers.base ≠ Marker.null)
    (hcount : markers.count = form.count) (htype : atom.type = form.type) (hatom : atom.number? = some number)
    (bytes rest : List UInt8) :
    read ⟨form, markers⟩ (bytes ++ rest) = .ok (some atom) rest ↔
      ∃ wide, 0 < wide ∧ wide ≤ form.count ∧ NumberForm markers.base wide number bytes := by
  rw [read_eq_some_iff hform hbase hcount]
  constructor
  · rintro ⟨-, other, wide, bytes', hother, hpos, hwide, hspelt, hinput⟩
    obtain rfl := Option.some.inj (hatom.symm.trans hother)
    obtain rfl := List.append_cancel_right hinput
    exact ⟨wide, hpos, hwide, hspelt⟩
  · rintro ⟨wide, hpos, hwide, hspelt⟩
    exact ⟨htype, number, wide, bytes, hatom, hpos, hwide, hspelt, rfl⟩

/-- An atom is written as its number, in a width that the codec has a marker for. -/
theorem exists_emits_number (hform : form.Numeric) (hcount : markers.count = form.count)
    (htype : atom.type = form.type) :
    ∃ number bytes, atom.number? = some number ∧ BigEndian.minWidth number ≤ form.count ∧
      NumberForm markers.base (BigEndian.minWidth number) number bytes ∧ Emits (write ⟨form, markers⟩ atom) bytes := by
  obtain ⟨number, hatom, hwidth, hwrite⟩ : ∃ number, atom.number? = some number ∧
      BigEndian.minWidth number ≤ form.count ∧ write ⟨form, markers⟩ atom = Shortest.write markers number := by
    cases hform with
    | char =>
      cases atom with
      | char value => exact ⟨_, rfl, minWidth_toNat_le value, rfl⟩
      | _ => cases htype
    | word kind =>
      cases atom with
      | word kind' bits =>
        cases htype
        exact ⟨_, rfl, minWidth_toInt_le bits, if_pos rfl⟩
      | _ => cases htype
  obtain ⟨bytes, hemits, hspelt⟩ := Shortest.emits_write markers (hcount.symm ▸ hwidth)
  exact ⟨number, bytes, hatom, hwidth, hspelt, hwrite.symm ▸ hemits⟩

/-- Every number that a width of the codec holds is an atom's, apart from the numbers that are no character's. -/
theorem exists_number_eq (hform : form.Numeric) (hfits : BigEndian.Fits form.count number)
    (hscalar : form = .char → IsScalar number) : ∃ atom : Atom, atom.type = form.type ∧ atom.number? = some number := by
  cases hform with
  | char =>
    have hcode := hscalar rfl
    refine ⟨.char (Char.ofNat number.toNat), rfl, ?_⟩
    have hvalid : number.toNat < 0xD800 ∨ (0xDFFF < number.toNat ∧ number.toNat < 0x110000) := by
      simp only [IsScalar] at hcode
      omega
    simp only [Atom.number?, Utf8.toNat_ofNat_char hvalid, Option.some.injEq]
    simp only [IsScalar] at hcode
    omega
  | word kind => exact ⟨.word kind (Word.ofInt kind number), rfl, congrArg some (Word.toInt_ofInt hfits)⟩

/-- A payload that spells no character is refused with what it spells, as a number without sign. -/
theorem read_not_isScalar (hbase : markers.base ≠ Marker.null) (hcount : markers.count = 3) {width : Nat}
    {bytes : List UInt8} (hpos : 0 < width) (hwidth : width ≤ 3) (hspelt : NumberForm markers.base width number bytes)
    (hscalar : ¬ IsScalar number) :
    read ⟨.char, markers⟩ (bytes ++ rest) = .error (.invalidChar (number % 2 ^ (32 : Nat)).toNat) rest := by
  have hread : Shortest.read markers (name ⟨.char, markers⟩) (bytes ++ rest) = .ok (some number) rest :=
    (Shortest.read_eq_some_iff hbase).2 ⟨width, bytes, hpos, hcount.symm ▸ hwidth, hspelt, rfl⟩
  refine bind_eq_error_iff.2 (.inr ⟨_, rest, hread, ?_⟩)
  have hrefused := scalar_of_not_isScalar ((hspelt.fits hpos).mono hpos hwidth) hscalar
  simp only [hrefused]
  rfl

/-- The codecs of characters and of words can be made wherever their markers are above null's and end at 127 or before.
An atom is written as its number, in the least width that holds it, and there is a marker for this width. The atom is
read from the forms of its number in all widths that there are markers for, and from no other bytes; so what is written
is the one form that is shorter than all others. And whatever a payload of such a width spells is read, as the atom of
this number; only what is no character is refused as such by the codec of characters. -/
theorem numbers_shortest (hform : form.Numeric) {base : Marker} (hlow : -127 ≤ base.toInt)
    (hfits : base.toInt + form.count ≤ 128) :
    ∃ codec, AtomCodec.of form base = .ok codec ∧
      (∀ atom : Atom, atom.type = form.type → ∃ number width written, atom.number? = some number ∧
        IsLeast {width | 0 < width ∧ BigEndian.Fits width number} width ∧ width ≤ form.count ∧
        NumberForm base width number written ∧ Emits (codec.write atom) written ∧
        (∀ bytes rest, codec.read (bytes ++ rest) = .ok (some atom) rest ↔
          ∃ wide, 0 < wide ∧ wide ≤ form.count ∧ NumberForm base wide number bytes) ∧
        (∀ bytes rest, codec.read (bytes ++ rest) = .ok (some atom) rest →
          bytes = written ∨ written.length < bytes.length)) ∧
      (∀ (marker : Marker) (payload : List UInt8), payload ≠ [] → payload.length ≤ form.count →
        marker.toInt = base.toInt + payload.length - 1 →
        ((form = .char → IsScalar (BigEndian.signedValue payload)) →
          ∃ atom : Atom, atom.type = form.type ∧ atom.number? = some (BigEndian.signedValue payload) ∧
            Decodes codec.read (marker.toByte :: payload) (some atom)) ∧
        (form = .char → ¬ IsScalar (BigEndian.signedValue payload) → ∀ rest,
          codec.read (marker.toByte :: (payload ++ rest)) =
            .error (.invalidChar (BigEndian.signedValue payload % 2 ^ (32 : Nat)).toNat) rest)) := by
  obtain ⟨markers, hof, rfl, hcount⟩ := exists_of hlow hfits
  have hbase := Marker.ne_null_of_le hlow
  refine ⟨_, hof, fun atom htype => ?_, fun marker payload hpayload hlength hmarker => ?_⟩
  · obtain ⟨number, written, hatom, hwidth, hspelt, hemits⟩ := exists_emits_number hform hcount htype
    have hiff := read_append_eq_some_iff hform hbase hcount htype hatom
    refine ⟨number, _, written, hatom, BigEndian.isLeast_minWidth number, hwidth, hspelt, hemits, hiff, ?_⟩
    intro bytes rest hread
    obtain ⟨wide, hpos, -, hspelt'⟩ := (hiff bytes rest).1 hread
    exact hspelt'.eq_or_longer hpos hspelt
  · have hpos := List.length_pos_iff.2 hpayload
    have hspelt : NumberForm markers.base payload.length (BigEndian.signedValue payload) (marker.toByte :: payload) :=
      ⟨marker, payload, rfl, hmarker, rfl, rfl⟩
    constructor
    · intro hscalar
      obtain ⟨atom, htype, hatom⟩ :=
        exists_number_eq hform ((hspelt.fits hpos).mono hpos hlength) hscalar
      refine ⟨atom, htype, hatom, fun rest => ?_⟩
      exact (read_eq_some_iff hform hbase hcount).2 ⟨htype, _, _, _, hatom, hpos, hlength, hspelt, rfl⟩
    · rintro rfl hscalar rest
      exact read_not_isScalar hbase hcount hpos hlength hspelt hscalar

/-- At the last three markers, a code point that two bytes hold is written in two bytes, is read from three bytes too,
and from nothing else that is as short. The two bytes of a surrogate are refused with the number that they spell. -/
theorem numbers_shortest_edge :
    AtomForm.Numeric .char ∧ -127 ≤ (125 : Marker).toInt ∧ (125 : Marker).toInt + AtomForm.count .char ≤ 128 ∧
    ∃ codec, AtomCodec.of .char 125 = .ok codec ∧ Emits (codec.write (.char 'λ')) [126, 3, 187] ∧
      Decodes codec.read [127, 0, 3, 187] (some (.char 'λ')) ∧
      (∀ bytes rest, codec.read (bytes ++ rest) = .ok (some (.char 'λ')) rest →
        bytes = [126, 3, 187] ∨ 3 < bytes.length) ∧
      ∀ rest, codec.read (126 :: ([0xD8, 0] ++ rest)) = .error (.invalidChar 0xFFFFD800) rest := by
  have hlow : -127 ≤ (125 : Marker).toInt := by decide
  have hfits : (125 : Marker).toInt + AtomForm.count .char ≤ 128 := by decide
  obtain ⟨codec, hof, hatoms, hpayloads⟩ := numbers_shortest .char hlow hfits
  obtain ⟨number, width, written, hatom, hleast, -, hspelt, hemits, hread, hshortest⟩ := hatoms (.char 'λ') rfl
  obtain rfl : 955 = number := Option.some.inj hatom
  obtain rfl : BigEndian.minWidth 955 = width := (BigEndian.isLeast_minWidth 955).unique hleast
  have htwo : NumberForm 125 (BigEndian.minWidth 955) 955 [126, 3, 187] :=
    ⟨126, [3, 187], rfl, by decide, by decide, by decide⟩
  have hthree : NumberForm 125 3 955 [127, 0, 3, 187] := ⟨127, [0, 3, 187], rfl, by decide, rfl, by decide⟩
  obtain rfl := hspelt.unique htwo
  have hrefused := (hpayloads 126 [0xD8, 0] nofun (by decide) (by decide)).2 rfl (by unfold IsScalar; decide)
  exact ⟨.char, hlow, hfits, codec, hof, hemits, fun rest => (hread _ rest).2 ⟨3, by decide, by decide, hthree⟩,
    hshortest, hrefused⟩

end AtomCodec

end Bytemark
