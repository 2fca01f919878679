import Bytemark.MarkerRange
import Bytemark.Size
import Bytemark.Text.Utf8
import Bytemark.Value.Basic

/-!
# Codecs of atoms

How values without parts are written, by the form of their codec:

* a boolean is one of two markers;
* a word or a character's code point takes the fewest bytes that hold it, and the marker tells how many;
* a string's length is told by the marker if it is short, and by a size otherwise; its bytes follow;
* an array of booleans is a size and the booleans packed eight to a byte, the first in the highest bit;
* an array of characters is the size and the bytes of their text, an array of bytes a size and the bytes;
* an array of other words is a size and the words, each with a marker of its own counted from 0.

Every codec reads the null marker as the absence of a value.
-/

set_option autoImplicit false

-- A power of a number is the core library's, also where monoids have powers of their own.
attribute [local instance (2000)] instPowNat instNatPowNat Int.instNatPow

namespace Bytemark

/-- The form of an atom's codec: its type, and for strings the number of lengths told by the marker. -/
inductive AtomForm
  | bool
  | char
  | word (kind : WordKind)
  | string (inline : Nat)
  | bools
  | chars
  | words (kind : WordKind)
  deriving DecidableEq, Repr

namespace AtomForm

/-- The type that codecs of the form write. -/
protected def type : AtomForm → AtomType
  | .bool => .bool
  | .char => .char
  | .word kind => .word kind
  | .string _ => .string
  | .bools => .bools
  | .chars => .chars
  | .words kind => .words kind

/-- Markers that codecs of the form claim. -/
def count : AtomForm → Nat
  | .bool => 2
  | .char => 3
  | .word kind => kind.width
  | .string inline => inline + Size.markers
  | .bools => Size.markers
  | .chars => Size.markers
  | .words _ => Size.markers

end AtomForm

/-- The markers of words inside an array, which no codec claims. -/
def WordKind.innerMarkers (kind : WordKind) : MarkerRange :=
  ⟨0, kind.width, kind.width_pos, by have := kind.width_le; simp; omega⟩

/-- The word whose bits are those of a number. -/
def Word.ofInt (kind : WordKind) (value : Int) : Word kind := BitVec.ofInt _ value

namespace Shortest

/-- Writes a number in the fewest bytes that hold it, after the marker that tells their count. -/
def write (range : MarkerRange) (value : Int) : Write :=
  let width := BigEndian.minWidth value
  Output.markerAnd (range.markerAt (width - 1)) value width

/-- Reads a number after the marker that tells the count of its bytes. -/
def read (range : MarkerRange) (target : String) : Read (Option Int) := do
  let marker ← Input.marker
  if marker = Marker.null then return none
  match range.offset? marker with
  | some offset => return some (← Input.signed (offset + 1))
  | none => throw (.decode target marker)

end Shortest

namespace Bits

/-- The byte of up to eight booleans, the first in the highest bit. -/
def packByte (items : List Bool) : UInt8 :=
  UInt8.ofNat (items.zipIdx.foldl (fun byte (bit, index) => byte + bit.toNat * 2 ^ (7 - index)) 0)

/-- The first `count` bytes of packed booleans. -/
def pack : (count : Nat) → List Bool → List UInt8
  | 0, _ => []
  | count + 1, items => packByte (items.take 8) :: pack count (items.drop 8)

/-- The booleans of a byte, from the highest bit. -/
def unpackByte (byte : UInt8) : List Bool := (List.range 8).map fun index => byte.toNat.testBit (7 - index)

/-- Bytes that hold `count` booleans. -/
def width (count : Nat) : Nat := (count + 7) / 8

/-- Reads `count` packed booleans; the bits left over in the last byte do not matter. -/
def read (count : Nat) : Read (List Bool) := do
  return ((← Input.bytes (width count)).flatMap unpackByte).take count

end Bits

namespace Utf8

/-- Reads `count` bytes of text. -/
def read (count : Nat) : Read (List Char) := do
  match decode (← Input.bytes count) with
  | .ok chars => return chars
  | .error fault => throw (.invalidUtf8 fault)

end Utf8

/-- The character of a code point, given as a signed number. -/
def scalar (code : Int) : Except Error Char :=
  let code := (code % 2 ^ (32 : Nat)).toNat
  if code.isValidChar then .ok (Char.ofNat code) else .error (.invalidChar code)

/-- A codec of atoms: a form, and the markers it claims. -/
structure AtomCodec where
  form : AtomForm
  markers : MarkerRange
  deriving DecidableEq, Repr

namespace AtomCodec

/-- A codec of the given form whose markers start at `base`. A string codec counts at most 255 markers. -/
def of (form : AtomForm) (base : Marker) : Except Error AtomCodec :=
  match form with
  | .string inline =>
    if inline + Size.markers ≤ 255 then
      return ⟨form, ← MarkerRange.of base form.count⟩
    else
      throw (.markerOverflow base inline)
  | _ => return ⟨form, ← MarkerRange.of base form.count⟩

/-- A codec of any form can be made where its markers are above null's and end at 127 or before. -/
theorem exists_of {form : AtomForm} {base : Marker} (hlow : -127 ≤ base.toInt) (hfits : base.toInt + form.count ≤ 128) :
    ∃ markers, AtomCodec.of form base = .ok ⟨form, markers⟩ ∧ markers.base = base ∧ markers.count = form.count := by
  have hcount : 0 < form.count := by
    cases form with
    | word kind => exact kind.width_pos
    | _ => exact Nat.succ_pos _
  obtain ⟨markers, hof, hmarkers⟩ := MarkerRange.exists_of hcount hlow hfits
  refine ⟨markers, ?_, hmarkers⟩
  cases form with
  | string inline =>
    have hinline : inline + Size.markers ≤ 255 := by
      simp only [AtomForm.count] at hfits
      omega
    simp only [AtomCodec.of, if_pos hinline, hof]
    rfl
  | _ =>
    simp only [AtomCodec.of, hof]
    rfl

/-- The codec's name: the type it writes. -/
def name (codec : AtomCodec) : String := codec.form.type.name

/-- Refuses an atom of another type. -/
def mismatch (codec : AtomCodec) (atom : Atom) : Write :=
  throw (.typeMismatch codec.name (.foreign (.atom atom.type)))

/-- Writes an atom of the codec's type. -/
def write (codec : AtomCodec) (atom : Atom) : Write :=
  let base := codec.markers.base
  match codec.form, atom with
  | .bool, .bool value => Output.marker (codec.markers.markerAt (if value then 0 else 1))
  | .char, .char value => Shortest.write codec.markers value.toNat
  | .word kind, .word kind' bits =>
    if kind = kind' then Shortest.write codec.markers bits.toInt else codec.mismatch atom
  | .string inline, .string text => do
    let bytes := Utf8.encode text.toList
    if bytes.length < inline then
      Output.marker (codec.markers.markerAt bytes.length)
    else
      Size.write (codec.markers.markerAt inline) bytes.length
    Output.bytes bytes
  | .bools, .bools items => do
    Size.write base items.length
    Output.bytes (Bits.pack (Bits.width items.length) items)
  | .chars, .chars items => do
    let bytes := Utf8.encode items
    Size.write base bytes.length
    Output.bytes bytes
  | .words kind, .words kind' items =>
    if kind = kind' then do
      Size.write base items.length
      if kind = .byte then
        Output.bytes (items.map fun item => UInt8.ofNat item.toNat)
      else
        items.forM fun item => Shortest.write kind.innerMarkers item.toInt
    else
      codec.mismatch atom
  | _, _ => codec.mismatch atom

/-- Reads one word of the array spelt `array`, where null is no word. -/
def readWord (kind : WordKind) (array : String) : Read (Word kind) := do
  match ← Shortest.read kind.innerMarkers kind.name with
  | some value => return Word.ofInt kind value
  | none => throw (.unexpectedNull array)

/-- Reads an atom, or nothing for the null marker. -/
def read (codec : AtomCodec) : Read (Option Atom) := do
  let base := codec.markers.base
  let name := codec.name
  match codec.form with
  | .bool =>
    let marker ← Input.marker
    match codec.markers.offset? marker with
    | some offset => return some (.bool (offset = 0))
    | none => if marker = Marker.null then return none else throw (.decode name marker)
  | .char =>
    match ← Shortest.read codec.markers name with
    | some code => return some (.char (← ofExcept (scalar code)))
    | none => return none
  | .word kind =>
    return (← Shortest.read codec.markers name).map fun value => .word kind (Word.ofInt kind value)
  | .string inline =>
    let marker ← Input.marker
    if marker = Marker.null then return none
    let length ← match codec.markers.offset? marker with
      | some offset =>
        if offset < inline then pure offset
        else Size.readPayload marker (codec.markers.markerAt inline) name
      | none => throw (.decode name marker)
    return some (.string (String.ofList (← Utf8.read length)))
  | .bools => return (← Size.counted base name Bits.read).map .bools
  | .chars => return (← Size.counted base name Utf8.read).map .chars
  | .words .byte =>
    return (← Size.counted base name Input.bytes).map fun bytes => .words .byte (bytes.map UInt8.toBitVec)
  | .words kind =>
    return (← Size.counted base name fun count => Input.repeated count (readWord kind name)).map (.words kind)

end AtomCodec

end Bytemark
