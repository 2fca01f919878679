import Bytemark.Codec.Atom
import Bytemark.Proofs.Coding.Sizes
import Mathlib.Data.List.GetD

/-!
# Booleans, eight to a byte

Of packed booleans, the one at index `i` is bit `7 - i % 8` of byte `i / 8` (`Bits.bit`). Packing puts every boolean at
its index and nothing behind the last one (`Bits.bit_pack`), and unpacking reads as many as are asked for
(`Bits.read_eq_ok_iff`). Both go byte by byte, so both are proved by induction on the bytes; all else speaks of
single bits.
-/

set_option autoImplicit false

-- A power of a number is the core library's, also where monoids have powers of their own.
attribute [local instance (2000)] instPowNat instNatPowNat Int.instNatPow

namespace Bytemark

namespace Bits

variable {items : List Bool} {byte : UInt8} {payload input rest : List UInt8} {count index : Nat}

/-- The boolean at an index of packed booleans; there is none after the last byte. -/
def bit (payload : List UInt8) (index : Nat) : Bool := (payload.getD (index / 8) 0).toNat.testBit (7 - index % 8)

/-- The first eight bits are those of the first byte, the highest one first. -/
theorem bit_cons_of_lt (hindex : index < 8) : bit (byte :: payload) index = byte.toNat.testBit (7 - index) := by
  rw [bit, Nat.div_eq_of_lt hindex, Nat.mod_eq_of_lt hindex, List.getD_cons_zero]

/-- Behind the first eight, the bits are those of the other bytes. -/
theorem bit_cons_add (byte : UInt8) (payload : List UInt8) (index : Nat) :
    bit (byte :: payload) (8 + index) = bit payload index := by
  have hbyte : (8 + index) / 8 = index / 8 + 1 := by omega
  rw [bit, hbyte, Nat.add_mod_left, List.getD_cons_succ, bit]

/-! ## Unpacking -/

/-- A byte holds eight booleans. -/
theorem length_unpackByte (byte : UInt8) : (unpackByte byte).length = 8 := by
  simp [unpackByte]

/-- Bytes are unpacked into their bits, in order. -/
theorem flatMap_unpackByte (payload : List UInt8) :
    payload.flatMap unpackByte = (List.range (8 * payload.length)).map (bit payload) := by
  induction payload with
  | nil => rfl
  | cons byte payload ih =>
    have hlength : 8 * (byte :: payload).length = 8 + 8 * payload.length := by
      rw [List.length_cons]
      omega
    have hfirst : (List.range 8).map (bit (byte :: payload)) = unpackByte byte := by
      apply List.map_congr_left
      intro index hindex
      exact bit_cons_of_lt (List.mem_range.1 hindex)
    have hothers : bit (byte :: payload) ∘ (8 + ·) = bit payload := funext (bit_cons_add byte payload)
    rw [List.flatMap_cons, ih, hlength, List.range_add, List.map_append, List.map_map, hfirst, hothers]

/-- There are enough bytes for all booleans. -/
theorem le_width (count : Nat) : count ≤ 8 * width count := by
  unfold width
  omega

/-- What is read as so many booleans are the first bits of as many bytes as these need. -/
theorem read_eq_ok_iff : read count input = .ok items rest ↔
    ∃ payload, input = payload ++ rest ∧ payload.length = width count ∧
      items = (List.range count).map (bit payload) := by
  have hfront : ∀ payload : List UInt8, payload.length = width count →
      (payload.flatMap unpackByte).take count = (List.range count).map (bit payload) := by
    intro payload hlength
    rw [flatMap_unpackByte, ← List.map_take, List.take_range, hlength, Nat.min_eq_left (le_width count)]
  constructor
  · intro h
    obtain ⟨payload, mid, hbytes, hpure⟩ := bind_eq_ok_iff.1 h
    obtain ⟨rfl, hlength⟩ := Input.bytes_eq_ok_iff.1 hbytes
    cases hpure
    exact ⟨payload, rfl, hlength, hfront payload hlength⟩
  · rintro ⟨payload, rfl, hlength, rfl⟩
    rw [← hfront payload hlength]
    exact bind_eq_ok_iff.2 ⟨payload, rest, Input.bytes_eq_ok_iff.2 ⟨rfl, hlength⟩, rfl⟩

/-! ## Packing -/

/-- Booleans that are false add nothing to a byte. -/
theorem foldl_replicate_false (count start byte : Nat) :
    ((List.replicate count false).zipIdx start).foldl
      (fun byte (bit, index) => byte + bit.toNat * 2 ^ (7 - index)) byte = byte := by
  induction count generalizing start with
  | zero => simp
  | succ count ih => simp [List.replicate_succ, List.zipIdx_cons, ih]

/-- A byte is filled up with bits that are not set. -/
theorem packByte_replicate (items : List Bool) (count : Nat) :
    packByte (items ++ List.replicate count false) = packByte items := by
  rw [packByte, packByte, List.zipIdx_append, List.foldl_append, foldl_replicate_false]

/-- Eight booleans are read back from their byte. -/
theorem unpackByte_packByte_eight :
    ∀ a b c d e f g h : Bool, unpackByte (packByte [a, b, c, d, e, f, g, h]) = [a, b, c, d, e, f, g, h] := by
  decide

/-- Up to eight booleans are the highest bits of the byte they are packed into, and its other bits are not set. -/
theorem testBit_packByte (hlength : items.length ≤ 8) (hindex : index < 8) :
    (packByte items).toNat.testBit (7 - index) = items.getD index false := by
  obtain ⟨more, hmore⟩ : ∃ more, items.length + more = 8 := ⟨8 - items.length, by omega⟩
  have hunpack : ∀ eight : List Bool, eight.length = 8 → unpackByte (packByte eight) = eight := by
    intro eight height
    obtain ⟨a, b, c, d, e, f, g, h, rfl⟩ : ∃ a b c d e f g h, eight = [a, b, c, d, e, f, g, h] := by
      match eight, height with
      | [a, b, c, d, e, f, g, h], _ => exact ⟨a, b, c, d, e, f, g, h, rfl⟩
    exact unpackByte_packByte_eight a b c d e f g h
  have hbits := hunpack (items ++ List.replicate more false) (by simpa using hmore)
  rw [packByte_replicate] at hbits
  calc (packByte items).toNat.testBit (7 - index)
      = (unpackByte (packByte items)).getD index false := by simp [unpackByte, List.getD_eq_getElem?_getD, hindex]
    _ = (items ++ List.replicate more false).getD index false := by rw [hbits]
    _ = items.getD index false := by
      rcases Nat.lt_or_ge index items.length with hitem | hpadding
      · rw [List.getD_append _ _ _ _ hitem]
      · rw [List.getD_append_right _ _ _ _ hpadding, List.getD_eq_default _ _ hpadding,
          List.getD_replicate false (by omega)]

/-- As many bytes are packed as were asked for. -/
theorem length_pack (count : Nat) (items : List Bool) : (pack count items).length = count := by
  induction count generalizing items with
  | zero => rfl
  | succ count ih => rw [pack, List.length_cons, ih]

/-- Every boolean is packed at its index, and no bit behind the last boolean is set. -/
theorem bit_pack (hcount : width items.length = count) (index : Nat) :
    bit (pack count items) index = items.getD index false := by
  induction count generalizing items index with
  | zero =>
    obtain rfl : items = [] := by
      apply List.length_eq_zero_iff.1
      unfold width at hcount
      omega
    simp [pack, bit]
  | succ count ih =>
    have hrest : width (items.drop 8).length = count := by
      unfold width at hcount ⊢
      rw [List.length_drop]
      omega
    rw [pack]
    by_cases hindex : index < 8
    · rw [bit_cons_of_lt hindex, testBit_packByte (List.length_take_le 8 items) hindex]
      simp [List.getD_eq_getElem?_getD, hindex]
    · obtain ⟨later, rfl⟩ : ∃ later, index = 8 + later := ⟨index - 8, by omega⟩
      rw [bit_cons_add, ih hrest]
      simp [List.getD_eq_getElem?_getD]

/-- Booleans are the first bits of the bytes that they are packed into. -/
theorem eq_map_bit_pack (items : List Bool) :
    items = (List.range items.length).map (bit (pack (width items.length) items)) := by
  apply List.ext_getElem
  · simp
  · intro index hindex _
    rw [List.getElem_map, List.getElem_range, bit_pack rfl, List.getD_eq_getElem _ _ hindex]

/-- Packed booleans are read back, and the rest of the last byte is dropped. -/
theorem decodes_read (items : List Bool) :
    Decodes (read items.length) (pack (width items.length) items) items :=
  fun _ => read_eq_ok_iff.2 ⟨_, rfl, length_pack .., eq_map_bit_pack items⟩

end Bits

/-- What is read behind a size is the size and the payload that it announces. -/
theorem Size.counted_eq_some_iff {α : Type} {base : Marker} {target : String} {payload : Nat → Read α}
    {input rest : Input} {a : α} : counted base target payload input = .ok (some a) rest ↔
      ∃ size mid, read base target input = .ok (some size) mid ∧ payload size mid = .ok a rest := by
  constructor
  · intro h
    obtain ⟨answer, mid, hsize, hpayload⟩ := bind_eq_ok_iff.1 h
    cases answer with
    | none => cases hpayload
    | some size =>
      obtain ⟨_, _, ha, hpure⟩ := bind_eq_ok_iff.1 hpayload
      cases hpure
      exact ⟨size, mid, hsize, ha⟩
  · rintro ⟨size, mid, hsize, ha⟩
    exact bind_eq_ok_iff.2 ⟨_, mid, hsize, bind_eq_ok_iff.2 ⟨a, rest, ha, rfl⟩⟩

namespace AtomCodec

variable {markers : MarkerRange} {input rest : List UInt8} {atom : Atom}

/-- What is read as booleans is a size and the bytes that hold so many of them. -/
theorem read_bools_eq_some_iff (hlow : -127 ≤ markers.base.toInt) (hfits : markers.base.toInt + Size.markers ≤ 128) :
    read ⟨.bools, markers⟩ input = .ok (some atom) rest ↔
      ∃ (items : List Bool) (header payload : List UInt8), atom = .bools items ∧
        Decodes (Size.read markers.base "bool[]") header (some items.length) ∧ input = header ++ payload ++ rest ∧
        payload.length = Bits.width items.length ∧ items = (List.range items.length).map (Bits.bit payload) := by
  constructor
  · intro h
    obtain ⟨answer, mid, hcounted, hpure⟩ := bind_eq_ok_iff.1 h
    cases answer with
    | none => cases hpure
    | some items =>
      cases hpure
      obtain ⟨size, tail, hsize, hitems⟩ := Size.counted_eq_some_iff.1 hcounted
      obtain ⟨payload, rfl, hlength, rfl⟩ := Bits.read_eq_ok_iff.1 hitems
      obtain ⟨tier, htier, hholds, rfl⟩ := (Size.read_eq_some_iff hlow hfits).1 hsize
      refine ⟨_, _, payload, rfl, ?_, (List.append_assoc ..).symm, ?_, ?_⟩
      · rw [List.length_map, List.length_range]
        exact Size.decodes_form hlow hfits htier hholds _
      · rw [List.length_map, List.length_range, hlength]
      · rw [List.length_map, List.length_range]
  · rintro ⟨items, header, payload, rfl, hheader, rfl, hlength, hitems⟩
    rw [List.append_assoc]
    refine bind_eq_ok_iff.2 ⟨some items, rest, ?_, rfl⟩
    refine Size.counted_eq_some_iff.2 ⟨items.length, payload ++ rest, hheader _, ?_⟩
    exact Bits.read_eq_ok_iff.2 ⟨payload, rfl, hlength, hitems⟩

/-- The codec of booleans can be made wherever its four markers are above null's and end at 127 or before. Booleans are
written as the size of their number and the fewest bytes that have a bit for each: the boolean at an index is the bit at
this index, and no bit behind the last boolean is set. So written they are read back, whatever follows. What is read is
a size and the bytes for so many booleans, of which each is its bit, so bytes that differ in no bit of a boolean are
read as the same. -/
theorem bools_packed {base : Marker} (hlow : -127 ≤ base.toInt) (hfits : base.toInt + Size.markers ≤ 128) :
    ∃ codec, AtomCodec.of .bools base = .ok codec ∧
      (∀ items : List Bool, items.length ≤ Size.max → ∃ header payload : List UInt8,
        Emits (Size.write base items.length) header ∧ payload.length = (items.length + 7) / 8 ∧
        (∀ index (hindex : index < items.length), Bits.bit payload index = items[index]) ∧
        (∀ index, items.length ≤ index → Bits.bit payload index = false) ∧
        Emits (codec.write (.bools items)) (header ++ payload) ∧
        Decodes codec.read (header ++ payload) (some (.bools items))) ∧
      ∀ input atom rest, codec.read input = .ok (some atom) rest →
        ∃ (items : List Bool) (header payload : List UInt8), atom = .bools items ∧
          Decodes (Size.read base "bool[]") header (some items.length) ∧ input = header ++ payload ++ rest ∧
          payload.length = (items.length + 7) / 8 ∧
          (∀ index, index < items.length → items[index]? = some (Bits.bit payload index)) ∧
          ∀ padded : List UInt8, padded.length = payload.length →
            (∀ index, index < items.length → Bits.bit padded index = Bits.bit payload index) →
            Decodes codec.read (header ++ padded) (some atom) := by
  obtain ⟨markers, hof, rfl, -⟩ := @exists_of .bools base hlow hfits
  refine ⟨⟨.bools, markers⟩, hof, fun items hmax => ?_, fun input atom rest hread => ?_⟩
  · have htier := Size.tier_lt items.length
    have hholds := (Size.holds_iff htier).2 ⟨hmax, .inl rfl⟩
    have hheader : Emits (Size.write markers.base items.length) _ := Size.emits_write_iff.2 ⟨hmax, rfl⟩
    have hlength := Bits.length_pack (Bits.width items.length) items
    refine ⟨_, Bits.pack (Bits.width items.length) items, hheader, hlength, fun index hindex => ?_,
      fun index hindex => ?_, hheader.bind (Emits.bytes _), fun rest => ?_⟩
    · rw [Bits.bit_pack rfl, List.getD_eq_getElem _ _ hindex]
    · rw [Bits.bit_pack rfl, List.getD_eq_default _ _ hindex]
    · exact (read_bools_eq_some_iff hlow hfits).2 ⟨items, _, _, rfl, Size.decodes_form hlow hfits htier hholds _, rfl,
        hlength, Bits.eq_map_bit_pack items⟩
  · obtain ⟨items, header, payload, rfl, hheader, rfl, hlength, hitems⟩ := (read_bools_eq_some_iff hlow hfits).1 hread
    refine ⟨items, header, payload, rfl, hheader, rfl, hlength, fun index hindex => ?_, fun padded hpadded hbits => ?_⟩
    · conv => lhs; rw [hitems]
      rw [List.getElem?_map, List.getElem?_range hindex, Option.map_some]
    · intro rest
      refine (read_bools_eq_some_iff hlow hfits).2 ⟨items, header, padded, rfl, hheader, rfl, hpadded.trans hlength, ?_⟩
      have hsame : (List.range items.length).map (Bits.bit padded) = (List.range items.length).map (Bits.bit payload) :=
        List.map_congr_left fun index hindex => hbits index (List.mem_range.1 hindex)
      rw [hsame, ← hitems]

/-- At the last four markers, nine booleans are read alike whatever the last seven bits of their second byte are. -/
theorem bools_packed_edge :
    -127 ≤ (124 : Marker).toInt ∧ (124 : Marker).toInt + Size.markers ≤ 128 ∧
    ∃ codec, AtomCodec.of .bools 124 = .ok codec ∧
      codec.read [124, 137, 0xFF, 0x80] = .ok (some (.bools (List.replicate 9 true))) [] ∧
      Decodes codec.read [124, 137, 0xFF, 0xFF] (some (.bools (List.replicate 9 true))) := by
  have hlow : -127 ≤ (124 : Marker).toInt := by decide
  have hfits : (124 : Marker).toInt + Size.markers ≤ 128 := by decide
  obtain ⟨codec, hof, -, hread⟩ := bools_packed hlow hfits
  obtain rfl : ⟨.bools, ⟨124, 4, by decide, by decide⟩⟩ = codec := Except.ok.inj hof
  have hnine : read ⟨.bools, ⟨124, 4, by decide, by decide⟩⟩ [124, 137, 0xFF, 0x80] =
      .ok (some (.bools (List.replicate 9 true))) [] := by rfl
  obtain ⟨items, header, payload, hatom, -, hinput, hlength, -, hpadding⟩ := hread _ _ _ hnine
  obtain rfl := Atom.bools.inj hatom
  rw [List.append_nil] at hinput
  obtain ⟨rfl, rfl⟩ : [124, 137] = header ∧ [0xFF, 0x80] = payload := List.append_inj' hinput hlength.symm
  exact ⟨hlow, hfits, _, hof, hnine, hpadding [0xFF, 0xFF] rfl (by decide)⟩

end AtomCodec

end Bytemark
