import Bytemark.Bytes.BigEndian.Lemmas
import Bytemark.Proofs.Reading.Delimited
import Bytemark.Proofs.Writing.Encoding

/-!
# Reading back what was written

`Decodes read bytes a` says that `read` takes exactly `bytes` from the front of every input that starts with them, and
gives `a`. Decoding is composed as readers are: a sequence of readers decodes the bytes of the first followed by those
of the second, a counted or delimited run decodes the bytes of its elements.

The module ends with what all codecs share: sizes, and numbers in the fewest bytes that hold them.
-/

set_option autoImplicit false

-- A power of a number is the core library's, also where monoids have powers of their own.
attribute [local instance (2000)] instPowNat instNatPowNat Int.instNatPow

namespace Bytemark

/-- Whatever follows, `read` takes exactly `bytes` and gives `a`. -/
def Decodes {α : Type} (read : Read α) (bytes : List UInt8) (a : α) : Prop :=
  ∀ rest : Input, read (bytes ++ rest) = .ok a rest

/-- The first byte is one of the markers. -/
def StartsIn (markers : MarkerRange) (bytes : List UInt8) : Prop :=
  ∃ marker tail, bytes = marker.toByte :: tail ∧ marker ∈ markers

namespace Decodes

variable {α β γ δ : Type}

/-- What takes no byte is read from none. -/
theorem pure (a : α) : Decodes (pure a) [] a := fun _ => rfl

/-- Two readers in a row read the bytes of both in a row. -/
theorem bind {read : Read α} {next : α → Read β} {front back : List UInt8} {a : α} {b : β}
    (hread : Decodes read front a) (hnext : Decodes (next a) back b) : Decodes (read >>= next) (front ++ back) b := by
  intro rest
  rw [List.append_assoc]
  exact bind_eq_ok_iff.2 ⟨a, back ++ rest, hread (back ++ rest), hnext rest⟩

/-- A second step that takes no byte adds none. -/
theorem bind_pure {read : Read α} {next : α → Read β} {bytes : List UInt8} {a : α} {b : β}
    (hread : Decodes read bytes a) (hnext : Decodes (next a) [] b) : Decodes (read >>= next) bytes b := by
  have hboth := hread.bind hnext
  rwa [List.append_nil] at hboth

/-- An answer that is given takes no byte. -/
theorem ofExcept {answer : Except Error α} {a : α} (h : answer = .ok a) :
    Decodes (MonadExcept.ofExcept answer) [] a := by
  subst h
  exact pure a

/-- Bytes are read as they are. -/
theorem bytes {count : Nat} (data : List UInt8) (h : data.length = count) : Decodes (Input.bytes count) data data := by
  subst h
  exact Input.bytes_append data

/-- A marker is read from its byte. -/
theorem marker (marker : Marker) : Decodes Input.marker [marker.toByte] marker := by
  intro rest
  simp [Input.marker]

/-- A marker stands in front of what is read after it. -/
theorem marker_bind {next : Marker → Read α} {marker : Marker} {tail : List UInt8} {a : α}
    (h : Decodes (next marker) tail a) : Decodes (Input.marker >>= next) (marker.toByte :: tail) a :=
  (Decodes.marker marker).bind h

/-- A number within the range of a width is read back from the bytes that it is written as. -/
theorem signed {width : Nat} {value : Int} (hlow : -(128 * 256 ^ width) ≤ value) (hhigh : value < 128 * 256 ^ width) :
    Decodes (Input.signed (width + 1)) (BigEndian.encode (width + 1) value) value := by
  intro rest
  rw [Input.signed_append _ rest (BigEndian.length_encode ..), BigEndian.decode_encode hlow hhigh]

/-- Items are read one after the other, each from the bytes that spell it. -/
theorem repeated {item : Read β} {items : List α} {parts : List γ} (spell : γ → List UInt8) (decoded : α → β)
    (hlength : parts.length = items.length)
    (h : ∀ pair ∈ items.zip parts, Decodes item (spell pair.2) (decoded pair.1)) :
    Decodes (Input.repeated items.length item) (parts.flatMap spell) (items.map decoded) := by
  intro rest
  suffices hrun : ∀ done, Input.repeatOnto item items.length done (parts.flatMap spell ++ rest) =
      .ok (done.reverse ++ items.map decoded) rest from hrun []
  -- The run is over the elements, with what has been read already behind.
  induction items generalizing parts with
  | nil =>
    intro done
    obtain rfl := List.length_eq_zero_iff.1 hlength
    simp [Input.repeatOnto]
  | cons value items ih =>
    intro done
    cases parts with
    | nil => cases hlength
    | cons part parts =>
      have hitem : Decodes item (spell part) (decoded value) := h (value, part) (by simp)
      have hitems : ∀ pair ∈ items.zip parts, Decodes item (spell pair.2) (decoded pair.1) :=
        fun pair hpair => h pair (by simp [hpair])
      have hrest := ih (Nat.succ.inj hlength) hitems (decoded value :: done)
      rw [List.length_cons, List.flatMap_cons, List.append_assoc, Input.repeatOnto, hitem]
      simpa using hrest

/-- A delimited run decodes the bytes of its elements and the end marker, if no element starts with that marker. -/
theorem readDelimited {item : Read β} {items : List α} {parts : List (List UInt8)} (decoded : α → β)
    {last : Marker} (hlength : parts.length = items.length)
    (h : ∀ pair ∈ items.zip parts, Decodes item pair.2 (decoded pair.1) ∧
      ∃ marker tail, pair.2 = marker.toByte :: tail ∧ marker ≠ last) :
    Decodes (readDelimited last item) (parts.flatten ++ [last.toByte]) (items.map decoded) := by
  intro rest
  suffices hrun : ∀ bound done, (parts.flatten ++ [last.toByte] ++ rest).length ≤ bound →
      readUntil last item bound done (parts.flatten ++ [last.toByte] ++ rest) =
        .ok (done.reverse ++ items.map decoded) rest from hrun _ [] (Nat.le_refl _)
  induction items generalizing parts with
  | nil =>
    intro bound done hbound
    obtain rfl := List.length_eq_zero_iff.1 hlength
    cases bound with
    | zero => cases hbound
    | succ bound =>
      rw [readUntil_succ]
      simp [Bind.bind, EStateM.bind, Input.peek, Input.marker, Pure.pure, EStateM.pure]
  | cons value items ih =>
    intro bound done hbound
    cases parts with
    | nil => cases hlength
    | cons part parts =>
      obtain ⟨hitem, marker, tail, rfl, hmarker⟩ := h (value, part) (by simp)
      have hitems := fun pair hpair => h pair (List.mem_cons_of_mem _ hpair)
      cases bound with
      | zero => simp at hbound
      | succ bound =>
        have hshorter : (parts.flatten ++ [last.toByte] ++ rest).length ≤ bound := by
          simp at hbound ⊢
          omega
        -- The element's first marker is not the last one of the run, so the loop goes on to the element.
        have hrest := ih (Nat.succ.inj hlength) hitems bound (decoded value :: done) hshorter
        have hread := hitem (parts.flatten ++ [last.toByte] ++ rest)
        rw [readUntil_succ]
        simp only [List.flatten_cons, List.append_assoc, List.cons_append] at hread hrest ⊢
        simp only [Bind.bind, EStateM.bind, Input.peek, Marker.ofByte_toByte, if_neg hmarker, hread, hrest]
        simp

end Decodes

namespace MarkerRange

variable {range : MarkerRange}

/-- A run that does not start with null does not get to it. -/
theorem ne_null_of_mem (hbase : range.base ≠ Marker.null) {marker : Marker} (h : marker ∈ range) :
    marker ≠ Marker.null := by
  rintro rfl
  have hlow := Int8.le_toInt range.base
  have hnull : Marker.null.toInt = -128 := by decide
  rw [mem_iff, hnull] at h
  apply hbase
  apply Int8.toInt_inj.1
  rw [hnull]
  omega

/-- A run is not empty, so its base is in it. -/
theorem base_mem (range : MarkerRange) : range.base ∈ range := by
  have hpos := range.count_pos
  rw [mem_iff]
  omega

/-- Different distances inside a run lead to different markers. -/
theorem markerAt_inj {offset offset' : Nat} (h : offset < range.count) (h' : offset' < range.count)
    (heq : range.markerAt offset = range.markerAt offset') : offset = offset' := by
  have hsome := offset?_markerAt range h
  rw [heq, offset?_markerAt range h'] at hsome
  exact (Option.some.inj hsome).symm

/-- The base is at no distance. -/
theorem markerAt_zero (range : MarkerRange) : range.markerAt 0 = range.base := by
  simp [markerAt]

/-- The content is read behind the opening marker. -/
theorem decodes_opening (hbase : range.base ≠ Marker.null) {target : String} {content : Read Value}
    {tail : List UInt8} {value : Value} (h : Decodes content tail value) :
    Decodes (range.opening target content) (range.base.toByte :: tail) value := by
  refine Decodes.marker_bind ?_
  simpa [if_neg hbase] using h

end MarkerRange

namespace Size

/-- There are as many tiers as there are markers for them. -/
theorem tier_lt (size : Nat) : tier size < markers := by
  unfold tier markers
  repeat' split
  all_goals omega

/-- A tier holds a size if the distance from its offset fits the tier's bytes. -/
def Holds (tier size : Nat) : Prop :=
  -(128 * 256 ^ tier) ≤ (size : Int) - offset tier ∧ (size : Int) - offset tier < 128 * 256 ^ tier

/-- All sizes are held by the last tier; the others divide those below it among them. -/
theorem holds_iff {tier size : Nat} (htier : tier < markers) :
    Holds tier size ↔ size ≤ max ∧ (tier = Size.tier size ∨ tier = 3) := by
  unfold markers at htier
  unfold Holds max Size.tier
  obtain rfl | rfl | rfl | rfl : tier = 0 ∨ tier = 1 ∨ tier = 2 ∨ tier = 3 := by omega
  all_goals simp only [offset, or_true, and_true]
  all_goals repeat' split
  all_goals omega

/-- The marker of a tier, as a number. -/
theorem toInt_add_ofNat {base : Marker} {tier : Nat} (hfits : base.toInt + markers ≤ 128) (htier : tier < markers) :
    (base + Int8.ofNat tier).toInt = base.toInt + tier := by
  have hlow := Int8.le_toInt base
  unfold markers at hfits htier
  rw [Int8.toInt_add, Int8.toInt_ofNat_of_lt (by omega)]
  exact Int.bmod_eq_of_le (by omega) (by omega)

/-- After the marker of a tier comes a number in the tier's bytes, which is refused if it is too low for a size. -/
theorem readPayload_of_tier {base marker : Marker} {target : String} {tier : Nat}
    (hmarker : marker.toInt = base.toInt + tier) (htier : tier < markers) :
    readPayload marker base target = (do
      let size := (← Input.signed (tier + 1)) + offset tier
      if size < 0 then throw (.decode target marker)
      return size.toNat) := by
  have hdistance : marker.toInt - base.toInt = tier := by omega
  unfold readPayload
  simp only [hdistance, Int.toNat_natCast]
  rw [if_pos ⟨Int.natCast_nonneg _, Int.ofNat_lt.2 htier⟩]

/-- Behind the marker of a tier that holds it, a size is read from its distance. -/
theorem decodes_distance {base marker : Marker} {tier size : Nat} (hmarker : marker.toInt = base.toInt + tier)
    (htier : tier < markers) (hholds : Holds tier size) (target : String) :
    Decodes (readPayload marker base target) (BigEndian.encode (tier + 1) (size - offset tier)) size := by
  have hsum : (size : Int) - offset tier + offset tier = size := by omega
  rw [readPayload_of_tier hmarker htier]
  refine (Decodes.signed hholds.1 hholds.2).bind_pure ?_
  rw [hsum, if_neg (by omega)]
  exact .pure size

/-- A size is written as the marker of its tier and as many bytes as the tier spends, from which the size is read. -/
theorem decodes_readPayload {base : Marker} (hfits : base.toInt + markers ≤ 128) {size : Nat} {bytes : List UInt8}
    (h : Emits (write base size) bytes) :
    ∃ (marker : Marker) (tail : List UInt8), bytes = marker.toByte :: tail ∧ marker.toInt = base.toInt + tier size ∧
      ∀ target, Decodes (readPayload marker base target) tail size := by
  unfold write at h
  split at h
  · rename_i hmax
    obtain rfl := h.unique (.markerAnd _ _ _)
    have htier := tier_lt size
    have hmarker := toInt_add_ofNat hfits htier
    exact ⟨_, _, rfl, hmarker, decodes_distance hmarker htier ((holds_iff htier).2 ⟨hmax, .inl rfl⟩)⟩
  · exact absurd h not_emits_throw

/-- A size is read back as it was written, and starts with one of its markers. -/
theorem decodes_read {range : MarkerRange} (hbase : range.base ≠ Marker.null) (hcount : range.count = markers)
    {size : Nat} {bytes : List UInt8} (h : Emits (write range.base size) bytes) (target : String) :
    StartsIn range bytes ∧ Decodes (read range.base target) bytes (some size) := by
  have hfits := range.fits
  have htier := tier_lt size
  rw [hcount] at hfits
  obtain ⟨marker, tail, rfl, hmarker, hread⟩ := decodes_readPayload hfits h
  have hmem : marker ∈ range := by
    rw [MarkerRange.mem_iff, hmarker, hcount]
    omega
  refine ⟨⟨marker, tail, rfl, hmem⟩, Decodes.marker_bind ?_⟩
  rw [if_neg (range.ne_null_of_mem hbase hmem)]
  exact (hread target).bind_pure (.pure _)

/-- A size and the payload it announces are read back one after the other. -/
theorem decodes_counted {α : Type} {range : MarkerRange} (hbase : range.base ≠ Marker.null)
    (hcount : range.count = markers) {size : Nat} {front back : List UInt8} {a : α} (payload : Nat → Read α)
    (h : Emits (write range.base size) front) (hpayload : Decodes (payload size) back a) (target : String) :
    StartsIn range (front ++ back) ∧ Decodes (counted range.base target payload) (front ++ back) (some a) := by
  obtain ⟨⟨marker, tail, rfl, hmem⟩, hread⟩ := decodes_read hbase hcount h target
  exact ⟨⟨marker, tail ++ back, rfl, hmem⟩, hread.bind (hpayload.bind_pure (.pure _))⟩

end Size

namespace Shortest

/-- A number is read back from the fewest bytes that hold it, if its codec claims a marker for that width. -/
theorem decodes_read {range : MarkerRange} (hbase : range.base ≠ Marker.null) {value : Int}
    (hwidth : BigEndian.minWidth value ≤ range.count) {bytes : List UInt8} (h : Emits (write range value) bytes)
    (target : String) : StartsIn range bytes ∧ Decodes (read range target) bytes (some value) := by
  obtain rfl := h.unique (.markerAnd _ _ _)
  have hpos := BigEndian.minWidth_pos value
  have hoffset : BigEndian.minWidth value - 1 < range.count := by omega
  have hwhole : BigEndian.minWidth value = BigEndian.minWidth value - 1 + 1 := by omega
  obtain ⟨hlow, hhigh⟩ := BigEndian.minWidth_le_iff.1 (Nat.le_of_eq hwhole)
  have hmem := range.markerAt_mem hoffset
  refine ⟨⟨_, _, rfl, hmem⟩, Decodes.marker_bind ?_⟩
  rw [if_neg (range.ne_null_of_mem hbase hmem), MarkerRange.offset?_markerAt range hoffset]
  have hsigned := Decodes.signed hlow hhigh
  dsimp only
  rw [← hwhole] at hsigned ⊢
  exact hsigned.bind_pure (.pure _)

end Shortest

end Bytemark
