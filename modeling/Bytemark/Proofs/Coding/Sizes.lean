import Bytemark.Proofs.Coding.Decoding

/-!
# The forms of a size

A size has a *form* in every tier that holds it: the tier's marker, and the distance of the size from the tier's offset.
What is read as a size is one of its forms and nothing else (`read_eq_some_iff`). The first three tiers hold the sizes
between their own start and the next tier's, and the last tier holds every size (`holds_iff`). So a size has one form if
it is in the last tier's own range and two forms otherwise. The shorter one is written.
-/

set_option autoImplicit false

namespace Bytemark.Size

variable {base marker : Marker} {target : String} {tier size : Nat} {input rest : Input}

/-- The bytes of a size in a tier. -/
def form (base : Marker) (tier size : Nat) : List UInt8 :=
  (base + Int8.ofNat tier).toByte :: BigEndian.encode (tier + 1) (size - offset tier)

/-- Each tier takes one byte more than the one below it, and a marker. -/
theorem length_form (base : Marker) (tier size : Nat) : (form base tier size).length = tier + 2 := by
  simp [form]

/-- The last tier is for the sizes that no other has room for. -/
theorem tier_eq_three_iff : Size.tier size = 3 ↔ 16843008 ≤ size := by
  unfold Size.tier
  repeat' split
  all_goals omega

/-- There are four tiers. -/
theorem tier_le_three (size : Nat) : Size.tier size ≤ 3 := Nat.le_of_lt_succ (tier_lt size)

/-- A size is written in the form of its own tier, if it is not too great. -/
theorem emits_write_iff {bytes : List UInt8} :
    Emits (write base size) bytes ↔ size ≤ max ∧ bytes = form base (Size.tier size) size := by
  unfold write
  split
  · rename_i hmax
    have hform : Emits (Output.markerAnd _ _ _) (form base (Size.tier size) size) := .markerAnd _ _ _
    constructor
    · intro h
      exact ⟨hmax, h.unique hform⟩
    · rintro ⟨-, rfl⟩
      exact hform
  · rename_i hmax
    exact ⟨fun h => absurd h not_emits_throw, fun h => absurd h.1 hmax⟩

/-- A marker that is no tier's is refused, and nothing behind it is read. -/
theorem readPayload_of_no_tier (h : marker.toInt < base.toInt ∨ base.toInt + markers ≤ marker.toInt) :
    readPayload marker base target = throw (.decode target marker) := by
  unfold readPayload
  rw [if_neg (by omega)]

/-- Behind the marker of a tier that holds it, a size is read from its distance, and nothing else is read as it. -/
theorem readPayload_eq_ok_iff :
    readPayload marker base target input = .ok size rest ↔
      ∃ tier, tier < markers ∧ marker.toInt = base.toInt + tier ∧ Holds tier size ∧
        input = BigEndian.encode (tier + 1) (size - offset tier) ++ rest := by
  constructor
  · intro h
    by_cases hforeign : marker.toInt < base.toInt ∨ base.toInt + markers ≤ marker.toInt
    · rw [readPayload_of_no_tier hforeign] at h
      cases h
    · obtain ⟨tier, hmarker, htier⟩ : ∃ tier : Nat, marker.toInt = base.toInt + tier ∧ tier < markers :=
        ⟨(marker.toInt - base.toInt).toNat, by omega, by omega⟩
      rw [readPayload_of_tier hmarker htier] at h
      obtain ⟨number, _, hnumber, hanswer⟩ := bind_eq_ok_iff.1 h
      obtain ⟨payload, rfl, hlength, rfl⟩ := Input.signed_eq_ok_iff.1 hnumber
      dsimp only at hanswer
      split at hanswer
      · cases hanswer
      · cases hanswer
        -- The distance is the number in the payload, and spelt by just these bytes.
        have hdistance : (((BigEndian.decode payload + offset tier).toNat : Nat) : Int) - offset tier =
            BigEndian.decode payload := by omega
        have hleast := BigEndian.le_decode hlength
        have hmost := BigEndian.decode_lt hlength
        refine ⟨tier, htier, hmarker, ?_, ?_⟩
        · unfold Holds
          rw [hdistance]
          exact ⟨hleast, hmost⟩
        · rw [hdistance, ← hlength, BigEndian.encode_decode]
  · rintro ⟨tier, htier, hmarker, hholds, rfl⟩
    exact decodes_distance hmarker htier hholds target rest

/-- Behind a marker other than null's, the payload of its tier is read. -/
theorem read_marker (hnull : marker ≠ Marker.null) (tail : Input) :
    read base target (marker.toByte :: tail) = (do return some (← readPayload marker base target)) tail := by
  simp [read, bind, EStateM.bind, Input.marker, hnull]

/-- The markers of the tiers are not null's. -/
theorem add_ofNat_ne_null (hlow : -127 ≤ base.toInt) (hfits : base.toInt + markers ≤ 128) (htier : tier < markers) :
    base + Int8.ofNat tier ≠ Marker.null := by
  intro heq
  have hmarker := toInt_add_ofNat hfits htier
  rw [heq, show Marker.null.toInt = -128 by decide] at hmarker
  omega

/-- What is read as a size is the size's form in a tier that holds it. -/
theorem read_eq_some_iff (hlow : -127 ≤ base.toInt) (hfits : base.toInt + markers ≤ 128) :
    read base target input = .ok (some size) rest ↔
      ∃ tier, tier < markers ∧ Holds tier size ∧ input = form base tier size ++ rest := by
  constructor
  · intro h
    cases input with
    | nil => cases h
    | cons byte tail =>
      rw [← Marker.toByte_ofByte byte] at h
      by_cases hnull : Marker.ofByte byte = Marker.null
      · rw [hnull] at h
        cases h
      · rw [read_marker hnull] at h
        obtain ⟨_, _, hpayload, hpure⟩ := bind_eq_ok_iff.1 h
        cases hpure
        obtain ⟨tier, htier, hmarker, hholds, rfl⟩ := readPayload_eq_ok_iff.1 hpayload
        have hbyte : base + Int8.ofNat tier = Marker.ofByte byte := by
          apply Int8.toInt_inj.1
          rw [toInt_add_ofNat hfits htier, hmarker]
        refine ⟨tier, htier, hholds, ?_⟩
        rw [form, hbyte, Marker.toByte_ofByte]
        rfl
  · rintro ⟨tier, htier, hholds, rfl⟩
    have hmarker := toInt_add_ofNat hfits htier
    refine (read_marker (add_ofNat_ne_null hlow hfits htier) _).trans (bind_eq_ok_iff.2 ⟨size, rest, ?_, rfl⟩)
    exact readPayload_eq_ok_iff.2 ⟨tier, htier, hmarker, hholds, rfl⟩

/-- No form of a size is shorter than the one that is written. -/
theorem encodedLength_le_of_holds (htier : tier < markers) (hholds : Holds tier size) :
    encodedLength size ≤ (form base tier size).length := by
  have hleast := tier_le_three size
  rw [length_form, encodedLength]
  rcases ((holds_iff htier).1 hholds).2 with rfl | rfl <;> omega

section Forms

variable (hlow : -127 ≤ base.toInt) (hfits : base.toInt + markers ≤ 128)
include hlow hfits

/-- A size is read back from its form in every tier that holds it. -/
theorem decodes_form (htier : tier < markers) (hholds : Holds tier size) (target : String) :
    Decodes (read base target) (form base tier size) (some size) :=
  fun _ => (read_eq_some_iff hlow hfits).2 ⟨tier, htier, hholds, rfl⟩

/-- A size is not read from fewer bytes than it is written in. -/
theorem not_read_of_shorter {front : Input} (hshort : front.length < encodedLength size) :
    read base target (front ++ rest) ≠ .ok (some size) rest := by
  intro hread
  obtain ⟨tier, htier, hholds, hinput⟩ := (read_eq_some_iff hlow hfits).1 hread
  have hlong : encodedLength size ≤ (form base tier size).length := encodedLength_le_of_holds htier hholds
  rw [← List.append_cancel_right hinput] at hlong
  omega

/-- What is read as a size was written for it, or is its form in the last tier. -/
theorem written_of_read (hread : read base target input = .ok (some size) rest) :
    size ≤ max ∧ ∃ front, input = front ++ rest ∧
      (Emits (write base size) front ∨ (front = form base 3 size ∧ size < 16843008)) := by
  obtain ⟨tier, htier, hholds, hinput⟩ := (read_eq_some_iff hlow hfits).1 hread
  obtain ⟨hmax, hform⟩ := (holds_iff htier).1 hholds
  refine ⟨hmax, _, hinput, ?_⟩
  by_cases hsmall : size < 16843008
  · refine hform.imp (fun hleast => ?_) fun hlast => ⟨by rw [hlast], hsmall⟩
    exact emits_write_iff.2 ⟨hmax, by rw [hleast]⟩
  · have hlast : Size.tier size = 3 := tier_eq_three_iff.2 (by omega)
    refine .inl (emits_write_iff.2 ⟨hmax, ?_⟩)
    rcases hform with rfl | rfl
    · rfl
    · rw [hlast]

/-- A distance below zero is refused in the last tier, whose offset is zero. -/
theorem read_negative {payload : Input} (hlength : payload.length = 4) (hnegative : BigEndian.decode payload < 0) :
    read base target ((base + 3).toByte :: (payload ++ rest)) = .error (.decode target (base + 3)) rest := by
  have hmarker : (base + 3).toInt = base.toInt + (3 : Nat) := toInt_add_ofNat hfits (by decide)
  have hnull : base + 3 ≠ Marker.null := add_ofNat_ne_null hlow hfits (show 3 < markers by decide)
  have hnumber : Input.signed 4 (payload ++ rest) = .ok (BigEndian.decode payload) rest :=
    Input.signed_append payload rest hlength
  rw [read_marker hnull, readPayload_of_tier hmarker (by decide)]
  refine bind_eq_error_iff.2 (.inl (bind_eq_error_iff.2 (.inr ⟨_, rest, hnumber, ?_⟩)))
  dsimp only
  rw [if_pos (by simpa [offset] using hnegative)]
  rfl

end Forms

/-- The form in the last tier is not the one that is written for a size that an earlier tier holds. -/
theorem not_emits_last_form (hsmall : size < 16843008) : ¬ Emits (write base size) (form base 3 size) := by
  intro hwritten
  have hlengths := congrArg List.length (emits_write_iff.1 hwritten).2
  rw [length_form, length_form] at hlengths
  have hlast : 16843008 ≤ size := tier_eq_three_iff.1 (by omega)
  omega

/-- A code of sizes at any four markers but null's. A size up to the maximum is written in its announced length, is read
back from what was written, whatever follows, and is read from no shorter bytes. A greater one is refused and nothing is
written. Whatever is read as a size was written for it, apart from the form in the last tier of sizes that an earlier
tier holds: all of these forms are read, and none is written. A number below zero in the last tier is refused, and so is
a marker of no tier; the null marker alone is no size. -/
theorem write_canonical (hlow : -127 ≤ base.toInt) (hhigh : base.toInt + 3 ≤ 127) (target : String) :
    (∀ size, size ≤ max → ∃ bytes, Emits (write base size) bytes ∧ bytes.length = encodedLength size ∧
      Decodes (read base target) bytes (some size) ∧
      ∀ front rest, front.length < encodedLength size → read base target (front ++ rest) ≠ .ok (some size) rest) ∧
    (∀ size output, max < size → write base size output = .error (.sizeOverflow size) output) ∧
    (∀ input size rest, read base target input = .ok (some size) rest →
      size ≤ max ∧ ∃ front, input = front ++ rest ∧
        (Emits (write base size) front ∨ (front = form base 3 size ∧ size < 16843008))) ∧
    (∀ size, size < 16843008 →
      Decodes (read base target) (form base 3 size) (some size) ∧ ¬ Emits (write base size) (form base 3 size)) ∧
    (∀ payload rest, payload.length = 4 → BigEndian.decode payload < 0 →
      read base target ((base + 3).toByte :: (payload ++ rest)) = .error (.decode target (base + 3)) rest) ∧
    (∀ marker rest, marker ≠ Marker.null → marker.toInt < base.toInt ∨ base.toInt + 3 < marker.toInt →
      read base target (marker.toByte :: rest) = .error (.decode target marker) rest) ∧
    ∀ rest, read base target (Marker.null.toByte :: rest) = .ok none rest := by
  have hfits : base.toInt + markers ≤ 128 := by
    unfold markers
    omega
  refine ⟨fun size hmax => ?_, fun size output hmax => ?_, fun _ _ _ hread => written_of_read hlow hfits hread,
    fun size hsmall => ⟨?_, not_emits_last_form hsmall⟩,
    fun _ _ hlength hnegative => read_negative hlow hfits hlength hnegative, fun marker rest hnull hforeign => ?_,
    fun rest => rfl⟩
  · have hholds := (holds_iff (tier_lt size)).2 ⟨hmax, .inl rfl⟩
    exact ⟨_, emits_write_iff.2 ⟨hmax, rfl⟩, length_form .., decodes_form hlow hfits (tier_lt size) hholds target,
      fun _ _ hshort => not_read_of_shorter hlow hfits hshort⟩
  · unfold write
    rw [if_neg (by omega)]
    rfl
  · have hthree : 3 < markers := by decide
    have hmax : size ≤ max := by
      unfold max
      omega
    exact decodes_form hlow hfits hthree ((holds_iff hthree).2 ⟨hmax, .inr rfl⟩) target
  · rw [read_marker hnull, readPayload_of_no_tier (by unfold markers; omega)]
    rfl

/-- At the last four markers, 70000 is written in four bytes; its five bytes in the last tier are read and never
written, and five bytes that spell -1 there are refused. -/
theorem write_canonical_edge :
    -127 ≤ (124 : Marker).toInt ∧ (124 : Marker).toInt + 3 ≤ 127 ∧
    (∃ bytes, Emits (write 124 70000) bytes ∧ bytes.length = 4 ∧ Decodes (read 124 "list") bytes (some 70000) ∧
      ∀ front rest, front.length < 4 → read 124 "list" (front ++ rest) ≠ .ok (some 70000) rest) ∧
    Decodes (read 124 "list") (form 124 3 70000) (some 70000) ∧ ¬ Emits (write 124 70000) (form 124 3 70000) ∧
    ∀ rest,
      read 124 "list" (Marker.toByte 127 :: ([255, 255, 255, 255] ++ rest)) = .error (.decode "list" 127) rest := by
  have hlow : -127 ≤ (124 : Marker).toInt := by decide
  have hhigh : (124 : Marker).toInt + 3 ≤ 127 := by decide
  obtain ⟨hwrite, -, -, hlast, hnegative, -, -⟩ := write_canonical hlow hhigh "list"
  obtain ⟨hread, hunwritten⟩ := hlast 70000 (by decide)
  exact ⟨hlow, hhigh, hwrite 70000 (by decide), hread, hunwritten,
    fun rest => hnegative [255, 255, 255, 255] rest rfl (by decide)⟩

end Bytemark.Size
