import Bytemark.Text.Utf8

/-!
# Laws of UTF-8

`decodeChar_encodeChar` reads one character back, whatever follows it, and `eq_encodeChar_of_decodeChar` says that
nothing else is read as this character. `decode_eq_ok_iff` is both for a whole text: every text has exactly one written
form.
-/

set_option autoImplicit false

namespace Bytemark.Utf8

/-- A byte holds the numbers below 256. -/
theorem toNat_ofNat_of_lt {n : Nat} (h : n < 256) : (UInt8.ofNat n).toNat = n := by
  rw [UInt8.toNat_ofNat']
  exact Nat.mod_eq_of_lt h

/-- A byte is told by its number. -/
theorem ofNat_eq {n : Nat} {byte : UInt8} (h : n = byte.toNat) : UInt8.ofNat n = byte := by
  subst h
  simp

/-- A character is a code point outside the surrogates. -/
theorem toNat_bounds (char : Char) :
    char.toNat < 0xD800 ∨ (0xDFFF < char.toNat ∧ char.toNat < 0x110000) := char.valid

/-- The code points outside the surrogates are those of characters. -/
theorem toNat_ofNat_char {code : Nat} (h : code < 0xD800 ∨ (0xDFFF < code ∧ code < 0x110000)) :
    (Char.ofNat code).toNat = code := by
  rw [Char.ofNat, dif_pos (show code.isValidChar from h)]
  rfl

/-! ## One character, as written -/

/-- The first of three bytes announces the top bits of the code point, and bounds that hold for the second. -/
theorem lead?_three (code : Nat) (hlow : 0x800 ≤ code) (hhigh : code < 0x10000)
    (hvalid : code < 0xD800 ∨ 0xDFFF < code) :
    ∃ least most, lead? (0xE0 + code / 0x1000) = some ⟨2, code / 0x1000, least, most⟩ ∧
      least ≤ 0x80 + code / 0x40 % 0x40 ∧ 0x80 + code / 0x40 % 0x40 ≤ most := by
  simp only [lead?]
  rw [if_neg (by omega), if_neg (by omega), if_neg (by omega)]
  split
  · exact ⟨_, _, by rw [show code / 0x1000 = 0 by omega], by omega, by omega⟩
  split
  · exact ⟨_, _, by rw [show code / 0x1000 = 0xD by omega], by omega, by omega⟩
  rw [if_pos (by omega), show 0xE0 + code / 0x1000 - 0xE0 = code / 0x1000 by omega]
  exact ⟨_, _, rfl, by omega, by omega⟩

/-- The first of four bytes announces the top bits of the code point, and bounds that hold for the second. -/
theorem lead?_four (code : Nat) (hlow : 0x10000 ≤ code) (hhigh : code < 0x110000) :
    ∃ least most, lead? (0xF0 + code / 0x40000) = some ⟨3, code / 0x40000, least, most⟩ ∧
      least ≤ 0x80 + code / 0x1000 % 0x40 ∧ 0x80 + code / 0x1000 % 0x40 ≤ most := by
  simp only [lead?]
  rw [if_neg (by omega), if_neg (by omega), if_neg (by omega), if_neg (by omega), if_neg (by omega),
    if_neg (by omega)]
  split
  · exact ⟨_, _, by rw [show code / 0x40000 = 0 by omega], by omega, by omega⟩
  split
  · rw [show 0xF0 + code / 0x40000 - 0xF0 = code / 0x40000 by omega]
    exact ⟨_, _, rfl, by omega, by omega⟩
  rw [if_pos (by omega)]
  exact ⟨_, _, by rw [show code / 0x40000 = 4 by omega], by omega, by omega⟩

/-- A byte within bounds is taken into the code point. -/
theorem decodeTail_cons {tail code low high taken digit : Nat} (rest : List UInt8)
    (hleast : low ≤ 0x80 + digit) (hmost : 0x80 + digit ≤ high) (hsmall : digit < 0x40) :
    decodeTail (tail + 1) code low high taken (UInt8.ofNat (0x80 + digit) :: rest) =
      decodeTail tail (0x40 * code + digit) 0x80 0xBF (taken + 1) rest := by
  rw [decodeTail, toNat_ofNat_of_lt (by omega), if_pos ⟨hleast, hmost⟩, Nat.add_sub_cancel_left]

/-- A character is read if its first byte announces it and the other bytes complete it. -/
theorem decodeChar_eq {byte : UInt8} {rest rest' : List UInt8} {code : Nat} (lead : Lead)
    (hfirst : lead? byte.toNat = some lead)
    (htail : decodeTail lead.tail lead.bits lead.low lead.high 1 rest = .ok (code, rest')) :
    decodeChar byte rest = .ok (Char.ofNat code, rest') := by
  rw [decodeChar, hfirst]
  simp only [htail]

/-- A character is read back from its bytes, whatever follows them. -/
theorem decodeChar_encodeChar (char : Char) (rest : List UInt8) :
    ∃ byte tail, encodeChar char = byte :: tail ∧ decodeChar byte (tail ++ rest) = .ok (char, rest) := by
  have hvalid := toNat_bounds char
  have hback : Char.ofNat char.toNat = char := Char.ofNat_toNat char
  generalize hcode : char.toNat = code at hvalid hback
  subst hback
  simp only [encodeChar, hcode]
  split
  · refine ⟨_, _, rfl, decodeChar_eq ⟨0, code, 0x80, 0xBF⟩ ?_ rfl⟩
    rw [toNat_ofNat_of_lt (by omega), lead?, if_pos ‹_›]
  split
  · refine ⟨_, _, rfl, decodeChar_eq ⟨1, code / 0x40, 0x80, 0xBF⟩ ?_ ?_⟩
    · rw [toNat_ofNat_of_lt (by omega), lead?, if_neg (by omega), if_neg (by omega), if_pos (by omega),
        Nat.add_sub_cancel_left]
    · simp only [List.cons_append, List.nil_append]
      rw [decodeTail_cons _ (by omega) (by omega) (by omega), decodeTail,
        show 0x40 * (code / 0x40) + code % 0x40 = code by omega]
  split
  · obtain ⟨least, most, hlead, hlow, hhigh⟩ := lead?_three code (by omega) (by omega) (by omega)
    refine ⟨_, _, rfl, decodeChar_eq _ (by rwa [toNat_ofNat_of_lt (by omega)]) ?_⟩
    simp only [List.cons_append, List.nil_append]
    rw [decodeTail_cons _ hlow hhigh (by omega), decodeTail_cons _ (by omega) (by omega) (by omega), decodeTail,
      show 0x40 * (0x40 * (code / 0x1000) + code / 0x40 % 0x40) + code % 0x40 = code by omega]
  · obtain ⟨least, most, hlead, hlow, hhigh⟩ := lead?_four code (by omega) (by omega)
    refine ⟨_, _, rfl, decodeChar_eq _ (by rwa [toNat_ofNat_of_lt (by omega)]) ?_⟩
    simp only [List.cons_append, List.nil_append]
    rw [decodeTail_cons _ hlow hhigh (by omega), decodeTail_cons _ (by omega) (by omega) (by omega),
      decodeTail_cons _ (by omega) (by omega) (by omega), decodeTail,
      show 0x40 * (0x40 * (0x40 * (code / 0x40000) + code / 0x1000 % 0x40) + code / 0x40 % 0x40) + code % 0x40 = code
        by omega]

/-! ## One character, as read -/

/-- Every byte that announces a character, by the number of bytes after it. -/
theorem eq_of_lead? {byte : Nat} {lead : Lead} (h : lead? byte = some lead) :
    (lead.tail = 0 ∧ byte < 0x80 ∧ lead.bits = byte) ∨
    (lead.tail = 1 ∧ byte = 0xC0 + lead.bits ∧ 2 ≤ lead.bits ∧ lead.bits < 0x20 ∧ lead.low = 0x80 ∧
      lead.high = 0xBF) ∨
    (lead.tail = 2 ∧ byte = 0xE0 + lead.bits ∧ lead.bits < 0x10 ∧ 0x80 ≤ lead.low ∧ lead.high ≤ 0xBF ∧
      (lead.bits = 0 → 0xA0 ≤ lead.low) ∧ (lead.bits = 0xD → lead.high ≤ 0x9F)) ∨
    (lead.tail = 3 ∧ byte = 0xF0 + lead.bits ∧ lead.bits ≤ 4 ∧ 0x80 ≤ lead.low ∧ lead.high ≤ 0xBF ∧
      (lead.bits = 0 → 0x90 ≤ lead.low) ∧ (lead.bits = 4 → lead.high ≤ 0x8F)) := by
  simp only [lead?] at h
  repeat' split at h
  all_goals simp only [Option.some.injEq, reduceCtorEq] at h
  all_goals subst h
  all_goals simp
  all_goals omega

/-- The byte that was taken, and what it added to the code point. -/
theorem eq_of_decodeTail {tail code low high taken result : Nat} {bytes rest : List UInt8}
    (h : decodeTail (tail + 1) code low high taken bytes = .ok (result, rest)) :
    ∃ digit rest', digit < 0x100 ∧ bytes = UInt8.ofNat digit :: rest' ∧ low ≤ digit ∧ digit ≤ high ∧
      decodeTail tail (0x40 * code + (digit - 0x80)) 0x80 0xBF (taken + 1) rest' = .ok (result, rest) := by
  cases bytes with
  | nil => cases h
  | cons byte rest' =>
    rw [decodeTail] at h
    split at h
    · rename_i hbounds
      exact ⟨byte.toNat, rest', UInt8.toNat_lt byte, by simp, hbounds.1, hbounds.2, h⟩
    · cases h

/-- What is read as a character is the written form of it, and what is left follows. -/
theorem eq_encodeChar_of_decodeChar {byte : UInt8} {rest rest' : List UInt8} {char : Char}
    (h : decodeChar byte rest = .ok (char, rest')) : byte :: rest = encodeChar char ++ rest' := by
  rw [decodeChar] at h
  split at h
  · cases h
  rename_i lead hfirst
  split at h
  case h_2 => cases h
  rename_i code rest'' htail
  cases h
  have hform := eq_of_lead? hfirst
  obtain ⟨count, bits, low, high⟩ := lead
  simp only at hform htail
  rcases hform with ⟨rfl, hsmall, rfl⟩ | ⟨rfl, hlead, hleast, hmost, rfl, rfl⟩ |
    ⟨rfl, hlead, hmost, hleast, hgreatest, hshortest, hsurrogate⟩ |
    ⟨rfl, hlead, hmost, hleast, hgreatest, hshortest, hlast⟩
  · cases htail
    rw [encodeChar, toNat_ofNat_char (by omega)]
    simp [hsmall]
  · obtain ⟨second, _, _, rfl, _, _, htail⟩ := eq_of_decodeTail htail
    obtain ⟨rfl, rfl⟩ := Prod.mk.inj (Except.ok.inj htail)
    generalize hcode : 0x40 * bits + (second - 0x80) = code
    rw [encodeChar, toNat_ofNat_char (by omega), if_neg (by omega), if_pos (by omega)]
    simp only [List.cons_append, List.nil_append]
    rw [ofNat_eq (show 0xC0 + code / 0x40 = byte.toNat by omega), show 0x80 + code % 0x40 = second by omega]
  · obtain ⟨second, _, _, rfl, _, _, htail⟩ := eq_of_decodeTail htail
    obtain ⟨third, _, _, rfl, _, _, htail⟩ := eq_of_decodeTail htail
    obtain ⟨rfl, rfl⟩ := Prod.mk.inj (Except.ok.inj htail)
    generalize hcode : 0x40 * (0x40 * bits + (second - 0x80)) + (third - 0x80) = code
    rw [encodeChar, toNat_ofNat_char (by omega), if_neg (by omega), if_neg (by omega), if_pos (by omega)]
    simp only [List.cons_append, List.nil_append]
    rw [ofNat_eq (show 0xE0 + code / 0x1000 = byte.toNat by omega),
      show 0x80 + code / 0x40 % 0x40 = second by omega, show 0x80 + code % 0x40 = third by omega]
  · obtain ⟨second, _, _, rfl, _, _, htail⟩ := eq_of_decodeTail htail
    obtain ⟨third, _, _, rfl, _, _, htail⟩ := eq_of_decodeTail htail
    obtain ⟨fourth, _, _, rfl, _, _, htail⟩ := eq_of_decodeTail htail
    obtain ⟨rfl, rfl⟩ := Prod.mk.inj (Except.ok.inj htail)
    generalize hcode :
      0x40 * (0x40 * (0x40 * bits + (second - 0x80)) + (third - 0x80)) + (fourth - 0x80) = code
    rw [encodeChar, toNat_ofNat_char (by omega), if_neg (by omega), if_neg (by omega), if_neg (by omega)]
    simp only [List.cons_append, List.nil_append]
    rw [ofNat_eq (show 0xF0 + code / 0x40000 = byte.toNat by omega),
      show 0x80 + code / 0x1000 % 0x40 = second by omega, show 0x80 + code / 0x40 % 0x40 = third by omega,
      show 0x80 + code % 0x40 = fourth by omega]

/-! ## A text -/

/-- A text is read back behind what has been read of it, if the bound is not below its length. -/
theorem decodeFrom_encode {chars : List Char} {bound : Nat} (index : Nat) (done : List Char)
    (h : (encode chars).length ≤ bound) :
    decodeFrom bound index done (encode chars) = .ok (done.reverse ++ chars) := by
  induction chars generalizing bound index done with
  | nil => cases bound <;> simp [encode, decodeFrom]
  | cons char chars ih =>
    obtain ⟨byte, tail, hchar, hstep⟩ := decodeChar_encodeChar char (encode chars)
    have hsplit : encode (char :: chars) = byte :: (tail ++ encode chars) := by
      rw [encode, List.flatMap_cons, hchar]
      rfl
    rw [hsplit] at h ⊢
    obtain ⟨bound, rfl⟩ : ∃ less, bound = less + 1 := ⟨bound - 1, by simp at h; omega⟩
    simp only [decodeFrom, hstep]
    rw [ih _ _ (by simp at h; omega)]
    simp

/-- What is read as a text, behind what has been read of it, is the written form of the rest. -/
theorem eq_encode_of_decodeFrom {bytes : List UInt8} {bound index : Nat} {done result : List Char}
    (h : decodeFrom bound index done bytes = .ok result) (henough : bytes.length ≤ bound) :
    ∃ chars, result = done.reverse ++ chars ∧ bytes = encode chars := by
  induction bound generalizing bytes index done with
  | zero =>
    obtain rfl : bytes = [] := List.length_eq_zero_iff.1 (by omega)
    exact ⟨[], by simpa [decodeFrom] using h.symm, rfl⟩
  | succ bound ih =>
    cases bytes with
    | nil => exact ⟨[], by simpa [decodeFrom] using h.symm, rfl⟩
    | cons byte rest =>
      rw [decodeFrom] at h
      split at h
      · rename_i char rest' hstep
        have hfront := eq_encodeChar_of_decodeChar hstep
        have hshorter : rest'.length ≤ bound := by
          have hlengths := congrArg List.length hfront
          have := List.length_pos_iff.2 (encodeChar_ne_nil char)
          simp at hlengths henough
          omega
        obtain ⟨chars, rfl, rfl⟩ := ih h hshorter
        refine ⟨char :: chars, by simp, ?_⟩
        rw [hfront]
        rfl
      · cases h
      · cases h

/-- Every character takes at least one byte. -/
theorem length_le_length_encode (chars : List Char) : chars.length ≤ (encode chars).length := by
  induction chars with
  | nil => exact Nat.le_refl _
  | cons char chars ih =>
    have hpos := List.length_pos_iff.2 (encodeChar_ne_nil char)
    rw [encode, List.flatMap_cons, List.length_append, List.length_cons]
    unfold encode at ih
    omega

/-- A text is read back as it was written. -/
theorem decode_encode (chars : List Char) : decode (encode chars) = .ok chars := by
  rw [decode, decodeFrom_encode 0 [] (Nat.le_refl _)]
  rfl

/-- Nothing but the written form of a text is read as this text. -/
theorem decode_eq_ok_iff {bytes : List UInt8} {chars : List Char} :
    decode bytes = .ok chars ↔ bytes = encode chars := by
  constructor
  · intro h
    obtain ⟨chars', rfl, rfl⟩ := eq_encode_of_decodeFrom h (Nat.le_refl _)
    rfl
  · rintro rfl
    exact decode_encode chars

end Bytemark.Utf8
