import Bytemark.Text.Utf8.Lemmas

/-!
# The order of texts and of their bytes

The bytes of two characters first differ where the greater character has the greater byte, and neither ends before that.
So texts are ordered as their bytes are.
-/

set_option autoImplicit false

namespace Bytemark.Utf8

/-- The first bytes that differ decide about the order of bytes. -/
theorem cons_lt_cons {one other : Nat} {rest rest' : List UInt8} (hone : one < 256) (hother : other < 256)
    (h : one < other ∨ one = other ∧ rest < rest') : UInt8.ofNat one :: rest < UInt8.ofNat other :: rest' := by
  rw [List.cons_lt_cons_iff, UInt8.lt_iff_toNat_lt, toNat_ofNat_of_lt hone, toNat_ofNat_of_lt hother]
  rcases h with hless | ⟨rfl, hrest⟩
  · exact .inl hless
  · exact .inr ⟨rfl, hrest⟩

/-- A greater character has greater bytes, whatever follows the one and the other. -/
theorem encodeChar_append_lt {one other : Char} (h : one < other) (rest rest' : List UInt8) :
    encodeChar one ++ rest < encodeChar other ++ rest' := by
  have hcode : one.toNat < other.toNat := h
  have hone := toNat_bounds one
  have hother := toNat_bounds other
  unfold encodeChar
  dsimp only
  generalize one.toNat = code at *
  generalize other.toNat = code' at *
  -- The first byte tells how many bytes there are, and fewer bytes hold smaller code points.
  split
  · repeat' split
    all_goals exact cons_lt_cons (by omega) (by omega) (.inl (by omega))
  split
  · rw [if_neg (by omega)]
    split
    · have hbytes : code / 0x40 < code' / 0x40 ∨ code / 0x40 = code' / 0x40 ∧ code % 0x40 < code' % 0x40 := by omega
      refine cons_lt_cons (by omega) (by omega) (hbytes.imp (by omega) fun ⟨hsame, hnext⟩ => ⟨by omega, ?_⟩)
      exact cons_lt_cons (by omega) (by omega) (.inl (by omega))
    · split
      all_goals exact cons_lt_cons (by omega) (by omega) (.inl (by omega))
  split
  · rw [if_neg (by omega), if_neg (by omega)]
    split
    · have hbytes : code / 0x1000 < code' / 0x1000 ∨ code / 0x1000 = code' / 0x1000 ∧
          (code / 0x40 % 0x40 < code' / 0x40 % 0x40 ∨ code / 0x40 % 0x40 = code' / 0x40 % 0x40 ∧
            code % 0x40 < code' % 0x40) := by omega
      refine cons_lt_cons (by omega) (by omega) (hbytes.imp (by omega) fun ⟨hsame, hnext⟩ => ⟨by omega, ?_⟩)
      refine cons_lt_cons (by omega) (by omega) (hnext.imp (by omega) fun ⟨hsame, hnext⟩ => ⟨by omega, ?_⟩)
      exact cons_lt_cons (by omega) (by omega) (.inl (by omega))
    · exact cons_lt_cons (by omega) (by omega) (.inl (by omega))
  · rw [if_neg (by omega), if_neg (by omega), if_neg (by omega)]
    have hbytes : code / 0x40000 < code' / 0x40000 ∨ code / 0x40000 = code' / 0x40000 ∧
        (code / 0x1000 % 0x40 < code' / 0x1000 % 0x40 ∨ code / 0x1000 % 0x40 = code' / 0x1000 % 0x40 ∧
          (code / 0x40 % 0x40 < code' / 0x40 % 0x40 ∨ code / 0x40 % 0x40 = code' / 0x40 % 0x40 ∧
            code % 0x40 < code' % 0x40)) := by omega
    refine cons_lt_cons (by omega) (by omega) (hbytes.imp (by omega) fun ⟨hsame, hnext⟩ => ⟨by omega, ?_⟩)
    refine cons_lt_cons (by omega) (by omega) (hnext.imp (by omega) fun ⟨hsame, hnext⟩ => ⟨by omega, ?_⟩)
    refine cons_lt_cons (by omega) (by omega) (hnext.imp (by omega) fun ⟨hsame, hnext⟩ => ⟨by omega, ?_⟩)
    exact cons_lt_cons (by omega) (by omega) (.inl (by omega))

/-- The first different characters of two texts decide about the texts and about their bytes. -/
theorem encode_lt_encode {one other : List Char} (h : one < other) : encode one < encode other := by
  induction one generalizing other with
  | nil =>
    cases other with
    | nil => cases h
    | cons char other =>
      obtain ⟨byte, bytes, hbytes⟩ := List.exists_cons_of_ne_nil (encodeChar_ne_nil char)
      unfold encode
      rw [List.flatMap_cons, hbytes]
      exact List.nil_lt_cons _ _
  | cons char one ih =>
    cases other with
    | nil => cases h
    | cons char' other =>
      unfold encode
      rw [List.flatMap_cons, List.flatMap_cons]
      rcases List.cons_lt_cons_iff.1 h with hless | ⟨rfl, hrest⟩
      · exact encodeChar_append_lt hless _ _
      · exact List.append_left_lt (ih hrest)

end Bytemark.Utf8
