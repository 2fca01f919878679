import Bytemark.Proofs.Value.Matching
import Bytemark.Value.Slotwise

/-!
# The comparison slot by slot

`RecordEquality.slotwise` compares records one level at a time, with as many levels as the first record has. More levels
make no difference, as equality asks for no record deeper down than the values it compares. So two records are equal
slot by slot exactly if their slots have the same names and equal values: `slots_slotwise`.
-/

set_option autoImplicit false

namespace Bytemark

/-- Lists compare place by place, so only the comparison of the first list's items counts. -/
theorem isEqv_congr {α : Type} {equal equal' : α → α → Bool} {left right : List α}
    (h : ∀ item ∈ left, ∀ other, equal item other = equal' item other) :
    left.isEqv right equal = left.isEqv right equal' := by
  induction left generalizing right with
  | nil => cases right <;> rfl
  | cons item left ih =>
    rw [List.forall_mem_cons] at h
    cases right with
    | nil => rfl
    | cons other right => rw [List.isEqv, List.isEqv, h.1 other, ih h.2]

namespace Value

/-! ## Levels of records -/

/-- The items of a list have no more levels than the list. -/
theorem levels_le_levelsOfItems {items : List Value} {item : Value} (h : item ∈ items) :
    item.levels ≤ levelsOfItems items := by
  induction items with
  | nil => cases h
  | cons first items ih =>
    rw [levelsOfItems]
    rcases List.mem_cons.1 h with rfl | h
    · exact Nat.le_max_left _ _
    · exact Nat.le_trans (ih h) (Nat.le_max_right _ _)

/-- Keys and values have no more levels than all the entries. -/
theorem levels_le_levelsOfEntries {entries : List (Value × Value)} {entry : Value × Value} (h : entry ∈ entries) :
    entry.1.levels ≤ levelsOfEntries entries ∧ entry.2.levels ≤ levelsOfEntries entries := by
  induction entries with
  | nil => cases h
  | cons first entries ih =>
    obtain ⟨key, value⟩ := first
    rw [levelsOfEntries]
    rcases List.mem_cons.1 h with rfl | h
    · exact ⟨by dsimp only; omega, by dsimp only; omega⟩
    · have hle := ih h
      omega

/-- The value in a slot has no more levels than all the slots. -/
theorem levels_le_levelsOfSlots {slots : List (String × Value)} {slot : String × Value} (h : slot ∈ slots) :
    slot.2.levels ≤ levelsOfSlots slots := by
  induction slots with
  | nil => cases h
  | cons first slots ih =>
    obtain ⟨name, value⟩ := first
    rw [levelsOfSlots]
    rcases List.mem_cons.1 h with rfl | h
    · exact Nat.le_max_left _ _
    · exact Nat.le_trans (ih h) (Nat.le_max_right _ _)

/-- Two comparisons of user types make the same equality of a value with others, if they agree on variants and on the
records inside the value. -/
theorem equal_congr {one other : RecordEquality} {bound : Nat} (hvariants : one.variants = other.variants)
    (hslots : ∀ type slots others, levelsOfSlots slots < bound → one.slots type slots others =
      other.slots type slots others) {value : Value} (hlevels : value.levels ≤ bound) (right : Value) :
    @Value.equal one value right = @Value.equal other value right := by
  induction value using Value.induction generalizing right with
  | null => cases right <;> simp only [Value.equal]
  | atom atom => cases right <;> simp only [Value.equal]
  | variant type index => cases right <;> simp only [Value.equal, hvariants]
  | sequence kind items ih =>
    rw [levels] at hlevels
    have hitems : ∀ item ∈ items, ∀ right, @Value.equal one item right = @Value.equal other item right :=
      fun item hitem => ih item hitem (Nat.le_trans (levels_le_levelsOfItems hitem) hlevels)
    have hfound : ∀ others, @allFound one items others = @allFound other items others := fun others => by
      rw [@allFound_eq one, @allFound_eq other]
      refine all_congr fun item hitem => ?_
      rw [funext (hitems item hitem)]
    have hsame : ∀ others, @equalItems one items others = @equalItems other items others := fun others => by
      rw [@equalItems_eq one, @equalItems_eq other, isEqv_congr hitems]
    cases right with
    | sequence kind' others => cases kind <;> cases kind' <;> simp [Value.equal, hfound, hsame]
    | _ => cases kind <;> simp only [Value.equal]
  | map entries ih =>
    rw [levels] at hlevels
    have hassigned : ∀ others, @allAssigned one entries others = @allAssigned other entries others := fun others => by
      rw [@allAssigned_eq one, @allAssigned_eq other]
      refine all_congr fun entry hentry => ?_
      obtain ⟨hkey, hvalue⟩ := levels_le_levelsOfEntries hentry
      rw [funext ((ih entry hentry).1 (Nat.le_trans hkey hlevels)),
        funext ((ih entry hentry).2 (Nat.le_trans hvalue hlevels))]
    cases right with
    | map others => simp only [Value.equal, hassigned]
    | _ => simp only [Value.equal]
  | array element items ih =>
    rw [levels] at hlevels
    have hsame : ∀ others, @equalItems one items others = @equalItems other items others := fun others => by
      rw [@equalItems_eq one, @equalItems_eq other, isEqv_congr fun item hitem =>
        ih item hitem (Nat.le_trans (levels_le_levelsOfItems hitem) hlevels)]
    cases right with
    | array element' others => simp only [Value.equal, hsame]
    | _ => simp only [Value.equal]
  | record type slots _ =>
    cases right with
    | record type' others => simp only [Value.equal, hslots type slots others hlevels]
    | _ => simp only [Value.equal]

end Value

namespace RecordEquality

open Value

/-- More levels than there are make no difference. -/
theorem nested_slots {bound bound' : Nat} (hbound : bound ≤ bound') {type : String}
    {slots others : List (String × Value)} (hlevels : levelsOfSlots slots < bound) :
    (nested bound).slots type slots others = (nested bound').slots type slots others := by
  induction bound generalizing bound' type slots others with
  | zero => exact absurd hlevels (Nat.not_lt_zero _)
  | succ bound ih =>
    obtain ⟨bound', rfl⟩ := Nat.exists_eq_add_of_le' (Nat.le_trans (Nat.succ_pos bound) hbound)
    have hnested : (nested bound).variants = (nested bound').variants := by
      cases bound <;> cases bound' <;> rfl
    refine isEqv_congr fun slot hslot other => ?_
    have hslot := Nat.le_trans (levels_le_levelsOfSlots hslot) (Nat.le_of_lt_succ hlevels)
    rw [equal_congr hnested (fun type slots others h => ih (Nat.le_of_succ_le_succ hbound) h) hslot]

/-- Two records are equal slot by slot if their slots have the same names and equal values. -/
theorem slots_slotwise (type : String) (slots others : List (String × Value)) :
    slotwise.slots type slots others = @equalSlots slotwise slots others := by
  refine isEqv_congr fun slot hslot other => ?_
  have hvariants : (nested (levelsOfSlots slots)).variants = slotwise.variants := by
    cases levelsOfSlots slots <;> rfl
  rw [equal_congr hvariants (fun type slots others h => ?_) (levels_le_levelsOfSlots hslot)]
  exact (nested_slots h (Nat.lt_succ_self _)).symm

end RecordEquality

end Bytemark
