import Bytemark.Proofs.Value.Matching
import Bytemark.Proofs.Value.Repetition

/-!
# Values that compare alike

One value may stand for another where all that matters is what equals what. `Value.ComparesLike` says that no comparison
tells the two apart, whatever user types compare by. Containers compare alike if their parts do; records need not, since
only their types know what they compare by.
-/

set_option autoImplicit false

namespace Bytemark.Value

variable [RecordEquality] {f g : Value → Value} {items : List Value} {entries : List (Value × Value)}

/-- Compared with any other value, from either side, the second gives the answers of the first. -/
def ComparesLike (value value' : Value) : Prop :=
  ∀ other : Value, value'.equal other = value.equal other ∧ other.equal value' = other.equal value

/-- A value compares like itself. -/
theorem ComparesLike.refl (value : Value) : value.ComparesLike value := fun _ => ⟨rfl, rfl⟩

/-- Of two pairs that compare alike, both are equal or neither is. -/
theorem ComparesLike.equal_eq {one one' other other' : Value} (h : one.ComparesLike one')
    (hother : other.ComparesLike other') : one'.equal other' = one.equal other :=
  (h other').1.trans (hother one).2

/-- Values that do not repeat may be replaced by values that compare alike. -/
theorem apart_map (h : ∀ item ∈ items, item.ComparesLike (f item)) (hapart : Apart items) : Apart (items.map f) := by
  refine List.pairwise_map.2 (List.Pairwise.imp_of_mem ?_ hapart)
  intro earlier later hearlier hlater hunequal
  rw [(h later hlater).equal_eq (h earlier hearlier)]
  exact hunequal

/-- Lists of items that compare alike are equal, place by place, to the same lists. -/
theorem equalItems_map (h : ∀ item ∈ items, item.ComparesLike (f item)) (others : List Value) :
    equalItems (items.map f) others = equalItems items others ∧
      equalItems others (items.map f) = equalItems others items := by
  induction items generalizing others with
  | nil => exact ⟨rfl, rfl⟩
  | cons item items ih =>
    rw [List.forall_mem_cons] at h
    cases others with
    | nil => simp only [List.map_cons, equalItems, and_self]
    | cons other others =>
      obtain ⟨hleft, hright⟩ := h.1 other
      obtain ⟨hlefts, hrights⟩ := ih h.2 others
      simp only [List.map_cons, equalItems, hleft, hright, hlefts, hrights, and_self]

/-- Values are found among items exactly if they are found among items that compare alike, and the other way round. -/
theorem allFound_map (h : ∀ item ∈ items, item.ComparesLike (f item)) (others : List Value) :
    allFound (items.map f) others = allFound items others ∧
      allFound others (items.map f) = allFound others items := by
  simp only [allFound_eq, List.all_map, List.any_map]
  refine ⟨all_congr fun item hitem => ?_, all_congr fun other _ => ?_⟩
  · simp only [Function.comp_apply, (h item hitem _).1]
  · rw [Bool.eq_iff_iff, List.any_eq_true, List.any_eq_true]
    exact exists_congr fun item => and_congr_right fun hitem => by
      rw [Function.comp_apply, (h item hitem other).2]

/-- Sequences compare alike if their elements do. -/
theorem comparesLike_sequence (kind : SequenceKind) (h : ∀ item ∈ items, item.ComparesLike (f item)) :
    (sequence kind items).ComparesLike (.sequence kind (items.map f)) := by
  intro other
  cases other with
  | sequence kind' others =>
    obtain ⟨hleft, hright⟩ := equalItems_map h others
    obtain ⟨hfound, hfinds⟩ := allFound_map h others
    cases kind <;> cases kind' <;>
      simp only [Value.equal, hleft, hright, hfound, hfinds, List.length_map, and_self]
  | _ => cases kind <;> simp only [Value.equal, and_self]

/-- Arrays compare alike if their items do. -/
theorem comparesLike_array (type : ValueType) (h : ∀ item ∈ items, item.ComparesLike (f item)) :
    (array type items).ComparesLike (.array type (items.map f)) := by
  intro other
  cases other with
  | array type' others =>
    obtain ⟨hleft, hright⟩ := equalItems_map h others
    simp only [Value.equal, hleft, hright, and_self]
  | _ => simp only [Value.equal, and_self]

/-- Looking a key up among entries that compare alike finds a value that compares alike. -/
theorem any_find?_map (hkeys : ∀ entry ∈ entries, entry.1.ComparesLike (f entry.1))
    (hvalues : ∀ entry ∈ entries, entry.2.ComparesLike (g entry.2)) (key value : Value) :
    (((entries.map fun entry => (f entry.1, g entry.2)).find? fun other => key.equal other.1).any fun other =>
        value.equal other.2) =
      (entries.find? fun other => key.equal other.1).any fun other => value.equal other.2 := by
  induction entries with
  | nil => rfl
  | cons entry entries ih =>
    rw [List.forall_mem_cons] at hkeys hvalues
    rw [List.map_cons, List.find?_cons, List.find?_cons, (hkeys.1 key).2]
    cases key.equal entry.1 with
    | true => exact (hvalues.1 value).2
    | false => exact ih hkeys.2 hvalues.2

/-- Entries are assigned exactly if entries that compare alike are, and the other way round. -/
theorem allAssigned_map (hkeys : ∀ entry ∈ entries, entry.1.ComparesLike (f entry.1))
    (hvalues : ∀ entry ∈ entries, entry.2.ComparesLike (g entry.2)) (others : List (Value × Value)) :
    allAssigned (entries.map fun entry => (f entry.1, g entry.2)) others = allAssigned entries others ∧
      allAssigned others (entries.map fun entry => (f entry.1, g entry.2)) = allAssigned others entries := by
  simp only [allAssigned_eq, List.all_map]
  refine ⟨all_congr fun entry hentry => ?_, all_congr fun other _ => any_find?_map hkeys hvalues other.1 other.2⟩
  simp only [Function.comp_apply, (hkeys entry hentry _).1, (hvalues entry hentry _).1]

/-- Maps compare alike if their keys and values do. -/
theorem comparesLike_map (hkeys : ∀ entry ∈ entries, entry.1.ComparesLike (f entry.1))
    (hvalues : ∀ entry ∈ entries, entry.2.ComparesLike (g entry.2)) :
    (map entries).ComparesLike (.map (entries.map fun entry => (f entry.1, g entry.2))) := by
  intro other
  cases other with
  | map others =>
    obtain ⟨hleft, hright⟩ := allAssigned_map hkeys hvalues others
    simp only [Value.equal, hleft, hright, List.length_map, and_self]
  | _ => simp only [Value.equal, and_self]

end Bytemark.Value
