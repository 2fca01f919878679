import Bytemark.Value.Equality

/-!
# Values without repetitions

Values are *apart* if none of them equals an earlier one. `Value.distinct` drops what repeats, so it keeps all values
exactly if they are apart. A map keeps the keys that a set of its keys would keep, and so all its entries exactly if the
keys are apart.
-/

set_option autoImplicit false

namespace Bytemark.Value

variable [RecordEquality]

/-- None of the values equals an earlier one. -/
def Apart (values : List Value) : Prop := values.Pairwise fun earlier later => later.equal earlier = false

/-- None of the values equals an earlier one, and none equals one of those that are there already. -/
def ApartFrom (done values : List Value) : Prop :=
  Apart values ∧ ∀ value ∈ values, ∀ element ∈ done, value.equal element = false

/-- With nothing there already, the values only have to differ among themselves. -/
theorem apartFrom_nil_iff {values : List Value} : ApartFrom [] values ↔ Apart values := by
  simp [ApartFrom]

/-- The first value must differ from those that are there, and the others from it as well. -/
theorem apartFrom_cons_iff {done values : List Value} {value : Value} :
    ApartFrom done (value :: values) ↔
      (∀ element ∈ done, value.equal element = false) ∧ ApartFrom (done ++ [value]) values := by
  unfold ApartFrom Apart
  rw [List.pairwise_cons]
  constructor
  · rintro ⟨⟨hlater, hapart⟩, hdone⟩
    rw [List.forall_mem_cons] at hdone
    refine ⟨hdone.1, hapart, fun other hother element helement => ?_⟩
    rcases List.mem_append.1 helement with hold | hnew
    · exact hdone.2 other hother element hold
    · rw [List.mem_singleton.1 hnew]
      exact hlater other hother
  · rintro ⟨hvalue, hapart, hdone⟩
    refine ⟨⟨fun other hother => hdone other hother value (by simp), hapart⟩, List.forall_mem_cons.2 ⟨hvalue, ?_⟩⟩
    exact fun other hother element helement => hdone other hother element (by simp [helement])

/-- A value that is new comes last. -/
theorem insertElement_of_apart {done : List Value} {value : Value}
    (h : ∀ element ∈ done, value.equal element = false) : insertElement done value = done ++ [value] := by
  have hnone : done.any (fun element => value.equal element) = false := by
    rw [List.any_eq_false]
    exact fun element helement => by simp [h element helement]
  rw [insertElement, hnone]
  rfl

/-- A value that is there already changes nothing. -/
theorem insertElement_of_equal {done : List Value} {value : Value}
    (h : ¬ ∀ element ∈ done, value.equal element = false) : insertElement done value = done := by
  cases hany : done.any (fun element => value.equal element) with
  | true => rw [insertElement, if_pos hany]
  | false =>
    refine absurd (fun element helement => ?_) h
    exact Bool.eq_false_iff.2 (List.any_eq_false.1 hany element helement)

/-- Putting values in adds at most as many elements as there are values. -/
theorem length_foldl_insertElement_le (values done : List Value) :
    (values.foldl insertElement done).length ≤ done.length + values.length := by
  induction values generalizing done with
  | nil => exact Nat.le_refl _
  | cons value values ih =>
    rw [List.foldl_cons, List.length_cons]
    have hrest := ih (insertElement done value)
    by_cases hvalue : ∀ element ∈ done, value.equal element = false
    · rw [insertElement_of_apart hvalue] at hrest ⊢
      rw [List.length_append, List.length_singleton] at hrest
      omega
    · rw [insertElement_of_equal hvalue] at hrest ⊢
      omega

/-- Every value adds an element exactly if nothing repeats. -/
theorem length_foldl_insertElement_eq_iff (values done : List Value) :
    (values.foldl insertElement done).length = done.length + values.length ↔ ApartFrom done values := by
  induction values generalizing done with
  | nil => simp [ApartFrom, Apart]
  | cons value values ih =>
    rw [List.foldl_cons, List.length_cons, apartFrom_cons_iff]
    by_cases hvalue : ∀ element ∈ done, value.equal element = false
    · rw [insertElement_of_apart hvalue, ← ih, List.length_append, List.length_singleton, and_iff_right hvalue]
      omega
    · have hle := length_foldl_insertElement_le values done
      rw [insertElement_of_equal hvalue, iff_false_right fun h => hvalue h.1]
      omega

/-- Values that do not repeat are put behind those that are there. -/
theorem foldl_insertElement_of_apart {values done : List Value} (h : ApartFrom done values) :
    values.foldl insertElement done = done ++ values := by
  induction values generalizing done with
  | nil => rw [List.foldl_nil, List.append_nil]
  | cons value values ih =>
    obtain ⟨hvalue, hrest⟩ := apartFrom_cons_iff.1 h
    rw [List.foldl_cons, insertElement_of_apart hvalue, ih hrest, List.append_assoc, List.singleton_append]

/-! ## Sets -/

/-- A set has no more elements than there were values. -/
theorem length_distinct_le (values : List Value) : (distinct values).length ≤ values.length := by
  have hle := length_foldl_insertElement_le values []
  rwa [List.length_nil, Nat.zero_add] at hle

/-- A set has as many elements as it was made of exactly if none of them repeats. -/
theorem length_distinct_eq_iff (values : List Value) : (distinct values).length = values.length ↔ Apart values := by
  have hiff := length_foldl_insertElement_eq_iff values []
  rwa [List.length_nil, Nat.zero_add, apartFrom_nil_iff] at hiff

/-- What holds of all values holds of the elements of their set. -/
theorem forall_mem_distinct {P : Value → Prop} {values : List Value} (h : ∀ value ∈ values, P value) :
    ∀ element ∈ distinct values, P element := by
  suffices hrun : ∀ done : List Value, (∀ element ∈ done, P element) →
      ∀ element ∈ values.foldl insertElement done, P element from hrun [] fun _ hmem => nomatch hmem
  induction values with
  | nil => exact fun _ hdone => hdone
  | cons value values ih =>
    intro done hdone
    rw [List.forall_mem_cons] at h
    refine ih h.2 (insertElement done value) ?_
    unfold insertElement
    split
    · exact hdone
    · exact List.forall_mem_append.2 ⟨hdone, List.forall_mem_singleton.2 h.1⟩

/-- A set has no repetitions. -/
theorem apart_distinct (values : List Value) : Apart (distinct values) := by
  suffices hrun : ∀ done, Apart done → Apart (values.foldl insertElement done) from hrun [] List.Pairwise.nil
  induction values with
  | nil => exact fun _ hdone => hdone
  | cons value values ih =>
    intro done hdone
    refine ih (insertElement done value) ?_
    by_cases hvalue : ∀ element ∈ done, value.equal element = false
    · rw [insertElement_of_apart hvalue]
      refine List.pairwise_append.2 ⟨hdone, List.pairwise_singleton .., fun element helement other hother => ?_⟩
      rw [List.mem_singleton.1 hother]
      exact hvalue element helement
    · rwa [insertElement_of_equal hvalue]

/-- Values that do not repeat are all kept. -/
theorem distinct_of_apart {values : List Value} (h : Apart values) : distinct values = values :=
  foldl_insertElement_of_apart (apartFrom_nil_iff.2 h)

/-! ## Maps -/

/-- Putting an entry in does to the keys what putting its key in a set does. -/
theorem keys_insertEntry (entries : List (Value × Value)) (entry : Value × Value) :
    (insertEntry entries entry).map Prod.fst = insertElement (entries.map Prod.fst) entry.1 := by
  induction entries with
  | nil => rfl
  | cons first entries ih =>
    obtain ⟨key, value⟩ := first
    unfold insertEntry
    by_cases hequal : entry.1.equal key
    · simp [insertElement, hequal]
    · rw [if_neg hequal, List.map_cons, ih]
      unfold insertElement
      simp only [List.map_cons, List.any_cons, hequal, Bool.false_or]
      split <;> rfl

/-- The keys of a map are the set of the keys it was made of. -/
theorem keys_distinctEntries (entries : List (Value × Value)) :
    (distinctEntries entries).map Prod.fst = distinct (entries.map Prod.fst) := by
  suffices hrun : ∀ done : List (Value × Value), (entries.foldl insertEntry done).map Prod.fst =
      (entries.map Prod.fst).foldl insertElement (done.map Prod.fst) from hrun []
  induction entries with
  | nil => exact fun _ => rfl
  | cons entry entries ih =>
    intro done
    rw [List.foldl_cons, ih, keys_insertEntry, List.map_cons, List.foldl_cons]

/-- Of two entries with equal keys the first key and the second value are kept. -/
theorem distinctEntries_pair {key key' value value' : Value} (hequal : key'.equal key) :
    distinctEntries [(key, value), (key', value')] = [(key, value')] := by
  simp [distinctEntries, insertEntry, hequal]

/-- A map has no more entries than it was made of. -/
theorem length_distinctEntries_le (entries : List (Value × Value)) :
    (distinctEntries entries).length ≤ entries.length := by
  have hle := length_distinct_le (entries.map Prod.fst)
  rwa [← keys_distinctEntries, List.length_map, List.length_map] at hle

/-- A map has as many entries as it was made of exactly if none of their keys repeats. -/
theorem length_distinctEntries_eq_iff (entries : List (Value × Value)) :
    (distinctEntries entries).length = entries.length ↔ Apart (entries.map Prod.fst) := by
  rw [← length_distinct_eq_iff, ← keys_distinctEntries, List.length_map, List.length_map]

/-- What holds of all keys and all values holds of those of their map. -/
theorem forall_mem_distinctEntries {P : Value → Prop} {entries : List (Value × Value)}
    (h : ∀ entry ∈ entries, P entry.1 ∧ P entry.2) : ∀ entry ∈ distinctEntries entries, P entry.1 ∧ P entry.2 := by
  have hinsert : ∀ {done : List (Value × Value)} {entry : Value × Value}, (∀ old ∈ done, P old.1 ∧ P old.2) →
      P entry.1 ∧ P entry.2 → ∀ new ∈ insertEntry done entry, P new.1 ∧ P new.2 := by
    intro done entry hdone hentry
    induction done with
    | nil => exact List.forall_mem_singleton.2 hentry
    | cons first done ih =>
      obtain ⟨hfirst, hothers⟩ := List.forall_mem_cons.1 hdone
      unfold insertEntry
      split
      · exact List.forall_mem_cons.2 ⟨⟨hfirst.1, hentry.2⟩, hothers⟩
      · exact List.forall_mem_cons.2 ⟨hfirst, ih hothers⟩
  suffices hrun : ∀ done : List (Value × Value), (∀ old ∈ done, P old.1 ∧ P old.2) →
      ∀ new ∈ entries.foldl insertEntry done, P new.1 ∧ P new.2 from hrun [] fun _ hmem => nomatch hmem
  induction entries with
  | nil => exact fun _ hdone => hdone
  | cons entry entries ih =>
    intro done hdone
    rw [List.forall_mem_cons] at h
    exact ih h.2 (insertEntry done entry) (hinsert hdone h.1)

/-- An entry with a new key comes last. -/
theorem insertEntry_of_apart {done : List (Value × Value)} {entry : Value × Value}
    (h : ∀ key ∈ done.map Prod.fst, entry.1.equal key = false) : insertEntry done entry = done ++ [entry] := by
  induction done with
  | nil => rfl
  | cons first done ih =>
    rw [List.map_cons, List.forall_mem_cons] at h
    rw [insertEntry, h.1, ih h.2]
    rfl

/-- Entries with different keys are all kept. -/
theorem distinctEntries_of_apart {entries : List (Value × Value)} (h : Apart (entries.map Prod.fst)) :
    distinctEntries entries = entries := by
  suffices hrun : ∀ done : List (Value × Value), ApartFrom (done.map Prod.fst) (entries.map Prod.fst) →
      entries.foldl insertEntry done = done ++ entries from hrun [] (apartFrom_nil_iff.2 h)
  clear h
  induction entries with
  | nil => exact fun done _ => by rw [List.foldl_nil, List.append_nil]
  | cons entry entries ih =>
    intro done hapart
    rw [List.map_cons] at hapart
    obtain ⟨hentry, hrest⟩ := apartFrom_cons_iff.1 hapart
    rw [List.foldl_cons, insertEntry_of_apart hentry, ih (done ++ [entry]) (by simpa using hrest),
      List.append_assoc, List.singleton_append]

/-- The keys of a map have no repetitions. -/
theorem apart_keys_distinctEntries (entries : List (Value × Value)) :
    Apart ((distinctEntries entries).map Prod.fst) := by
  rw [keys_distinctEntries]
  exact apart_distinct _

end Bytemark.Value
