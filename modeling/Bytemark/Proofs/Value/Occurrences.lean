import Bytemark.Proofs.Value.Equivalence
import Bytemark.Proofs.Value.Repetition
import Bytemark.Registry.Read

/-!
# First and last occurrences

A set is made by trying each value on the elements that are there already, and a map by trying each key on the keys.
Where equality is an equivalence, or a partial one, it makes no difference whether a value is tried on the elements or
on all the values that came before it: one that was dropped is equal to one that was kept. So a set consists of the
values that equal none before them, and a map of the keys that equal none before them, each with the value of its last
occurrence. A value that does not equal itself is as good as a new one each time it occurs.
-/

set_option autoImplicit false

namespace Bytemark

namespace Value

variable [records : RecordEquality]

/-- The values that equal none before them, those of `seen` included. -/
def unseen : (seen values : List Value) → List Value
  | _, [] => []
  | seen, value :: values =>
    if seen.any (fun earlier => value.equal earlier) then unseen (seen ++ [value]) values
    else value :: unseen (seen ++ [value]) values

/-- The values that equal none before them. -/
def firstOccurrences (values : List Value) : List Value := unseen [] values

/-- The value of the last of some entries whose key equals the given one, or `value` if there is none. -/
def lastValue (key value : Value) (entries : List (Value × Value)) : Value :=
  entries.foldl (fun value entry => if entry.1.equal key then entry.2 else value) value

/-- The entries whose keys equal none before them, those of `seen` included, each with the value that its key has
last. -/
def unseenEntries : (seen : List Value) → (entries : List (Value × Value)) → List (Value × Value)
  | _, [] => []
  | seen, (key, value) :: entries =>
    if seen.any (fun earlier => key.equal earlier) then unseenEntries (seen ++ [key]) entries
    else (key, lastValue key value entries) :: unseenEntries (seen ++ [key]) entries

/-- The entries whose keys equal none before them, each with the value that its key has last. -/
def mergedEntries (entries : List (Value × Value)) : List (Value × Value) := unseenEntries [] entries

/-- An entry's value is the last one so far for its key, and the old one for any other. -/
theorem lastValue_cons (key value : Value) (entry : Value × Value) (entries : List (Value × Value)) :
    lastValue key value (entry :: entries) = lastValue key (if entry.1.equal key then entry.2 else value) entries := rfl

section

variable {reflexive : Prop} (hlawful : records.Lawful reflexive Value.equal)
include hlawful

/-- Values without repetitions are unequal whichever of two is asked. -/
theorem Apart.pairwiseUnequal {values : List Value} (h : Apart values)
    (hwell : ∀ value ∈ values, WellFormed Value.equal value) : PairwiseUnequal Value.equal values := by
  refine h.imp_of_mem fun {one other} hone hother hunequal => ⟨?_, hunequal⟩
  rw [Bool.eq_false_iff] at hunequal ⊢
  exact fun hequal => hunequal ((equivalenceOn_equal hlawful).symm (hwell one hone) (hwell other hother) hequal)

/-- What equals a value that equals an earlier one equals an earlier one itself, so nothing is lost if the value is not
remembered. -/
theorem any_append_of_any {seen : List Value} {value other : Value}
    (hseen : ∀ earlier ∈ seen, WellFormed Value.equal earlier) (hvalue : WellFormed Value.equal value)
    (hother : WellFormed Value.equal other) (hany : seen.any (fun earlier => value.equal earlier) = true) :
    (seen ++ [value]).any (fun earlier => other.equal earlier) = seen.any fun earlier => other.equal earlier := by
  rw [List.any_append, List.any_cons, List.any_nil, Bool.or_false]
  obtain ⟨earlier, hearlier, hequal⟩ := List.any_eq_true.1 hany
  by_cases hboth : other.equal value = true
  · have htrans := (equivalenceOn_equal hlawful).trans hother hvalue (hseen earlier hearlier) hboth hequal
    have hfound : seen.any (fun earlier => other.equal earlier) = true :=
      List.any_eq_true.2 ⟨earlier, hearlier, htrans⟩
    rw [hfound, Bool.true_or]
  · rw [Bool.eq_false_iff.2 hboth, Bool.or_false]

/-! ## Sets -/

/-- Adding values to a set adds those that equal none of the values seen, if an element stands for each of these. -/
theorem foldl_insertElement_eq {seen done values : List Value} (hseen : ∀ value ∈ seen, WellFormed Value.equal value)
    (hvalues : ∀ value ∈ values, WellFormed Value.equal value)
    (hsame : ∀ value, WellFormed Value.equal value →
      done.any (fun element => value.equal element) = seen.any fun earlier => value.equal earlier) :
    values.foldl insertElement done = done ++ unseen seen values := by
  induction values generalizing seen done with
  | nil => simp [unseen]
  | cons value values ih =>
    obtain ⟨hvalue, hothers⟩ := List.forall_mem_cons.1 hvalues
    have hseen' : ∀ earlier ∈ seen ++ [value], WellFormed Value.equal earlier := by
      rw [List.forall_mem_append]
      exact ⟨hseen, List.forall_mem_singleton.2 hvalue⟩
    rw [List.foldl_cons, unseen, insertElement, hsame value hvalue]
    cases hany : seen.any fun earlier => value.equal earlier with
    | true =>
      rw [if_pos rfl, if_pos rfl]
      refine ih hseen' hothers fun other hother => ?_
      rw [hsame other hother, any_append_of_any hlawful hseen hvalue hother hany]
    | false =>
      rw [if_neg Bool.false_ne_true, if_neg Bool.false_ne_true,
        ih hseen' hothers fun other hother => by simp [hsame other hother], List.append_assoc, List.singleton_append]

/-- A set consists of the values that equal none before them. -/
theorem distinct_eq_firstOccurrences {values : List Value} (h : ∀ value ∈ values, WellFormed Value.equal value) :
    distinct values = firstOccurrences values :=
  foldl_insertElement_eq hlawful (by simp) h fun _ _ => rfl

/-- The elements of a set are pairwise unequal. -/
theorem pairwiseUnequal_distinct {values : List Value} (h : ∀ value ∈ values, WellFormed Value.equal value) :
    PairwiseUnequal Value.equal (distinct values) :=
  (apart_distinct values).pairwiseUnequal hlawful (forall_mem_distinct h)

/-- Values that are pairwise unequal all equal none before them. -/
theorem firstOccurrences_of_unequal {values : List Value} (h : ∀ value ∈ values, WellFormed Value.equal value)
    (hunequal : PairwiseUnequal Value.equal values) : firstOccurrences values = values := by
  rw [← distinct_eq_firstOccurrences hlawful h]
  exact distinct_of_apart (hunequal.imp fun hboth => hboth.2)

/-! ## Maps -/

/-- The keys of a map are pairwise unequal. -/
theorem pairwiseUnequal_keys {entries : List (Value × Value)} (h : ∀ entry ∈ entries, WellFormed Value.equal entry.1) :
    PairwiseUnequal Value.equal ((distinctEntries entries).map Prod.fst) := by
  rw [keys_distinctEntries]
  exact pairwiseUnequal_distinct hlawful (List.forall_mem_map.2 h)

/-- An entry whose key is there already gives its value to this key, and to no other. -/
theorem insertEntry_of_any {done : List (Value × Value)} {entry : Value × Value}
    (hwell : ∀ old ∈ done, WellFormed Value.equal old.1) (hentry : WellFormed Value.equal entry.1)
    (hunequal : PairwiseUnequal Value.equal (done.map Prod.fst))
    (hany : done.any (fun old => entry.1.equal old.1) = true) :
    insertEntry done entry = done.map fun old => (old.1, if entry.1.equal old.1 then entry.2 else old.2) := by
  induction done with
  | nil => cases hany
  | cons first done ih =>
    obtain ⟨hfirst, hothers⟩ := List.forall_mem_cons.1 hwell
    rw [List.map_cons, PairwiseUnequal, List.pairwise_cons, List.forall_mem_map] at hunequal
    rw [insertEntry, List.map_cons]
    by_cases hsame : entry.1.equal first.1 = true
    · -- A later key that equals the entry's would equal the first one as well.
      have hkept : ∀ old ∈ done, (old.1, if entry.1.equal old.1 then entry.2 else old.2) = id old := by
        intro old hold
        have hother : entry.1.equal old.1 ≠ true := fun hequal => by
          have hboth := (equivalenceOn_equal hlawful).trans hfirst hentry (hothers old hold)
            ((equivalenceOn_equal hlawful).symm hentry hfirst hsame) hequal
          rw [(hunequal.1 old hold).1] at hboth
          exact Bool.false_ne_true hboth
        rw [if_neg hother]
        rfl
      rw [if_pos hsame, if_pos hsame, List.map_congr_left hkept, List.map_id]
    · rw [List.any_cons, Bool.eq_false_iff.2 hsame, Bool.false_or] at hany
      rw [if_neg hsame, if_neg hsame, ih hothers hunequal.2 hany]

/-- Adding entries to a map gives each key that is there the value it has last, and adds the keys that equal none of
those seen, if a key that is there stands for each of these. -/
theorem foldl_insertEntry_eq {seen : List Value} {done entries : List (Value × Value)}
    (hseen : ∀ key ∈ seen, WellFormed Value.equal key) (hdone : ∀ old ∈ done, WellFormed Value.equal old.1)
    (hentries : ∀ entry ∈ entries, WellFormed Value.equal entry.1)
    (hunequal : PairwiseUnequal Value.equal (done.map Prod.fst)) (hsame : ∀ key, WellFormed Value.equal key →
      done.any (fun old => key.equal old.1) = seen.any fun earlier => key.equal earlier) :
    entries.foldl insertEntry done =
      (done.map fun old => (old.1, lastValue old.1 old.2 entries)) ++ unseenEntries seen entries := by
  induction entries generalizing seen done with
  | nil => simp [unseenEntries, lastValue]
  | cons entry entries ih =>
    obtain ⟨key, value⟩ := entry
    obtain ⟨hkey, hothers⟩ := List.forall_mem_cons.1 hentries
    have hseen' : ∀ earlier ∈ seen ++ [key], WellFormed Value.equal earlier := by
      rw [List.forall_mem_append]
      exact ⟨hseen, List.forall_mem_singleton.2 hkey⟩
    rw [List.foldl_cons, unseenEntries]
    cases hany : seen.any fun earlier => key.equal earlier with
    | true =>
      have hfound := (hsame key hkey).trans hany
      have hinsert := insertEntry_of_any hlawful hdone hkey hunequal hfound
      have hsame' : ∀ other, WellFormed Value.equal other →
          (insertEntry done (key, value)).any (fun old => other.equal old.1) =
            (seen ++ [key]).any fun earlier => other.equal earlier := by
        intro other hother
        rw [any_append_of_any hlawful hseen hkey hother hany, ← hsame other hother, hinsert, List.any_map]
        rfl
      rw [if_pos rfl, ih hseen' ?_ hothers ?_ hsame', hinsert, List.map_map]
      · rfl
      · rw [hinsert]
        exact List.forall_mem_map.2 hdone
      · rwa [hinsert, List.map_map]
    | false =>
      have hnone := (hsame key hkey).trans hany
      have hapart : ∀ old ∈ done, key.equal old.1 = false := by
        rw [List.any_eq_false] at hnone
        exact fun old hold => Bool.eq_false_iff.2 (hnone old hold)
      have hdone' : ∀ old ∈ done ++ [(key, value)], WellFormed Value.equal old.1 :=
        List.forall_mem_append.2 ⟨hdone, List.forall_mem_singleton.2 hkey⟩
      have hunequal' : PairwiseUnequal Value.equal ((done ++ [(key, value)]).map Prod.fst) := by
        rw [List.map_append, PairwiseUnequal, List.pairwise_append]
        refine ⟨hunequal, List.pairwise_singleton .., List.forall_mem_map.2 fun old hold other hother => ?_⟩
        rw [List.mem_singleton.1 hother]
        refine ⟨Bool.eq_false_iff.2 fun hequal => ?_, hapart old hold⟩
        have hback := (equivalenceOn_equal hlawful).symm (hdone old hold) hkey hequal
        rw [hapart old hold] at hback
        exact Bool.false_ne_true hback
      have hkept : ∀ old ∈ done, (old.1, lastValue old.1 old.2 ((key, value) :: entries)) =
          (old.1, lastValue old.1 old.2 entries) := by
        intro old hold
        rw [lastValue_cons, hapart old hold, if_neg Bool.false_ne_true]
      rw [if_neg Bool.false_ne_true, insertEntry_of_apart (List.forall_mem_map.2 hapart),
        ih hseen' hdone' hothers hunequal' fun other hother => by simp [hsame other hother],
        List.map_congr_left hkept, List.map_append, List.append_assoc]
      rfl

/-- A map has each key at its first occurrence, with the value of its last. -/
theorem distinctEntries_eq_mergedEntries {entries : List (Value × Value)}
    (h : ∀ entry ∈ entries, WellFormed Value.equal entry.1) : distinctEntries entries = mergedEntries entries :=
  foldl_insertEntry_eq hlawful (by simp) (by simp) h List.Pairwise.nil fun _ _ => rfl


/-- What is read as a set, or any other sequence, has no repetitions at any depth if its items have none. -/
theorem wellFormed_collect (kind : SequenceKind) {items : List Value}
    (h : ∀ item ∈ items, WellFormed Value.equal item) : WellFormed Value.equal (kind.collect items) := by
  cases kind with
  | set => exact .sequence (forall_mem_distinct h) fun _ => pairwiseUnequal_distinct hlawful h
  | list => exact .sequence h fun hset => nomatch hset
  | queue => exact .sequence h fun hset => nomatch hset

/-- A map has no repetitions at any depth if its keys and values have none. -/
theorem wellFormed_distinctEntries {entries : List (Value × Value)}
    (h : ∀ entry ∈ entries, WellFormed Value.equal entry.1 ∧ WellFormed Value.equal entry.2) :
    WellFormed Value.equal (.map (distinctEntries entries)) := by
  have hentries := forall_mem_distinctEntries h
  have hunequal := pairwiseUnequal_keys hlawful fun entry hentry => (h entry hentry).1
  exact .map (fun entry hentry => (hentries entry hentry).1) (fun entry hentry => (hentries entry hentry).2) hunequal

end

end Value

/-- What a sequence keeps of the items that are put into it: a set keeps those that equal none before them. -/
def SequenceKind.kept [RecordEquality] (kind : SequenceKind) (items : List Value) : List Value :=
  match kind with
  | .set => Value.firstOccurrences items
  | _ => items

/-- A sequence is made of the items that it keeps. -/
theorem Value.collect_eq [records : RecordEquality] {reflexive : Prop} (hlawful : records.Lawful reflexive Value.equal)
    (kind : SequenceKind) {items : List Value} (h : ∀ item ∈ items, WellFormed Value.equal item) :
    kind.collect items = .sequence kind (kind.kept items) := by
  cases kind with
  | set => rw [SequenceKind.collect, SequenceKind.kept, distinct_eq_firstOccurrences hlawful h]
  | list => rfl
  | queue => rfl

end Bytemark
