import Mathlib.Data.List.Basic

/-!
# Comparing collections without regard to order

A set equals another if both have as many elements and every element of the one is found in the other. Nothing in this
comparison mentions the second set's other elements, so it is an equivalence only because neither set has repetitions:
then no element of the second is found twice, and the elements pair up. Maps compare likewise, an entry being found by
its key alone.

The comparison of the elements is any `equal` that is an equivalence where it is asked for, which is what
`EquivalenceOn` says. Reflexivity is a claim apart: an element need not equal itself, and the elements pair up all the
same.
-/

set_option autoImplicit false

namespace Bytemark

variable {α β : Type}

/-- A comparison is an equivalence on the values with a property, or at least a partial one: it is symmetric and
transitive, and reflexive if this is said of it. -/
structure EquivalenceOn (reflexive : Prop) (P : α → Prop) (equal : α → α → Bool) : Prop where
  refl : reflexive → ∀ {a}, P a → equal a a = true
  symm : ∀ {a b}, P a → P b → equal a b = true → equal b a = true
  trans : ∀ {a b c}, P a → P b → P c → equal a b = true → equal b c = true → equal a c = true

/-- No item equals another one, whichever of the two is asked. -/
def PairwiseUnequal (equal : α → α → Bool) (items : List α) : Prop :=
  items.Pairwise fun one other => equal one other = false ∧ equal other one = false

/-- Whether two collections have as many items and every item of the first is found in the second. -/
def sameElements (equal : α → α → Bool) (left right : List α) : Bool :=
  left.length == right.length && left.all fun item => right.any fun other => equal item other

/-- Whether the first of the entries with the same key has the same value. -/
def assigned (equal : α → α → Bool) (entries : List (α × α)) (entry : α × α) : Bool :=
  (entries.find? fun other => equal entry.1 other.1).any fun other => equal entry.2 other.2

/-- Whether two collections have as many entries and the second assigns every key of the first an equal value. -/
def sameEntries (equal : α → α → Bool) (left right : List (α × α)) : Bool :=
  left.length == right.length && left.all (assigned equal right)

/-- Whether two entries have equal keys and equal values. -/
def sameEntry (equal : α → α → Bool) (left right : α × α) : Bool := equal left.1 right.1 && equal left.2 right.2

/-- What is asked of the members of a list can be asked in another way that comes to the same for them. -/
theorem all_congr {items : List α} {asks asks' : α → Bool} (h : ∀ item ∈ items, asks item = asks' item) :
    items.all asks = items.all asks' := by
  rw [Bool.eq_iff_iff, List.all_eq_true, List.all_eq_true]
  exact forall₂_congr fun item hitem => by rw [h item hitem]

/-- The items of one list, each with the item of the other that it goes with. -/
structure PairedBy (R : α → β → Prop) (left : List α) (right : List β) (pairs : List (α × β)) : Prop where
  lefts : pairs.map Prod.fst = left
  rights : (pairs.map Prod.snd).Perm right
  related : ∀ pair ∈ pairs, R pair.1 pair.2

/-- Both sides of a pair are among what is paired. -/
theorem mem_of_mem_pairs {pairs : List (α × β)} {right : List β} (hperm : (pairs.map Prod.snd).Perm right)
    {pair : α × β} (h : pair ∈ pairs) : pair.1 ∈ pairs.map Prod.fst ∧ pair.2 ∈ right :=
  ⟨List.mem_map_of_mem h, hperm.subset (List.mem_map_of_mem h)⟩

/-- If every item on the left has a partner on the right, no two have the same, and there are as many on either side,
then all of them pair up. -/
theorem exists_pairedBy {R : α → β → Prop} {left : List α} {right : List β} (hlength : left.length = right.length)
    (hpartner : ∀ a ∈ left, ∃ b ∈ right, R a b)
    (hsingle : left.Pairwise fun one other => ∀ b ∈ right, R one b → ¬ R other b) :
    ∃ pairs, PairedBy R left right pairs := by
  induction left generalizing right with
  | nil =>
    have hnil : right = [] := List.length_eq_zero_iff.1 hlength.symm
    exact ⟨[], rfl, by simp [hnil], by simp⟩
  | cons a left ih =>
    rw [List.pairwise_cons] at hsingle
    obtain ⟨b, hmem, hab⟩ := hpartner a List.mem_cons_self
    obtain ⟨before, after, rfl⟩ := List.append_of_mem hmem
    have hsub : ∀ c ∈ before ++ after, c ∈ before ++ b :: after := fun c hc => by
      rcases List.mem_append.1 hc with h | h <;> simp [h]
    -- The partners of the others are among the rest, since `b` is the partner of `a` alone.
    have hrest : ∀ a' ∈ left, ∃ c ∈ before ++ after, R a' c := by
      intro a' ha'
      obtain ⟨c, hc, hac⟩ := hpartner a' (List.mem_cons_of_mem a ha')
      have hne : c ≠ b := by
        rintro rfl
        exact hsingle.1 a' ha' c hmem hab hac
      exact ⟨c, by simpa [hne] using hc, hac⟩
    have hlength' : left.length = (before ++ after).length := by
      simp only [List.length_cons, List.length_append] at hlength ⊢
      omega
    obtain ⟨pairs, hpairs⟩ := ih hlength' hrest
      (hsingle.2.imp fun h c hc => h c (hsub c hc))
    refine ⟨(a, b) :: pairs, by simp [hpairs.lefts], ?_, ?_⟩
    · have hperm := hpairs.rights.cons b
      exact hperm.trans List.perm_middle.symm
    · simpa using ⟨hab, fun x y hxy => hpairs.related (x, y) hxy⟩

namespace EquivalenceOn

variable {reflexive : Prop} {P : α → Prop} {equal : α → α → Bool}

/-- A comparison that does the same on the values with a property is an equivalence there as well. -/
theorem congr (h : EquivalenceOn reflexive P equal) {equal' : α → α → Bool}
    (heq : ∀ a b, P a → P b → equal' a b = equal a b) : EquivalenceOn reflexive P equal' where
  refl := fun htotal _ ha => by
    rw [heq _ _ ha ha]
    exact h.refl htotal ha
  symm := fun ha hb hab => by
    rw [heq _ _ ha hb] at hab
    rw [heq _ _ hb ha]
    exact h.symm ha hb hab
  trans := fun ha hb hc hab hbc => by
    rw [heq _ _ ha hb] at hab
    rw [heq _ _ hb hc] at hbc
    rw [heq _ _ ha hc]
    exact h.trans ha hb hc hab hbc

/-- An equivalence stays one where fewer things are looked at. -/
theorem mono (h : EquivalenceOn reflexive P equal) {Q : α → Prop} (hPQ : ∀ a, Q a → P a) :
    EquivalenceOn reflexive Q equal where
  refl := fun htotal _ ha => h.refl htotal (hPQ _ ha)
  symm := fun ha hb => h.symm (hPQ _ ha) (hPQ _ hb)
  trans := fun ha hb hc => h.trans (hPQ _ ha) (hPQ _ hb) (hPQ _ hc)

/-- If everything is equal, this is an equivalence. -/
theorem of_all_equal (h : ∀ a b, P a → P b → equal a b = true) : EquivalenceOn reflexive P equal where
  refl := fun _ _ ha => h _ _ ha ha
  symm := fun ha hb _ => h _ _ hb ha
  trans := fun ha _ hc _ _ => h _ _ ha hc

/-- Lawful equality is an equivalence. -/
theorem beq [BEq α] [LawfulBEq α] : EquivalenceOn reflexive (fun _ : α => True) fun a b => a == b where
  refl := fun _ _ _ => beq_self_eq_true _
  symm := fun _ _ hab => by
    rw [beq_iff_eq] at hab ⊢
    exact hab.symm
  trans := fun _ _ _ hab hbc => by
    rw [beq_iff_eq] at hab hbc ⊢
    exact hab.trans hbc

/-- Values that are made of others, and compared by what they are made of. -/
theorem image {Q : β → Prop} {same : β → β → Bool} {make : β → α} (h : EquivalenceOn reflexive Q same)
    (hmade : ∀ a, P a → ∃ b, Q b ∧ make b = a) (heq : ∀ b c, equal (make b) (make c) = same b c) :
    EquivalenceOn reflexive P equal where
  refl := fun htotal _ ha => by
    obtain ⟨b, hb, rfl⟩ := hmade _ ha
    rw [heq]
    exact h.refl htotal hb
  symm := fun ha ha' => by
    obtain ⟨b, hb, rfl⟩ := hmade _ ha
    obtain ⟨b', hb', rfl⟩ := hmade _ ha'
    rw [heq, heq]
    exact h.symm hb hb'
  trans := fun ha ha' ha'' => by
    obtain ⟨b, hb, rfl⟩ := hmade _ ha
    obtain ⟨b', hb', rfl⟩ := hmade _ ha'
    obtain ⟨b'', hb'', rfl⟩ := hmade _ ha''
    rw [heq, heq, heq]
    exact h.trans hb hb' hb''

/-- Values of several sorts, where only values of one sort are ever equal. -/
theorem of_sorts {sort : α → β} (hsorts : ∀ a b, equal a b = true → sort a = sort b)
    (h : ∀ s, EquivalenceOn reflexive (fun a => P a ∧ sort a = s) equal) : EquivalenceOn reflexive P equal where
  refl := fun htotal {a} ha => (h (sort a)).refl htotal ⟨ha, rfl⟩
  symm := fun {a b} ha hb hab => (h (sort b)).symm ⟨ha, hsorts a b hab⟩ ⟨hb, rfl⟩ hab
  trans := fun {a b c} ha hb hc hab hbc =>
    have hsort := hsorts b c hbc
    (h (sort c)).trans ⟨ha, (hsorts a b hab).trans hsort⟩ ⟨hb, hsort⟩ ⟨hc, rfl⟩ hab hbc

/-- Pairs compare part by part. -/
theorem pairs (h : EquivalenceOn reflexive P equal) {Q : β → Prop} {equal' : β → β → Bool}
    (h' : EquivalenceOn reflexive Q equal') :
    EquivalenceOn reflexive (fun pair : α × β => P pair.1 ∧ Q pair.2) fun left right =>
      equal left.1 right.1 && equal' left.2 right.2 where
  refl := fun htotal _ ha => by simp [h.refl htotal ha.1, h'.refl htotal ha.2]
  symm := fun ha hb hab => by
    rw [Bool.and_eq_true] at hab ⊢
    exact ⟨h.symm ha.1 hb.1 hab.1, h'.symm ha.2 hb.2 hab.2⟩
  trans := fun ha hb hc hab hbc => by
    rw [Bool.and_eq_true] at hab hbc ⊢
    exact ⟨h.trans ha.1 hb.1 hc.1 hab.1 hbc.1, h'.trans ha.2 hb.2 hc.2 hab.2 hbc.2⟩

/-- Entries compare by key and value. -/
theorem entries (h : EquivalenceOn reflexive P equal) :
    EquivalenceOn reflexive (fun entry => P entry.1 ∧ P entry.2) (sameEntry equal) :=
  h.pairs h

end EquivalenceOn

/-! ## Place by place -/

/-- Lists are equal place by place if they are the two sides of equal pairs. -/
theorem isEqv_iff {equal : α → α → Bool} {left right : List α} :
    left.isEqv right equal = true ↔ ∃ pairs : List (α × α),
      pairs.map Prod.fst = left ∧ pairs.map Prod.snd = right ∧ ∀ pair ∈ pairs, equal pair.1 pair.2 = true := by
  constructor
  · induction left generalizing right with
    | nil => cases right <;> simp [List.isEqv]
    | cons a left ih =>
      cases right with
      | nil => simp [List.isEqv]
      | cons b right =>
        intro h
        rw [List.isEqv, Bool.and_eq_true] at h
        obtain ⟨pairs, rfl, rfl, hpairs⟩ := ih h.2
        exact ⟨(a, b) :: pairs, rfl, rfl, List.forall_mem_cons.2 ⟨h.1, hpairs⟩⟩
  · rintro ⟨pairs, rfl, rfl, hpairs⟩
    induction pairs with
    | nil => rfl
    | cons pair pairs ih =>
      rw [List.forall_mem_cons] at hpairs
      simp [List.isEqv, hpairs.1, ih hpairs.2]

/-- Comparing lists place by place is an equivalence if comparing their items is. -/
theorem EquivalenceOn.items {reflexive : Prop} {P : α → Prop} {equal : α → α → Bool}
    (h : EquivalenceOn reflexive P equal) :
    EquivalenceOn reflexive (fun items : List α => ∀ item ∈ items, P item)
      fun left right => left.isEqv right equal where
  refl := fun htotal {items} hitems => by
    induction items with
    | nil => rfl
    | cons item items ih =>
      rw [List.forall_mem_cons] at hitems
      simp [List.isEqv, h.refl htotal hitems.1, ih hitems.2]
  symm := fun {left right} hleft hright hequal => by
    obtain ⟨pairs, rfl, rfl, hpairs⟩ := isEqv_iff.1 hequal
    rw [List.forall_mem_map] at hleft hright
    refine isEqv_iff.2 ⟨pairs.map Prod.swap, by simp, by simp, ?_⟩
    rw [List.forall_mem_map]
    exact fun pair hpair => h.symm (hleft pair hpair) (hright pair hpair) (hpairs pair hpair)
  trans := fun {left middle right} => by
    induction left generalizing middle right with
    | nil => cases middle <;> cases right <;> simp [List.isEqv]
    | cons a left ih =>
      cases middle with
      | nil => simp [List.isEqv]
      | cons b middle =>
        cases right with
        | nil => simp [List.isEqv]
        | cons c right =>
          simp only [List.forall_mem_cons, List.isEqv, Bool.and_eq_true]
          intro ha hb hc hab hbc
          exact ⟨h.trans ha.1 hb.1 hc.1 hab.1 hbc.1, ih ha.2 hb.2 hc.2 hab.2 hbc.2⟩

/-! ## Sets -/

/-- Lists have the same elements if there are as many, and each one is found in the other list. -/
theorem sameElements_eq_true_iff {equal : α → α → Bool} {left right : List α} :
    sameElements equal left right = true ↔
      left.length = right.length ∧ ∀ item ∈ left, ∃ other ∈ right, equal item other = true := by
  simp [sameElements]

section

variable {reflexive : Prop} {P : α → Prop} {equal : α → α → Bool}

/-- What is found twice is found by equals. -/
theorem EquivalenceOn.single (h : EquivalenceOn reflexive P equal) {left right : List α} (hleft : ∀ item ∈ left, P item)
    (hright : ∀ item ∈ right, P item) (hunequal : PairwiseUnequal equal left) :
    left.Pairwise fun one other => ∀ item ∈ right, equal one item = true → ¬ equal other item = true := by
  refine hunequal.imp_of_mem fun {one other} hone hother hboth item hitem hequal hequal' => ?_
  have hsame := h.trans (hleft one hone) (hright item hitem) (hleft other hother) hequal
    (h.symm (hleft other hother) (hright item hitem) hequal')
  rw [hboth.1] at hsame
  exact absurd hsame Bool.false_ne_true

/-- A set without repetitions equals another exactly if their elements pair up, in whatever order. -/
theorem EquivalenceOn.sameElements_iff (h : EquivalenceOn reflexive P equal) {left right : List α}
    (hleft : ∀ item ∈ left, P item) (hright : ∀ item ∈ right, P item) (hunequal : PairwiseUnequal equal left) :
    sameElements equal left right = true ↔
      ∃ pairs, PairedBy (fun item other => equal item other = true) left right pairs := by
  rw [sameElements_eq_true_iff]
  constructor
  · rintro ⟨hlength, hfound⟩
    exact exists_pairedBy hlength hfound (h.single hleft hright hunequal)
  · rintro ⟨pairs, rfl, hperm, hrelated⟩
    refine ⟨by simpa using hperm.length_eq, fun item hitem => ?_⟩
    obtain ⟨pair, hpair, rfl⟩ := List.mem_map.1 hitem
    exact ⟨pair.2, hperm.subset (List.mem_map_of_mem hpair), hrelated pair hpair⟩

/-- Having the same elements is an equivalence among lists without repetitions. -/
theorem EquivalenceOn.sets (h : EquivalenceOn reflexive P equal) :
    EquivalenceOn reflexive (fun items => (∀ item ∈ items, P item) ∧ PairwiseUnequal equal items)
      (sameElements equal) where
  refl := fun htotal _ hitems =>
    sameElements_eq_true_iff.2 ⟨rfl, fun item hitem => ⟨item, hitem, h.refl htotal (hitems.1 item hitem)⟩⟩
  symm := fun {left right} hleft hright hequal => by
    obtain ⟨pairs, rfl, hperm, hrelated⟩ := (h.sameElements_iff hleft.1 hright.1 hleft.2).1 hequal
    refine sameElements_eq_true_iff.2 ⟨by simpa using hperm.length_eq.symm, fun item hitem => ?_⟩
    obtain ⟨pair, hpair, rfl⟩ := List.mem_map.1 (hperm.mem_iff.2 hitem)
    have hfst : pair.1 ∈ pairs.map Prod.fst := List.mem_map_of_mem hpair
    exact ⟨pair.1, hfst, h.symm (hleft.1 pair.1 hfst) (hright.1 pair.2 hitem) (hrelated pair hpair)⟩
  trans := fun {left middle right} hleft hmiddle hright hlm hmr => by
    rw [sameElements_eq_true_iff] at hlm hmr ⊢
    refine ⟨hlm.1.trans hmr.1, fun a ha => ?_⟩
    obtain ⟨b, hb, hab⟩ := hlm.2 a ha
    obtain ⟨c, hc, hbc⟩ := hmr.2 b hb
    exact ⟨c, hc, h.trans (hleft.1 a ha) (hmiddle.1 b hb) (hright.1 c hc) hab hbc⟩

/-! ## Maps -/

/-- An entry found by its key is the only one with an equal key, so what it holds is all there is to compare. -/
theorem EquivalenceOn.assigned_eq (h : EquivalenceOn reflexive P equal) {entry : α × α} {entries : List (α × α)}
    (hentry : P entry.1) (hkeys : ∀ other ∈ entries, P other.1)
    (hunequal : PairwiseUnequal equal (entries.map Prod.fst)) :
    assigned equal entries entry = entries.any (fun other => sameEntry equal entry other) := by
  unfold assigned
  induction entries with
  | nil => rfl
  | cons first entries ih =>
    rw [List.forall_mem_cons] at hkeys
    rw [List.map_cons, PairwiseUnequal, List.pairwise_cons, List.forall_mem_map] at hunequal
    rw [List.find?_cons, List.any_cons]
    by_cases hfirst : equal entry.1 first.1 = true
    · -- No later entry has an equal key, or it would equal the first one's.
      have hlater : entries.any (fun other => sameEntry equal entry other) = false := by
        rw [List.any_eq_false]
        intro other hother hsame
        rw [sameEntry, Bool.and_eq_true] at hsame
        have hboth := h.trans hkeys.1 hentry (hkeys.2 other hother) (h.symm hentry hkeys.1 hfirst) hsame.1
        rw [(hunequal.1 other hother).1] at hboth
        exact absurd hboth Bool.false_ne_true
      rw [hlater, Bool.or_false]
      simp only [hfirst, sameEntry, Bool.true_and, Option.any_some]
    · rw [Bool.not_eq_true] at hfirst
      simp only [hfirst, sameEntry, Bool.false_and, Bool.false_or]
      exact ih hkeys.2 hunequal.2

/-- If the keys differ, looking up a key and comparing the values is looking for the entry. -/
theorem EquivalenceOn.sameEntries_eq (h : EquivalenceOn reflexive P equal) {left right : List (α × α)}
    (hleft : ∀ entry ∈ left, P entry.1) (hright : ∀ entry ∈ right, P entry.1)
    (hunequal : PairwiseUnequal equal (right.map Prod.fst)) :
    sameEntries equal left right = sameElements (sameEntry equal) left right := by
  have hall : left.all (assigned equal right) =
      left.all fun entry => right.any fun other => sameEntry equal entry other := by
    rw [Bool.eq_iff_iff, List.all_eq_true, List.all_eq_true]
    refine forall₂_congr fun entry hentry => ?_
    rw [h.assigned_eq (hleft entry hentry) hright hunequal]
  rw [sameEntries, sameElements, hall]

/-- Entries with unequal keys are unequal. -/
theorem PairwiseUnequal.entries {entries : List (α × α)} (h : PairwiseUnequal equal (entries.map Prod.fst)) :
    PairwiseUnequal (sameEntry equal) entries :=
  (List.pairwise_map.1 h).imp fun hkeys => by simp [sameEntry, hkeys.1, hkeys.2]

/-- A map without repeated keys equals another exactly if their entries pair up, in whatever order. -/
theorem EquivalenceOn.sameEntries_iff (h : EquivalenceOn reflexive P equal) {left right : List (α × α)}
    (hleft : ∀ entry ∈ left, P entry.1 ∧ P entry.2) (hright : ∀ entry ∈ right, P entry.1 ∧ P entry.2)
    (hkeys : PairwiseUnequal equal (left.map Prod.fst)) (hkeys' : PairwiseUnequal equal (right.map Prod.fst)) :
    sameEntries equal left right = true ↔
      ∃ pairs, PairedBy (fun entry other => sameEntry equal entry other = true) left right pairs := by
  rw [h.sameEntries_eq (fun entry hentry => (hleft entry hentry).1)
    (fun entry hentry => (hright entry hentry).1) hkeys']
  exact h.entries.sameElements_iff hleft hright hkeys.entries

/-- Having the same entries is an equivalence among lists of entries with different keys. -/
theorem EquivalenceOn.maps (h : EquivalenceOn reflexive P equal) :
    EquivalenceOn reflexive (fun entries => (∀ entry ∈ entries, P entry.1 ∧ P entry.2) ∧
      PairwiseUnequal equal (entries.map Prod.fst)) (sameEntries equal) := by
  have hsets := h.entries.sets.mono (Q := fun entries => (∀ entry ∈ entries, P entry.1 ∧ P entry.2) ∧
      PairwiseUnequal equal (entries.map Prod.fst)) fun entries hentries => ⟨hentries.1, hentries.2.entries⟩
  refine hsets.congr fun left right hleft hright => ?_
  exact h.sameEntries_eq (fun entry hentry => (hleft.1 entry hentry).1)
    (fun entry hentry => (hright.1 entry hentry).1) hright.2

end

end Bytemark
