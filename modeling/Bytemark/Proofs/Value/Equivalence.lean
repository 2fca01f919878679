import Bytemark.Proofs.Value.Slotwise

/-!
# Equality of values is an equivalence

On values whose sets have no repetitions and whose maps have no repeated keys, at any depth, equality is reflexive,
symmetric and transitive, and two values are equal exactly if one is a *reordering* of the other: sets and maps inside
them may be in any order, and nothing else may differ.

What records and variants of enumerations compare by is up to their types. `RecordEquality` stands for that, and is only
asked to be an equivalence if the equality of the values in the slots is one. The comparison slot by slot is one of
those that keep to this: `lawful_slotwise`.
-/

set_option autoImplicit false

namespace Bytemark

/-- Variants compare by an equivalence, and so do records, if the values in their slots do. It is a partial one unless
it is also said to be reflexive. -/
structure RecordEquality.Lawful (records : RecordEquality) (reflexive : Prop) (equal : Value → Value → Bool) :
    Prop where
  variants : ∀ type, EquivalenceOn reflexive (fun _ => True) (records.variants type)
  slots : ∀ (P : Value → Prop) (type : String), EquivalenceOn reflexive P equal →
    EquivalenceOn reflexive (fun slots => ∀ slot ∈ slots, P slot.2) (records.slots type)

namespace Value

/-- A comparison of values goes by their content, and by `records` where user types have a say. -/
structure EqualityRules (records : RecordEquality) (equal : Value → Value → Bool) : Prop where
  types : ∀ left right, equal left right = true → left.type = right.type
  null : equal .null .null = true
  atoms : ∀ left right, equal (.atom left) (.atom right) = (left == right)
  variants : ∀ type left right, equal (.variant type left) (.variant type right) = records.variants type left right
  items : ∀ kind left right, kind ≠ .set →
    equal (.sequence kind left) (.sequence kind right) = left.isEqv right equal
  sets : ∀ left right, equal (.sequence .set left) (.sequence .set right) = sameElements equal left right
  maps : ∀ left right, equal (.map left) (.map right) = sameEntries equal left right
  arrays : ∀ element left right, equal (.array element left) (.array element right) = left.isEqv right equal
  records : ∀ type left right, equal (.record type left) (.record type right) = records.slots type left right

/-- The sets in a value have pairwise unequal elements, and its maps pairwise unequal keys, at every depth. -/
inductive WellFormed (equal : Value → Value → Bool) : Value → Prop
  | null : WellFormed equal .null
  | atom (atom : Atom) : WellFormed equal (.atom atom)
  | variant (type : String) (index : UInt16) : WellFormed equal (.variant type index)
  | sequence {kind : SequenceKind} {items : List Value} (hitems : ∀ item ∈ items, WellFormed equal item)
      (hset : kind = .set → PairwiseUnequal equal items) : WellFormed equal (.sequence kind items)
  | map {entries : List (Value × Value)} (hkeys : ∀ entry ∈ entries, WellFormed equal entry.1)
      (hvalues : ∀ entry ∈ entries, WellFormed equal entry.2)
      (hunequal : PairwiseUnequal equal (entries.map Prod.fst)) : WellFormed equal (.map entries)
  | array {element : ValueType} {items : List Value} (hitems : ∀ item ∈ items, WellFormed equal item) :
      WellFormed equal (.array element items)
  | record {type : String} {slots : List (String × Value)} (hslots : ∀ slot ∈ slots, WellFormed equal slot.2) :
      WellFormed equal (.record type slots)

/-- Two values are the same but for the order of the sets and maps in them, at every depth. -/
inductive Reordered (records : RecordEquality) : Value → Value → Prop
  | null : Reordered records .null .null
  | atom (atom : Atom) : Reordered records (.atom atom) (.atom atom)
  | variant {type : String} {left right : UInt16} (hequal : records.variants type left right = true) :
      Reordered records (.variant type left) (.variant type right)
  | items {kind : SequenceKind} {pairs : List (Value × Value)} (hkind : kind ≠ .set)
      (hpairs : ∀ pair ∈ pairs, Reordered records pair.1 pair.2) :
      Reordered records (.sequence kind (pairs.map Prod.fst)) (.sequence kind (pairs.map Prod.snd))
  | set {pairs : List (Value × Value)} {right : List Value} (hperm : (pairs.map Prod.snd).Perm right)
      (hpairs : ∀ pair ∈ pairs, Reordered records pair.1 pair.2) :
      Reordered records (.sequence .set (pairs.map Prod.fst)) (.sequence .set right)
  | map {pairs : List ((Value × Value) × (Value × Value))} {right : List (Value × Value)}
      (hperm : (pairs.map Prod.snd).Perm right) (hkeys : ∀ pair ∈ pairs, Reordered records pair.1.1 pair.2.1)
      (hvalues : ∀ pair ∈ pairs, Reordered records pair.1.2 pair.2.2) :
      Reordered records (.map (pairs.map Prod.fst)) (.map right)
  | array {element : ValueType} {pairs : List (Value × Value)}
      (hpairs : ∀ pair ∈ pairs, Reordered records pair.1 pair.2) :
      Reordered records (.array element (pairs.map Prod.fst)) (.array element (pairs.map Prod.snd))
  | record {type : String} {left right : List (String × Value)} (hequal : records.slots type left right = true) :
      Reordered records (.record type left) (.record type right)

/-- What holds of an equality of values, on values whose sets and maps have no repetitions. -/
structure EqualityLaws (records : RecordEquality) (equal : Value → Value → Bool) : Prop where
  refl : ∀ value, WellFormed equal value → equal value value = true
  symm : ∀ left right, WellFormed equal left → WellFormed equal right →
    equal left right = true → equal right left = true
  trans : ∀ left middle right, WellFormed equal left → WellFormed equal middle → WellFormed equal right →
    equal left middle = true → equal middle right = true → equal left right = true
  /-- The order of sets and maps is all that equality ignores. -/
  reordered : ∀ left right, WellFormed equal left → WellFormed equal right →
    (equal left right = true ↔ Reordered records left right)
  /-- Atoms are equal if they are the same, bit by bit: a NaN equals itself, and so does an array of them. -/
  atoms : ∀ left right : Atom, equal (.atom left) (.atom right) = true ↔ left = right
  floatZeros : equal (.atom (.word .float 0)) (.atom (.word .float 0x80000000)) = false
  doubleZeros : equal (.atom (.word .double 0)) (.atom (.word .double 0x8000000000000000)) = false
  types : ∀ left right, equal left right = true → left.type = right.type

/-! ## The rules of `Value.equal` -/

/-- The comparison of values obeys the rules, whatever the records compare by. -/
theorem equalityRules_equal [records : RecordEquality] : EqualityRules records Value.equal where
  types left right h := by
    unfold Value.equal at h
    split at h <;> simp_all [Value.type]
  null := by rw [Value.equal]
  atoms left right := by rw [Value.equal]
  variants type left right := by simp [Value.equal]
  items kind left right hkind := by cases kind <;> simp_all [Value.equal, equalItems_eq]
  sets left right := by rw [Value.equal, allFound_eq, sameElements]
  maps left right := by
    rw [Value.equal, allAssigned_eq, sameEntries]
    rfl
  arrays element left right := by simp [Value.equal, equalItems_eq]
  records type left right := by simp [Value.equal]

/-- Slots with the same names, compared by their values, are equal by an equivalence if the values are. -/
theorem lawful_slotwise (reflexive : Prop) : RecordEquality.slotwise.Lawful reflexive (@Value.equal .slotwise) where
  variants type := EquivalenceOn.beq
  slots P type h := by
    have hslot : EquivalenceOn reflexive (fun slot : String × Value => P slot.2) fun slot other =>
        slot.1 == other.1 && @Value.equal .slotwise slot.2 other.2 :=
      (EquivalenceOn.beq.pairs h).mono fun slot hslot => ⟨trivial, hslot⟩
    exact hslot.items.congr fun left right _ _ => RecordEquality.slots_slotwise type left right

/-! ## Values of one type -/

section

variable {value : Value}

/-- A value of the type of an atom is one. -/
theorem exists_atom {type : AtomType} (h : value.type = .atom type) : ∃ atom, value = .atom atom := by
  cases value <;> simp_all [Value.type]

/-- A value of an enumeration is one of its variants. -/
theorem exists_variant {name : String} (h : value.type = .enumeration name) : ∃ index, value = .variant name index := by
  cases value <;> simp_all [Value.type]

/-- A value of the type of a sequence is one of this kind. -/
theorem exists_sequence {kind : SequenceKind} (h : value.type = .sequence kind) :
    ∃ items, value = .sequence kind items := by
  cases value <;> simp_all [Value.type]

/-- A value of the type of maps is a map. -/
theorem exists_map (h : value.type = .map) : ∃ entries, value = .map entries := by
  cases value <;> simp_all [Value.type]

/-- A value of the type of an array is one with this type of items. -/
theorem exists_array {element : ValueType} (h : value.type = .array element) :
    ∃ items, value = .array element items := by
  cases value <;> simp_all [Value.type]

/-- A value of a type of records is a record of this type. -/
theorem exists_record {name : String} (h : value.type = .record name) : ∃ slots, value = .record name slots := by
  cases value <;> simp_all [Value.type]

end

/-! ## Values of a bounded size -/

section

variable {equal : Value → Value → Bool} {bound : Nat}

/-- A well-formed value that is smaller than a bound. -/
def Below (equal : Value → Value → Bool) (bound : Nat) (value : Value) : Prop :=
  WellFormed equal value ∧ sizeOf value < bound

/-- The elements of a sequence are below the next bound, and those of a set differ. -/
theorem Below.sequence {kind : SequenceKind} {items : List Value} (h : Below equal (bound + 1) (.sequence kind items)) :
    (∀ item ∈ items, Below equal bound item) ∧ (kind = .set → PairwiseUnequal equal items) := by
  obtain ⟨hwell, hsize⟩ := h
  cases hwell with
  | sequence hitems hset =>
    refine ⟨fun item hitem => ⟨hitems item hitem, ?_⟩, hset⟩
    have hlt := List.sizeOf_lt_of_mem hitem
    simp only [Value.sequence.sizeOf_spec] at hsize
    omega

/-- The keys and values of a map are below the next bound, and the keys differ. -/
theorem Below.map {entries : List (Value × Value)} (h : Below equal (bound + 1) (.map entries)) :
    (∀ entry ∈ entries, Below equal bound entry.1 ∧ Below equal bound entry.2) ∧
      PairwiseUnequal equal (entries.map Prod.fst) := by
  obtain ⟨hwell, hsize⟩ := h
  cases hwell with
  | map hkeys hvalues hunequal =>
    refine ⟨fun entry hentry => ?_, hunequal⟩
    have hlt := List.sizeOf_lt_of_mem hentry
    have hentrySize : sizeOf entry = 1 + sizeOf entry.1 + sizeOf entry.2 := rfl
    simp only [Value.map.sizeOf_spec] at hsize
    exact ⟨⟨hkeys entry hentry, by omega⟩, ⟨hvalues entry hentry, by omega⟩⟩

/-- The items of an array are below the next bound. -/
theorem Below.array {element : ValueType} {items : List Value} (h : Below equal (bound + 1) (.array element items)) :
    ∀ item ∈ items, Below equal bound item := by
  obtain ⟨hwell, hsize⟩ := h
  cases hwell with
  | array hitems =>
    intro item hitem
    have hlt := List.sizeOf_lt_of_mem hitem
    simp only [Value.array.sizeOf_spec] at hsize
    exact ⟨hitems item hitem, by omega⟩

/-- The slots of a record are below the next bound. -/
theorem Below.record {type : String} {slots : List (String × Value)}
    (h : Below equal (bound + 1) (.record type slots)) : ∀ slot ∈ slots, Below equal bound slot.2 := by
  obtain ⟨hwell, hsize⟩ := h
  cases hwell with
  | record hslots =>
    intro slot hslot
    have hlt := List.sizeOf_lt_of_mem hslot
    have hslotSize : sizeOf slot = 1 + sizeOf slot.1 + sizeOf slot.2 := rfl
    simp only [Value.record.sizeOf_spec] at hsize
    exact ⟨hslots slot hslot, by omega⟩

end

namespace EqualityRules

variable {reflexive : Prop} {records : RecordEquality} {equal : Value → Value → Bool}

/-- Equality is an equivalence on the values of one type if it is one on all smaller values. -/
theorem equivalenceOn_type (h : EqualityRules records equal) (hlawful : records.Lawful reflexive equal) {bound : Nat}
    (ih : EquivalenceOn reflexive (Below equal bound) equal) (type : ValueType) :
    EquivalenceOn reflexive (fun value => Below equal (bound + 1) value ∧ value.type = type) equal := by
  cases type with
  | null =>
    refine EquivalenceOn.of_all_equal fun left right hleft hright => ?_
    rw [type_eq_null_iff.1 hleft.2, type_eq_null_iff.1 hright.2]
    exact h.null
  | atom type =>
    refine EquivalenceOn.image EquivalenceOn.beq ?_ h.atoms
    rintro value ⟨-, htype⟩
    obtain ⟨atom, rfl⟩ := exists_atom htype
    exact ⟨atom, trivial, rfl⟩
  | enumeration name =>
    refine EquivalenceOn.image (hlawful.variants name) ?_ (h.variants name)
    rintro value ⟨-, htype⟩
    obtain ⟨index, rfl⟩ := exists_variant htype
    exact ⟨index, trivial, rfl⟩
  | sequence kind =>
    by_cases hkind : kind = .set
    · subst hkind
      refine EquivalenceOn.image ih.sets ?_ h.sets
      rintro value ⟨hbelow, htype⟩
      obtain ⟨items, rfl⟩ := exists_sequence htype
      exact ⟨items, ⟨hbelow.sequence.1, hbelow.sequence.2 rfl⟩, rfl⟩
    · refine EquivalenceOn.image ih.items ?_ fun left right => h.items kind left right hkind
      rintro value ⟨hbelow, htype⟩
      obtain ⟨items, rfl⟩ := exists_sequence htype
      exact ⟨items, hbelow.sequence.1, rfl⟩
  | map =>
    refine EquivalenceOn.image ih.maps ?_ h.maps
    rintro value ⟨hbelow, htype⟩
    obtain ⟨entries, rfl⟩ := exists_map htype
    exact ⟨entries, hbelow.map, rfl⟩
  | array element =>
    refine EquivalenceOn.image ih.items ?_ (h.arrays element)
    rintro value ⟨hbelow, htype⟩
    obtain ⟨items, rfl⟩ := exists_array htype
    exact ⟨items, hbelow.array, rfl⟩
  | record name =>
    refine EquivalenceOn.image (hlawful.slots _ name ih) ?_ (h.records name)
    rintro value ⟨hbelow, htype⟩
    obtain ⟨slots, rfl⟩ := exists_record htype
    exact ⟨slots, hbelow.record, rfl⟩
  | any =>
    exact EquivalenceOn.of_all_equal fun left _ hleft => absurd hleft.2 left.type_ne_any

/-- Equality is an equivalence on the values below any bound, by induction on the bound. -/
theorem equivalenceOn_below (h : EqualityRules records equal) (hlawful : records.Lawful reflexive equal) (bound : Nat) :
    EquivalenceOn reflexive (Below equal bound) equal := by
  induction bound with
  | zero => constructor <;> simp [Below]
  | succ bound ih => exact .of_sorts h.types (h.equivalenceOn_type hlawful ih)

/-- Among well-formed values, a comparison that obeys the rules is an equivalence. -/
theorem equivalenceOn_wellFormed (h : EqualityRules records equal) (hlawful : records.Lawful reflexive equal) :
    EquivalenceOn reflexive (WellFormed equal) equal where
  refl := fun htotal {a} ha => (h.equivalenceOn_below hlawful (sizeOf a + 1)).refl htotal ⟨ha, by omega⟩
  symm := fun {a b} ha hb =>
    (h.equivalenceOn_below hlawful (sizeOf a + sizeOf b + 1)).symm ⟨ha, by omega⟩ ⟨hb, by omega⟩
  trans := fun {a b c} ha hb hc =>
    (h.equivalenceOn_below hlawful (sizeOf a + sizeOf b + sizeOf c + 1)).trans ⟨ha, by omega⟩ ⟨hb, by omega⟩
      ⟨hc, by omega⟩

/-! ## Reorderings -/

/-- Values that differ in the order of sets and maps alone are equal. -/
theorem equal_of_reordered (h : EqualityRules records equal) (hlawful : records.Lawful reflexive equal)
    {left right : Value} (hreordered : Reordered records left right) :
    WellFormed equal left → WellFormed equal right → equal left right = true := by
  have hequal := h.equivalenceOn_wellFormed hlawful
  induction hreordered with
  | null => exact fun _ _ => h.null
  | atom atom => simp [h.atoms]
  | variant hvariants => simp [h.variants, hvariants]
  | @items kind pairs hkind _ ih =>
    intro hleft hright
    cases hleft with | sequence hlefts _ => cases hright with | sequence hrights _ =>
    rw [List.forall_mem_map] at hlefts hrights
    rw [h.items _ _ _ hkind, isEqv_iff]
    exact ⟨pairs, rfl, rfl, fun pair hpair => ih pair hpair (hlefts pair hpair) (hrights pair hpair)⟩
  | @set pairs right hperm _ ih =>
    intro hleft hright
    cases hleft with | sequence hlefts hset => cases hright with | sequence hrights _ =>
    rw [h.sets, hequal.sameElements_iff hlefts hrights (hset rfl)]
    rw [List.forall_mem_map] at hlefts
    refine ⟨pairs, rfl, hperm, fun pair hpair => ih pair hpair (hlefts pair hpair) ?_⟩
    exact hrights pair.2 (mem_of_mem_pairs hperm hpair).2
  | @map pairs right hperm _ _ ihKeys ihValues =>
    intro hleft hright
    cases hleft with | map hkeys hvalues hunequal => cases hright with | map hkeys' hvalues' hunequal' =>
    rw [h.maps, hequal.sameEntries_iff (fun entry hentry => ⟨hkeys entry hentry, hvalues entry hentry⟩)
      (fun entry hentry => ⟨hkeys' entry hentry, hvalues' entry hentry⟩) hunequal hunequal']
    rw [List.forall_mem_map] at hkeys hvalues
    refine ⟨pairs, rfl, hperm, fun pair hpair => ?_⟩
    have hmem := (mem_of_mem_pairs hperm hpair).2
    rw [sameEntry, Bool.and_eq_true]
    exact ⟨ihKeys pair hpair (hkeys pair hpair) (hkeys' pair.2 hmem),
      ihValues pair hpair (hvalues pair hpair) (hvalues' pair.2 hmem)⟩
  | @array element pairs _ ih =>
    intro hleft hright
    cases hleft with | array hlefts => cases hright with | array hrights =>
    rw [List.forall_mem_map] at hlefts hrights
    rw [h.arrays, isEqv_iff]
    exact ⟨pairs, rfl, rfl, fun pair hpair => ih pair hpair (hlefts pair hpair) (hrights pair hpair)⟩
  | record hslots => simp [h.records, hslots]

/-- Equal values differ in the order of sets and maps alone. -/
theorem reordered_of_equal (h : EqualityRules records equal) (hlawful : records.Lawful reflexive equal)
    {left right : Value} (hleft : WellFormed equal left) (hright : WellFormed equal right)
    (hsame : equal left right = true) :
    Reordered records left right := by
  have hequal := h.equivalenceOn_wellFormed hlawful
  induction left using Value.induction generalizing right with
  | null =>
    rw [type_eq_null_iff.1 (h.types _ _ hsame).symm]
    exact .null
  | atom atom =>
    obtain ⟨other, rfl⟩ := exists_atom (h.types _ _ hsame).symm
    rw [h.atoms, beq_iff_eq] at hsame
    rw [hsame]
    exact .atom other
  | variant type index =>
    obtain ⟨other, rfl⟩ := exists_variant (h.types _ _ hsame).symm
    rw [h.variants] at hsame
    exact .variant hsame
  | sequence kind items ih =>
    obtain ⟨others, rfl⟩ := exists_sequence (h.types _ _ hsame).symm
    cases hleft with | sequence hlefts hset => cases hright with | sequence hrights _ =>
    by_cases hkind : kind = .set
    · subst hkind
      rw [h.sets, hequal.sameElements_iff hlefts hrights (hset rfl)] at hsame
      obtain ⟨pairs, rfl, hperm, hpairs⟩ := hsame
      refine .set hperm fun pair hpair => ?_
      obtain ⟨hfst, hsnd⟩ := mem_of_mem_pairs hperm hpair
      exact ih pair.1 hfst (hlefts _ hfst) (hrights _ hsnd) (hpairs pair hpair)
    · rw [h.items _ _ _ hkind, isEqv_iff] at hsame
      obtain ⟨pairs, rfl, rfl, hpairs⟩ := hsame
      refine .items hkind fun pair hpair => ?_
      obtain ⟨hfst, hsnd⟩ := mem_of_mem_pairs (List.Perm.refl _) hpair
      exact ih pair.1 hfst (hlefts _ hfst) (hrights _ hsnd) (hpairs pair hpair)
  | map entries ih =>
    obtain ⟨others, rfl⟩ := exists_map (h.types _ _ hsame).symm
    cases hleft with | map hkeys hvalues hunequal => cases hright with | map hkeys' hvalues' hunequal' =>
    rw [h.maps, hequal.sameEntries_iff (fun entry hentry => ⟨hkeys entry hentry, hvalues entry hentry⟩)
      (fun entry hentry => ⟨hkeys' entry hentry, hvalues' entry hentry⟩) hunequal hunequal'] at hsame
    obtain ⟨pairs, rfl, hperm, hpairs⟩ := hsame
    simp only [sameEntry, Bool.and_eq_true] at hpairs
    refine .map hperm (fun pair hpair => ?_) fun pair hpair => ?_
    all_goals
      obtain ⟨hfst, hsnd⟩ := mem_of_mem_pairs hperm hpair
      obtain ⟨hkey, hvalue⟩ := hpairs pair hpair
    · exact (ih pair.1 hfst).1 (hkeys _ hfst) (hkeys' _ hsnd) hkey
    · exact (ih pair.1 hfst).2 (hvalues _ hfst) (hvalues' _ hsnd) hvalue
  | array element items ih =>
    obtain ⟨others, rfl⟩ := exists_array (h.types _ _ hsame).symm
    cases hleft with | array hlefts => cases hright with | array hrights =>
    rw [h.arrays, isEqv_iff] at hsame
    obtain ⟨pairs, rfl, rfl, hpairs⟩ := hsame
    refine .array fun pair hpair => ?_
    obtain ⟨hfst, hsnd⟩ := mem_of_mem_pairs (List.Perm.refl _) hpair
    exact ih pair.1 hfst (hlefts _ hfst) (hrights _ hsnd) (hpairs pair hpair)
  | record type slots _ =>
    obtain ⟨others, rfl⟩ := exists_record (h.types _ _ hsame).symm
    rw [h.records] at hsame
    exact .record hsame

/-- A comparison that obeys the rules has the laws of equality. -/
theorem equalityLaws (h : EqualityRules records equal) (hlawful : records.Lawful True equal) :
    EqualityLaws records equal where
  refl value hvalue := (h.equivalenceOn_wellFormed hlawful).refl trivial hvalue
  symm left right hleft hright := (h.equivalenceOn_wellFormed hlawful).symm hleft hright
  trans left middle right hleft hmiddle hright := (h.equivalenceOn_wellFormed hlawful).trans hleft hmiddle hright
  reordered left right hleft hright :=
    ⟨h.reordered_of_equal hlawful hleft hright, fun hsame => h.equal_of_reordered hlawful hsame hleft hright⟩
  atoms left right := by rw [h.atoms, beq_iff_eq]
  floatZeros := by rw [h.atoms]; decide
  doubleZeros := by rw [h.atoms]; decide
  types := h.types

end EqualityRules

/-- Equality of values is an equivalence on the values whose sets and maps have no repetitions, and a partial one where
records compare by a partial one. -/
theorem equivalenceOn_equal [records : RecordEquality] {reflexive : Prop}
    (hlawful : records.Lawful reflexive Value.equal) :
    EquivalenceOn reflexive (WellFormed Value.equal) Value.equal :=
  equalityRules_equal.equivalenceOn_wellFormed hlawful

/-- Equality of values is an equivalence that ignores the order of sets and maps, at every depth, and nothing else, if
records compare slot by slot, or by anything else that is an equivalence. Whatever records compare by, equality goes by
the content of all other values. -/
theorem equal_equivalence :
    (EqualityLaws .slotwise (@Value.equal .slotwise) ∧
      ∀ type left right, @Value.equal .slotwise (.record type left) (.record type right) =
        left.isEqv right fun slot other => slot.1 == other.1 && @Value.equal .slotwise slot.2 other.2) ∧
      (∀ records, EqualityRules records (@Value.equal records)) ∧
      ∀ records equal, EqualityRules records equal → records.Lawful True equal → EqualityLaws records equal := by
  have hrules : EqualityRules .slotwise (@Value.equal .slotwise) := @equalityRules_equal .slotwise
  refine ⟨⟨hrules.equalityLaws (lawful_slotwise True), fun type left right => ?_⟩, fun _ => equalityRules_equal,
    fun _ _ h => h.equalityLaws⟩
  exact (hrules.records type left right).trans (RecordEquality.slots_slotwise type left right)

end Value

end Bytemark
