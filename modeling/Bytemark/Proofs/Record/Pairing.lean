import Bytemark.Record.Plan
import Mathlib.Data.List.Nodup
import Mathlib.Data.List.Perm.Basic

/-!
# Pairing getters with setters

Three passes decide whether the entries of a plan belong together: one over the setters, one that gives each getter its
setter and takes this away from the others, and one over the setters that are left. `Plan.Paired` says the same of the
plan as a whole: no two setters, and no two of the entries that are read, share a canonical name, and the getters have
the canonical names of the setters. The passes succeed on just these plans (`Plan.fields_eq_ok_iff`), and each getter
then gets the one setter of its canonical name.

So nothing depends on the order of the entries: the fields are ordered by their names, which differ.
-/

set_option autoImplicit false

namespace Bytemark

/-! ## Partners -/

namespace PlanEntry

variable {entry setter : PlanEntry} {entries setters : List PlanEntry}

/-- An entry has no partner among those of other names. -/
theorem partner?_eq_none_iff :
    entry.partner? entries = none ↔ ∀ other ∈ entries, other.canonical ≠ entry.canonical := by
  simp [partner?]

/-- An entry has a partner if one of them has its name. -/
theorem partner?_isSome_iff : (entry.partner? entries).isSome ↔ entry.canonical ∈ entries.map canonical := by
  simp [partner?, List.find?_isSome]

/-- A partner is one of the entries, and has the same name. -/
theorem mem_of_partner? (h : entry.partner? setters = some setter) :
    setter ∈ setters ∧ setter.canonical = entry.canonical :=
  ⟨List.mem_of_find?_eq_some h, by simpa using List.find?_some h⟩

/-- Where canonical names differ, an entry has one partner at most. -/
theorem partner?_eq_some_iff (hdistinct : (setters.map canonical).Nodup) :
    entry.partner? setters = some setter ↔ setter ∈ setters ∧ setter.canonical = entry.canonical := by
  refine ⟨mem_of_partner?, ?_⟩
  rintro ⟨hmem, hname⟩
  cases hfound : entry.partner? setters with
  | none => exact absurd hname (partner?_eq_none_iff.1 hfound setter hmem)
  | some found =>
    obtain ⟨hfoundmem, hfoundname⟩ := mem_of_partner? hfound
    rw [List.inj_on_of_nodup_map hdistinct hfoundmem hmem (hfoundname.trans hname.symm)]

/-- If no name is there twice, the partner does not depend on the order. -/
theorem partner?_perm {others : List PlanEntry} (hperm : others.Perm setters)
    (hdistinct : (setters.map canonical).Nodup) (entry : PlanEntry) :
    entry.partner? others = entry.partner? setters := by
  have hothers : (others.map canonical).Nodup := (hperm.map canonical).nodup_iff.2 hdistinct
  ext setter
  rw [partner?_eq_some_iff hdistinct, partner?_eq_some_iff hothers, hperm.mem_iff]

/-- The entries of other canonical names. -/
def without (name : String) (entries : List PlanEntry) : List PlanEntry :=
  entries.filter fun other => other.canonical ≠ name

/-- Names stay distinct when one of them is taken away. -/
theorem nodup_without {name : String} (hdistinct : (entries.map canonical).Nodup) :
    ((without name entries).map canonical).Nodup :=
  hdistinct.sublist (List.filter_sublist.map canonical)

/-- To take the partner of an entry away is to take its name away. -/
theorem erase_partner (hdistinct : (setters.map canonical).Nodup) (h : entry.partner? setters = some setter) :
    setters.erase setter = without entry.canonical setters := by
  obtain ⟨hmem, hname⟩ := mem_of_partner? h
  rw [hdistinct.of_map.erase_eq_filter]
  refine List.filter_congr fun other hother => ?_
  have hinj : other = setter ↔ other.canonical = setter.canonical :=
    ⟨congrArg canonical, List.inj_on_of_nodup_map hdistinct hother hmem⟩
  rw [← hname, Bool.eq_iff_iff]
  simp [hinj]

/-- Taking a name away takes no partner from the others. -/
theorem partner?_without {name : String} (h : entry.canonical ≠ name) :
    entry.partner? (without name entries) = entry.partner? entries := by
  rw [partner?, without, List.find?_filter, partner?]
  congr 1
  funext other
  by_cases hother : other.canonical = entry.canonical <;> simp [hother, h]

/-- A field with the setter of its canonical name, if it is a getter. -/
def planned (setters : List PlanEntry) (field : PlanEntry) : PlannedField :=
  ⟨field, if field.access = .direct then none else field.partner? setters⟩

end PlanEntry

namespace Plan

open PlanEntry

/-! ## The three passes -/

/-- The canonical names of the entries differ from each other and from those that were seen before. -/
def Unseen (seen entries : List PlanEntry) : Prop :=
  (entries.map canonical).Nodup ∧ ∀ entry ∈ entries, entry.partner? seen = none

/-- If nothing has been seen, only the names among themselves have to be distinct. -/
theorem unseen_nil_iff {entries : List PlanEntry} : Unseen [] entries ↔ (entries.map canonical).Nodup :=
  and_iff_left fun _ _ => rfl

/-- The first entry must be unseen, and counts as seen for the others. -/
theorem unseen_cons_iff {seen entries : List PlanEntry} {entry : PlanEntry} :
    Unseen seen (entry :: entries) ↔ entry.partner? seen = none ∧ Unseen (seen ++ [entry]) entries := by
  have hlater (other : PlanEntry) : other.partner? (seen ++ [entry]) = none ↔
      other.partner? seen = none ∧ entry.canonical ≠ other.canonical := by
    simp only [partner?_eq_none_iff, List.forall_mem_append, List.forall_mem_singleton]
  simp only [Unseen, hlater, List.map_cons, List.nodup_cons, List.forall_mem_cons, List.mem_map, not_exists, not_and]
  constructor
  · rintro ⟨⟨hnew, hdistinct⟩, hfirst, hrest⟩
    exact ⟨hfirst, hdistinct, fun other hother => ⟨hrest other hother, Ne.symm (hnew other hother)⟩⟩
  · rintro ⟨hfirst, hdistinct, hrest⟩
    exact ⟨⟨fun other hother => Ne.symm (hrest other hother).2, hdistinct⟩, hfirst, fun other hother =>
      (hrest other hother).1⟩

/-- The pass over the setters succeeds if no name is there twice. -/
theorem checkSetters_eq_ok_iff {seen setters : List PlanEntry} :
    checkSetters seen setters = .ok () ↔ Unseen seen setters := by
  induction setters generalizing seen with
  | nil => simp [checkSetters, Unseen]
  | cons setter setters ih =>
    unfold checkSetters
    rw [unseen_cons_iff]
    cases hpartner : setter.partner? seen with
    | some previous => simp
    | none => simp [ih]

/-- No getter of the fields has the canonical name of the setter. -/
def Unused (fields : List PlanEntry) (setter : PlanEntry) : Prop :=
  ∀ field ∈ fields, field.access ≠ .direct → setter.canonical ≠ field.canonical

instance (fields : List PlanEntry) : DecidablePred (Unused fields) :=
  fun _ => inferInstanceAs (Decidable (∀ field ∈ fields, _))

/-- The getters of the fields have setters. -/
def Served (setters fields : List PlanEntry) : Prop :=
  ∀ field ∈ fields, field.access ≠ .direct → (field.partner? setters).isSome

/-- Getters have their setters if the first has one and the others have theirs. -/
theorem served_cons_iff {setters fields : List PlanEntry} {field : PlanEntry} :
    Served setters (field :: fields) ↔
      (field.access ≠ .direct → (field.partner? setters).isSome) ∧ Served setters fields :=
  List.forall_mem_cons

/-- A setter that is used up by a getter is not one of those left unused. -/
theorem filter_unused_without {setters fields : List PlanEntry} {field : PlanEntry} (haccess : field.access ≠ .direct) :
    (without field.canonical setters).filter (Unused fields) = setters.filter (Unused (field :: fields)) := by
  rw [without, List.filter_filter]
  refine List.filter_congr fun setter _ => ?_
  have hcons : Unused (field :: fields) setter ↔ Unused fields setter ∧ setter.canonical ≠ field.canonical := by
    simp [Unused, haccess, and_comm]
  rw [Bool.eq_iff_iff]
  simp [hcons]

/-- Fields of other names do not miss the setter that is taken away with its name. -/
theorem planned_without {setters fields : List PlanEntry} {name : String}
    (h : ∀ field ∈ fields, field.canonical ≠ name) :
    (Served (without name setters) fields ↔ Served setters fields) ∧
      fields.map (PlanEntry.planned (without name setters)) = fields.map (PlanEntry.planned setters) := by
  constructor
  · refine forall₂_congr fun field hfield => ?_
    rw [partner?_without (h field hfield)]
  · refine List.map_congr_left fun field hfield => ?_
    rw [PlanEntry.planned, partner?_without (h field hfield), PlanEntry.planned]

/-- What pairing fields with setters comes to: the names of the fields differ, each getter gets its partner, and the
setters without a getter are left over. -/
def PairsUp (seen setters fields : List PlanEntry) (pairs : List PlannedField) (left : List PlanEntry) : Prop :=
  Unseen seen fields ∧ Served setters fields ∧ pairs = fields.map (PlanEntry.planned setters) ∧
    left = setters.filter (Unused fields)

section Steps

variable {seen setters fields left : List PlanEntry} {field : PlanEntry} {pairs : List PlannedField}
  (hnew : field.partner? seen = none)
include hnew

/-- A field that needs no setter stays by itself. -/
theorem pairsUp_direct_iff (hdirect : field.access = .direct) :
    PairsUp seen setters (field :: fields) pairs left ↔
      ∃ rest, PairsUp (seen ++ [field]) setters fields rest left ∧ pairs = ⟨field, none⟩ :: rest := by
  have hserved : Served setters (field :: fields) ↔ Served setters fields := by
    simp [served_cons_iff, hdirect]
  have hunused (setter : PlanEntry) : Unused (field :: fields) setter ↔ Unused fields setter := by
    simp [Unused, hdirect]
  unfold PairsUp
  simp only [unseen_cons_iff, hserved, hunused, List.map_cons, planned, if_pos hdirect]
  constructor
  · rintro ⟨⟨-, hunseen⟩, hserves, rfl, rfl⟩
    exact ⟨_, ⟨hunseen, hserves, rfl, rfl⟩, rfl⟩
  · rintro ⟨_, ⟨hunseen, hserves, rfl, rfl⟩, rfl⟩
    exact ⟨⟨hnew, hunseen⟩, hserves, rfl, rfl⟩

/-- A getter is paired with its partner, which is not there any more for the others. -/
theorem pairsUp_getter_iff (haccess : field.access ≠ .direct) {setter : PlanEntry}
    (hpartner : field.partner? setters = some setter) :
    PairsUp seen setters (field :: fields) pairs left ↔
      ∃ rest, PairsUp (seen ++ [field]) (without field.canonical setters) fields rest left ∧
        pairs = ⟨field, some setter⟩ :: rest := by
  have hother (hunseen : Unseen (seen ++ [field]) fields) : ∀ later ∈ fields, later.canonical ≠ field.canonical := by
    intro later hlater hsame
    exact partner?_eq_none_iff.1 (hunseen.2 later hlater) field (by simp) hsame.symm
  unfold PairsUp
  simp only [unseen_cons_iff, filter_unused_without haccess, List.map_cons, planned, if_neg haccess, hpartner]
  constructor
  · rintro ⟨⟨-, hunseen⟩, hserves, rfl, rfl⟩
    obtain ⟨hserved, hplanned⟩ := @planned_without setters _ _ (hother hunseen)
    refine ⟨_, ⟨hunseen, hserved.2 (served_cons_iff.1 hserves).2, rfl, rfl⟩, ?_⟩
    rw [hplanned]
  · rintro ⟨_, ⟨hunseen, hserves, rfl, rfl⟩, rfl⟩
    obtain ⟨hserved, hplanned⟩ := @planned_without setters _ _ (hother hunseen)
    refine ⟨⟨hnew, hunseen⟩, served_cons_iff.2 ⟨fun _ => by simp [hpartner], hserved.1 hserves⟩, ?_, rfl⟩
    rw [hplanned]

end Steps

/-- Pairs are put in front of those that the rest of the pass has made. -/
theorem cons_pairs_eq_ok_iff {answer : Except PlanFault (List PlannedField × List PlanEntry)} {first : PlannedField}
    {pairs : List PlannedField} {left : List PlanEntry} :
    (do
      let (planned, left) ← answer
      return (first :: planned, left)) = Except.ok (pairs, left) ↔
      ∃ rest, answer = .ok (rest, left) ∧ pairs = first :: rest := by
  rw [answer_bind_eq_ok_iff]
  constructor
  · rintro ⟨⟨rest, _⟩, hanswer, hpure⟩
    cases hpure
    exact ⟨rest, hanswer, rfl⟩
  · rintro ⟨rest, hanswer, rfl⟩
    exact ⟨(rest, left), hanswer, rfl⟩

/-- The pass over the fields succeeds if they pair up with the setters, which have different names. -/
theorem pair_eq_ok_iff {seen setters fields left : List PlanEntry} {pairs : List PlannedField}
    (hdistinct : (setters.map canonical).Nodup) :
    pair seen setters fields = .ok (pairs, left) ↔ PairsUp seen setters fields pairs left := by
  induction fields generalizing seen setters left pairs with
  | nil =>
    have hall : setters.filter (Unused []) = setters := List.filter_eq_self.2 (by simp [Unused])
    rw [pair, PairsUp, hall]
    constructor
    · intro h
      cases h
      exact ⟨⟨List.nodup_nil, nofun⟩, nofun, rfl, rfl⟩
    · rintro ⟨-, -, rfl, rfl⟩
      rfl
  | cons field fields ih =>
    unfold pair
    split
    · rename_i hseen
      simp [PairsUp, unseen_cons_iff, Option.isSome_iff_ne_none.1 hseen]
    · rename_i hnew
      rw [Option.not_isSome_iff_eq_none] at hnew
      split
      · rename_i hdirect
        rw [cons_pairs_eq_ok_iff, pairsUp_direct_iff hnew hdirect]
        simp only [ih hdistinct]
      · rename_i haccess
        cases hpartner : field.partner? setters with
        | none => simp [PairsUp, served_cons_iff, haccess, hpartner]
        | some setter =>
          dsimp only
          rw [cons_pairs_eq_ok_iff, pairsUp_getter_iff hnew haccess hpartner, erase_partner hdistinct hpartner]
          simp only [ih (nodup_without hdistinct)]

/-- There is a least name unless there is no entry. -/
theorem leastName_eq_none_iff {entries : List PlanEntry} : leastName entries = none ↔ entries = [] := by
  cases entries with
  | nil => simp [leastName]
  | cons entry entries =>
    unfold leastName
    cases leastName entries <;> simp

/-! ## The fields of a plan -/

section Fields

variable {plan : Plan}

/-- The entries by which fields are set. -/
def setters (plan : Plan) : List PlanEntry := plan.entries.filter fun entry => entry.access = .setter

/-- The entries by which fields are only read. -/
def getters (plan : Plan) : List PlanEntry := plan.entries.filter fun entry => entry.access = .getter

/-- The entries by which fields are read: direct fields and getters. -/
def sources (plan : Plan) : List PlanEntry := plan.entries.filter fun entry => entry.access ≠ .setter

/-- Every field has one name, and each getter has one setter. -/
structure Paired (plan : Plan) : Prop where
  setters_distinct : (plan.setters.map canonical).Nodup
  sources_distinct : (plan.sources.map canonical).Nodup
  names (name : String) : name ∈ plan.getters.map canonical ↔ name ∈ plan.setters.map canonical

/-- The fields with their setters, in the order of their names. -/
def inOrder (plan : Plan) : List PlannedField :=
  (plan.sources.map (PlanEntry.planned plan.setters)).mergeSort fun one other => one.field.name ≤ other.field.name

/-- The getters are the sources that need a setter. -/
theorem mem_getters_iff {entry : PlanEntry} :
    entry ∈ plan.getters ↔ entry ∈ plan.sources ∧ entry.access ≠ .direct := by
  cases haccess : entry.access <;> simp [getters, sources, haccess]

/-- Every getter has its setter if the names of the getters are among those of the setters. -/
theorem served_iff :
    Served plan.setters plan.sources ↔ ∀ name ∈ plan.getters.map canonical, name ∈ plan.setters.map canonical := by
  constructor
  · intro h name hname
    obtain ⟨getter, hgetter, rfl⟩ := List.mem_map.1 hname
    obtain ⟨hsource, haccess⟩ := mem_getters_iff.1 hgetter
    exact partner?_isSome_iff.1 (h getter hsource haccess)
  · intro h field hfield haccess
    exact partner?_isSome_iff.2 (h _ (List.mem_map_of_mem (mem_getters_iff.2 ⟨hfield, haccess⟩)))

/-- A setter is unused if no getter has its name. -/
theorem unused_iff {setter : PlanEntry} :
    Unused plan.sources setter ↔ setter.canonical ∉ plan.getters.map canonical := by
  constructor
  · intro h hname
    obtain ⟨getter, hgetter, hsame⟩ := List.mem_map.1 hname
    obtain ⟨hsource, haccess⟩ := mem_getters_iff.1 hgetter
    exact h getter hsource haccess hsame.symm
  · intro h field hfield haccess hsame
    rw [hsame] at h
    exact h (List.mem_map_of_mem (mem_getters_iff.2 ⟨hfield, haccess⟩))

/-- No setter is unused if the names of the setters are among those of the getters. -/
theorem no_unused_iff :
    plan.setters.filter (Unused plan.sources) = [] ↔
      ∀ name ∈ plan.setters.map canonical, name ∈ plan.getters.map canonical := by
  simp only [List.filter_eq_nil_iff, unused_iff, decide_eq_true_eq, not_not, List.forall_mem_map]

/-- The three passes succeed on the plans whose entries belong together, and give the fields in their order. -/
theorem fields_eq_ok_iff {fields : List PlannedField} :
    plan.fields = .ok fields ↔ plan.Paired ∧ fields = plan.inOrder := by
  unfold Plan.fields
  constructor
  · intro h
    obtain ⟨_, hcheck, h⟩ := answer_bind_eq_ok_iff.1 h
    obtain ⟨⟨pairs, left⟩, hpair, h⟩ := answer_bind_eq_ok_iff.1 h
    have hsetters : (plan.setters.map canonical).Nodup := unseen_nil_iff.1 (checkSetters_eq_ok_iff.1 hcheck)
    obtain ⟨hsources, hserved, rfl, rfl⟩ : PairsUp [] plan.setters plan.sources pairs left :=
      (pair_eq_ok_iff hsetters).1 hpair
    dsimp only at h
    cases hleast : leastName (plan.setters.filter (Unused plan.sources)) with
    | some name =>
      rw [hleast] at h
      cases h
    | none =>
      rw [hleast] at h
      cases h
      have hunused := leastName_eq_none_iff.1 hleast
      exact ⟨⟨hsetters, unseen_nil_iff.1 hsources, fun name =>
        ⟨served_iff.1 hserved name, no_unused_iff.1 hunused name⟩⟩, rfl⟩
  · rintro ⟨hpaired, rfl⟩
    have hserved := served_iff.2 fun name => (hpaired.names name).1
    have hunused := no_unused_iff.2 fun name => (hpaired.names name).2
    refine answer_bind_eq_ok_iff.2 ⟨(), checkSetters_eq_ok_iff.2 (unseen_nil_iff.2 hpaired.setters_distinct), ?_⟩
    refine answer_bind_eq_ok_iff.2 ⟨(plan.sources.map (PlanEntry.planned plan.setters), []), ?_, rfl⟩
    exact (pair_eq_ok_iff hpaired.setters_distinct).2
      ⟨unseen_nil_iff.2 hpaired.sources_distinct, hserved, rfl, hunused.symm⟩

/-! ## The order of the fields -/

/-- Sorting the fields neither adds nor drops any. -/
theorem inOrder_perm (plan : Plan) : plan.inOrder.Perm (plan.sources.map (PlanEntry.planned plan.setters)) :=
  List.mergeSort_perm _ _

/-- The names of the fields in order are those of the sources. -/
theorem field_names_perm (plan : Plan) :
    (plan.inOrder.map fun planned => planned.field.name).Perm (plan.sources.map PlanEntry.name) := by
  have hnames := plan.inOrder_perm.map fun planned => planned.field.name
  rwa [List.map_map] at hnames

/-- The fields are in the order of their names. -/
theorem pairwise_inOrder (plan : Plan) :
    plan.inOrder.Pairwise fun one other => one.field.name ≤ other.field.name := by
  refine (List.pairwise_mergeSort ?_ ?_ _).imp of_decide_eq_true
  · simp only [decide_eq_true_eq]
    exact fun _ _ _ => String.le_trans
  · simp only [Bool.or_eq_true, decide_eq_true_eq]
    exact fun one other => String.le_total one.field.name other.field.name

/-- Fields of different canonical names are told apart by their names. -/
theorem Paired.names_distinct (h : plan.Paired) : (plan.sources.map PlanEntry.name).Nodup := by
  have hname {one other : PlanEntry} (hsame : one.name = other.name) : one.canonical = other.canonical := by
    rw [canonical, hsame, canonical]
  refine List.pairwise_map.2 ((List.pairwise_map.1 h.sources_distinct).imp ?_)
  exact fun hother hsame => hother (hname hsame)

/-- If getters and setters pair up, no name is there twice, so the names increase. -/
theorem Paired.field_names_increasing (h : plan.Paired) :
    (plan.inOrder.map fun planned => planned.field.name).Pairwise (· < ·) := by
  have hdistinct := plan.field_names_perm.nodup_iff.2 h.names_distinct
  have hordered := List.pairwise_map.2 plan.pairwise_inOrder
  refine (hordered.and hdistinct).imp ?_
  rintro one other ⟨hle, hne⟩
  by_contra hless
  exact hne (String.le_antisymm hle (String.not_lt.1 hless))

section Permuted

variable {other : Plan} (hentries : other.entries.Perm plan.entries)
include hentries

/-- Whether getters and setters pair up does not depend on the order of the plan. -/
theorem Paired.perm (h : plan.Paired) : other.Paired where
  setters_distinct := ((hentries.filter _).map canonical).nodup_iff.2 h.setters_distinct
  sources_distinct := ((hentries.filter _).map canonical).nodup_iff.2 h.sources_distinct
  names name := by
    have hgetters : other.getters.Perm plan.getters := hentries.filter _
    have hsetters : other.setters.Perm plan.setters := hentries.filter _
    rw [(hgetters.map canonical).mem_iff, (hsetters.map canonical).mem_iff]
    exact h.names name

/-- Fields that are paired up are the same ones in the same order, in whatever order the plan lists the entries. -/
theorem Paired.inOrder_eq (h : plan.Paired) : other.inOrder = plan.inOrder := by
  have hsetters : other.setters.Perm plan.setters := hentries.filter _
  have hsources : other.sources.Perm plan.sources := hentries.filter _
  have hplanned : PlanEntry.planned other.setters = PlanEntry.planned plan.setters := by
    funext field
    rw [PlanEntry.planned, partner?_perm hsetters h.setters_distinct, PlanEntry.planned]
  have hperm : other.inOrder.Perm plan.inOrder := by
    refine other.inOrder_perm.trans (.trans ?_ plan.inOrder_perm.symm)
    rw [hplanned]
    exact hsources.map _
  have hdistinct := plan.field_names_perm.nodup_iff.2 h.names_distinct
  refine hperm.eq_of_pairwise ?_ other.pairwise_inOrder plan.pairwise_inOrder
  -- Of two fields that may come in either order, the names are equal, so they are one.
  intro one another hone hanother hle hge
  exact List.inj_on_of_nodup_map hdistinct (hperm.mem_iff.1 hone) hanother (String.le_antisymm hle hge)

/-- Plans that list the same entries have the same fields. -/
theorem fields_perm {fields : List PlannedField} (h : plan.fields = .ok fields) : other.fields = .ok fields := by
  obtain ⟨hpaired, rfl⟩ := fields_eq_ok_iff.1 h
  exact fields_eq_ok_iff.2 ⟨hpaired.perm hentries, (hpaired.inOrder_eq hentries).symm⟩

end Permuted

end Fields

end Plan

end Bytemark
