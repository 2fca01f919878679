import Bytemark.Proofs.Record.Bindings
import Bytemark.Proofs.Record.Pairing
import Bytemark.Registry.Read
import Bytemark.Registry.Write
import Bytemark.Text.Utf8.Order
import Bytemark.Record.Layout

/-!
# Which plans are built

A plan that has slots for a fresh record, a marker other than null's, and entries that belong together gets a codec, if
the registry has something to bind each of its fields to. Nothing else is asked of the plan, and the codec has its
fields in the order of their names (`Plan.build_cases`). Since that order is the only one that matters, plans that list
the same entries are built alike (`Plan.build_perm`).
-/

set_option autoImplicit false

namespace Bytemark

open Registry

/-- Every marker is a run of its own, apart from null's. -/
theorem MarkerRange.single_cases (marker : Marker) :
    (marker = Marker.null ∧ single marker = .error (.markerOverflow marker 1)) ∨
      (marker ≠ Marker.null ∧ ∃ markers, single marker = .ok markers) := by
  unfold single MarkerRange.of
  by_cases hnull : marker = Marker.null
  · exact .inl ⟨hnull, dif_neg fun h => h.2.1 hnull⟩
  · have hlast := Int8.toInt_lt marker
    exact .inr ⟨hnull, _, dif_pos ⟨Nat.one_pos, hnull, by omega⟩⟩

/-! ## One field -/

namespace PlannedField

/-- The field has the type of its setter, if it has one. -/
def Agrees (planned : PlannedField) : Prop := (planned.setter.getD planned.field).type = planned.field.type

/-- What is wrong with a field of a record type. -/
inductive Refused (registry : Registry) (type : String) (planned : PlannedField) : Error → Prop
  | disagreement (h : ¬ planned.Agrees) :
    Refused registry type planned (.generation type (.disagreement planned.field.name))
  | missing (h : ¬ planned.field.type.kind.Bindable registry (.record type)) :
    Refused registry type planned (.missingCodec planned.field.type.kind.valueType none)

/-- Nothing is wrong with a field of a record type. -/
def Accepted (registry : Registry) (type : String) (planned : PlannedField) : Prop :=
  planned.Agrees ∧ planned.field.type.kind.Bindable registry (.record type)

section Congr

variable {registry other : Registry} {type : String} {planned : PlannedField}
  (hsame : ∀ asked, registry.codecForType asked = other.codecForType asked)
include hsame

/-- A field is accepted by every registry with the same codecs for types. -/
theorem Accepted.congr (h : planned.Accepted registry type) : planned.Accepted other type :=
  ⟨h.1, (FieldKind.bindable_congr hsame).1 h.2⟩

/-- A field is refused by every registry with the same codecs for types, and for the same reason. -/
theorem Refused.congr {e : Error} (h : planned.Refused registry type e) : planned.Refused other type e := by
  cases h with
  | disagreement hother => exact .disagreement hother
  | missing hnone => exact .missing fun hbindable => hnone ((FieldKind.bindable_congr hsame).2 hbindable)

end Congr

end PlannedField

namespace Plan

/-- A field is accepted and bound under its name, or refused for what the error says. -/
theorem bindField_outcome (registry : Registry) (type : String) (planned : PlannedField) :
    (planned.Accepted registry type ∧ ∃ field bound, bindField type planned registry = .ok field bound ∧
      field.info.name = planned.field.name) ∨
    ∃ e bound, bindField type planned registry = .error e bound ∧ planned.Refused registry type e := by
  unfold bindField
  dsimp only
  split
  · rename_i hother
    exact .inr ⟨_, registry, rfl, .disagreement hother⟩
  · rename_i hagrees
    rcases planned.field.type.kind.bind_outcome registry (.record type) with
      ⟨binding, bound, hbind, hfound⟩ | ⟨bound, hbind, hnone⟩
    · refine .inl ⟨⟨not_not.1 hagrees, FieldKind.bindable_of_found hfound⟩, ?_⟩
      exact ⟨.mk ⟨planned.field.name, planned.field.slot, (planned.setter.getD planned.field).slot,
        planned.field.type⟩ binding, bound, bind_eq_ok_iff.2 ⟨binding, bound, hbind, rfl⟩, rfl⟩
    · exact .inr ⟨_, bound, bind_eq_error_iff.2 (.inl hbind), .missing hnone⟩

/-- All fields are bound, or one of them is refused. It does not matter that the registry keeps the answers to earlier
look-ups, because those are the answers that it would give to later ones. -/
theorem bindFields_outcome (registry : Registry) (type : String) (fields : List PlannedField) :
    ((∀ planned ∈ fields, planned.Accepted registry type) ∧
      ∃ bindings bound, fields.mapM (bindField type) registry = .ok bindings bound ∧
        bindings.map (fun field => field.info.name) = fields.map fun planned => planned.field.name) ∨
    ∃ planned ∈ fields, ∃ e bound, fields.mapM (bindField type) registry = .error e bound ∧
      planned.Refused registry type e := by
  induction fields generalizing registry with
  | nil =>
    rw [List.mapM_nil]
    exact .inl ⟨List.forall_mem_nil _, [], registry, rfl, rfl⟩
  | cons planned fields ih =>
    rw [List.mapM_cons]
    rcases bindField_outcome registry type planned with
      ⟨haccepted, field, next, hfield, hname⟩ | ⟨e, bound, hfield, hrefused⟩
    · have hsame := (looks_bindField type planned).codecForType_of_ok hfield
      rcases ih next with ⟨hall, bindings, bound, hfields, hnames⟩ | ⟨refused, hmem, e, bound, hfields, hrefused⟩
      · refine .inl ⟨List.forall_mem_cons.2 ⟨haccepted, fun later hlater => ?_⟩, field :: bindings, bound, ?_, ?_⟩
        · exact (hall later hlater).congr hsame
        · exact bind_eq_ok_iff.2 ⟨field, next, hfield, bind_eq_ok_iff.2 ⟨bindings, bound, hfields, rfl⟩⟩
        · rw [List.map_cons, List.map_cons, hname, hnames]
      · refine .inr ⟨refused, List.mem_cons_of_mem _ hmem, e, bound, ?_, hrefused.congr hsame⟩
        exact bind_eq_error_iff.2 (.inr ⟨field, next, hfield, bind_eq_error_iff.2 (.inl hfields)⟩)
    · exact .inr ⟨planned, List.mem_cons_self, e, bound, bind_eq_error_iff.2 (.inl hfield), hrefused⟩

/-! ## The law -/

/-- The entries of a plan say how to make a record and how to reach its fields: there is a fresh record, each getter has
a setter of its own, and the two have the same type. -/
structure Coherent (plan : Plan) : Prop where
  constructible : plan.fresh.isSome
  paired : plan.Paired
  agree {getter setter : PlanEntry} (hgetter : getter ∈ plan.getters) (hsetter : setter ∈ plan.setters)
    (hname : getter.canonical = setter.canonical) : getter.type = setter.type

/-- Why a plan is rejected. -/
inductive Rejected (registry : Registry) (plan : Plan) : Error → Prop
  | incoherent (fault : PlanFault) (h : ¬ plan.Coherent) : Rejected registry plan (.generation plan.type fault)
  | marker (h : plan.marker = Marker.null) : Rejected registry plan (.markerOverflow plan.marker 1)
  | missing {field : PlanEntry} (hfield : field ∈ plan.sources)
      (h : ¬ field.type.kind.Bindable registry (.record plan.type)) :
      Rejected registry plan (.missingCodec field.type.kind.valueType none)

variable {plan : Plan}

/-- A plan without a fault is not rejected. -/
theorem not_rejected {registry : Registry} {e : Error}
    (h : plan.Coherent ∧ plan.marker ≠ Marker.null ∧
      ∀ field ∈ plan.sources, field.type.kind.Bindable registry (.record plan.type)) :
    ¬ plan.Rejected registry e := by
  obtain ⟨hcoherent, hmarker, hbindable⟩ := h
  rintro (⟨_, hother⟩ | hnull | ⟨hfield, hnone⟩)
  · exact hother hcoherent
  · exact hmarker hnull
  · exact hnone (hbindable _ hfield)

/-- The fields in order are those of the plan, each with the setter that it is paired with. -/
theorem mem_inOrder_iff {planned : PlannedField} :
    planned ∈ plan.inOrder ↔ ∃ field ∈ plan.sources, field.planned plan.setters = planned := by
  rw [plan.inOrder_perm.mem_iff, List.mem_map]

/-- A field agrees if it needs no setter, or has the type of the one that it is paired with. -/
theorem agrees_planned_iff {setters : List PlanEntry} {field : PlanEntry} :
    (field.planned setters).Agrees ↔ field.access ≠ .direct → ∀ setter, field.partner? setters = some setter →
      field.type = setter.type := by
  unfold PlannedField.Agrees PlanEntry.planned
  by_cases haccess : field.access = .direct
  · simp [haccess]
  · cases field.partner? setters <;> simp [haccess, eq_comm]

/-- Where the entries are paired up, each field has the type of its setter if getters and setters of one name agree. -/
theorem Paired.agrees_iff (hpaired : plan.Paired) :
    (∀ planned ∈ plan.inOrder, planned.Agrees) ↔ ∀ getter ∈ plan.getters, ∀ setter ∈ plan.setters,
      getter.canonical = setter.canonical → getter.type = setter.type := by
  have hpartner (field setter : PlanEntry) :=
    @PlanEntry.partner?_eq_some_iff field setter _ hpaired.setters_distinct
  constructor
  · intro h getter hgetter setter hsetter hname
    obtain ⟨hsource, haccess⟩ := mem_getters_iff.1 hgetter
    exact agrees_planned_iff.1 (h _ (mem_inOrder_iff.2 ⟨getter, hsource, rfl⟩)) haccess setter
      ((hpartner getter setter).2 ⟨hsetter, hname.symm⟩)
  · intro h planned hplanned
    obtain ⟨field, hfield, rfl⟩ := mem_inOrder_iff.1 hplanned
    refine agrees_planned_iff.2 fun haccess setter hsome => ?_
    obtain ⟨hsetter, hname⟩ := (hpartner field setter).1 hsome
    exact h field (mem_getters_iff.2 ⟨hfield, haccess⟩) setter hsetter hname.symm

/-- A plan is built, with its fields in their order, or it is rejected. -/
theorem build_cases (plan : Plan) (registry : Registry) :
    ((plan.Coherent ∧ plan.marker ≠ Marker.null ∧
        ∀ field ∈ plan.sources, field.type.kind.Bindable registry (.record plan.type)) ∧
      ∃ codec last, plan.build registry = .ok codec last ∧
        codec.fieldNames = plan.inOrder.map fun planned => planned.field.name) ∨
    ∃ e last, plan.build registry = .error e last ∧ plan.Rejected registry e := by
  unfold build
  cases hfresh : plan.fresh with
  | none => exact .inr ⟨_, registry, rfl, .incoherent _ fun h => by simpa [hfresh] using h.constructible⟩
  | some fresh =>
    dsimp only
    rcases MarkerRange.single_cases plan.marker with ⟨hnull, hsingle⟩ | ⟨hmarker, markers, hsingle⟩
    · rw [hsingle]
      exact .inr ⟨_, registry, rfl, .marker hnull⟩
    have hmarkers : (ofExcept (MarkerRange.single plan.marker) : Resolve MarkerRange) registry = .ok markers registry :=
      ofExcept_eq_ok_iff.2 ⟨hsingle, rfl⟩
    cases hfields : plan.fields with
    | error fault =>
      refine .inr ⟨.generation plan.type fault, registry, ?_, .incoherent fault fun h => ?_⟩
      · exact bind_eq_error_iff.2 (.inr ⟨markers, registry, hmarkers, bind_eq_error_iff.2 (.inl rfl)⟩)
      · cases hfields.symm.trans (fields_eq_ok_iff.2 ⟨h.paired, rfl⟩)
    | ok fields =>
      obtain ⟨hpaired, rfl⟩ := fields_eq_ok_iff.1 hfields
      rcases bindFields_outcome registry plan.type plan.inOrder with
        ⟨haccepted, bindings, bound, hbind, hnames⟩ | ⟨planned, hplanned, e, bound, hbind, hrefused⟩
      · have hagree := hpaired.agrees_iff.1 fun planned hplanned => (haccepted planned hplanned).1
        refine .inl ⟨⟨⟨by simp [hfresh], hpaired, fun hgetter hsetter => hagree _ hgetter _ hsetter⟩, hmarker, ?_⟩,
          .record markers plan.type fresh bindings, bound, ?_, hnames⟩
        · intro field hfield
          exact (haccepted _ (mem_inOrder_iff.2 ⟨field, hfield, rfl⟩)).2
        · refine bind_eq_ok_iff.2 ⟨markers, registry, hmarkers, bind_eq_ok_iff.2 ⟨plan.inOrder, registry, rfl, ?_⟩⟩
          exact bind_eq_ok_iff.2 ⟨bindings, bound, hbind, rfl⟩
      · refine .inr ⟨e, bound, ?_, ?_⟩
        · refine bind_eq_error_iff.2 (.inr ⟨markers, registry, hmarkers, ?_⟩)
          refine bind_eq_error_iff.2 (.inr ⟨plan.inOrder, registry, rfl, ?_⟩)
          exact bind_eq_error_iff.2 (.inl hbind)
        · obtain ⟨field, hfield, rfl⟩ := mem_inOrder_iff.1 hplanned
          cases hrefused with
          | missing hnone => exact .missing hfield hnone
          | disagreement hother =>
            refine .incoherent _ fun h => hother (hpaired.agrees_iff.2 ?_ _ hplanned)
            exact fun getter hgetter setter hsetter => h.agree hgetter hsetter

/-- A plan without a fault is built. -/
theorem exists_build {registry : Registry} (h : plan.Coherent ∧ plan.marker ≠ Marker.null ∧
      ∀ field ∈ plan.sources, field.type.kind.Bindable registry (.record plan.type)) :
    ∃ codec last, plan.build registry = .ok codec last := by
  rcases plan.build_cases registry with ⟨-, codec, last, hbuild, -⟩ | ⟨e, last, -, hrejected⟩
  · exact ⟨codec, last, hbuild⟩
  · exact absurd hrejected (not_rejected h)

/-- A plan is built if and only if it is coherent, its marker is not null's, and the registry has something to bind each
of its fields to. The codec then has the fields that the plan reads, in the order of the bytes of their names. A plan
that is not built is rejected for the one reason of these three that the error is about. -/
theorem build_outcome (plan : Plan) (registry : Registry) :
    ((∃ codec last, plan.build registry = .ok codec last) ↔
      plan.Coherent ∧ plan.marker ≠ Marker.null ∧
        ∀ field ∈ plan.sources, field.type.kind.Bindable registry (.record plan.type)) ∧
    (∀ codec last, plan.build registry = .ok codec last →
      codec.fieldNames.Pairwise (fun one other => Utf8.encode one.toList < Utf8.encode other.toList) ∧
        codec.fieldNames.Perm (plan.sources.map PlanEntry.name)) ∧
    ∀ e last, plan.build registry = .error e last → plan.Rejected registry e := by
  rcases plan.build_cases registry with ⟨haccepted, codec, last, hbuild, hnames⟩ | ⟨e, last, hbuild, hrejected⟩
  · refine ⟨⟨fun _ => haccepted, fun _ => ⟨codec, last, hbuild⟩⟩, ?_, ?_⟩
    · intro _ _ hsame
      cases hbuild.symm.trans hsame
      rw [hnames]
      refine ⟨haccepted.1.paired.field_names_increasing.imp ?_, plan.field_names_perm⟩
      exact fun hless => Utf8.encode_lt_encode (String.lt_iff.1 hless)
    · intro _ _ hsame
      cases hbuild.symm.trans hsame
  · refine ⟨⟨?_, exists_build⟩, ?_, ?_⟩
    · rintro ⟨_, _, hsame⟩
      cases hbuild.symm.trans hsame
    · intro _ _ hsame
      cases hbuild.symm.trans hsame
    · intro _ _ hsame
      cases hbuild.symm.trans hsame
      exact hrejected

/-! ## The order of the entries -/

/-- A plan that lists the same entries in another order gets the same codec. -/
theorem build_perm {entries : List PlanEntry} (hentries : entries.Perm plan.entries) {registry last : Registry}
    {codec : Codec} (h : plan.build registry = .ok codec last) :
    Plan.build { plan with entries } registry = .ok codec last := by
  rcases plan.build_cases registry with ⟨⟨hcoherent, -⟩, -⟩ | ⟨_, _, herror, -⟩
  · have hfields := fields_eq_ok_iff.2 ⟨hcoherent.paired, rfl⟩
    have hother : Plan.fields { plan with entries } = .ok plan.inOrder := fields_perm hentries hfields
    unfold build at h ⊢
    rw [hfields] at h
    rw [hother]
    exact h
  · cases herror.symm.trans h

/-- Of two plans for the same records that list the same entries, each in an order of its own, one is built if the other
is. The codecs have their fields in the same order. Whenever they are used, they write the same for every value, and
read the same from all bytes. -/
theorem build_permuted [RecordEquality] (plan : Plan) {entries : List PlanEntry} (hentries : entries.Perm plan.entries)
    (registry : Registry) :
    ((∃ codec last, plan.build registry = .ok codec last) ↔
      ∃ codec last, Plan.build { plan with entries } registry = .ok codec last) ∧
    ∀ codec last codec' last', plan.build registry = .ok codec last →
      Plan.build { plan with entries } registry = .ok codec' last' →
        last' = last ∧ codec'.fieldNames = codec.fieldNames ∧
        (∀ (now : Registry) value, now.writeAs value (.boxed codec') = now.writeAs value (.boxed codec)) ∧
        ∀ (now : Registry) input, now.readAs (.boxed codec') input = now.readAs (.boxed codec) input := by
  constructor
  · constructor
    · rintro ⟨codec, last, hbuild⟩
      exact ⟨codec, last, build_perm hentries hbuild⟩
    · rintro ⟨codec, last, hbuild⟩
      exact ⟨codec, last, @build_perm { plan with entries } plan.entries hentries.symm registry last codec hbuild⟩
  · intro codec last codec' last' hone hother
    cases (build_perm hentries hone).symm.trans hother
    exact ⟨rfl, rfl, fun _ _ => rfl, fun _ _ => rfl⟩

/-- A plan for persons. The getter and the setter spell the name that they share differently. -/
def personPlan : Plan where
  type := "person"
  marker := 7
  fresh := some [("name", .null), ("id", .null)]
  entries :=
    [⟨.getter, "first_name", "name", ⟨.any, false⟩⟩, ⟨.direct, "id", "id", ⟨.any, false⟩⟩,
      ⟨.setter, "firstName", "name", ⟨.any, false⟩⟩]

/-- The getter and the setter of the plan belong together. -/
theorem coherent_personPlan : personPlan.Coherent where
  constructible := rfl
  paired :=
    { setters_distinct := by decide
      sources_distinct := by decide
      names := by
        have hsame : personPlan.getters.map PlanEntry.canonical = personPlan.setters.map PlanEntry.canonical := by
          decide
        intro name
        rw [hsame] }
  agree := by
    have hall : ∀ getter ∈ personPlan.getters, ∀ setter ∈ personPlan.setters, getter.type = setter.type := by decide
    intro getter setter hgetter hsetter _
    exact hall getter hgetter setter hsetter

/-- Persons are coded alike when the setter is listed before the getter. -/
theorem build_permuted_person :
    personPlan.entries.reverse.Perm personPlan.entries ∧
    ∃ codec last codec', personPlan.build Registry.empty = .ok codec last ∧
      Plan.build { personPlan with entries := personPlan.entries.reverse } Registry.empty = .ok codec' last ∧
      codec'.fieldNames = codec.fieldNames ∧
      (∀ (now : Registry) value, now.writeAs value (.boxed codec') = now.writeAs value (.boxed codec)) ∧
      ∀ (now : Registry) input, now.readAs (.boxed codec') input = now.readAs (.boxed codec) input := by
  have hentries : personPlan.entries.reverse.Perm personPlan.entries := List.reverse_perm _
  have hany : ∀ field ∈ personPlan.sources, field.type.kind = .any := by decide
  have haccepted : personPlan.Coherent ∧ personPlan.marker ≠ Marker.null ∧
      ∀ field ∈ personPlan.sources, field.type.kind.Bindable Registry.empty (.record personPlan.type) :=
    ⟨coherent_personPlan, by decide, fun field hfield => .inl (hany field hfield)⟩
  obtain ⟨codec, last, hbuild⟩ := exists_build haccepted
  obtain ⟨hboth, halike⟩ := build_permuted personPlan hentries Registry.empty
  obtain ⟨codec', last', hother⟩ := hboth.1 ⟨codec, last, hbuild⟩
  obtain ⟨rfl, hrest⟩ := halike codec last codec' last' hbuild hother
  exact ⟨hentries, codec, last', codec', hbuild, hother, hrest⟩

end Plan

end Bytemark
