import Bytemark.Proofs.Registry.Consistency

/-!
# What calls do to a registry

A program builds its registry by calls: it registers codecs, defines records by plans, makes codecs, and looks types
up, in any order, and any of the calls may fail. `Registry.run` is the registry after such calls.

Every call keeps the registry consistent, so every registry that a program can hold is. From there `run_atomic` says
what a registration does: all of it when no marker of the codec has an owner, and nothing otherwise.
-/

set_option autoImplicit false

namespace Bytemark.Registry

/-- A call that a program makes on its registry. -/
inductive Call
  | register (codec : Codec)
  /-- Builds the codec of a plan and registers it. -/
  | define (plan : Plan)
  /-- Builds the codec of a plan and keeps it for later. -/
  | build (plan : Plan)
  /-- Makes a codec of arrays and keeps it for later. -/
  | ofItems (marker : Marker) (type : ValueType)
  | lookup (type : ValueType)
  | lookupKind (builtin : Builtin) (type : ValueType)
  /-- Binds a field, as if for a record of the type `building`. -/
  | bind (building : ValueType) (kind : FieldKind)

/-- Makes a call, for its effect. -/
def Call.perform : Call → Resolve Unit
  | register codec => do let _ ← Registry.register codec
  | define plan => do let _ ← plan.define
  | build plan => do let _ ← plan.build
  | ofItems marker type => do let _ ← Codec.ofItems marker type
  | lookup type => do let _ ← Registry.lookup type
  | lookupKind builtin type => do let _ ← Registry.lookupKind builtin type
  | bind building kind => do let _ ← kind.bind building

/-- The registry after some calls on an empty one; a call that fails is followed by the next. -/
def run (calls : List Call) : Registry :=
  calls.foldl (fun registry call => after call.perform registry) empty

/-- A computation keeps registries consistent. -/
def Keeps {α : Type} (resolve : Resolve α) : Prop :=
  ∀ registry : Registry, registry.Consistent → (after resolve registry).Consistent

/-- Look-ups keep a registry consistent. -/
theorem Looks.keeps {α : Type} {resolve : Resolve α} (h : Looks resolve) : Keeps resolve :=
  fun registry hc => (h.quiet registry hc).1

/-- Two computations keep a registry consistent if both do. -/
theorem Keeps.bind {α β : Type} {resolve : Resolve α} {f : α → Resolve β} (hfirst : Keeps resolve)
    (hnext : ∀ a, Keeps (f a)) : Keeps (resolve >>= f) := by
  intro registry hc
  have hone := hfirst registry hc
  rw [after_bind]
  cases h : resolve registry with
  | error e next =>
    rw [after_of_error h] at hone
    exact hone
  | ok a next =>
    rw [after_of_ok h] at hone
    exact hnext a next hone

/-- Registering a codec keeps a registry consistent, also if it fails. -/
theorem keeps_register (codec : Codec) : Keeps (register codec) := by
  intro registry hc
  cases h : register codec registry with
  | ok result next =>
    rw [after_of_ok h]
    exact hc.register h
  | error e next =>
    obtain ⟨rfl, -⟩ := register_eq_error_iff.1 h
    rw [after_of_error h]
    exact hc

/-- Building a codec and registering it keeps a registry consistent. -/
theorem keeps_define (plan : Plan) : Keeps plan.define :=
  (looks_build plan).keeps.bind keeps_register

/-- Whether a call may add a codec. -/
def Call.registers : Call → Bool
  | register _ => true
  | define _ => true
  | _ => false

/-- A call that adds no codec is made of look-ups. -/
theorem Call.looks_perform {call : Call} (h : call.registers = false) : Looks call.perform := by
  cases call with
  | register codec => cases h
  | define plan => cases h
  | build plan => exact (looks_build plan).bind fun _ => .pure ()
  | ofItems marker type => exact (looks_ofItems marker type).bind fun _ => .pure ()
  | lookup type => exact (Looks.lookup type).bind fun _ => .pure ()
  | lookupKind builtin type => exact (looks_lookupKind builtin type).bind fun _ => .pure ()
  | bind building kind => exact (looks_bind building kind).bind fun _ => .pure ()

/-- Every call keeps a registry consistent. -/
theorem Call.keeps_perform (call : Call) : Keeps call.perform := by
  cases call with
  | register codec => exact (keeps_register codec).bind fun _ => (Looks.pure ()).keeps
  | define plan => exact (keeps_define plan).bind fun _ => (Looks.pure ()).keeps
  | _ => exact (Call.looks_perform rfl).keeps

/-- Steps that keep a registry consistent keep it so together. -/
theorem consistent_foldl {ι α : Type} {step : ι → Resolve α} (hkeeps : ∀ item, Keeps (step item)) (items : List ι)
    {registry : Registry} (hc : registry.Consistent) :
    (items.foldl (fun registry item => after (step item) registry) registry).Consistent := by
  induction items generalizing registry with
  | nil => exact hc
  | cons item items ih => exact ih (hkeeps item registry hc)

/-- Whatever the calls were, the registry is consistent after them. -/
theorem consistent_run (calls : List Call) : (run calls).Consistent :=
  consistent_foldl Call.keeps_perform calls consistent_empty

/-- Defining a record fails in one of two places: the codec is not built, or it meets a claimed marker. Either way no
answer of the registry changes, though building may have looked some up for the first time. -/
theorem Consistent.sameAnswers_of_define {registry next : Registry} (hc : registry.Consistent) {plan : Plan} {e : Error}
    (h : plan.define registry = .error e next) : registry.SameAnswers next := by
  have hquiet := (looks_build plan).quiet registry hc
  simp only [Plan.define, bind, EStateM.bind] at h
  cases hbuild : plan.build registry with
  | error e' built =>
    rw [after_of_error hbuild] at hquiet
    simp only [hbuild] at h
    cases h
    exact hc.sameAnswers hquiet.1 hquiet.2.1 hquiet.2.2
  | ok codec built =>
    rw [after_of_ok hbuild] at hquiet
    simp only [hbuild] at h
    obtain ⟨rfl, -⟩ := register_eq_error_iff.1 h
    exact hc.sameAnswers hquiet.1 hquiet.2.1 hquiet.2.2

/-- After any calls, -128 and no other marker belongs to the null codec, a codec owns another marker exactly if it is in
the list and claims the marker, and no two codecs of the list claim one marker. A codec whose markers have no owner is
registered: it comes last in the list and owns its markers, and all other owners stay. Any other codec is refused with
its lowest marker that has an owner, and the owner's name, and the registry stays as it is; a record whose definition
fails changes no answer. The next free marker is the lowest one without an owner, which is never -128, and there is none
exactly if every marker has an owner. -/
theorem run_atomic (calls : List Call) :
    (∀ marker, (run calls).owner? marker = some .null ↔ marker = Marker.null) ∧
    (∀ marker codec, marker ≠ Marker.null →
      ((run calls).owner? marker = some codec ↔ codec ∈ (run calls).codecs ∧ marker ∈ codec.markers)) ∧
    ((run calls).codecs.Pairwise fun one other => ∀ marker ∈ one.markers, marker ∉ other.markers) ∧
    (∀ codec, (∀ marker ∈ codec.markers, (run calls).owner? marker = none) →
      ∃ next, register codec (run calls) = .ok codec next ∧ next.codecs = (run calls).codecs ++ [codec] ∧
        ∀ marker, next.owner? marker = if marker ∈ codec.markers then some codec else (run calls).owner? marker) ∧
    (∀ codec, (¬ ∀ marker ∈ codec.markers, (run calls).owner? marker = none) →
      ∃ marker owner, register codec (run calls) = .error (.markerCollision marker owner.name) (run calls) ∧
        marker ∈ codec.markers ∧ (run calls).owner? marker = some owner ∧
        ∀ lower ∈ codec.markers, lower < marker → (run calls).owner? lower = none) ∧
    (∀ (plan : Plan) e next, plan.define (run calls) = .error e next → (run calls).SameAnswers next) ∧
    (∀ marker, (run calls).nextFree = .ok marker ↔
      (run calls).owner? marker = none ∧ ∀ lower, lower < marker → ((run calls).owner? lower).isSome) ∧
    (run calls).nextFree ≠ .ok Marker.null ∧
    (∀ e, (run calls).nextFree = .error e ↔
      e = .markersExhausted ∧ ∀ marker, ((run calls).owner? marker).isSome) := by
  have hc := consistent_run calls
  generalize run calls = registry at hc ⊢
  refine ⟨fun _ => hc.owner_eq_null_iff, fun _ _ hne => hc.owner_iff hne, hc.disjoint, ?_, ?_,
    fun _ _ _ h => hc.sameAnswers_of_define h, fun _ => nextFree_eq_ok_iff, ?_, fun _ => nextFree_eq_error_iff⟩
  · intro codec hfree
    have hok := register_eq_ok_iff.2 ⟨hfree, rfl, rfl⟩
    exact ⟨_, hok, rfl, owner?_of_register hok⟩
  · intro codec hclaimed
    cases h : register codec registry with
    | ok result next => exact absurd (register_eq_ok_iff.1 h).1 hclaimed
    | error e next =>
      obtain ⟨rfl, marker, owner, rfl, hlaw⟩ := register_eq_error_iff.1 h
      exact ⟨marker, owner, rfl, hlaw⟩
  · intro h
    have hfree := (nextFree_eq_ok_iff.1 h).1
    rw [hc.owner_null] at hfree
    cases hfree

end Bytemark.Registry
