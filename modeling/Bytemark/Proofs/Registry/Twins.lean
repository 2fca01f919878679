import Bytemark.Proofs.Registry.History

/-!
# Kept answers do not show

A registry keeps its answers by type. Two consistent registries with the same codecs may have kept different answers;
such *twins* still answer every question alike. A computation is *blind* to kept answers if it gives the same result on
twins and leaves twins behind. Look-ups are blind, registration is, and so is everything that is made of the two.
-/

set_option autoImplicit false

namespace Bytemark.Registry

variable {α β : Type}

/-- Two consistent registries that answer every question alike. -/
structure Twins (registry other : Registry) : Prop where
  left : registry.Consistent
  right : other.Consistent
  same : registry.SameAnswers other

namespace Twins

variable {registry other third : Registry}

/-- A consistent registry is a twin of itself. -/
theorem refl (hc : registry.Consistent) : Twins registry registry :=
  ⟨hc, hc, ⟨fun _ => rfl, rfl, rfl, fun _ => rfl⟩⟩

/-- Twins are twins of each other. -/
theorem symm (h : Twins registry other) : Twins other registry where
  left := h.right
  right := h.left
  same := ⟨fun marker => (h.same.owner marker).symm, h.same.codecs.symm, h.same.nextFree.symm,
    fun type => (h.same.codecForType type).symm⟩

/-- A twin of a twin is a twin. -/
theorem trans (h : Twins registry other) (h' : Twins other third) : Twins registry third where
  left := h.left
  right := h'.right
  same := ⟨fun marker => (h'.same.owner marker).trans (h.same.owner marker), h'.same.codecs.trans h.same.codecs,
    h'.same.nextFree.trans h.same.nextFree, fun type => (h'.same.codecForType type).trans (h.same.codecForType type)⟩

/-- What only looks codecs up leaves a twin behind. -/
theorem of_quiet {resolve : Resolve α} (hquiet : Quiet resolve) (hc : registry.Consistent) :
    Twins registry (after resolve registry) := by
  obtain ⟨hc', hslots, hcodecs⟩ := hquiet registry hc
  exact ⟨hc, hc', hc.sameAnswers hc' hslots hcodecs⟩

end Twins

/-- What a computation gives. -/
def outcome (resolve : Resolve α) (registry : Registry) : Except Error α :=
  match resolve registry with
  | .ok a _ => .ok a
  | .error e _ => .error e

/-- A computation gives a result if it succeeds with this result. -/
theorem outcome_eq_ok_iff {resolve : Resolve α} {registry : Registry} {a : α} :
    outcome resolve registry = .ok a ↔ resolve registry = .ok a (after resolve registry) := by
  unfold outcome after
  cases resolve registry <;> simp

/-- A computation gives an error if it fails with this error. -/
theorem outcome_eq_error_iff {resolve : Resolve α} {registry : Registry} {e : Error} :
    outcome resolve registry = .error e ↔ resolve registry = .error e (after resolve registry) := by
  unfold outcome after
  cases resolve registry <;> simp

/-- A computation gives the same result on twins, and leaves twins behind. -/
def Blind (resolve : Resolve α) : Prop :=
  ∀ ⦃registry other⦄, Twins registry other →
    outcome resolve other = outcome resolve registry ∧ Twins (after resolve registry) (after resolve other)

/-- Two computations show no kept answer if neither does. -/
theorem Blind.bind {resolve : Resolve α} {f : α → Resolve β} (hfirst : Blind resolve) (hnext : ∀ a, Blind (f a)) :
    Blind (resolve >>= f) := by
  intro registry other htwins
  obtain ⟨hsame, hafter⟩ := hfirst htwins
  have hbind : ∀ registry, outcome (resolve >>= f) registry =
      (outcome resolve registry).bind fun a => outcome (f a) (after resolve registry) := by
    intro registry
    simp only [outcome, after, Bind.bind, EStateM.bind]
    cases resolve registry <;> rfl
  rw [hbind, hbind, after_bind, after_bind, hsame]
  cases hresult : outcome resolve registry with
  | ok a =>
    rw [outcome_eq_ok_iff.1 hresult, outcome_eq_ok_iff.1 (hsame.trans hresult)]
    exact hnext a hafter
  | error e =>
    rw [outcome_eq_error_iff.1 hresult, outcome_eq_error_iff.1 (hsame.trans hresult)]
    exact ⟨rfl, hafter⟩

/-- What follows a failed computation starts from what it left behind, and twins fail alike. -/
theorem Blind.attempt {first second : Resolve α} (hfirst : Blind first) (hsecond : Blind second) :
    Blind (Registry.attempt first second) := by
  intro registry other htwins
  obtain ⟨hsame, hafter⟩ := hfirst htwins
  unfold outcome after Registry.attempt
  cases hresult : outcome first registry with
  | ok a =>
    rw [outcome_eq_ok_iff.1 hresult, outcome_eq_ok_iff.1 (hsame.trans hresult)]
    exact ⟨rfl, hafter⟩
  | error e =>
    rw [outcome_eq_error_iff.1 hresult, outcome_eq_error_iff.1 (hsame.trans hresult)]
    exact hsecond hafter

/-- A look-up gives the codec of the type. -/
theorem outcome_lookup (type : ValueType) (registry : Registry) :
    outcome (lookup type) registry = registry.codecForType type := by
  unfold outcome lookup
  cases registry.codecForType type <;> rfl

/-- A look-up gives the same answer whether it has been kept or not. -/
theorem blind_lookup (type : ValueType) : Blind (lookup type) := by
  intro registry other htwins
  rw [outcome_lookup, outcome_lookup, htwins.same.codecForType]
  exact ⟨rfl, ((Twins.of_quiet (quiet_lookup type) htwins.left).symm.trans htwins).trans
    (.of_quiet (quiet_lookup type) htwins.right)⟩

/-- What is made of look-ups is blind to kept answers. -/
theorem Looks.blind {resolve : Resolve α} (h : Looks resolve) : Blind resolve := by
  induction h with
  | pure a => exact fun _ _ htwins => ⟨rfl, htwins⟩
  | throw e => exact fun _ _ htwins => ⟨rfl, htwins⟩
  | lookup type => exact blind_lookup type
  | bind _ _ ihfirst ihrest => exact ihfirst.bind ihrest
  | attempt _ _ ihone ihother => exact ihone.attempt ihother

/-- Whether a codec is refused hangs on the owners of markers alone. -/
theorem blind_register (codec : Codec) : Blind (register codec) := by
  intro registry other htwins
  have hconflict : other.conflict? codec = registry.conflict? codec := by
    simp only [conflict?, htwins.same.owner]
  cases hresult : registry.conflict? codec with
  | some conflict =>
    simp only [outcome, after, register, hconflict, hresult]
    exact ⟨trivial, htwins⟩
  | none =>
    have hok := register_eq_ok_iff.2 ⟨conflict?_eq_none_iff.1 hresult, rfl, rfl⟩
    have hok' := register_eq_ok_iff.2 ⟨conflict?_eq_none_iff.1 (hconflict.trans hresult), rfl, rfl⟩
    rw [after_of_ok hok, after_of_ok hok']
    have hc := htwins.left.register hok
    have hc' := htwins.right.register hok'
    refine ⟨?_, hc, hc', hc.sameAnswers_of_owner hc' (fun marker => ?_) ?_⟩
    · unfold outcome
      rw [hok, hok']
    · rw [owner?_of_register hok, owner?_of_register hok', htwins.same.owner]
    · rw [htwins.same.codecs]

/-- Building and registering a codec shows no kept answer. -/
theorem blind_define (plan : Plan) : Blind plan.define := (looks_build plan).blind.bind blind_register

end Bytemark.Registry
