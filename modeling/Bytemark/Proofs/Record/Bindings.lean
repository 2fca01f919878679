import Bytemark.Proofs.Registry.Consistency

/-!
# What a field is bound to

Binding a field looks codecs up, once or twice, and a look-up only keeps an answer that the registry would give anyway.
So what a field is bound to can be told from the registry at the start, whatever answers it has kept
(`FieldKind.bind_outcome`): a field is bound if it holds values of every type, or records of the type that is being
defined, or if the registry has a codec for its type. Otherwise the codec for its type is missing.
-/

set_option autoImplicit false

namespace Bytemark

namespace Registry

variable {α : Type} {registry : Registry}

/-- An answer that is kept changes no answer. -/
theorem codecForType_remember {type : ValueType} {codec : Codec} (h : registry.codecForType type = .ok codec)
    (asked : ValueType) : (registry.remember type codec).codecForType asked = registry.codecForType asked := by
  unfold remember
  split
  · rfl
  · by_cases hsame : asked = type
    · subst hsame
      rw [h]
      unfold codecForType
      rw [if_neg (not_or.1 ‹_›).1]
      simp
    · have hother : (asked == type) = false := by simpa using hsame
      unfold codecForType firstWriter?
      simp only [List.lookup_cons, hother]

/-- Look-ups change no answer by type, in any registry. -/
theorem Looks.codecForType_after {resolve : Resolve α} (h : Looks resolve) (registry : Registry) (type : ValueType) :
    (after resolve registry).codecForType type = registry.codecForType type := by
  induction h generalizing registry with
  | pure a => rfl
  | throw e => rfl
  | lookup asked =>
    unfold after Registry.lookup
    cases hanswer : registry.codecForType asked with
    | error e => rfl
    | ok codec => exact codecForType_remember hanswer type
  | @bind α β resolve f _ _ ihfirst ihrest =>
    have hone := ihfirst registry
    rw [after_bind]
    cases hfirst : resolve registry with
    | error e next => rwa [after_of_error hfirst] at hone
    | ok a next =>
      rw [after_of_ok hfirst] at hone
      exact (ihrest a next).trans hone
  | @attempt α first second _ _ ihone ihother =>
    have hone := ihone registry
    cases hfirst : first registry with
    | ok a next =>
      rw [after_of_ok hfirst] at hone
      simp only [after, Registry.attempt, hfirst]
      exact hone
    | error e next =>
      rw [after_of_error hfirst] at hone
      simp only [after, Registry.attempt, hfirst]
      exact (ihother next).trans hone

/-- A computation that only looks things up leaves the codec of every type as it was. -/
theorem Looks.codecForType_of_ok {resolve : Resolve α} (h : Looks resolve) {a : α} {next : Registry}
    (hok : resolve registry = .ok a next) (type : ValueType) : next.codecForType type = registry.codecForType type := by
  rw [← h.codecForType_after registry type, after_of_ok hok]

/-- A look-up gives the codec of the type, and the registry keeps the answer. -/
theorem lookup_eq_ok_iff {type : ValueType} {codec : Codec} {next : Registry} :
    lookup type registry = .ok codec next ↔
      registry.codecForType type = .ok codec ∧ next = registry.remember type codec := by
  unfold lookup
  cases registry.codecForType type with
  | error e => simp
  | ok found =>
    simp only [EStateM.Result.ok.injEq, Except.ok.injEq]
    constructor
    · rintro ⟨rfl, rfl⟩
      exact ⟨rfl, rfl⟩
    · rintro ⟨rfl, rfl⟩
      exact ⟨rfl, rfl⟩

/-- A look-up that fails leaves the registry as it was. -/
theorem lookup_eq_error_iff {type : ValueType} {e : Error} {next : Registry} :
    lookup type registry = .error e next ↔ registry.codecForType type = .error e ∧ next = registry := by
  unfold lookup
  cases registry.codecForType type <;> simp [eq_comm]

end Registry

/-- What a field of a kind is bound to in a codec for values of the type `building`. -/
inductive Binding.Found (registry : Registry) (building : ValueType) (kind : FieldKind) : Binding → Prop
  | direct {codec : Codec} (hanswer : registry.codecForType kind.valueType = .ok codec) (hkind : kind.builtin?.isSome)
      (hbuiltin : codec.builtin? = kind.builtin?) : Found registry building kind (.through (.direct codec))
  | self (hself : kind.valueType = building) : Found registry building kind .self
  | any (hother : kind.valueType ≠ building) (hany : kind = .any) : Found registry building kind (.through .any)
  | boxed {codec : Codec} (hother : kind.valueType ≠ building) (hany : kind ≠ .any)
      (hanswer : registry.codecForType kind.valueType = .ok codec) :
      Found registry building kind (.through (.boxed codec))

/-- A binding depends on the codec of the field's type alone. -/
theorem Binding.Found.congr {registry other : Registry} {building : ValueType} {kind : FieldKind} {binding : Binding}
    (h : binding.Found registry building kind)
    (hsame : registry.codecForType kind.valueType = other.codecForType kind.valueType) :
    binding.Found other building kind := by
  cases h with
  | direct hanswer hkind hbuiltin => exact .direct (hsame ▸ hanswer) hkind hbuiltin
  | self hself => exact .self hself
  | any hother hany => exact .any hother hany
  | boxed hother hany hanswer => exact .boxed hother hany (hsame ▸ hanswer)

namespace FieldKind

open Registry

variable {registry : Registry} {building : ValueType} {kind : FieldKind}

/-- There is something to bind a field of the kind to, in a codec for values of the type `building`. -/
def Bindable (registry : Registry) (building : ValueType) (kind : FieldKind) : Prop :=
  kind = .any ∨ kind.valueType = building ∨ ∃ codec, registry.codecForType kind.valueType = .ok codec

/-- Whether a field can be bound depends on the codecs of types alone. -/
theorem bindable_congr {other : Registry} (hsame : ∀ asked, registry.codecForType asked = other.codecForType asked) :
    kind.Bindable registry building ↔ kind.Bindable other building := by
  simp only [Bindable, hsame]

/-- Only fields of any type hold values of any type. -/
theorem valueType_eq_any_iff : kind.valueType = .any ↔ kind = .any := by
  cases kind <;> simp [valueType]

/-- A field that is bound can be bound. -/
theorem bindable_of_found {binding : Binding} (h : binding.Found registry building kind) :
    kind.Bindable registry building := by
  cases h with
  | direct hanswer _ _ => exact .inr (.inr ⟨_, hanswer⟩)
  | self hself => exact .inr (.inl hself)
  | any _ hany => exact .inl hany
  | boxed _ _ hanswer => exact .inr (.inr ⟨_, hanswer⟩)

/-- A field is bound to the codec of its type, or there is none and this is the error. -/
theorem bindBoxed_outcome (registry : Registry) (building : ValueType) (kind : FieldKind) :
    (∃ binding bound, kind.bindBoxed building registry = .ok binding bound ∧
      binding.Found registry building kind) ∨
    ∃ bound, kind.bindBoxed building registry = .error (.missingCodec kind.valueType none) bound ∧
      ¬ kind.Bindable registry building := by
  unfold bindBoxed
  split
  · exact .inl ⟨_, _, rfl, .self ‹_›⟩
  · rename_i hother
    split
    · exact .inl ⟨_, _, rfl, .any hother (valueType_eq_any_iff.1 ‹_›)⟩
    · rename_i hany
      rw [valueType_eq_any_iff] at hany
      cases hlookup : lookup kind.valueType registry with
      | ok codec next =>
        refine .inl ⟨_, next, bind_eq_ok_iff.2 ⟨codec, next, hlookup, rfl⟩, ?_⟩
        exact .boxed hother hany (lookup_eq_ok_iff.1 hlookup).1
      | error e next =>
        have hanswer := (lookup_eq_error_iff.1 hlookup).1
        obtain rfl := codecForType_eq_error hanswer
        refine .inr ⟨next, bind_eq_error_iff.2 (.inl hlookup), ?_⟩
        rintro (hkind | hself | ⟨codec, hcodec⟩)
        · exact hany hkind
        · exact hother hself
        · rw [hanswer] at hcodec
          cases hcodec

/-- A search for a codec of just the kind comes first, and is not missed if it fails. -/
theorem bind_outcome (registry : Registry) (building : ValueType) (kind : FieldKind) :
    (∃ binding bound, kind.bind building registry = .ok binding bound ∧ binding.Found registry building kind) ∨
    ∃ bound, kind.bind building registry = .error (.missingCodec kind.valueType none) bound ∧
      ¬ kind.Bindable registry building := by
  unfold bind
  cases hbuiltin : kind.builtin? with
  | none => exact bindBoxed_outcome registry building kind
  | some builtin =>
    dsimp only
    cases hkind : lookupKind builtin kind.valueType registry with
    | ok codec next =>
      unfold lookupKind at hkind
      obtain ⟨found, _, hlookup, hrest⟩ := bind_eq_ok_iff.1 hkind
      split at hrest
      · rename_i hsame
        cases hrest
        refine .inl ⟨_, _, rfl, .direct (lookup_eq_ok_iff.1 hlookup).1 (by simp [hbuiltin]) ?_⟩
        exact hsame.trans hbuiltin.symm
      · cases hrest
    | error e next =>
      -- The search that failed may have kept an answer, which is the one that the next search gets.
      have hsame (type : ValueType) : next.codecForType type = registry.codecForType type := by
        rw [← (looks_lookupKind builtin kind.valueType).codecForType_after registry type, after_of_error hkind]
      dsimp only
      rcases bindBoxed_outcome next building kind with ⟨binding, bound, hbind, hfound⟩ | ⟨bound, hbind, hnone⟩
      · exact .inl ⟨binding, bound, hbind, hfound.congr (hsame _)⟩
      · exact .inr ⟨bound, hbind, fun hbindable => hnone ((bindable_congr hsame).2 hbindable)⟩

/-- A field is bound as its type asks for. -/
theorem found_of_bind {building : ValueType} {binding : Binding} {bound : Registry}
    (h : kind.bind building registry = .ok binding bound) : binding.Found registry building kind := by
  rcases bind_outcome registry building kind with ⟨found, _, hbind, hfound⟩ | ⟨_, hbind, -⟩
  · cases hbind.symm.trans h
    exact hfound
  · cases hbind.symm.trans h

end FieldKind

end Bytemark
