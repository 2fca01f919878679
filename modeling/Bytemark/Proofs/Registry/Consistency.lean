import Bytemark.Record.Plan
import Bytemark.Registry.Declared

/-!
# The two views of a registry agree

A registry keeps its codecs twice: in a table by marker and in a list by age. It also keeps the answers it has given to
look-ups by type. `Registry.Consistent` says that the three agree: the table holds a codec at exactly the markers that
the codec claims, no marker is claimed twice, -128 belongs to the null codec alone, and every kept answer is the one
that a fresh scan of the list would give.

The empty registry is consistent, and registration keeps it so: a codec that meets a claimed marker is refused before
anything is written, and otherwise the table changes at its markers and nowhere else. Look-ups by type change neither
the table nor the list, and only keep answers that are right (`Registry.Quiet`). So does everything that is made of
look-ups alone (`Registry.Looks`), such as building the codec of a plan.
-/

set_option autoImplicit false

namespace Bytemark.Registry

/-! ## The table -/

/-- Giving one marker an owner changes no other. -/
theorem get_set (slots : Vector (Option Codec) 256) (codec : Codec) (first marker : Marker) :
    (slots.set first.slot (some codec) first.slot_lt).get ⟨marker.slot, marker.slot_lt⟩ =
      if marker = first then some codec else slots.get ⟨marker.slot, marker.slot_lt⟩ := by
  refine (Vector.getElem_set first.slot_lt marker.slot_lt).trans ?_
  simp only [Marker.slot_inj, eq_comm (a := first)]
  rfl

/-- Markers that are claimed get the new owner, and the others keep theirs. -/
theorem get_claim (slots : Vector (Option Codec) 256) (codec : Codec) (markers : List Marker) (marker : Marker) :
    (claim slots codec markers).get ⟨marker.slot, marker.slot_lt⟩ =
      if marker ∈ markers then some codec else slots.get ⟨marker.slot, marker.slot_lt⟩ := by
  induction markers generalizing slots with
  | nil => simp [claim]
  | cons first markers ih =>
    have hstep : claim slots codec (first :: markers) =
        claim (slots.set first.slot (some codec) first.slot_lt) codec markers := rfl
    rw [hstep, ih, get_set]
    by_cases hrest : marker ∈ markers <;> by_cases hfirst : marker = first <;> simp [hrest, hfirst]

/-- In an empty registry null's marker alone has an owner. -/
theorem owner?_empty (marker : Marker) :
    empty.owner? marker = if marker = Marker.null then some .null else none := by
  rw [owner?, empty, get_claim]
  have hnone : (Vector.replicate 256 (none : Option Codec)).get ⟨marker.slot, marker.slot_lt⟩ = none :=
    Vector.getElem_replicate marker.slot_lt
  simp [hnone]

/-- There is no conflict if none of the codec's markers has an owner. -/
theorem conflict?_eq_none_iff {registry : Registry} {codec : Codec} :
    registry.conflict? codec = none ↔ ∀ marker ∈ codec.markers, registry.owner? marker = none := by
  rw [conflict?, List.findSome?_eq_none_iff]
  simp only [Option.map_eq_none_iff, MarkerRange.mem_toList]

/-- The conflict that is reported is the one at the lowest marker. -/
theorem conflict?_eq_some_iff {registry : Registry} {codec owner : Codec} {marker : Marker} :
    registry.conflict? codec = some (marker, owner) ↔
      marker ∈ codec.markers ∧ registry.owner? marker = some owner ∧
        ∀ lower ∈ codec.markers, lower < marker → registry.owner? lower = none := by
  rw [conflict?, List.findSome?_eq_some_iff]
  have hsorted := codec.markers.pairwise_toList
  constructor
  · rintro ⟨before, found, after, hsplit, hfound, hbefore⟩
    obtain ⟨_, howner, heq⟩ := Option.map_eq_some_iff.1 hfound
    obtain ⟨rfl, rfl⟩ := Prod.mk.inj heq
    have hmem : found ∈ codec.markers.toList := by simp [hsplit]
    refine ⟨MarkerRange.mem_toList.1 hmem, howner, ?_⟩
    intro lower hlower hless
    rw [← MarkerRange.mem_toList, hsplit] at hlower
    rw [hsplit, List.pairwise_append, List.pairwise_cons] at hsorted
    rcases List.mem_append.1 hlower with hin | hin
    · simpa using hbefore lower hin
    · rcases List.mem_cons.1 hin with rfl | hin
      · exact absurd hless (Int8.lt_irrefl)
      · exact absurd (hsorted.2.1.1 lower hin) (Int8.lt_asymm hless)
  · rintro ⟨hmem, howner, hlower⟩
    obtain ⟨before, after, hsplit⟩ := List.append_of_mem (MarkerRange.mem_toList.2 hmem)
    refine ⟨before, marker, after, hsplit, by simp [howner], ?_⟩
    intro lower hin
    rw [hsplit, List.pairwise_append] at hsorted
    have hless : lower < marker := hsorted.2.2 lower hin marker (by simp)
    have hrange : lower ∈ codec.markers := by
      rw [← MarkerRange.mem_toList, hsplit]
      simp [hin]
    simp [hlower lower hrange hless]

/-- Registering a codec gives it its markers, and leaves the others as they were. -/
theorem owner?_of_register {registry next : Registry} {codec result : Codec}
    (h : register codec registry = .ok result next) (marker : Marker) :
    next.owner? marker = if marker ∈ codec.markers then some codec else registry.owner? marker := by
  unfold register at h
  split at h
  · cases h
  · cases h
    rw [owner?, get_claim]
    simp only [MarkerRange.mem_toList, owner?]

/-- A codec is registered if none of its markers has an owner; it then owns them and comes last. -/
theorem register_eq_ok_iff {registry next : Registry} {codec result : Codec} :
    register codec registry = .ok result next ↔
      (∀ marker ∈ codec.markers, registry.owner? marker = none) ∧ result = codec ∧
        next = { registry with
          slots := claim registry.slots codec codec.markers.toList
          codecs := registry.codecs ++ [codec] } := by
  rw [← conflict?_eq_none_iff, register]
  cases hconflict : registry.conflict? codec with
  | none => simp [eq_comm]
  | some conflict => simp

/-- A refused codec leaves the registry as it was; the error names the lowest claimed marker and its owner. -/
theorem register_eq_error_iff {registry next : Registry} {codec : Codec} {e : Error} :
    register codec registry = .error e next ↔
      next = registry ∧ ∃ marker owner, e = .markerCollision marker owner.name ∧ marker ∈ codec.markers ∧
        registry.owner? marker = some owner ∧
        ∀ lower ∈ codec.markers, lower < marker → registry.owner? lower = none := by
  rw [register]
  cases hconflict : registry.conflict? codec with
  | none =>
    simp only [reduceCtorEq, false_iff]
    rintro ⟨-, marker, owner, -, hmem, howner, -⟩
    simp [conflict?_eq_none_iff.1 hconflict marker hmem] at howner
  | some conflict =>
    obtain ⟨marker, owner⟩ := conflict
    constructor
    · intro h
      cases h
      exact ⟨rfl, marker, owner, rfl, conflict?_eq_some_iff.1 hconflict⟩
    · rintro ⟨rfl, marker', owner', rfl, hlaw⟩
      rw [← conflict?_eq_some_iff, hconflict] at hlaw
      cases hlaw
      rfl

/-- The next free marker has no owner, and all below it have one. -/
theorem nextFree_eq_ok_iff {registry : Registry} {marker : Marker} :
    registry.nextFree = .ok marker ↔
      registry.owner? marker = none ∧ ∀ lower, lower < marker → (registry.owner? lower).isSome := by
  have hsorted := Marker.pairwise_all
  unfold nextFree
  constructor
  · intro h
    split at h
    · rename_i found hfind
      cases h
      obtain ⟨hfree, before, after, hsplit, hbefore⟩ := List.find?_eq_some_iff_append.1 hfind
      refine ⟨by simpa using hfree, ?_⟩
      intro lower hless
      have hlower := Marker.mem_all lower
      rw [hsplit] at hlower hsorted
      rw [List.pairwise_append, List.pairwise_cons] at hsorted
      rcases List.mem_append.1 hlower with hin | hin
      · simpa [Option.isSome_iff_ne_none] using hbefore lower hin
      · rcases List.mem_cons.1 hin with rfl | hin
        · exact absurd hless (Int8.lt_irrefl)
        · exact absurd (hsorted.2.1.1 lower hin) (Int8.lt_asymm hless)
    · cases h
  · rintro ⟨hfree, hlower⟩
    obtain ⟨before, after, hsplit⟩ := List.append_of_mem (Marker.mem_all marker)
    have hfind : Marker.all.find? (fun marker => (registry.owner? marker).isNone) = some marker := by
      refine List.find?_eq_some_iff_append.2 ⟨by simp [hfree], before, after, hsplit, ?_⟩
      intro lower hin
      rw [hsplit, List.pairwise_append] at hsorted
      have hsome := hlower lower (hsorted.2.2 lower hin marker (by simp))
      simpa [Option.isSome_iff_ne_none] using hsome
    rw [hfind]

/-- There is no free marker if all have owners. -/
theorem nextFree_eq_error_iff {registry : Registry} {e : Error} :
    registry.nextFree = .error e ↔ e = .markersExhausted ∧ ∀ marker, (registry.owner? marker).isSome := by
  unfold nextFree
  split
  · rename_i marker hfind
    have hfree := List.find?_some hfind
    simp only [reduceCtorEq, false_iff, not_and]
    intro _ hall
    have hsome := hall marker
    simp_all
  · rename_i hfind
    rw [List.find?_eq_none] at hfind
    simp only [Except.error.injEq]
    constructor
    · rintro rfl
      refine ⟨rfl, fun marker => ?_⟩
      simpa [Option.isSome_iff_ne_none] using hfind marker (Marker.mem_all marker)
    · rintro ⟨rfl, -⟩
      rfl

/-! ## The invariant -/

/-- The table, the list and the kept answers of a registry agree. -/
structure Consistent (registry : Registry) : Prop where
  owner_null : registry.owner? Marker.null = some .null
  owner_iff {marker : Marker} {codec : Codec} (h : marker ≠ Marker.null) :
    registry.owner? marker = some codec ↔ codec ∈ registry.codecs ∧ marker ∈ codec.markers
  null_free {codec : Codec} (h : codec ∈ registry.codecs) : Marker.null ∉ codec.markers
  disjoint : registry.codecs.Pairwise fun one other => ∀ marker ∈ one.markers, marker ∉ other.markers
  resolved_first {type : ValueType} {codec : Codec} (h : registry.resolved.lookup type = some codec) :
    registry.firstWriter? type = some codec

namespace Consistent

variable {registry : Registry}

/-- The markers of a registered codec are its own. -/
theorem owner_of_mem (hc : registry.Consistent) {codec : Codec} {marker : Marker} (hcodec : codec ∈ registry.codecs)
    (hmarker : marker ∈ codec.markers) : registry.owner? marker = some codec := by
  have hnull : marker ≠ Marker.null := by
    rintro rfl
    exact hc.null_free hcodec hmarker
  exact (hc.owner_iff hnull).2 ⟨hcodec, hmarker⟩

/-- The codec that is found by a marker is null's or a registered one. -/
theorem mem_of_codecForMarker (hc : registry.Consistent) {marker : Marker} {codec : Codec}
    (h : registry.codecForMarker marker = .ok codec) : codec = .null ∨ codec ∈ registry.codecs := by
  unfold codecForMarker at h
  split at h
  · rename_i owner howner
    cases h
    by_cases hnull : marker = Marker.null
    · rw [hnull, hc.owner_null] at howner
      exact .inl (Option.some.inj howner).symm
    · exact .inr ((hc.owner_iff hnull).1 howner).1
  · cases h

/-- Null's codec owns null's marker and no other. -/
theorem owner_eq_null_iff (hc : registry.Consistent) {marker : Marker} :
    registry.owner? marker = some .null ↔ marker = Marker.null := by
  constructor
  · intro h
    by_cases hne : marker = Marker.null
    · exact hne
    · exact absurd (show Marker.null ∈ Codec.null.markers by decide) (hc.null_free ((hc.owner_iff hne).1 h).1)
  · rintro rfl
    exact hc.owner_null

/-- A kept answer is the answer of a scan, so the look-up by type is the scan. -/
theorem codecForType_eq (hc : registry.Consistent) (type : ValueType) :
    registry.codecForType type =
      if type = .null then .ok .null
      else match registry.firstWriter? type with
        | some codec => .ok codec
        | none => .error (.missingCodec type none) := by
  unfold codecForType
  cases hkept : registry.resolved.lookup type with
  | none => rfl
  | some codec => simp [hc.resolved_first hkept]

/-- The codec for a type is the first that writes it. -/
theorem codecForType_eq_ok_iff (hc : registry.Consistent) {type : ValueType} (hne : type ≠ .null) {codec : Codec} :
    registry.codecForType type = .ok codec ↔ registry.firstWriter? type = some codec := by
  rw [hc.codecForType_eq, if_neg hne]
  cases registry.firstWriter? type <;> simp

/-- The look-up by type fails if no codec writes the type. -/
theorem codecForType_eq_error_iff (hc : registry.Consistent) {type : ValueType} (hne : type ≠ .null) {e : Error} :
    registry.codecForType type = .error e ↔
      e = .missingCodec type none ∧ ∀ codec ∈ registry.codecs, ¬ codec.writes type := by
  rw [hc.codecForType_eq, if_neg hne, ← List.find?_eq_none]
  change _ ↔ _ ∧ registry.firstWriter? type = none
  cases registry.firstWriter? type <;> simp [eq_comm]

end Consistent

/-- The empty registry is consistent. -/
theorem consistent_empty : empty.Consistent where
  owner_null := by rw [owner?_empty, if_pos rfl]
  owner_iff h := by
    rw [owner?_empty, if_neg h]
    simp [empty]
  null_free h := by simp [empty] at h
  disjoint := List.Pairwise.nil
  resolved_first h := by simp [empty] at h

/-- Codecs that come later do not displace the first writer of a type. -/
theorem firstWriter?_mono {registry next : Registry} {type : ValueType} {codec : Codec}
    (hfront : registry.codecs <+: next.codecs) (h : registry.firstWriter? type = some codec) :
    next.firstWriter? type = some codec := by
  obtain ⟨later, heq⟩ := hfront
  rw [firstWriter?, ← heq, List.find?_append]
  rw [firstWriter?] at h
  simp [h]

/-- Registering a codec keeps a registry consistent. -/
theorem Consistent.register {registry next : Registry} (hc : registry.Consistent) {codec result : Codec}
    (h : Registry.register codec registry = .ok result next) : next.Consistent := by
  have howner := owner?_of_register h
  obtain ⟨hfree, -, rfl⟩ := register_eq_ok_iff.1 h
  have hnull : Marker.null ∉ codec.markers := by
    intro hmem
    have := hc.owner_null
    simp [hfree _ hmem] at this
  refine ⟨?_, ?_, ?_, ?_, ?_⟩
  · rw [howner, if_neg hnull]
    exact hc.owner_null
  · intro marker other hne
    rw [howner]
    simp only [List.mem_append, List.mem_singleton]
    by_cases hmem : marker ∈ codec.markers
    · rw [if_pos hmem]
      constructor
      · intro heq
        cases heq
        exact ⟨.inr rfl, hmem⟩
      · rintro ⟨hold | rfl, hother⟩
        -- An older codec with this marker would own it, but it was free.
        · have := hc.owner_of_mem hold hother
          simp [hfree _ hmem] at this
        · rfl
    · rw [if_neg hmem, hc.owner_iff hne]
      constructor
      · rintro ⟨hold, hother⟩
        exact ⟨.inl hold, hother⟩
      · rintro ⟨hold | rfl, hother⟩
        · exact ⟨hold, hother⟩
        · exact absurd hother hmem
  · intro other hother
    rcases List.mem_append.1 hother with hold | hnew
    · exact hc.null_free hold
    · rw [List.mem_singleton.1 hnew]
      exact hnull
  · refine List.pairwise_append.2 ⟨hc.disjoint, List.pairwise_singleton .., ?_⟩
    intro one hone other hother marker hmem hmem'
    rw [List.mem_singleton.1 hother] at hmem'
    have := hc.owner_of_mem hone hmem
    simp [hfree _ hmem'] at this
  · intro type found hkept
    exact firstWriter?_mono (List.prefix_append _ _) (hc.resolved_first hkept)

/-! ## Look-ups -/

/-- If there is no codec for a type, the error names the type. -/
theorem codecForType_eq_error {registry : Registry} {type : ValueType} {e : Error}
    (h : registry.codecForType type = .error e) : e = .missingCodec type none := by
  unfold codecForType at h
  split at h
  · cases h
  · split at h
    · cases h
    · cases h
      rfl

/-- The registry that a computation leaves behind, whether it succeeds or fails. -/
def after {α : Type} (resolve : Resolve α) (registry : Registry) : Registry :=
  match resolve registry with
  | .ok _ next => next
  | .error _ next => next

section After

variable {α : Type} {resolve : Resolve α} {registry next : Registry}

/-- After a computation that succeeds there is the registry that it leaves. -/
theorem after_of_ok {a : α} (h : resolve registry = .ok a next) : after resolve registry = next := by
  rw [after, h]

/-- After a computation that fails there is the registry that it leaves. -/
theorem after_of_error {e : Error} (h : resolve registry = .error e next) : after resolve registry = next := by
  rw [after, h]

end After

/-- A computation changes neither the table nor the list, and keeps only right answers. -/
def Quiet {α : Type} (resolve : Resolve α) : Prop :=
  ∀ registry : Registry, registry.Consistent →
    (after resolve registry).Consistent ∧ (after resolve registry).slots = registry.slots ∧
      (after resolve registry).codecs = registry.codecs

/-- After two computations there is what the second leaves, or the first if it fails. -/
theorem after_bind {α β : Type} (resolve : Resolve α) (f : α → Resolve β) (registry : Registry) :
    after (resolve >>= f) registry =
      match resolve registry with
      | .ok a next => after (f a) next
      | .error _ next => next := by
  simp only [after, bind, EStateM.bind]
  cases resolve registry <;> rfl

/-- Keeping a right answer keeps a registry consistent. -/
theorem Consistent.remember {registry : Registry} (hc : registry.Consistent) {type : ValueType} {codec : Codec}
    (h : registry.codecForType type = .ok codec) : (registry.remember type codec).Consistent := by
  unfold Registry.remember
  split
  · exact hc
  · rename_i hnew
    rw [not_or] at hnew
    refine ⟨hc.owner_null, hc.owner_iff, hc.null_free, hc.disjoint, ?_⟩
    intro asked found hkept
    rw [List.lookup_cons] at hkept
    split at hkept
    · rename_i hsame
      cases hkept
      rw [beq_iff_eq.1 hsame]
      exact (hc.codecForType_eq_ok_iff hnew.1).1 h
    · exact hc.resolved_first hkept

/-- A look-up changes neither the table nor the list, and keeps the right answer. -/
theorem quiet_lookup (type : ValueType) : Quiet (lookup type) := by
  intro registry hc
  unfold after lookup
  cases h : registry.codecForType type with
  | error e => exact ⟨hc, rfl, rfl⟩
  | ok codec =>
    refine ⟨hc.remember h, ?_, ?_⟩ <;> simp only [remember] <;> split <;> rfl

/-- The first computation, or the second from the registry that the first left behind when it failed. -/
def attempt {α : Type} (first second : Resolve α) : Resolve α := fun registry =>
  match first registry with
  | .ok a next => .ok a next
  | .error _ next => second next

/-- A computation is made of look-ups. -/
inductive Looks : {α : Type} → Resolve α → Prop
  | pure {α : Type} (a : α) : Looks (pure a)
  | throw {α : Type} (e : Error) : Looks (throw e : Resolve α)
  | lookup (type : ValueType) : Looks (Registry.lookup type)
  | bind {α β : Type} {resolve : Resolve α} {f : α → Resolve β} (first : Looks resolve) (rest : ∀ a, Looks (f a)) :
      Looks (resolve >>= f)
  | attempt {α : Type} {first second : Resolve α} (one : Looks first) (other : Looks second) :
      Looks (attempt first second)

namespace Looks

variable {α β : Type}

/-- Look-ups change neither the table nor the list, and keep only right answers. -/
theorem quiet {resolve : Resolve α} (h : Looks resolve) : Quiet resolve := by
  induction h with
  | pure a => exact fun _ hc => ⟨hc, rfl, rfl⟩
  | throw e => exact fun _ hc => ⟨hc, rfl, rfl⟩
  | lookup type => exact quiet_lookup type
  | @bind α β resolve f _ _ ihfirst ihrest =>
    intro registry hc
    have hone := ihfirst registry hc
    rw [after_bind]
    cases h : resolve registry with
    | error e next =>
      rw [after_of_error h] at hone
      exact hone
    | ok a next =>
      rw [after_of_ok h] at hone
      obtain ⟨hc', hslots, hcodecs⟩ := hone
      obtain ⟨hc'', hslots', hcodecs'⟩ := ihrest a next hc'
      exact ⟨hc'', hslots'.trans hslots, hcodecs'.trans hcodecs⟩
  | @attempt α first second _ _ ihone ihother =>
    intro registry hc
    have hone := ihone registry hc
    cases h : first registry with
    | ok a next =>
      rw [after_of_ok h] at hone
      simpa only [after, Registry.attempt, h] using hone
    | error e next =>
      rw [after_of_error h] at hone
      obtain ⟨hc', hslots, hcodecs⟩ := hone
      obtain ⟨hc'', hslots', hcodecs'⟩ := ihother next hc'
      simp only [after, Registry.attempt, h]
      exact ⟨hc'', hslots'.trans hslots, hcodecs'.trans hcodecs⟩

/-- An answer that is given needs no look-up. -/
theorem ofExcept (result : Except Error α) : Looks (MonadExcept.ofExcept result : Resolve α) := by
  cases result with
  | ok a => exact pure a
  | error e => exact throw e

/-- A run of computations is made of look-ups if each of them is. -/
theorem mapM {f : α → Resolve β} (h : ∀ a, Looks (f a)) (items : List α) : Looks (items.mapM f) := by
  induction items with
  | nil => exact pure []
  | cons item items ih =>
    rw [List.mapM_cons]
    exact (h item).bind fun _ => ih.bind fun _ => pure _

end Looks

/-- Asking for a codec of a kind is a look-up. -/
theorem looks_lookupKind (builtin : Builtin) (type : ValueType) : Looks (lookupKind builtin type) := by
  refine (Looks.lookup type).bind fun codec => ?_
  split
  · exact .pure codec
  · exact .throw _

/-- Binding a field to the codec of its type is made of look-ups. -/
theorem looks_bindBoxed (building : ValueType) (kind : FieldKind) : Looks (kind.bindBoxed building) := by
  unfold FieldKind.bindBoxed
  split
  · exact .pure _
  split
  · exact .pure _
  · exact (Looks.lookup _).bind fun _ => .pure _

/-- A failed search for the built-in codec may have kept an answer; the second search starts from there. -/
theorem looks_bind (building : ValueType) (kind : FieldKind) : Looks (kind.bind building) := by
  cases hbuiltin : kind.builtin? with
  | none =>
    have hbind : kind.bind building = kind.bindBoxed building := by
      funext registry
      simp only [FieldKind.bind, hbuiltin]
    rw [hbind]
    exact looks_bindBoxed building kind
  | some builtin =>
    have hkind : Looks (do return Binding.through (.direct (← lookupKind builtin kind.valueType))) :=
      (looks_lookupKind builtin kind.valueType).bind fun _ => .pure _
    have hbind : kind.bind building =
        attempt (do return .through (.direct (← lookupKind builtin kind.valueType))) (kind.bindBoxed building) := by
      funext registry
      simp only [FieldKind.bind, hbuiltin, attempt, Bind.bind, EStateM.bind]
      cases lookupKind builtin kind.valueType registry <;> rfl
    rw [hbind]
    exact hkind.attempt (looks_bindBoxed building kind)

/-- Binding a planned field is made of look-ups. -/
theorem looks_bindField (type : String) (planned : PlannedField) : Looks (Plan.bindField type planned) := by
  unfold Plan.bindField
  dsimp only
  split
  · exact (Looks.throw _).bind fun _ => (looks_bind _ _).bind fun _ => .pure _
  · exact (looks_bind _ _).bind fun _ => .pure _

/-- Building a codec from a plan is made of look-ups. -/
theorem looks_build (plan : Plan) : Looks plan.build := by
  unfold Plan.build
  split
  · refine (Looks.ofExcept _).bind fun _ => (Looks.ofExcept _).bind fun _ => ?_
    exact (Looks.mapM (looks_bindField _) _).bind fun _ => .pure _
  · exact .throw _

/-- Making a codec of arrays is made of look-ups. -/
theorem looks_ofItems (marker : Marker) (type : ValueType) : Looks (Codec.ofItems marker type) := by
  refine Looks.bind ?_ fun _ => (Looks.ofExcept _).bind fun _ => .pure _
  unfold Codec.itemElement
  split
  · exact .pure _
  · exact (Looks.lookup type).bind fun _ => .pure _

/-- Two registries answer every question alike, whatever answers they have kept. -/
structure SameAnswers (registry other : Registry) : Prop where
  owner (marker : Marker) : other.owner? marker = registry.owner? marker
  codecs : other.codecs = registry.codecs
  nextFree : other.nextFree = registry.nextFree
  codecForType (type : ValueType) : other.codecForType type = registry.codecForType type

/-- The codecs and the owners of markers decide about all answers of a consistent registry. -/
theorem Consistent.sameAnswers_of_owner {registry other : Registry} (hc : registry.Consistent)
    (hc' : other.Consistent) (howner : ∀ marker, other.owner? marker = registry.owner? marker)
    (hcodecs : other.codecs = registry.codecs) : registry.SameAnswers other := by
  refine ⟨howner, hcodecs, ?_, ?_⟩
  · simp only [Registry.nextFree, howner]
  · intro type
    rw [hc'.codecForType_eq, hc.codecForType_eq, firstWriter?, firstWriter?, hcodecs]

/-- Consistent registries with the same table and the same list answer alike, whatever they have kept. -/
theorem Consistent.sameAnswers {registry other : Registry} (hc : registry.Consistent) (hc' : other.Consistent)
    (hslots : other.slots = registry.slots) (hcodecs : other.codecs = registry.codecs) :
    registry.SameAnswers other := by
  refine hc.sameAnswers_of_owner hc' (fun marker => ?_) hcodecs
  rw [owner?, hslots, ← owner?]

end Bytemark.Registry
