import Bytemark.Proofs.Record.Bindings
import Bytemark.Proofs.Registry.History

/-!
# Registries of the library's own codecs

A program makes codecs by *recipes* and registers them. A recipe looks up the codecs for the parts of its values in the
registry at hand, so a codec may refer to others. `Registry.Reachable` holds of a registry and the codecs made for it
after any sequence of making, registering and looking up, whether or not a step fails.

What a codec relies on is `Codec.Fits`: it claims as many markers as its form writes, and the codecs of its parts are
those that the registry has for the parts' types. A codec that fits when it is made fits for ever, because later
registrations change no answer. So in every reachable registry, the codecs made so far and the codecs registered all
fit, and the registry is consistent: it is *sound*.
-/

set_option autoImplicit false

namespace Bytemark

/-! ## What codecs rely on -/

/-- Parts of a type are coded by whatever codec the registry has for them, or by the one it has for their type. -/
def Element.FitsType (registry : Registry) (type : ValueType) : Element → Prop
  | any => True
  | boxed codec => registry.codecForType type = .ok codec
  | direct codec => registry.codecForType type = .ok codec

/-- A field is coded by the codec of the record it belongs to if it holds such records, by any codec if it holds any
value, and by the codec for its type otherwise; directly only by a built-in codec of just its kind. -/
def Binding.Fits (registry : Registry) (building : ValueType) (kind : FieldKind) : Binding → Prop
  | self => kind.valueType = building
  | through .any => kind = .any
  | through (.boxed codec) => registry.codecForType kind.valueType = .ok codec
  | through (.direct codec) =>
    registry.codecForType kind.valueType = .ok codec ∧ kind.builtin?.isSome ∧ codec.builtin? = kind.builtin?

/-- What a codec relies on to read back what it writes. -/
inductive Codec.Fits (registry : Registry) : Codec → Prop
  | atom {codec : AtomCodec} (hcount : codec.markers.count = codec.form.count) : Fits registry (.atom codec)
  | enumeration {markers : MarkerRange} {type : String} {variants : List UInt16} (hlength : variants.length ≤ 256) :
      Fits registry (.enumeration markers type variants)
  | sequence {markers : MarkerRange} {kind : SequenceKind} (hcount : markers.count = Size.markers) :
      Fits registry (.sequence markers kind .any)
  | collection {markers : MarkerRange} (hcount : markers.count = 2) : Fits registry (.collection markers .any)
  | map {markers : MarkerRange} (hcount : markers.count = Size.markers) : Fits registry (.map markers .any .any)
  | array {markers : MarkerRange} {type : ValueType} {element : Element} (helement : element.FitsType registry type) :
      Fits registry (.array markers type element)
  | record {markers : MarkerRange} {type : String} {fresh : List (String × Value)} {fields : List Field}
      (hfields : ∀ field ∈ fields, field.binding.Fits registry (.record type) field.info.type.kind) :
      Fits registry (.record markers type fresh fields)

namespace Registry

/-- The second registry gives every answer by type that the first gives. -/
def Extends (registry next : Registry) : Prop :=
  ∀ type codec, registry.codecForType type = .ok codec → next.codecForType type = .ok codec

/-- A registry that answers alike gives every answer. -/
theorem SameAnswers.extends {registry next : Registry} (h : registry.SameAnswers next) : registry.Extends next :=
  fun type _ hcodec => (h.codecForType type).trans hcodec

/-- After look-ups every answer is still given. -/
theorem Looks.extends {α : Type} {resolve : Resolve α} (h : Looks resolve) {registry next : Registry} {a : α}
    (hok : resolve registry = .ok a next) : registry.Extends next :=
  fun type _ hcodec => (h.codecForType_of_ok hok type).trans hcodec

/-- Registration changes no answer by type that was given before. -/
theorem Consistent.extends_register {registry next : Registry} (hc : registry.Consistent) {codec result : Codec}
    (h : Registry.register codec registry = .ok result next) : registry.Extends next := by
  have hc' := hc.register h
  obtain ⟨-, -, rfl⟩ := register_eq_ok_iff.1 h
  intro type found hfound
  by_cases hnull : type = .null
  · subst hnull
    exact hfound
  · rw [hc.codecForType_eq_ok_iff hnull] at hfound
    exact (hc'.codecForType_eq_ok_iff hnull).2 (firstWriter?_mono (List.prefix_append _ _) hfound)

end Registry

open Registry

variable {registry next : Registry}

/-- What fits a type still does when the registry gives more answers. -/
theorem Element.FitsType.mono (h : registry.Extends next) {type : ValueType} {element : Element}
    (hfits : element.FitsType registry type) : element.FitsType next type := by
  cases element with
  | any => exact hfits
  | boxed codec => exact h _ _ hfits
  | direct codec => exact h _ _ hfits

/-- A binding still fits when the registry gives more answers. -/
theorem Binding.Fits.mono (h : registry.Extends next) {building : ValueType} {kind : FieldKind} {binding : Binding}
    (hfits : binding.Fits registry building kind) : binding.Fits next building kind := by
  cases binding with
  | self => exact hfits
  | through element =>
    cases element with
    | any => exact hfits
    | boxed codec => exact h _ _ hfits
    | direct codec => exact ⟨h _ _ hfits.1, hfits.2⟩

/-- A codec still fits when the registry gives more answers. -/
theorem Codec.Fits.mono (h : registry.Extends next) {codec : Codec} (hfits : codec.Fits registry) :
    codec.Fits next := by
  cases hfits with
  | atom hcount => exact .atom hcount
  | enumeration hlength => exact .enumeration hlength
  | sequence hcount => exact .sequence hcount
  | collection hcount => exact .collection hcount
  | map hcount => exact .map hcount
  | array helement => exact .array (helement.mono h)
  | record hfields => exact .record fun field hfield => (hfields field hfield).mono h

/-! ## Recipes -/

/-- A way of making one of the library's own codecs. -/
inductive Recipe
  /-- A codec of a built-in kind, with its first marker and the number of inline lengths of strings. -/
  | builtin (kind : Builtin) (base : Marker) (inline : Nat)
  | enumeration (marker : Marker) (type : String) (variants : List UInt16)
  | array (marker : Marker) (type : ValueType)
  | record (plan : Plan)

/-- Makes a codec against a registry, which is searched for the codecs of parts. -/
def Recipe.make : Recipe → Resolve Codec
  | builtin kind base inline => ofExcept (kind.codec base inline)
  | enumeration marker type variants => ofExcept (Codec.ofVariants marker type variants)
  | array marker type => Codec.ofItems marker type
  | record plan => plan.build

/-- Makes the codec and registers it. -/
def Recipe.register (recipe : Recipe) : Resolve Codec := do
  Registry.register (← recipe.make)

/-- The registry of the codecs that some recipes make, without those that cannot be made or registered. -/
def Registry.ofRecipes (recipes : List Recipe) : Registry :=
  recipes.foldl (fun registry recipe => after recipe.register registry) empty

/-- Making a codec is made of look-ups. -/
theorem Recipe.looks_make (recipe : Recipe) : Looks recipe.make := by
  cases recipe with
  | builtin kind base inline => exact .ofExcept _
  | enumeration marker type variants => exact .ofExcept _
  | array marker type => exact looks_ofItems marker type
  | record plan => exact looks_build plan

/-- A run that is made for a codec has the length asked for and is not null's. -/
theorem MarkerRange.legal_of_eq_ok {base : Marker} {count : Nat} {range : MarkerRange}
    (h : MarkerRange.of base count = .ok range) : range.base ≠ Marker.null ∧ range.count = count := by
  unfold MarkerRange.of at h
  split at h
  · rename_i hlegal
    cases h
    exact ⟨hlegal.2.1, rfl⟩
  · cases h

/-- The codec of an atom has the form asked for, and as many markers as the form needs, none of them null's. -/
theorem AtomCodec.legal_of_eq_ok {form : AtomForm} {base : Marker} {codec : AtomCodec}
    (h : AtomCodec.of form base = .ok codec) :
    codec.form = form ∧ codec.markers.base ≠ Marker.null ∧ codec.markers.count = codec.form.count := by
  have hrange : ∀ {form : AtomForm}, (do return ⟨form, ← MarkerRange.of base form.count⟩) = Except.ok codec →
      codec.form = form ∧ codec.markers.base ≠ Marker.null ∧ codec.markers.count = codec.form.count := by
    intro form hok
    obtain ⟨range, hof, hpure⟩ := answer_bind_eq_ok_iff.1 hok
    cases hpure
    exact ⟨rfl, MarkerRange.legal_of_eq_ok hof⟩
  cases form with
  | string inline =>
    unfold AtomCodec.of at h
    dsimp only at h
    split at h
    · exact hrange h
    · cases h
  | _ => exact hrange h

/-- A codec of a built-in kind names no other codecs, so it fits every registry. -/
theorem Builtin.fits_codec {kind : Builtin} {base : Marker} {inline : Nat} {codec : Codec}
    (h : kind.codec base inline = .ok codec) : codec.Fits registry := by
  have hrange : ∀ {count : Nat} {make : MarkerRange → Codec}, (∀ range : MarkerRange, range.count = count →
      (make range).Fits registry) → (do return make (← MarkerRange.of base count)) = Except.ok codec →
      codec.Fits registry := by
    intro count make hfits hok
    obtain ⟨range, hof, hpure⟩ := answer_bind_eq_ok_iff.1 hok
    cases hpure
    exact hfits range (MarkerRange.legal_of_eq_ok hof).2
  cases kind with
  | atom type =>
    obtain ⟨codec, hof, hpure⟩ := answer_bind_eq_ok_iff.1 h
    cases hpure
    exact .atom (AtomCodec.legal_of_eq_ok hof).2.2
  | sequence kind => exact hrange (fun _ => .sequence) h
  | map => exact hrange (fun _ => .map) h
  | collection => exact hrange (fun _ => .collection) h

/-- A codec of an enumeration names no other codecs, so it fits every registry. -/
theorem Codec.fits_ofVariants {marker : Marker} {type : String} {variants : List UInt16} {codec : Codec}
    (h : Codec.ofVariants marker type variants = .ok codec) : codec.Fits registry := by
  unfold Codec.ofVariants at h
  split at h
  · rename_i hlength
    obtain ⟨range, -, hpure⟩ := answer_bind_eq_ok_iff.1 h
    cases hpure
    exact .enumeration hlength
  · cases h

/-- A codec of arrays fits the registry that it was made from: the codec of the items was looked up there. -/
theorem Codec.fits_ofItems {marker : Marker} {type : ValueType} {codec : Codec}
    (h : Codec.ofItems marker type registry = .ok codec next) : codec.Fits next := by
  unfold Codec.ofItems at h
  obtain ⟨element, looked, helement, hrest⟩ := bind_eq_ok_iff.1 h
  obtain ⟨markers, _, hmarkers, hcodec⟩ := bind_eq_ok_iff.1 hrest
  obtain ⟨-, rfl⟩ := ofExcept_eq_ok_iff.1 hmarkers
  cases hcodec
  refine .array ?_
  unfold Codec.itemElement at helement
  split at helement
  · cases helement
    trivial
  · obtain ⟨part, _, hlookup, hpure⟩ := bind_eq_ok_iff.1 helement
    cases hpure
    obtain ⟨hanswer, rfl⟩ := lookup_eq_ok_iff.1 hlookup
    exact (codecForType_remember hanswer type).trans hanswer

/-- A binding that was found fits the field. -/
theorem Binding.Found.fits {binding : Binding} {building : ValueType} {kind : FieldKind}
    (h : binding.Found registry building kind) : binding.Fits registry building kind := by
  cases h with
  | direct hanswer hkind hbuiltin => exact ⟨hanswer, hkind, hbuiltin⟩
  | self hself => exact hself
  | any _ hany => exact hany
  | boxed _ _ hanswer => exact hanswer

/-- A field is bound to what fits it. -/
theorem FieldKind.fits_bind {building : ValueType} {kind : FieldKind} {binding : Binding}
    (h : kind.bind building registry = .ok binding next) : binding.Fits next building kind :=
  ((found_of_bind h).congr ((looks_bind building kind).codecForType_of_ok h _).symm).fits

/-- A planned field is bound to what fits it. -/
theorem Plan.fits_bindField {type : String} {planned : PlannedField} {field : Field}
    (h : Plan.bindField type planned registry = .ok field next) :
    field.binding.Fits next (.record type) field.info.type.kind := by
  unfold Plan.bindField at h
  dsimp only at h
  split at h
  · cases h
  · obtain ⟨binding, bound, hbind, hpure⟩ := bind_eq_ok_iff.1 h
    cases hpure
    exact FieldKind.fits_bind hbind

/-- Each field fits when it is bound, and binding the later ones changes no answer. -/
theorem Plan.fits_bindFields {type : String} {planned : List PlannedField} {fields : List Field}
    (h : planned.mapM (Plan.bindField type) registry = .ok fields next) :
    ∀ field ∈ fields, field.binding.Fits next (.record type) field.info.type.kind := by
  induction planned generalizing registry fields with
  | nil =>
    cases h
    exact fun _ hmem => nomatch hmem
  | cons first planned ih =>
    rw [List.mapM_cons] at h
    obtain ⟨field, bound, hfield, hrest⟩ := bind_eq_ok_iff.1 h
    obtain ⟨fields, last, hfields, hpure⟩ := bind_eq_ok_iff.1 hrest
    cases hpure
    have hlast := (Looks.mapM (looks_bindField type) planned).extends hfields
    exact List.forall_mem_cons.2 ⟨(fits_bindField hfield).mono hlast, ih hfields⟩

/-- A codec that was built fits the registry that it was built from. -/
theorem Plan.fits_build {plan : Plan} {codec : Codec}
    (h : plan.build registry = .ok codec next) : codec.Fits next := by
  unfold Plan.build at h
  cases hfresh : plan.fresh with
  | none =>
    rw [hfresh] at h
    cases h
  | some fresh =>
    rw [hfresh] at h
    obtain ⟨markers, _, hmarkers, hmarked⟩ := bind_eq_ok_iff.1 h
    obtain ⟨-, rfl⟩ := ofExcept_eq_ok_iff.1 hmarkers
    obtain ⟨planned, _, hplanned, hbind⟩ := bind_eq_ok_iff.1 hmarked
    obtain ⟨-, rfl⟩ := ofExcept_eq_ok_iff.1 hplanned
    obtain ⟨fields, _, hfields, hpure⟩ := bind_eq_ok_iff.1 hbind
    cases hpure
    exact .record (Plan.fits_bindFields hfields)

/-- Every recipe makes codecs that fit the registry they are made against. -/
theorem Recipe.fits_make {recipe : Recipe} {codec : Codec}
    (h : recipe.make registry = .ok codec next) : codec.Fits next := by
  cases recipe with
  | builtin kind base inline => exact Builtin.fits_codec (ofExcept_eq_ok_iff.1 h).1
  | enumeration marker type variants => exact Codec.fits_ofVariants (ofExcept_eq_ok_iff.1 h).1
  | array marker type => exact Codec.fits_ofItems h
  | record plan => exact Plan.fits_build h

/-! ## Reachable registries -/

namespace Registry

/-- A registry, and the codecs made for it, after a sequence of calls on an empty registry. -/
inductive Reachable : Registry → List Codec → Prop
  | empty : Reachable empty []
  | lookup {registry : Registry} {made : List Codec} (h : Reachable registry made) (type : ValueType) :
      Reachable (after (lookup type) registry) made
  | make {registry next : Registry} {made : List Codec} {recipe : Recipe} {codec : Codec} (h : Reachable registry made)
      (hmake : recipe.make registry = .ok codec next) : Reachable next (codec :: made)
  | fail {registry next : Registry} {made : List Codec} {recipe : Recipe} {e : Error} (h : Reachable registry made)
      (hmake : recipe.make registry = .error e next) : Reachable next made
  | register {registry : Registry} {made : List Codec} {codec : Codec} (h : Reachable registry made)
      (hcodec : codec ∈ made) : Reachable (after (register codec) registry) made

/-- The registry is consistent, and every registered codec has what it relies on. -/
structure Sound (registry : Registry) : Prop where
  consistent : registry.Consistent
  fits {codec : Codec} (h : codec ∈ registry.codecs) : codec.Fits registry

/-- The empty registry is sound. -/
theorem sound_empty : empty.Sound where
  consistent := consistent_empty
  fits h := nomatch h

/-- A quiet computation leaves a sound registry behind, which gives every answer of the one before. -/
theorem Sound.of_quiet {registry : Registry} (hsound : registry.Sound) {α : Type} {resolve : Resolve α}
    (hquiet : Quiet resolve) : (after resolve registry).Sound ∧ registry.Extends (after resolve registry) := by
  obtain ⟨hc, hslots, hcodecs⟩ := hquiet registry hsound.consistent
  have hextends := (hsound.consistent.sameAnswers hc hslots hcodecs).extends
  refine ⟨⟨hc, fun hcodec => ?_⟩, hextends⟩
  rw [hcodecs] at hcodec
  exact (hsound.fits hcodec).mono hextends

/-- Registering a codec that fits keeps a registry sound. -/
theorem Sound.register {registry next : Registry} (hsound : registry.Sound) {codec result : Codec}
    (hfits : codec.Fits registry) (h : Registry.register codec registry = .ok result next) : next.Sound := by
  have hextends := hsound.consistent.extends_register h
  refine ⟨hsound.consistent.register h, fun hcodec => ?_⟩
  obtain ⟨-, -, rfl⟩ := register_eq_ok_iff.1 h
  rcases List.mem_append.1 hcodec with hold | hnew
  · exact (hsound.fits hold).mono hextends
  · rw [List.mem_singleton.1 hnew]
    exact hfits.mono hextends

/-- Reachable registries are sound, and the codecs made for them go on fitting. -/
theorem Reachable.sound {registry : Registry} {made : List Codec} (h : Reachable registry made) :
    registry.Sound ∧ ∀ codec ∈ made, codec.Fits registry := by
  induction h with
  | empty => exact ⟨sound_empty, fun _ hmem => nomatch hmem⟩
  | lookup _ type ih =>
    obtain ⟨hsound, hmade⟩ := ih
    obtain ⟨hsound', hextends⟩ := hsound.of_quiet (quiet_lookup type)
    exact ⟨hsound', fun codec hcodec => (hmade codec hcodec).mono hextends⟩
  | @make registry next made recipe codec _ hmake ih =>
    obtain ⟨hsound, hmade⟩ := ih
    have hafter := hsound.of_quiet recipe.looks_make.quiet
    rw [after_of_ok hmake] at hafter
    obtain ⟨hsound', hextends⟩ := hafter
    refine ⟨hsound', List.forall_mem_cons.2 ⟨Recipe.fits_make hmake, ?_⟩⟩
    exact fun codec hcodec => (hmade codec hcodec).mono hextends
  | @fail registry next made recipe e _ hmake ih =>
    obtain ⟨hsound, hmade⟩ := ih
    have hafter := hsound.of_quiet recipe.looks_make.quiet
    rw [after_of_error hmake] at hafter
    obtain ⟨hsound', hextends⟩ := hafter
    exact ⟨hsound', fun codec hcodec => (hmade codec hcodec).mono hextends⟩
  | @register registry made codec _ hcodec ih =>
    -- The codec was made against an older registry, and fits this one because answers are never taken back.
    obtain ⟨hsound, hmade⟩ := ih
    unfold after
    cases hregister : Registry.register codec registry with
    | ok result next =>
      have hextends := hsound.consistent.extends_register hregister
      exact ⟨hsound.register (hmade codec hcodec) hregister, fun other hother => (hmade other hother).mono hextends⟩
    | error e next =>
      obtain ⟨rfl, -⟩ := register_eq_error_iff.1 hregister
      exact ⟨hsound, hmade⟩

/-- Making a codec and registering it at once, whether that succeeds or not, is one way to go on. -/
theorem Reachable.after_register {registry : Registry} {made : List Codec} (h : Reachable registry made)
    (recipe : Recipe) : ∃ made', Reachable (after recipe.register registry) made' := by
  unfold Recipe.register
  rw [after_bind]
  cases hmake : recipe.make registry with
  | error e next => exact ⟨made, h.fail hmake⟩
  | ok codec next => exact ⟨codec :: made, (h.make hmake).register List.mem_cons_self⟩

/-- Recipes that are followed one after the other make a reachable registry. -/
theorem reachable_ofRecipes (recipes : List Recipe) : ∃ made, Reachable (ofRecipes recipes) made := by
  suffices hrun : ∀ {registry made}, Reachable registry made →
      ∃ made', Reachable (recipes.foldl (fun registry recipe => after recipe.register registry) registry) made' from
    hrun .empty
  induction recipes with
  | nil => exact fun h => ⟨_, h⟩
  | cons recipe recipes ih =>
    intro registry made h
    obtain ⟨made', hnext⟩ := h.after_register recipe
    exact ih hnext

end Registry

end Bytemark
