import Bytemark.Proofs.Registry.Soundness

/-!
# Standard registries

A standard registry is filled with codecs of all built-in kinds, one after the other, wherever there is room. Where they
end up does not matter here. What matters is their order: a value is written by the first codec that writes its type, so
all that depends on kinds alone can be read off the list of kinds, without looking at a marker.
-/

set_option autoImplicit false

namespace Bytemark

/-- Whether codecs of the kind write values of a type. -/
def Builtin.writes (type : ValueType) : Builtin → Bool
  | atom kind => type = .atom kind
  | sequence kind => type = .sequence kind
  | map => type = .map
  | collection => type = .sequence .list ∨ type = .sequence .set ∨ type = .sequence .queue

/-- What a codec of a built-in kind writes is told by its kind. -/
theorem Codec.writes_eq_of_builtin {codec : Codec} {kind : Builtin} (h : codec.builtin? = some kind)
    (type : ValueType) : codec.writes type = kind.writes type := by
  cases codec <;> cases h <;> rfl

/-- A codec is of the kind that it was made for. -/
theorem Builtin.builtin?_of_codec {kind : Builtin} {base : Marker} {inline : Nat} {codec : Codec}
    (h : kind.codec base inline = .ok codec) : codec.builtin? = some kind := by
  cases kind with
  | atom type =>
    obtain ⟨codec, hof, hpure⟩ := answer_bind_eq_ok_iff.1 h
    cases hpure
    obtain ⟨hform, -⟩ := AtomCodec.legal_of_eq_ok hof
    rw [Codec.builtin?, hform]
    cases type <;> rfl
  | _ =>
    obtain ⟨markers, -, hpure⟩ := answer_bind_eq_ok_iff.1 h
    cases hpure
    rfl

namespace Registry

/-- There are built-in codecs alone, and the codec for a type is of the first kind in the standard order that writes
the type. -/
structure OfBuiltins (registry : Registry) : Prop where
  sound : registry.Sound
  builtin {codec : Codec} (h : codec ∈ registry.codecs) : ∃ kind, codec.builtin? = some kind
  answer {type : ValueType} {kind : Builtin} (h : Builtin.standard.find? (Builtin.writes type) = some kind) :
    ∃ codec, registry.codecForType type = .ok codec ∧ codec.builtin? = some kind

/-- The first writer of a type is of the first kind that writes it. -/
theorem find?_writes {codecs : List Codec} {kinds : List Builtin} (h : codecs.map Codec.builtin? = kinds.map some)
    (type : ValueType) :
    (codecs.find? fun codec => codec.writes type).bind Codec.builtin? = kinds.find? (Builtin.writes type) := by
  induction codecs generalizing kinds with
  | nil =>
    cases kinds with
    | nil => rfl
    | cons kind kinds => cases h
  | cons codec codecs ih =>
    cases kinds with
    | nil => cases h
    | cons kind kinds =>
      obtain ⟨hkind, hkinds⟩ := List.cons.inj h
      rw [List.find?_cons, List.find?_cons, Codec.writes_eq_of_builtin hkind]
      cases kind.writes type with
      | true => exact hkind
      | false => exact ih hkinds

variable {registry next : Registry} {inline : Nat} {made : List Codec}

/-- The next codec is made at the next free marker and registered. -/
theorem registerNext_eq_ok {kind : Builtin} {codec : Codec} (h : registerNext inline kind registry = .ok codec next) :
    ∃ base, kind.codec base inline = .ok codec ∧ register codec registry = .ok codec next := by
  obtain ⟨asked, _, hget, hplaced⟩ := bind_eq_ok_iff.1 h
  cases hget
  obtain ⟨base, _, hbase, hmade⟩ := bind_eq_ok_iff.1 hplaced
  obtain ⟨-, rfl⟩ := ofExcept_eq_ok_iff.1 hbase
  obtain ⟨other, _, hanswer, hregister⟩ := bind_eq_ok_iff.1 hmade
  obtain ⟨hcodec, rfl⟩ := ofExcept_eq_ok_iff.1 hanswer
  obtain ⟨-, rfl, -⟩ := register_eq_ok_iff.1 hregister
  exact ⟨base, hcodec, hregister⟩

/-- Kinds that are registered one after the other give as many codecs of these kinds, behind those that were there. -/
theorem Reachable.mapM_registerNext {kinds : List Builtin} {codecs : List Codec} (hreach : Reachable registry made)
    (h : kinds.mapM (registerNext inline) registry = .ok codecs next) :
    (∃ made', Reachable next made') ∧ next.codecs = registry.codecs ++ codecs ∧
      codecs.map Codec.builtin? = kinds.map some := by
  induction kinds generalizing registry made codecs with
  | nil =>
    cases h
    exact ⟨⟨made, hreach⟩, (List.append_nil _).symm, rfl⟩
  | cons kind kinds ih =>
    rw [List.mapM_cons] at h
    obtain ⟨codec, mid, hfirst, hrest⟩ := bind_eq_ok_iff.1 h
    obtain ⟨later, last, hlater, hpure⟩ := bind_eq_ok_iff.1 hrest
    cases hpure
    obtain ⟨base, hcodec, hregister⟩ := registerNext_eq_ok hfirst
    have hmake : (Recipe.builtin kind base inline).make registry = .ok codec registry :=
      ofExcept_eq_ok_iff.2 ⟨hcodec, rfl⟩
    have hmid := (hreach.make hmake).register List.mem_cons_self
    rw [after_of_ok hregister] at hmid
    obtain ⟨hnext, hcodecs, hkinds⟩ := ih hmid hlater
    have hone : mid.codecs = registry.codecs ++ [codec] := by
      obtain ⟨-, -, rfl⟩ := register_eq_ok_iff.1 hregister
      rfl
    refine ⟨hnext, ?_, ?_⟩
    · rw [hcodecs, hone, List.append_assoc, List.singleton_append]
    · rw [List.map_cons, List.map_cons, hkinds, Builtin.builtin?_of_codec hcodec]

/-- A standard registry holds built-in codecs alone, in the standard order. -/
theorem ofBuiltins_standard (h : standard inline = .ok registry) : registry.OfBuiltins := by
  unfold standard at h
  split at h
  · rename_i codecs filled hfilled
    obtain rfl := Except.ok.inj h
    obtain ⟨⟨made, hreach⟩, hcodecs, hkinds⟩ := Reachable.empty.mapM_registerNext hfilled
    have hsound := hreach.sound.1
    have hall : filled.codecs.map Codec.builtin? = Builtin.standard.map some := by
      rw [hcodecs]
      exact hkinds
    refine ⟨hsound, fun {codec} hcodec => ?_, fun {type kind} hkind => ?_⟩
    · have hmem := List.mem_map_of_mem (f := Codec.builtin?) hcodec
      rw [hall] at hmem
      obtain ⟨kind, -, hkind⟩ := List.mem_map.1 hmem
      exact ⟨kind, hkind.symm⟩
    · have hne : type ≠ .null := by
        rintro rfl
        cases hkind
      rw [← find?_writes hall] at hkind
      obtain ⟨codec, hfirst, hbuiltin⟩ := Option.bind_eq_some_iff.1 hkind
      exact ⟨codec, (hsound.consistent.codecForType_eq_ok_iff hne).2 hfirst, hbuiltin⟩
  · cases h

end Registry

end Bytemark
