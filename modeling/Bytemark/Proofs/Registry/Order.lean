import Bytemark.Proofs.Registry.Growth
import Bytemark.Proofs.RoundTrip.Law

/-!
# The order of registration

The codecs of a registry are searched by type in the order of their registration, so the order counts where two codecs
write one type. It counts nowhere else. Two registries *agree* when they have the same owners of markers and the same
answers by type, whatever the order of their codecs. What a registry does with values and bytes, it does by these
answers at every depth, so registries that agree write and read alike.
-/

set_option autoImplicit false

namespace Bytemark.Registry

/-- The owners of markers and the answers by type are the same; the order of the codecs may be another. -/
structure Agrees (registry other : Registry) : Prop where
  owner (marker : Marker) : other.owner? marker = registry.owner? marker
  answer (type : ValueType) : other.codecForType type = registry.codecForType type

namespace Agrees

variable {registry other : Registry}

/-- Registries that agree have the same next free marker. -/
theorem nextFree_eq (h : registry.Agrees other) : other.nextFree = registry.nextFree := by
  simp only [nextFree, h.owner]

/-- Registries that agree write the same. -/
theorem writeAs_eq [RecordEquality] (h : registry.Agrees other) (value : Value) (element : Element) :
    other.writeAs value element = registry.writeAs value element :=
  (upholds_writeAs (fun type => .inl (h.answer type)) value element).eq

/-- Registries that agree read the same. -/
theorem readAs_eq [RecordEquality] (h : registry.Agrees other) (element : Element) :
    other.readAs element = registry.readAs element := by
  refine (upholds_readAs (fun marker => .inl ?_) element).eq
  rw [codecForMarker, codecForMarker, h.owner]

end Agrees

variable {registry first second last last' : Registry} {one other : Codec}

/-- A search by type that finds nothing among older codecs asks the newer ones, of which at most one writes the type. -/
theorem find?_append_swap {codecs : List Codec} {type : ValueType} (h : ¬ (one.writes type ∧ other.writes type)) :
    (codecs ++ [other] ++ [one]).find? (fun codec => codec.writes type) =
      (codecs ++ [one] ++ [other]).find? fun codec => codec.writes type := by
  simp only [List.find?_append, Option.or_assoc]
  refine congrArg _ ?_
  cases hone : one.writes type with
  | true =>
    have hother : other.writes type = false := by
      rw [← Bool.not_eq_true]
      exact fun hother => h ⟨hone, hother⟩
    simp [hone, hother]
  | false => cases hother : other.writes type <;> simp [hone, hother]

/-- Two registrations in either order lead to registries that agree, if no marker and no type belongs to both codecs. -/
theorem Consistent.agrees_of_register (hc : registry.Consistent)
    (hdisjoint : ∀ marker ∈ one.markers, marker ∉ other.markers)
    (hapart : ∀ type, ¬ (one.writes type ∧ other.writes type))
    (hone : Registry.register one registry = .ok one first) (hother : Registry.register other first = .ok other last)
    (hother' : Registry.register other registry = .ok other second)
    (hone' : Registry.register one second = .ok one last') :
    last.Agrees last' where
  owner marker := by
    rw [owner?_of_register hone', owner?_of_register hother', owner?_of_register hother, owner?_of_register hone]
    by_cases hmem : marker ∈ one.markers
    · simp [hmem, hdisjoint marker hmem]
    · simp [hmem]
  answer type := by
    have hlast := (hc.register hone).register hother
    have hlast' := (hc.register hother').register hone'
    obtain ⟨-, -, rfl⟩ := register_eq_ok_iff.1 hone
    obtain ⟨-, -, rfl⟩ := register_eq_ok_iff.1 hother
    obtain ⟨-, -, rfl⟩ := register_eq_ok_iff.1 hother'
    obtain ⟨-, -, rfl⟩ := register_eq_ok_iff.1 hone'
    rw [hlast.codecForType_eq, hlast'.codecForType_eq, firstWriter?, firstWriter?, find?_append_swap (hapart type)]

/-- A codec still finds its markers free after the registration of another one that claims none of them. -/
theorem register_ok_of_disjoint (hfree : ∀ marker ∈ one.markers, registry.owner? marker = none)
    (hdisjoint : ∀ marker ∈ one.markers, marker ∉ other.markers) (hother : register other registry = .ok other second) :
    ∃ next, register one second = .ok one next := by
  refine ⟨_, register_eq_ok_iff.2 ⟨fun marker hmem => ?_, rfl, rfl⟩⟩
  rw [owner?_of_register hother, if_neg (hdisjoint marker hmem)]
  exact hfree marker hmem

/-- Let two codecs claim markers that no codec of a reachable registry has claimed, and no marker both, and let there be
no type that both of them write. Then they can be registered in either order. The registries at the end have the same
owners of markers, the same next free marker and the same answers by type; they write every value alike, with the same
outcome and the same bytes, and read alike from all bytes. -/
theorem register_comm [RecordEquality] (hreach : ∃ made, Reachable registry made)
    (hone : ∀ marker ∈ one.markers, registry.owner? marker = none)
    (hother : ∀ marker ∈ other.markers, registry.owner? marker = none)
    (hdisjoint : ∀ marker ∈ one.markers, marker ∉ other.markers)
    (hapart : ∀ type, ¬ (one.writes type ∧ other.writes type)) :
    ∃ first second last last',
      register one registry = .ok one first ∧ register other first = .ok other last ∧
      register other registry = .ok other second ∧ register one second = .ok one last' ∧
      (∀ marker, last'.owner? marker = last.owner? marker) ∧
      last'.nextFree = last.nextFree ∧
      (∀ type, last'.codecForType type = last.codecForType type) ∧
      (∀ value, last'.write value = last.write value) ∧
      last'.read = last.read := by
  obtain ⟨made, hreach⟩ := hreach
  have hc := hreach.sound.1.consistent
  have hfirst := register_eq_ok_iff.2 ⟨hone, rfl, rfl⟩
  have hsecond := register_eq_ok_iff.2 ⟨hother, rfl, rfl⟩
  obtain ⟨last, hlast⟩ :=
    register_ok_of_disjoint hother (fun marker hmem hmem' => hdisjoint marker hmem' hmem) hfirst
  obtain ⟨last', hlast'⟩ := register_ok_of_disjoint hone hdisjoint hsecond
  have hagrees := hc.agrees_of_register hdisjoint hapart hfirst hlast hsecond hlast'
  exact ⟨_, _, last, last', hfirst, hlast, hsecond, hlast', hagrees.owner, hagrees.nextFree_eq, hagrees.answer,
    fun value => hagrees.writeAs_eq value .any, hagrees.readAs_eq .any⟩

/-- The codec of arrays of collections, at the marker next to that of records. -/
def nodeArrays : Codec := .array ⟨2, 1, Nat.one_pos, by decide⟩ (.sequence .list) (.boxed nodeItems)

set_option maxRecDepth 2000 in
/-- A codec of records that hold collections and one of arrays of collections can be registered in either order. -/
theorem register_comm_nodes :
    let registry := ofRecipes nodeRecipes
    (∀ marker ∈ nodeCodec.markers, registry.owner? marker = none) ∧
    (∀ marker ∈ nodeArrays.markers, registry.owner? marker = none) ∧
    (∀ marker ∈ nodeCodec.markers, marker ∉ nodeArrays.markers) ∧
    (∀ type, ¬ (nodeCodec.writes type ∧ nodeArrays.writes type)) ∧
    ∃ first second last last',
      register nodeCodec registry = .ok nodeCodec first ∧ register nodeArrays first = .ok nodeArrays last ∧
      register nodeArrays registry = .ok nodeArrays second ∧ register nodeCodec second = .ok nodeCodec last' ∧
      (∀ marker, last'.owner? marker = last.owner? marker) ∧
      last'.nextFree = last.nextFree ∧
      (∀ type, last'.codecForType type = last.codecForType type) ∧
      (∀ value, last'.write value = last.write value) ∧
      last'.read = last.read := by
  intro registry
  have hnode : ∀ marker ∈ nodeCodec.markers, registry.owner? marker = none := conflict?_eq_none_iff.1 rfl
  have harrays : ∀ marker ∈ nodeArrays.markers, registry.owner? marker = none := conflict?_eq_none_iff.1 rfl
  have hdisjoint : ∀ marker ∈ nodeCodec.markers, marker ∉ nodeArrays.markers := by
    intro marker hnode harrays
    exact absurd (Int.lt_of_le_of_lt harrays.1 hnode.2) (by decide)
  have hapart : ∀ type, ¬ (nodeCodec.writes type ∧ nodeArrays.writes type) := by
    rintro type ⟨hnode, harrays⟩
    obtain rfl : type = .record "node" := of_decide_eq_true hnode
    exact absurd harrays (by decide)
  exact ⟨hnode, harrays, hdisjoint, hapart,
    register_comm (reachable_ofRecipes nodeRecipes) hnode harrays hdisjoint hapart⟩

end Bytemark.Registry
