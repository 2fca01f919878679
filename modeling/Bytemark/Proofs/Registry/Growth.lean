import Bytemark.Proofs.Comparing.Upholding
import Bytemark.Proofs.Registry.History
import Bytemark.Stream.Deserializer

/-!
# Registries only grow

Registration adds codecs behind those that are there and never takes one away, so every later call leaves all owners of
markers and all answers by type in place: one registry *grows into* another. A registry that has grown writes and reads
as it did before. The one thing that can change is a failure for want of a codec, when the codec has come since: a type
that nothing wrote when values were written, a marker that nobody owned when bytes were read.
-/

set_option autoImplicit false

namespace Bytemark.Registry

/-- Every owner of a marker and every answer by type is still there in the second registry. -/
structure GrowsInto (registry next : Registry) : Prop where
  owner {marker : Marker} {codec : Codec} (h : registry.owner? marker = some codec) : next.owner? marker = some codec
  answer {type : ValueType} {codec : Codec} (h : registry.codecForType type = .ok codec) :
    next.codecForType type = .ok codec

namespace GrowsInto

variable {registry next last : Registry}

/-- A registry has grown into itself. -/
theorem refl (registry : Registry) : registry.GrowsInto registry := ⟨id, id⟩

/-- What has grown twice has grown. -/
theorem trans (h : registry.GrowsInto next) (h' : next.GrowsInto last) : registry.GrowsInto last :=
  ⟨fun howner => h'.owner (h.owner howner), fun hanswer => h'.answer (h.answer hanswer)⟩

end GrowsInto

/-- Registries that answer alike have grown into each other. -/
theorem SameAnswers.growsInto {registry next : Registry} (h : registry.SameAnswers next) : registry.GrowsInto next where
  owner howner := (h.owner _).trans howner
  answer hanswer := (h.codecForType _).trans hanswer

/-- Registering a codec takes no marker and no type from those before it. -/
theorem Consistent.growsInto_register {registry next : Registry} (hc : registry.Consistent) {codec result : Codec}
    (h : Registry.register codec registry = .ok result next) : registry.GrowsInto next where
  owner {marker owner} howner := by
    rw [owner?_of_register h]
    split
    · rename_i hmarker
      -- A marker of the new codec had no owner.
      have hfree := (register_eq_ok_iff.1 h).1 marker hmarker
      rw [hfree] at howner
      cases howner
    · exact howner
  answer {type found} hanswer := by
    by_cases hnull : type = .null
    · subst hnull
      exact hanswer
    · obtain ⟨-, -, hnext⟩ := register_eq_ok_iff.1 h
      rw [hc.codecForType_eq_ok_iff hnull] at hanswer
      rw [(hc.register h).codecForType_eq_ok_iff hnull]
      refine firstWriter?_mono ?_ hanswer
      rw [hnext]
      exact List.prefix_append _ _

/-! ## Calls -/

/-- A computation leaves a registry behind into which the one before has grown. -/
def Grows {α : Type} (resolve : Resolve α) : Prop :=
  ∀ registry : Registry, registry.Consistent → registry.GrowsInto (after resolve registry)

/-- Look-ups take nothing away. -/
theorem Looks.grows {α : Type} {resolve : Resolve α} (h : Looks resolve) : Grows resolve := by
  intro registry hc
  obtain ⟨hc', hslots, hcodecs⟩ := h.quiet registry hc
  exact (hc.sameAnswers hc' hslots hcodecs).growsInto

/-- Two computations take nothing away if neither does. -/
theorem Grows.bind {α β : Type} {resolve : Resolve α} {f : α → Resolve β} (hkeeps : Keeps resolve)
    (hfirst : Grows resolve) (hnext : ∀ a, Grows (f a)) : Grows (resolve >>= f) := by
  intro registry hc
  have hconsistent := hkeeps registry hc
  have hgrows := hfirst registry hc
  rw [after_bind]
  cases h : resolve registry with
  | error e next =>
    rw [after_of_error h] at hgrows
    exact hgrows
  | ok a next =>
    rw [after_of_ok h] at hgrows hconsistent
    exact hgrows.trans (hnext a next hconsistent)

/-- Registering a codec takes nothing away, also if it fails. -/
theorem grows_register (codec : Codec) : Grows (register codec) := by
  intro registry hc
  cases h : register codec registry with
  | ok result next =>
    rw [after_of_ok h]
    exact hc.growsInto_register h
  | error e next =>
    obtain ⟨rfl, -⟩ := register_eq_error_iff.1 h
    rw [after_of_error h]
    exact .refl _

/-- No call takes anything away. -/
theorem Call.grows_perform (call : Call) : Grows call.perform := by
  cases call with
  | register codec => exact .bind (keeps_register codec) (grows_register codec) fun _ => (Looks.pure ()).grows
  | define plan =>
    have hdefine : Grows plan.define := .bind (looks_build plan).keeps (looks_build plan).grows grows_register
    exact .bind (keeps_define plan) hdefine fun _ => (Looks.pure ()).grows
  | _ => exact (Call.looks_perform rfl).grows

/-- Steps that take nothing away take nothing away together. -/
theorem growsInto_foldl {ι α : Type} {step : ι → Resolve α} (hkeeps : ∀ item, Keeps (step item))
    (hgrows : ∀ item, Grows (step item)) (items : List ι) {registry : Registry} (hc : registry.Consistent) :
    registry.GrowsInto (items.foldl (fun registry item => after (step item) registry) registry) := by
  induction items generalizing registry with
  | nil => exact .refl _
  | cons item items ih => exact (hgrows item registry hc).trans (ih (hkeeps item registry hc))

/-- Later calls take nothing away from what earlier ones have made. -/
theorem growsInto_run_append (calls later : List Call) : (run calls).GrowsInto (run (calls ++ later)) := by
  have hgrows := growsInto_foldl Call.keeps_perform Call.grows_perform later (consistent_run calls)
  unfold run at hgrows ⊢
  rwa [List.foldl_append]

/-! ## Values and bytes -/

/-- Writing failed because no codec writes a type. -/
def LacksWriter (e : Error) : Prop := ∃ type, e = .missingCodec type none

/-- Reading failed because nobody owns a marker. -/
def LacksOwner (e : Error) : Prop := ∃ marker, e = .unknownMarker marker

variable {registry next : Registry}

/-- A registry that has grown writes every value as before, unless a codec was missing. -/
theorem GrowsInto.upholds_write [RecordEquality] (h : registry.GrowsInto next) (value : Value) :
    Upholds LacksWriter (registry.write value) (next.write value) := by
  refine upholds_writeAs (fun type => ?_) value .any
  cases hanswer : registry.codecForType type with
  | ok codec => exact .inl (h.answer hanswer)
  | error e => exact .inr ⟨e, ⟨type, codecForType_eq_error hanswer⟩, rfl⟩

/-- A registry that has grown reads all bytes as before, unless a marker had no owner. -/
theorem GrowsInto.upholds_read [RecordEquality] (h : registry.GrowsInto next) :
    Upholds LacksOwner registry.read next.read := by
  refine upholds_readAs (fun marker => ?_) .any
  unfold codecForMarker
  cases howner : registry.owner? marker with
  | some codec =>
    left
    rw [h.owner howner]
  | none => exact .inr ⟨_, ⟨marker, rfl⟩, rfl⟩

/-! ## Streams -/

/-- The next value of a stream is read by the registry; a failure drops all that is left. -/
theorem deserializer_next [RecordEquality] (total : Nat) (input : Input) :
    Deserializer.next ⟨registry, total, input⟩ =
      if input.isEmpty then none
      else match registry.read input with
        | .ok value rest => some (.ok value, ⟨registry, total, rest⟩)
        | .error e _ => some (.error e, ⟨registry, total, []⟩) := by
  have hread : Deserializer.read ⟨registry, total, input⟩ =
      Deserializer.run registry.read ⟨registry, total, input⟩ := rfl
  unfold Deserializer.next Deserializer.isEmpty
  rw [hread]
  unfold Deserializer.run Input.guarded
  dsimp only
  cases registry.read input <;> rfl

/-- Iterating yields the same items as before, unless a marker had no owner. -/
theorem GrowsInto.drainUpTo [RecordEquality] (h : registry.GrowsInto next) (bound total : Nat) (input : Input) :
    (Deserializer.drainUpTo bound ⟨next, total, input⟩).1 = (Deserializer.drainUpTo bound ⟨registry, total, input⟩).1 ∨
      ∃ e, LacksOwner e ∧ .error e ∈ (Deserializer.drainUpTo bound ⟨registry, total, input⟩).1 := by
  induction bound generalizing input with
  | zero => exact .inl rfl
  | succ bound ih =>
    rw [Deserializer.drainUpTo, Deserializer.drainUpTo, deserializer_next, deserializer_next]
    by_cases hempty : input.isEmpty
    · rw [if_pos hempty, if_pos hempty]
      exact .inl rfl
    rw [if_neg hempty, if_neg hempty]
    rcases h.upholds_read input with hsame | ⟨e, left, hlacks, herror⟩
    · rw [hsame]
      cases registry.read input with
      | ok value rest =>
        rcases ih rest with hrest | ⟨e, hlacks, hmem⟩
        · exact .inl (congrArg (List.cons _) hrest)
        · exact .inr ⟨e, hlacks, List.mem_cons_of_mem _ hmem⟩
      | error e rest =>
        rcases ih [] with hrest | ⟨e, hlacks, hmem⟩
        · exact .inl (congrArg (List.cons _) hrest)
        · exact .inr ⟨e, hlacks, List.mem_cons_of_mem _ hmem⟩
    · rw [herror]
      exact .inr ⟨e, hlacks, List.mem_cons_self⟩

/-- Let a program make some calls on its registry, and then some more. What it could write in between, or could not
write for any other reason than a missing codec, it writes, or fails to write, with the same bytes in the end; what it
could read, or not read for any other reason than a marker without an owner, it reads, or fails to read, from the same
bytes; and a stream that did not meet such a marker yields the same items. -/
theorem run_append_upholds [RecordEquality] (calls later : List Call) :
    (∀ value output, (run (calls ++ later)).write value output = (run calls).write value output ∨
      ∃ type left, (run calls).write value output = .error (.missingCodec type none) left) ∧
    (∀ input, (run (calls ++ later)).read input = (run calls).read input ∨
      ∃ marker left, (run calls).read input = .error (.unknownMarker marker) left) ∧
    ∀ data, ((Deserializer.ofBytes (run (calls ++ later)) data).drain).1 =
        ((Deserializer.ofBytes (run calls) data).drain).1 ∨
      ∃ marker, .error (.unknownMarker marker) ∈ ((Deserializer.ofBytes (run calls) data).drain).1 := by
  have hgrows := growsInto_run_append calls later
  refine ⟨fun value output => ?_, fun input => ?_, fun data => ?_⟩
  · rcases hgrows.upholds_write value output with hsame | ⟨e, left, ⟨type, rfl⟩, herror⟩
    · exact .inl hsame
    · exact .inr ⟨type, left, herror⟩
  · rcases hgrows.upholds_read input with hsame | ⟨e, left, ⟨marker, rfl⟩, herror⟩
    · exact .inl hsame
    · exact .inr ⟨marker, left, herror⟩
  · rcases hgrows.drainUpTo data.length data.length data with hsame | ⟨e, ⟨marker, rfl⟩, hmem⟩
    · exact .inl hsame
    · exact .inr ⟨marker, hmem⟩

end Bytemark.Registry
