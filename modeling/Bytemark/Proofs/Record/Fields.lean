import Bytemark.Field.Lending
import Bytemark.Proofs.Comparing.Typed
import Bytemark.Proofs.Reading.Failures
import Bytemark.Proofs.Record.Bindings

/-!
# Fields are coded as their values are

On the *plain path* a field of a record is coded as a value of its own: by any codec if it holds values of every type,
and otherwise by the codec for its type, or by the one that is being defined if the type is its own. What is read is
then fitted to the field.

A field takes a shorter path if it can. It may be bound to a built-in codec directly, and it may lend its value instead
of handing it on. Neither shows in the bytes: whatever a field is bound to, it writes what the plain path writes, and it
reads what the plain path reads. Only a null where a value is needed is reported in another way by a field that is coded
directly.
-/

set_option autoImplicit false

namespace Bytemark

open Registry

variable {registry : Registry}

/-! ## Lending -/

/-- A field that lends its value writes what its codec writes for the value, if every codec that borrows it does. -/
theorem Binding.writeLent_eq [RecordEquality] {value : Value} {lend : FieldKind → Codec → Write}
    (h : ∀ kind codec, lend kind codec = registry.writeAs value (.boxed codec)) (type : FieldType) (self : Codec)
    (binding : Binding) :
    binding.writeLent registry value lend type self = registry.writeAs value (binding.resolve self) := by
  unfold writeLent
  split
  · rename_i hnull
    cases value with
    | null => rfl
    | _ => cases hnull.2
  · cases binding with
    | self => exact h _ self
    | through element =>
      cases element with
      | boxed codec => exact h _ codec
      | _ => rfl

/-- A slot is lent by writing its value through the binding of the field. -/
theorem lookup_slotLenders [RecordEquality] (slots : List (String × Value)) (name : String) :
    (registry.slotLenders slots).lookup name =
      (slots.lookup name).map fun value type self binding => binding.write registry self type value := by
  induction slots with
  | nil => rfl
  | cons slot slots ih =>
    rw [slotLenders, List.lookup_cons, List.lookup_cons, ih]
    split <;> rfl

/-- A field is lent as it is written, if the slots are. -/
theorem Field.lend_eq [RecordEquality] {slots : List (String × Value)}
    (h : ∀ slot ∈ slots, ∀ kind codec, registry.lend slot.2 kind codec = registry.writeAs slot.2 (.boxed codec))
    (self : Codec) (field : Field) :
    field.lend (registry.slotLenders slots) self = field.write (registry.slotWriters slots) self := by
  unfold Field.lend Field.write
  rw [lookup_slotLenders, lookup_slotWriters]
  cases hslot : slots.lookup field.info.source with
  | none => rfl
  | some value => exact Binding.writeLent_eq (h (_, value) (Value.mem_of_lookup hslot)) _ _ _

/-- A codec writes the same for a value that it borrows as for one that is handed to it. -/
theorem Registry.lend_eq [RecordEquality] (registry : Registry) (value : Value) (kind : FieldKind) (codec : Codec) :
    registry.lend value kind codec = registry.writeAs value (.boxed codec) := by
  induction value using Value.induction generalizing kind codec with
  | null => rfl
  | atom atom => rfl
  | map entries ih => rfl
  | array type items ih => rfl
  | variant type index =>
    unfold lend
    split
    · split
      · rename_i markers type' variants hsame
        unfold writeAs Codec.writeVariant
        exact (if_pos hsame).symm
      · rfl
    · rfl
  | sequence kind items ih =>
    unfold lend
    split
    · rfl
    · rfl
  | record type slots ih =>
    unfold lend
    split
    · rename_i markers type' fresh fields
      split
      · rename_i hsame
        -- The fields of the record lend their values in turn.
        simp only [Field.lend_eq ih]
        unfold writeAs
        exact (if_pos hsame).symm
      · rfl
    · rfl

/-- A field writes its value by the coding that it is bound to, whether it lends the value or hands it on. -/
theorem Binding.write_eq [RecordEquality] (registry : Registry) (self : Codec) (type : FieldType) (value : Value)
    (binding : Binding) :
    binding.write registry self type value = registry.writeAs value (binding.resolve self) :=
  binding.writeLent_eq (registry.lend_eq value) type self

/-! ## The plain path -/

/-- How a field of a kind is coded on the plain path, in a record of the type `building` whose codec is `self`. -/
def FieldKind.plain (registry : Registry) (building : ValueType) (self : Codec) (kind : FieldKind) :
    Except Error Element :=
  if kind = .any then return .any
  else if kind.valueType = building then return .boxed self
  else return .boxed (← registry.codecForType kind.valueType)

/-- Reads a field on the plain path: reads a value, and fits it to the field. -/
def FieldType.readPlain [RecordEquality] (nested : Element → Read Value) (type : FieldType) (element : Element) :
    Read Value := do
  ofExcept (type.convert (← nested element))

/-- Fields of a built-in kind are values of one type, which the codecs of just the kind write and no other. -/
theorem Codec.writes_iff_of_builtin {codec : Codec} {kind : FieldKind} (hkind : kind.builtin?.isSome)
    (hbuiltin : codec.builtin? = kind.builtin?) (type : ValueType) : codec.writes type ↔ type = kind.valueType := by
  cases kind with
  | enumeration name => cases hkind
  | record name => cases hkind
  | any => cases hkind
  | _ =>
    cases codec <;> cases hbuiltin
    simp [writes, FieldKind.valueType]

/-- A codec of just a field's kind is not one of collections, so it writes the same whichever way it is named. -/
theorem Registry.writeAs_direct_of_builtin [RecordEquality] (registry : Registry) {codec : Codec} {kind : FieldKind}
    (hbuiltin : codec.builtin? = kind.builtin?) (value : Value) :
    registry.writeAs value (.direct codec) = registry.writeAs value (.boxed codec) := by
  refine writeAs_congr rfl fun sequence markers part _ hcollection => ?_
  cases hcollection
  cases kind <;> cases hbuiltin

/-- What a codec of just a field's kind reads is put into the field as it is, unless it is null. -/
theorem Codec.cases_of_read_builtin [RecordEquality] {codec : Codec} {type : FieldType} (hlegal : codec.Legal)
    (hkind : type.kind.builtin?.isSome) (hbuiltin : codec.builtin? = type.kind.builtin?) {input rest : Input}
    {value : Value} (h : codec.read registry.readAs input = .ok value rest) :
    (value = .null ∧ input = Marker.null.toByte :: rest) ∨ (value.isNull = false ∧ type.convert value = .ok value) := by
  rcases cases_of_read hlegal h with hnull | ⟨hvalue, hwrites⟩
  · exact .inl hnull
  · have htype := (writes_iff_of_builtin hkind hbuiltin value.type).1 hwrites
    refine .inr ⟨?_, FieldType.convert_of_type htype⟩
    cases value with
    | null => exact absurd rfl hvalue
    | _ => rfl

/-- A field that is coded directly reads what the plain path reads. A null that has no place in it is an unexpected one
to the field, and of the wrong type to the plain path. -/
theorem Field.read_direct_eq_plain [RecordEquality] {info : FieldInfo} {codec : Codec} (hlegal : codec.Legal)
    (hkind : info.type.kind.builtin?.isSome) (hbuiltin : codec.builtin? = info.type.kind.builtin?) (self : Codec)
    (input : Input) :
    (Field.mk info (.through (.direct codec))).read registry.readAs self input =
        info.type.readPlain registry.readAs (.boxed codec) input ∨
      ∃ rest, input = Marker.null.toByte :: rest ∧ ¬ info.type.optional ∧
        (Field.mk info (.through (.direct codec))).read registry.readAs self input =
          .error (.unexpectedNull info.name) rest ∧
        info.type.readPlain registry.readAs (.boxed codec) input =
          .error (.typeMismatch info.type.kind.text (.foreign .null)) rest := by
  rw [Field.read_direct rfl, FieldType.readPlain, registry.readAs_boxed, registry.readAs_direct]
  simp only [bind, EStateM.bind]
  cases hread : codec.read registry.readAs input with
  | error e rest => exact .inl rfl
  | ok value rest =>
    dsimp only
    rcases Codec.cases_of_read_builtin hlegal hkind hbuiltin hread with ⟨rfl, hinput⟩ | ⟨hvalue, hconvert⟩
    · by_cases hoptional : info.type.optional
      · left
        rw [if_neg fun hnull => hnull.2 hoptional, FieldType.convert_null hoptional]
        rfl
      · have hany : info.type.kind ≠ .any := by
          intro hany
          rw [hany] at hkind
          cases hkind
        refine .inr ⟨rest, hinput, hoptional, ?_, ?_⟩
        · rw [if_pos ⟨rfl, hoptional⟩]
          rfl
        · rw [FieldType.convert_null_of_needed hoptional hany]
          rfl
    · left
      rw [if_neg (by simp [hvalue]), hconvert]
      rfl

/-! ## The law -/

/-- A field is bound to the coding of the plain path, or directly to the codec that the plain path goes through. -/
theorem Binding.Found.plain {binding : Binding} {building : String} {kind : FieldKind}
    (h : binding.Found registry (.record building) kind) (self : Codec) :
    (kind.plain registry (.record building) self = .ok (binding.resolve self) ∧
      ∀ codec, binding.resolve self ≠ .direct codec) ∨
    ∃ codec, binding = .through (.direct codec) ∧ kind.plain registry (.record building) self = .ok (.boxed codec) ∧
      registry.codecForType kind.valueType = .ok codec ∧ kind.builtin?.isSome ∧
      codec.builtin? = kind.builtin? := by
  unfold FieldKind.plain
  cases h with
  | @direct codec hanswer hkind hbuiltin =>
    have hany : kind ≠ .any := by
      rintro rfl
      cases hkind
    have hother : kind.valueType ≠ .record building := by
      cases kind with
      | record name => cases hkind
      | _ => exact nofun
    refine .inr ⟨codec, rfl, ?_, hanswer, hkind, hbuiltin⟩
    rw [if_neg hany, if_neg hother, hanswer]
    rfl
  | self hself =>
    have hany : kind ≠ .any := by
      rintro rfl
      cases hself
    rw [if_neg hany, if_pos hself]
    exact .inl ⟨rfl, nofun⟩
  | any _ hany =>
    rw [if_pos hany]
    exact .inl ⟨rfl, nofun⟩
  | boxed hother hany hanswer =>
    rw [if_neg hany, if_neg hother, hanswer]
    exact .inl ⟨rfl, nofun⟩

/-- Whatever a field is bound to in a reachable registry, the plain path has a coding for it there. From then on, in
whatever registry the field is used, it writes each value as the plain path writes it, and it reads the same from the
same bytes. The two differ only over a null where the field is coded directly and needs a value: this the field reports
under its own name, and the plain path as a value of the wrong type. -/
theorem FieldKind.bind_agrees_with_plain [RecordEquality] (hreach : ∃ made, Reachable registry made) {building : String}
    {kind : FieldKind} {binding : Binding} {bound : Registry}
    (hbind : kind.bind (.record building) registry = .ok binding bound) (self : Codec) :
    ∃ plain, kind.plain registry (.record building) self = .ok plain ∧
      ∀ (now : Registry) (info : FieldInfo), info.type.kind = kind →
        (∀ value, binding.write now self info.type value = now.writeAs value plain) ∧
        ∀ input,
          (Field.mk info binding).read now.readAs self input = info.type.readPlain now.readAs plain input ∨
          ∃ rest, (∃ codec, binding = .through (.direct codec)) ∧ ¬ info.type.optional ∧
            input = Marker.null.toByte :: rest ∧
            (Field.mk info binding).read now.readAs self input = .error (.unexpectedNull info.name) rest ∧
            info.type.readPlain now.readAs plain input =
              .error (.typeMismatch kind.text (.foreign .null)) rest := by
  obtain ⟨made, hreach⟩ := hreach
  have hsound := hreach.sound.1
  have hfound := found_of_bind hbind
  rcases hfound.plain self with ⟨hplain, hboxed⟩ | ⟨codec, rfl, hplain, hanswer, hkind, hbuiltin⟩
  · refine ⟨_, hplain, fun now info _ => ⟨fun value => binding.write_eq now self info.type value, fun input => .inl ?_⟩⟩
    rw [Field.read_converted hboxed]
    rfl
  · refine ⟨_, hplain, ?_⟩
    rintro now info rfl
    have hlegal : codec.Legal := by
      rcases hsound.known hanswer with ⟨hnull, -⟩ | ⟨hmem, -⟩
      · exact absurd hnull info.type.kind.valueType_ne_null
      · exact hsound.legal hmem
    constructor
    · intro value
      rw [Binding.write_eq]
      exact now.writeAs_direct_of_builtin hbuiltin value
    · intro input
      rcases Field.read_direct_eq_plain hlegal hkind hbuiltin self input with
        hsame | ⟨rest, hinput, hneeded, hfield, hother⟩
      · exact .inl hsame
      · exact .inr ⟨rest, ⟨codec, rfl⟩, hneeded, hinput, hfield, hother⟩

set_option maxRecDepth 2000 in
/-- A field of queues is bound to the codec of collections, which borrows its value. Later, when there are records, the
field writes and reads what the plain path does. -/
theorem FieldKind.bind_agrees_with_plain_queue :
    let queue : FieldKind := .sequence .queue
    let info : FieldInfo := ⟨"items", "items", "items", ⟨queue, true⟩⟩
    queue.bind (.record "node") (ofRecipes nodeRecipes) =
      .ok (.through (.boxed nodeItems)) ((ofRecipes nodeRecipes).remember (.sequence .queue) nodeItems) ∧
    ∃ plain, queue.plain (ofRecipes nodeRecipes) (.record "node") nodeCodec = .ok plain ∧
      (∀ value, (Binding.through (.boxed nodeItems)).write nodeRegistry nodeCodec info.type value =
        nodeRegistry.writeAs value plain) ∧
      ∀ input, (Field.mk info (.through (.boxed nodeItems))).read nodeRegistry.readAs nodeCodec input =
        info.type.readPlain nodeRegistry.readAs plain input := by
  intro queue info
  have hbind : queue.bind (.record "node") (ofRecipes nodeRecipes) =
      .ok (.through (.boxed nodeItems)) ((ofRecipes nodeRecipes).remember (.sequence .queue) nodeItems) := rfl
  obtain ⟨plain, hplain, hagrees⟩ := bind_agrees_with_plain (reachable_ofRecipes nodeRecipes) hbind nodeCodec
  obtain ⟨hwrite, hread⟩ := hagrees nodeRegistry info rfl
  refine ⟨hbind, plain, hplain, hwrite, fun input => ?_⟩
  rcases hread input with hsame | ⟨_, ⟨_, hdirect⟩, -⟩
  · exact hsame
  · cases hdirect

end Bytemark
