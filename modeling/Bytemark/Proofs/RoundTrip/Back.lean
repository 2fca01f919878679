import Bytemark.Proofs.Registry.Soundness
import Bytemark.Registry.Read
import Bytemark.Registry.Write

/-!
# What a value comes back as

Writing a value and reading it again does not always give the same value. A sequence that was written by the codec of
collections comes back as a list; sets and maps are built anew from their elements and entries, in order; a variant
comes back as the first of those listed that it equals; and a record comes back as a fresh record with its fields put
into it, each fitted to the field's type. `Registry.back` is the value that comes back, found without a byte being
written or read.

A record's slots are typed: a field's slot is there, and holds a value of the field's type. `Registry.Admits` says so of
every record inside a value, and nothing about anything else.

`Registry.Restores` holds of values that lose nothing on the way: sets and maps without repetitions, variants that no
other stands in for, and records whose codec puts into a fresh record just what the record holds. Where every kind of
sequence has a codec of its own, such values come back as they were.
-/

set_option autoImplicit false

namespace Bytemark

/-- The value that a field holds after another was put into it. -/
def FieldType.fitted [RecordEquality] (type : FieldType) (value : Value) : Value :=
  match type.convert value with
  | .ok fitted => fitted
  | .error _ => value

/-- Whether a field of the type may hold a value: null if it is optional, and values of its kind. -/
def FieldType.Holds (type : FieldType) (value : Value) : Prop :=
  (type.optional ∧ value = .null) ∨ type.kind = .any ∨ value.type = type.kind.valueType

/-- What a field of a record comes back as, where `backs` says it for the values of the slots. -/
def Field.back [RecordEquality] (backs : List (String × (Element → Value))) (self : Codec) (field : Field) : Value :=
  match backs.lookup field.info.source with
  | some back => field.info.type.fitted (back (field.binding.resolve self))
  | none => field.info.type.fitted .null

namespace Registry

mutual

/-- What a value that was written as an element comes back as. -/
def backAs [RecordEquality] (registry : Registry) : Value → Element → Value
  | .null, _ => .null
  | .atom atom, _ => .atom atom
  | .variant type index, element =>
    match element.writer registry (.enumeration type) with
    | .ok (.enumeration _ type' variants) =>
      if type = type' then .variant type ((Codec.listed? type variants index).getD index) else .variant type index
    | _ => .variant type index
  | .sequence kind items, element =>
    match element.writer registry (.sequence kind) with
    | .ok (.sequence _ _ part) => kind.collect (backItems registry items part)
    | .ok (.collection _ part) => .sequence .list (backItems registry items part)
    | _ => .sequence kind items
  | .map entries, element =>
    match element.writer registry .map with
    | .ok (.map _ key value) => .map (Value.distinctEntries (backEntries registry entries key value))
    | _ => .map entries
  | .array type items, element =>
    match element.writer registry (.array type) with
    | .ok (.array _ _ part) => .array type (backItems registry items part)
    | _ => .array type items
  | .record type slots, element =>
    match element.writer registry (.record type) with
    | .ok (.record markers type' fresh fields) =>
      if type = type' then
        let backs := slotBacks registry slots
        .record type (fields.foldl (fun slots field =>
          setSlot slots field.info.target (field.back backs (.record markers type' fresh fields))) fresh)
      else
        .record type slots
    | _ => .record type slots

/-- What values come back as, each written as the element. -/
def backItems [RecordEquality] (registry : Registry) : List Value → Element → List Value
  | [], _ => []
  | item :: items, element => backAs registry item element :: backItems registry items element

/-- What the keys and the values of entries come back as. -/
def backEntries [RecordEquality] (registry : Registry) : List (Value × Value) → Element → Element → List (Value × Value)
  | [], _, _ => []
  | (key, value) :: entries, keyElement, valueElement =>
    (backAs registry key keyElement, backAs registry value valueElement) ::
      backEntries registry entries keyElement valueElement

/-- What the values of slots come back as, by the slots' names. -/
def slotBacks [RecordEquality] (registry : Registry) : List (String × Value) → List (String × (Element → Value))
  | [] => []
  | (name, value) :: slots => (name, backAs registry value) :: slotBacks registry slots

end

/-- What a value that was written with the codec for its type comes back as. -/
def back [RecordEquality] (registry : Registry) (value : Value) : Value := registry.backAs value .any

/-- In every record inside the value, each field of the record's codec finds its slot, and a value of its type there. -/
inductive Admits (registry : Registry) : Value → Prop
  | null : Admits registry .null
  | atom (atom : Atom) : Admits registry (.atom atom)
  | variant (type : String) (index : UInt16) : Admits registry (.variant type index)
  | sequence {kind : SequenceKind} {items : List Value} (hitems : ∀ item ∈ items, Admits registry item) :
      Admits registry (.sequence kind items)
  | map {entries : List (Value × Value)} (hkeys : ∀ entry ∈ entries, Admits registry entry.1)
      (hvalues : ∀ entry ∈ entries, Admits registry entry.2) : Admits registry (.map entries)
  | array {type : ValueType} {items : List Value} (hitems : ∀ item ∈ items, Admits registry item) :
      Admits registry (.array type items)
  | record {type : String} {slots : List (String × Value)} (hslots : ∀ slot ∈ slots, Admits registry slot.2)
      (hfields : ∀ markers fresh fields,
        registry.codecForType (.record type) = .ok (.record markers type fresh fields) →
        ∀ field ∈ fields, ∃ value, slots.lookup field.info.source = some value ∧ field.info.type.Holds value) :
      Admits registry (.record type slots)

/-- Sets and maps inside the value have no repetitions, every variant inside it is written as itself, and every record
inside it is what its codec makes of a fresh record by putting the fields into it. -/
inductive Restores [RecordEquality] (registry : Registry) : Value → Prop
  | null : Restores registry .null
  | atom (atom : Atom) : Restores registry (.atom atom)
  | variant {type : String} {index : UInt16}
      (hlisted : ∀ markers variants, .enumeration markers type variants ∈ registry.codecs →
        ∀ variant, Codec.listed? type variants index = some variant → variant = index) :
      Restores registry (.variant type index)
  | sequence {kind : SequenceKind} {items : List Value} (hitems : ∀ item ∈ items, Restores registry item)
      (hdistinct : kind = .set → Value.distinct items = items) : Restores registry (.sequence kind items)
  | map {entries : List (Value × Value)} (hkeys : ∀ entry ∈ entries, Restores registry entry.1)
      (hvalues : ∀ entry ∈ entries, Restores registry entry.2)
      (hdistinct : Value.distinctEntries entries = entries) : Restores registry (.map entries)
  | array {type : ValueType} {items : List Value} (hitems : ∀ item ∈ items, Restores registry item) :
      Restores registry (.array type items)
  | record {type : String} {slots : List (String × Value)} (hslots : ∀ slot ∈ slots, Restores registry slot.2)
      (hfields : ∀ markers fresh fields,
        registry.codecForType (.record type) = .ok (.record markers type fresh fields) →
        fields.foldl (fun slots' field =>
          setSlot slots' field.info.target ((slots.lookup field.info.source).getD .null)) fresh = slots) :
      Restores registry (.record type slots)

/-- Every kind of sequence that has a codec has one of its own kind. -/
def KeepsKinds (registry : Registry) : Prop :=
  ∀ kind markers part, registry.codecForType (.sequence kind) ≠ .ok (.collection markers part)

/-- The elements of a sequence are admitted if the sequence is. -/
theorem Admits.item {registry : Registry} {kind : SequenceKind} {items : List Value}
    (h : registry.Admits (.sequence kind items)) : ∀ item ∈ items, registry.Admits item := by
  cases h with
  | sequence hitems => exact hitems

/-- The items of an array are admitted if the array is. -/
theorem Admits.arrayItem {registry : Registry} {type : ValueType} {items : List Value}
    (h : registry.Admits (.array type items)) : ∀ item ∈ items, registry.Admits item := by
  cases h with
  | array hitems => exact hitems

/-- The keys and values of a map are admitted if the map is. -/
theorem Admits.entry {registry : Registry} {entries : List (Value × Value)} (h : registry.Admits (.map entries)) :
    ∀ entry ∈ entries, registry.Admits entry.1 ∧ registry.Admits entry.2 := by
  cases h with
  | map hkeys hvalues => exact fun entry hentry => ⟨hkeys entry hentry, hvalues entry hentry⟩

/-- An admitted record has the slots that the codec of its type reads, and they hold what the fields may hold. -/
theorem Admits.slot {registry : Registry} {type : String} {slots fresh : List (String × Value)} {markers : MarkerRange}
    {fields : List Field} (h : registry.Admits (.record type slots))
    (hcodec : registry.codecForType (.record type) = .ok (.record markers type fresh fields)) :
    ∀ field ∈ fields, ∃ value, slots.lookup field.info.source = some value ∧ field.info.type.Holds value ∧
      registry.Admits value := by
  cases h with
  | record hslots hfields =>
    intro field hfield
    obtain ⟨value, hslot, hholds⟩ := hfields markers fresh fields hcodec field hfield
    exact ⟨value, hslot, hholds, hslots _ (Value.mem_of_lookup hslot)⟩

/-! ## Parts -/

section Parts

variable [RecordEquality] (registry : Registry)

/-- Elements come back one by one. -/
theorem backItems_eq_map (items : List Value) (part : Element) :
    registry.backItems items part = items.map fun item => registry.backAs item part := by
  induction items with
  | nil => rfl
  | cons item items ih => rw [backItems, ih, List.map_cons]

/-- Entries come back one by one, each key and each value in its own coding. -/
theorem backEntries_eq_map (entries : List (Value × Value)) (key value : Element) :
    registry.backEntries entries key value =
      entries.map fun entry => (registry.backAs entry.1 key, registry.backAs entry.2 value) := by
  induction entries with
  | nil => rfl
  | cons entry entries ih => rw [backEntries, ih, List.map_cons]

/-- A slot comes back as its value does. -/
theorem lookup_slotBacks (slots : List (String × Value)) (name : String) :
    (registry.slotBacks slots).lookup name = (slots.lookup name).map registry.backAs := by
  induction slots with
  | nil => rfl
  | cons slot slots ih =>
    rw [slotBacks, List.lookup_cons, List.lookup_cons, ih]
    split <;> rfl

/-- A field comes back as the value of its slot does, fitted to the field. -/
theorem back_field (slots : List (String × Value)) (self : Codec) (field : Field) :
    field.back (registry.slotBacks slots) self = field.info.type.fitted
      (registry.backAs ((slots.lookup field.info.source).getD .null) (field.binding.resolve self)) := by
  unfold Field.back
  rw [lookup_slotBacks]
  cases slots.lookup field.info.source with
  | none => rw [Option.map_none, Option.getD_none, backAs]
  | some value => rfl

end Parts

end Registry

/-! ## Types -/

/-- What is put together as a sequence of some kind is of this kind. -/
theorem SequenceKind.type_collect [RecordEquality] (kind : SequenceKind) (items : List Value) :
    (kind.collect items).type = .sequence kind := by
  cases kind <;> rfl

/-- A sequence is put together from its own elements, if a set has no repetitions. -/
theorem SequenceKind.collect_eq_self [RecordEquality] (kind : SequenceKind) {items : List Value}
    (h : kind = .set → Value.distinct items = items) : kind.collect items = .sequence kind items := by
  cases kind with
  | set => rw [collect, h rfl]
  | list => rfl
  | queue => rfl

/-- A value comes back with its type, apart from sequences, which may come back as lists. -/
theorem Registry.type_backAs [RecordEquality] (registry : Registry) (value : Value) (element : Element) :
    (registry.backAs value element).type = value.type ∨
      (∃ kind, value.type = .sequence kind) ∧ (registry.backAs value element).type = .sequence .list := by
  cases value with
  | sequence kind items =>
    unfold backAs
    split
    · exact .inl (kind.type_collect _)
    · exact .inr ⟨⟨kind, rfl⟩, rfl⟩
    · exact .inl rfl
  | _ =>
    left
    unfold backAs
    repeat' split
    all_goals rfl

/-- A variant comes back as itself or as another that it equals. -/
theorem Registry.backAs_variant [RecordEquality] (registry : Registry) (type : String) (index : UInt16)
    (element : Element) : ∃ index', registry.backAs (.variant type index) element = .variant type index' ∧
      (index' = index ∨ RecordEquality.variants type index index') := by
  unfold backAs
  split
  · rename_i variants _
    split
    · cases hlisted : Codec.listed? type variants index with
      | none => exact ⟨index, rfl, .inl rfl⟩
      | some variant =>
        have hequal := List.find?_some (p := fun variant => RecordEquality.variants type index variant) hlisted
        exact ⟨variant, rfl, .inr hequal⟩
    · exact ⟨index, rfl, .inl rfl⟩
  · exact ⟨index, rfl, .inl rfl⟩

/-- No field is for nulls alone. -/
theorem FieldKind.valueType_ne_null (kind : FieldKind) : kind.valueType ≠ .null := by
  cases kind <;> simp [FieldKind.valueType]

namespace FieldType

variable [RecordEquality] {type : FieldType} {value : Value}

/-- A value of the field's type is put into the field as it is. -/
theorem convert_of_type (h : value.type = type.kind.valueType) : type.convert value = .ok value := by
  have hnull : ¬ (type.optional ∧ value.isNull) := by
    rintro ⟨-, hnull⟩
    cases value with
    | null => exact type.kind.valueType_ne_null h.symm
    | _ => cases hnull
  unfold convert
  rw [if_neg hnull]
  split
  · rfl
  · rfl
  · rename_i kind items hset hkind
    rw [hkind] at h
    cases h
    exact absurd rfl hset
  · rename_i kind' kind items _ _ hkind
    rw [hkind] at h
    cases h
    rfl
  · rw [if_pos h]

/-- A field of any type takes every value as it is. -/
theorem convert_of_any (h : type.kind = .any) : type.convert value = .ok value := by
  unfold convert
  split
  · rename_i hnull
    cases value with
    | null => rfl
    | _ => cases hnull.2
  · rw [h]

/-- An optional field takes null. -/
theorem convert_null (h : type.optional) : type.convert .null = .ok .null := by
  unfold convert
  rw [if_pos ⟨h, rfl⟩]

/-- A value that a field may hold is put into it as it is. -/
theorem convert_of_holds (h : type.Holds value) : type.convert value = .ok value := by
  rcases h with ⟨hoptional, rfl⟩ | hany | htype
  · exact convert_null hoptional
  · exact convert_of_any hany
  · exact convert_of_type htype

/-- A field for sequences takes sequences of every kind. -/
theorem convert_sequence {kind kind' : SequenceKind} (hkind : type.kind = .sequence kind)
    (h : value.type = .sequence kind') : ∃ fitted, type.convert value = .ok fitted := by
  cases value with
  | sequence kind'' items =>
    unfold convert
    rw [if_neg (by simp [Value.isNull]), hkind]
    cases kind <;> cases kind'' <;> exact ⟨_, rfl⟩
  | _ => cases h

/-- Whatever comes back for a value that a field may hold can be put into the field. -/
theorem convert_back (registry : Registry) (element : Element) (h : type.Holds value) :
    type.convert (registry.backAs value element) = .ok (type.fitted (registry.backAs value element)) := by
  have hsome : ∃ fitted, type.convert (registry.backAs value element) = .ok fitted := by
    rcases h with ⟨hoptional, rfl⟩ | hany | htype
    · rw [Registry.backAs]
      exact ⟨_, convert_null hoptional⟩
    · exact ⟨_, convert_of_any hany⟩
    · rcases registry.type_backAs value element with hsame | ⟨⟨kind, hkind⟩, hlist⟩
      · exact ⟨_, convert_of_type (hsame.trans htype)⟩
      · have hsequence : type.kind = .sequence kind := by
          rw [hkind] at htype
          cases hfield : type.kind <;> rw [hfield] at htype <;> cases htype
          rfl
        exact convert_sequence hsequence hlist
  obtain ⟨fitted, hfitted⟩ := hsome
  rw [hfitted, FieldType.fitted, hfitted]

end FieldType

end Bytemark
