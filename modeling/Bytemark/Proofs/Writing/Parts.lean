import Bytemark.Proofs.Reading.Tidy
import Bytemark.Proofs.RoundTrip.Values
import Mathlib.Data.List.Basic

/-!
# A value and its parts

Every codec writes a value in three steps: what announces the parts, the parts in their order, each in the coding that
the codec has for it, and what ends them. `Codec.head`, `Codec.parts` and `Codec.last` say what the steps are, and
`Registry.writeAs_of_writes` that they are all there is to writing a value by a codec that writes its type.
`Registry.writeAs_of_not_writes` is the other half: whatever the codec and the value are, a codec refuses a value whose
type it does not write, before it has written anything.

So what can be written and what goes wrong are questions about single heads and about lists of parts, and not about the
codecs one by one. `Writes` and `Fails` are the two ends of a writer that only appends.
-/

set_option autoImplicit false

namespace Bytemark

/-! ## Writers that succeed and writers that fail -/

/-- The writer succeeds, whatever has been written before. -/
def Writes (write : Write) : Prop := ∃ bytes, Emits write bytes

/-- The writer fails with an error, whatever has been written before. -/
def Fails (write : Write) (e : Error) : Prop := ∃ bytes, Appends write (.error e) bytes

/-- A writer that depends on nothing either succeeds always or fails always. -/
theorem Uniform.writes_or_fails {write : Write} (h : Uniform write) : Writes write ∨ ∃ e, Fails write e := by
  obtain ⟨result, bytes, h⟩ := h
  cases result with
  | ok _ => exact .inl ⟨bytes, h⟩
  | error e => exact .inr ⟨e, bytes, h⟩

/-- A run that fails shows the error. -/
theorem Fails.eq_of_run {write : Write} {e e' : Error} {output written : Output} (h : Fails write e)
    (hrun : write output = .error e' written) : e = e' := by
  obtain ⟨bytes, h⟩ := h
  have hsame := (h output).symm.trans hrun
  injection hsame

/-- A writer fails with one error. -/
theorem Fails.unique {write : Write} {e e' : Error} (h : Fails write e) (h' : Fails write e') : e = e' := by
  obtain ⟨bytes, h'⟩ := h'
  exact h.eq_of_run (h' #[])

/-- A writer that fails does not succeed. -/
theorem Fails.not_writes {write : Write} {e : Error} (h : Fails write e) : ¬ Writes write := by
  rintro ⟨bytes, hemits⟩
  obtain ⟨bytes', h⟩ := h
  cases (hemits #[]).symm.trans (h #[])

/-- What fails at once fails. -/
theorem fails_throw (e : Error) : Fails (throw e) e := ⟨[], .throw e⟩

/-- One run that succeeds shows that all do. -/
theorem Writes.iff_of_run {write : Write} (h : Uniform write) (output : Output) :
    (∃ written, write output = .ok () written) ↔ Writes write := by
  constructor
  · rintro ⟨written, hrun⟩
    obtain ⟨bytes, hemits, -⟩ := h.emits_of_ok hrun
    exact ⟨bytes, hemits⟩
  · rintro ⟨bytes, hemits⟩
    exact ⟨_, hemits output⟩

section Sequences

variable {first : Write} {next : Unit → Write} {α : Type} {items : List α} {write : α → Write}

/-- A sequence of two writers succeeds if both do. -/
theorem writes_bind_iff (hfirst : Uniform first) (hnext : Uniform (next ())) :
    Writes (first >>= next) ↔ Writes first ∧ Writes (next ()) := by
  constructor
  · rintro ⟨bytes, h⟩
    obtain ⟨front, back, hfront, hback, -⟩ := hfirst.emits_bind hnext h
    exact ⟨⟨front, hfront⟩, back, hback⟩
  · rintro ⟨⟨front, hfront⟩, back, hback⟩
    exact ⟨front ++ back, hfront.bind hback⟩

/-- A sequence of two writers fails as the first does, or as the second after the first has succeeded. -/
theorem fails_bind_iff (hfirst : Uniform first) (hnext : Uniform (next ())) {e : Error} :
    Fails (first >>= next) e ↔ Fails first e ∨ Writes first ∧ Fails (next ()) e := by
  constructor
  · intro h
    rcases hfirst.writes_or_fails with ⟨front, hfront⟩ | ⟨e', front, hfront⟩
    · rcases hnext.writes_or_fails with hback | ⟨e', back, hback⟩
      · exact absurd ((writes_bind_iff hfirst hnext).2 ⟨⟨front, hfront⟩, hback⟩) h.not_writes
      · obtain rfl := h.unique ⟨_, hfront.bind hback⟩
        exact .inr ⟨⟨front, hfront⟩, back, hback⟩
    · obtain rfl := h.unique ⟨_, hfront.bind_error⟩
      exact .inl ⟨front, hfront⟩
  · rintro (⟨front, hfront⟩ | ⟨⟨front, hfront⟩, back, hback⟩)
    · exact ⟨front, hfront.bind_error⟩
    · exact ⟨_, hfront.bind hback⟩

/-- A run of writers succeeds if all of them do. -/
theorem writes_forM_iff (h : ∀ item ∈ items, Uniform (write item)) :
    Writes (items.forM write) ↔ ∀ item ∈ items, Writes (write item) := by
  induction items with
  | nil => exact ⟨fun _ _ hmem => (nomatch hmem), fun _ => ⟨[], .pure⟩⟩
  | cons item items ih =>
    rw [List.forall_mem_cons] at h
    rw [List.forall_mem_cons, ← ih h.2]
    exact writes_bind_iff h.1 (.forM h.2)

/-- A run of writers fails as one of them does. -/
theorem fails_forM (h : ∀ item ∈ items, Uniform (write item)) {e : Error} (hfails : Fails (items.forM write) e) :
    ∃ item ∈ items, Fails (write item) e := by
  induction items with
  | nil => exact absurd ⟨[], .pure⟩ hfails.not_writes
  | cons item items ih =>
    rw [List.forall_mem_cons] at h
    rcases (fails_bind_iff h.1 (.forM h.2)).1 hfails with hfirst | ⟨-, hrest⟩
    · exact ⟨item, List.mem_cons_self, hfirst⟩
    · obtain ⟨other, hmem, hother⟩ := ih h.2 hrest
      exact ⟨other, List.mem_cons_of_mem _ hmem, hother⟩

end Sequences

/-! ## The steps of a codec -/

namespace Codec

/-- The parts of a value that the codec writes, in their order, each with its coding. -/
def parts : Codec → Value → List (Element × Value)
  | sequence _ _ part, .sequence _ items => items.map fun item => (part, item)
  | collection _ part, .sequence _ items => items.map fun item => (part, item)
  | map _ key value, .map entries => entries.flatMap fun entry => [(key, entry.1), (value, entry.2)]
  | array _ _ part, .array _ items => items.map fun item => (part, item)
  | record markers type fresh fields, .record _ slots =>
    fields.map fun field =>
      (field.binding.resolve (record markers type fresh fields), (slots.lookup field.info.source).getD .null)
  | _, _ => []

/-- The number of bytes or of parts that the codec writes in front of them, if it does. -/
def size? : Codec → Value → Option Nat
  | atom _, .atom leaf => some leaf.size
  | sequence _ _ _, .sequence _ items => some items.length
  | map _ _ _, .map entries => some entries.length
  | array _ _ _, .array _ items => some items.length
  | _, _ => none

/-- Null has no parts. -/
theorem parts_null (codec : Codec) : codec.parts .null = [] := by cases codec <;> rfl

/-- Null has no size. -/
theorem size?_null (codec : Codec) : codec.size? .null = none := by cases codec <;> rfl

/-- A variant is one of those that the codec lists. -/
def Lists [RecordEquality] : Codec → Value → Prop
  | enumeration _ _ variants, .variant type index => ∃ variant ∈ variants, RecordEquality.variants type index variant
  | _, _ => True

/-- Writes what comes in front of the parts. -/
def head [RecordEquality] : Codec → Value → Write
  | atom codec, .atom leaf => codec.write leaf
  | enumeration markers _ variants, .variant type index =>
    match ordinal? type variants index with
    | some ordinal => Output.markerAnd markers.base (ordinal - 128) 1
    | none => throw (.typeMismatch type (.unlisted type index))
  | sequence markers _ _, .sequence _ items => Size.write markers.base items.length
  | collection markers _, .sequence _ _ => Output.marker markers.base
  | map markers _ _, .map entries => Size.write markers.base entries.length
  | array markers _ _, .array _ items =>
    if items.length ≤ Size.max then Output.markerAnd markers.base items.length 4
    else throw (.sizeOverflow items.length)
  | record markers _ _ _, .record _ _ => Output.marker markers.base
  | _, _ => pure ()

/-- Writes what ends the parts. -/
def last : Codec → Value → Write
  | collection markers _, .sequence _ _ => Output.marker (markers.markerAt 1)
  | _, _ => pure ()

end Codec

/-- The codec of collections is not coded directly, so that it takes sequences of any kind. -/
def Element.Plain (element : Element) : Prop := ∀ markers part, element ≠ .direct (.collection markers part)

/-- Part by part, a property of all values is a property of each value that holds if it holds of the value's parts. -/
theorem Value.parts_induction {motive : Value → Prop}
    (step : ∀ value, (∀ codec : Codec, ∀ part ∈ codec.parts value, motive part.2) → motive value) (value : Value) :
    motive value := by
  have hleaf : ∀ value, (∀ codec : Codec, codec.parts value = []) → motive value := by
    intro value hnone
    refine step value fun codec part hpart => ?_
    rw [hnone] at hpart
    cases hpart
  have hnull : motive .null := hleaf .null Codec.parts_null
  induction value using Value.induction with
  | null => exact hnull
  | atom atom => exact hleaf _ fun codec => by cases codec <;> rfl
  | variant type index => exact hleaf _ fun codec => by cases codec <;> rfl
  | sequence kind items ih =>
    refine step _ fun codec part hpart => ?_
    have hitems : ∀ element : Element, part ∈ items.map (fun item => (element, item)) → motive part.2 := by
      intro element hmem
      obtain ⟨item, hitem, rfl⟩ := List.mem_map.1 hmem
      exact ih item hitem
    cases codec with
    | sequence markers kind' element => exact hitems element hpart
    | collection markers element => exact hitems element hpart
    | _ => cases hpart
  | map entries ih =>
    refine step _ fun codec part hpart => ?_
    cases codec with
    | map markers key value =>
      obtain ⟨entry, hentry, hmem⟩ := List.mem_flatMap.1 hpart
      obtain ⟨hkey, hvalue⟩ := ih entry hentry
      rcases List.mem_pair.1 hmem with rfl | rfl
      · exact hkey
      · exact hvalue
    | _ => cases hpart
  | array type items ih =>
    refine step _ fun codec part hpart => ?_
    cases codec with
    | array markers type' element =>
      obtain ⟨item, hitem, rfl⟩ := List.mem_map.1 hpart
      exact ih item hitem
    | _ => cases hpart
  | record type slots ih =>
    refine step _ fun codec part hpart => ?_
    cases codec with
    | record markers type' fresh fields =>
      obtain ⟨field, -, rfl⟩ := List.mem_map.1 hpart
      cases hslot : slots.lookup field.info.source with
      | none => exact hnull
      | some value => exact ih _ (Value.mem_of_lookup hslot)
    | _ => cases hpart

/-! ## Codecs by what they write -/

namespace Codec

variable {codec : Codec}

/-- Atoms of a type are written by the codecs of atoms whose form has the type. -/
theorem writes_atom_iff {type : AtomType} :
    codec.writes (.atom type) ↔ ∃ leaf, codec = .atom leaf ∧ type = leaf.form.type := by
  cases codec <;> simp [writes]

/-- Variants are written by the codecs of their enumeration. -/
theorem writes_enumeration_iff {type : String} :
    codec.writes (.enumeration type) ↔ ∃ markers variants, codec = .enumeration markers type variants := by
  cases codec <;> simp [writes, eq_comm]

/-- Sequences are written by the codecs of their kind, and by those of collections. -/
theorem writes_sequence_iff {kind : SequenceKind} :
    codec.writes (.sequence kind) ↔
      (∃ markers part, codec = .sequence markers kind part) ∨ ∃ markers part, codec = .collection markers part := by
  cases codec <;> cases kind <;> simp [writes, eq_comm]

/-- Maps are written by the codecs of maps. -/
theorem writes_map_iff : codec.writes .map ↔ ∃ markers key value, codec = .map markers key value := by
  cases codec <;> simp [writes]

/-- Arrays are written by the codecs of arrays with their type of items. -/
theorem writes_array_iff {type : ValueType} :
    codec.writes (.array type) ↔ ∃ markers part, codec = .array markers type part := by
  cases codec <;> simp [writes, eq_comm]

/-- Records are written by the codecs of their type. -/
theorem writes_record_iff {type : String} :
    codec.writes (.record type) ↔ ∃ markers fresh fields, codec = .record markers type fresh fields := by
  cases codec <;> simp [writes, eq_comm]

end Codec

/-! ## Writing is writing the steps -/

/-- A codec of atoms refuses atoms of other types, and names the type. -/
theorem AtomCodec.write_of_ne {codec : AtomCodec} {atom : Atom} (h : atom.type ≠ codec.form.type) :
    codec.write atom = throw (.typeMismatch codec.name (.foreign (.atom atom.type))) := by
  obtain ⟨form, markers⟩ := codec
  cases form <;> cases atom <;>
    first
    | rfl
    | exact absurd rfl h
    | exact if_neg fun hkind => h (congrArg _ hkind.symm)

namespace Registry

variable {registry : Registry}

/-- A field is written as the value of its slot. -/
theorem write_field [RecordEquality] (slots : List (String × Value)) (self : Codec) (field : Field) :
    field.write (registry.slotWriters slots) self =
      registry.writeAs ((slots.lookup field.info.source).getD .null) (field.binding.resolve self) := by
  unfold Field.write
  rw [lookup_slotWriters]
  cases slots.lookup field.info.source with
  | none =>
    rw [Option.map_none, Option.getD_none, writeAs]
  | some value => rfl

/-- Elements are written as parts in one coding. -/
theorem writeItems_eq_parts [RecordEquality] (items : List Value) (part : Element) :
    registry.writeItems items part =
      (items.map fun item => (part, item)).forM fun part => registry.writeAs part.2 part.1 := by
  induction items with
  | nil => rfl
  | cons item items ih =>
    rw [writeItems, ih]
    rfl

/-- Entries are written as parts, the key and the value each in its own coding. -/
theorem writeEntries_eq_parts [RecordEquality] (entries : List (Value × Value)) (key value : Element) :
    registry.writeEntries entries key value =
      (entries.flatMap fun entry => [(key, entry.1), (value, entry.2)]).forM fun part =>
        registry.writeAs part.2 part.1 := by
  induction entries with
  | nil => rfl
  | cons entry entries ih =>
    rw [writeEntries, ih]
    rfl

/-- Without parts, and with nothing that ends them, there is only the head. -/
theorem steps_of_no_parts (write : Write) (item : Element × Value → Write) :
    (do write; ([] : List (Element × Value)).forM item; pure ()) = write := by
  rw [bind_pure_unit]
  exact bind_pure_unit

/-- A value is written by a codec that writes its type as its head, its parts, and its end. -/
theorem writeAs_of_writes [RecordEquality] {value : Value} {element : Element} {codec : Codec}
    (hwriter : element.writer registry value.type = .ok codec) (hplain : element.Plain) (hvalue : value ≠ .null)
    (hwrites : codec.writes value.type) :
    registry.writeAs value element = (do
      codec.head value
      (codec.parts value).forM fun part => registry.writeAs part.2 part.1
      codec.last value) := by
  cases value with
  | null => exact absurd rfl hvalue
  | atom leaf =>
    obtain ⟨codec, rfl, -⟩ := Codec.writes_atom_iff.1 hwrites
    change element.writer registry (.atom leaf.type) = _ at hwriter
    rw [writeAs, hwriter]
    exact (steps_of_no_parts (codec.write leaf) _).symm
  | variant type index =>
    obtain ⟨markers, variants, rfl⟩ := Codec.writes_enumeration_iff.1 hwrites
    change element.writer registry (.enumeration type) = _ at hwriter
    rw [writeAs, hwriter]
    refine Eq.trans ?_ (steps_of_no_parts (Codec.head _ _) _).symm
    exact if_pos rfl
  | sequence kind items =>
    change element.writer registry (.sequence kind) = _ at hwriter
    rw [writeAs, hwriter]
    rcases Codec.writes_sequence_iff.1 hwrites with ⟨markers, part, rfl⟩ | ⟨markers, part, rfl⟩
    · refine (if_pos rfl).trans ?_
      rw [writeItems_eq_parts]
      simp only [Codec.head, Codec.parts, Codec.last, bind_pure_unit]
    · have hcollects : element.collects kind := by
        cases element with
        | any => rfl
        | boxed codec => rfl
        | direct codec =>
          cases hwriter
          exact absurd rfl (hplain markers part)
      refine (if_pos hcollects).trans ?_
      rw [writeItems_eq_parts]
      rfl
  | map entries =>
    obtain ⟨markers, key, value, rfl⟩ := Codec.writes_map_iff.1 hwrites
    change element.writer registry .map = _ at hwriter
    rw [writeAs, hwriter]
    refine Eq.trans (b := Size.write markers.base entries.length >>= fun _ => _) rfl ?_
    rw [writeEntries_eq_parts]
    simp only [Codec.head, Codec.parts, Codec.last, bind_pure_unit]
  | array type items =>
    obtain ⟨markers, part, rfl⟩ := Codec.writes_array_iff.1 hwrites
    change element.writer registry (.array type) = _ at hwriter
    rw [writeAs, hwriter]
    refine (if_pos rfl).trans ?_
    rw [writeItems_eq_parts]
    simp only [Codec.head, Codec.parts, Codec.last, bind_pure_unit]
    split <;> rfl
  | record type slots =>
    obtain ⟨markers, fresh, fields, rfl⟩ := Codec.writes_record_iff.1 hwrites
    change element.writer registry (.record type) = _ at hwriter
    rw [writeAs, hwriter]
    refine (if_pos rfl).trans ?_
    simp only [write_field, Codec.head, Codec.parts, Codec.last, bind_pure_unit]
    refine congrArg (fun rest => Output.marker markers.base >>= fun _ => rest) (Eq.symm ?_)
    exact List.forM_map

/-- A codec refuses a value whose type it does not write, and has written nothing then. -/
theorem writeAs_of_not_writes [RecordEquality] {value : Value} {element : Element} {codec : Codec}
    (hwriter : element.writer registry value.type = .ok codec) (hvalue : value ≠ .null)
    (hwrites : ¬ codec.writes value.type) :
    registry.writeAs value element = throw (.typeMismatch codec.name (.foreign value.type)) := by
  cases value with
  | null => exact absurd rfl hvalue
  | atom leaf =>
    change element.writer registry (.atom leaf.type) = _ at hwriter
    rw [writeAs, hwriter]
    cases codec with
    | atom codec => exact AtomCodec.write_of_ne fun htype => hwrites (Codec.writes_atom_iff.2 ⟨codec, rfl, htype⟩)
    | _ => rfl
  | variant type index =>
    change element.writer registry (.enumeration type) = _ at hwriter
    rw [writeAs, hwriter]
    cases codec with
    | enumeration markers type' variants =>
      refine if_neg fun htype => hwrites ?_
      exact Codec.writes_enumeration_iff.2 ⟨markers, variants, htype ▸ rfl⟩
    | _ => rfl
  | sequence kind items =>
    change element.writer registry (.sequence kind) = _ at hwriter
    rw [writeAs, hwriter]
    cases codec with
    | sequence markers kind' part =>
      refine if_neg fun hkind => hwrites ?_
      exact Codec.writes_sequence_iff.2 (.inl ⟨markers, part, hkind ▸ rfl⟩)
    | collection markers part => exact absurd (Codec.writes_sequence_iff.2 (.inr ⟨markers, part, rfl⟩)) hwrites
    | _ => rfl
  | map entries =>
    change element.writer registry .map = _ at hwriter
    rw [writeAs, hwriter]
    cases codec with
    | map markers key value => exact absurd (Codec.writes_map_iff.2 ⟨markers, key, value, rfl⟩) hwrites
    | _ => rfl
  | array type items =>
    change element.writer registry (.array type) = _ at hwriter
    rw [writeAs, hwriter]
    cases codec with
    | array markers type' part =>
      refine if_neg fun htype => hwrites ?_
      exact Codec.writes_array_iff.2 ⟨markers, part, htype ▸ rfl⟩
    | _ => rfl
  | record type slots =>
    change element.writer registry (.record type) = _ at hwriter
    rw [writeAs, hwriter]
    cases codec with
    | record markers type' fresh fields =>
      refine if_neg fun htype => hwrites ?_
      exact Codec.writes_record_iff.2 ⟨markers, fresh, fields, htype ▸ rfl⟩
    | _ => rfl

/-- Without a codec nothing is written. -/
theorem writeAs_of_no_writer [RecordEquality] {value : Value} {element : Element} {e : Error}
    (hwriter : element.writer registry value.type = .error e) (hvalue : value ≠ .null) :
    registry.writeAs value element = throw e := by
  cases value with
  | null => exact absurd rfl hvalue
  | _ =>
    unfold Value.type at hwriter
    rw [writeAs, hwriter]
    rfl

end Registry

end Bytemark
