import Bytemark.Proofs.Reading.Failures
import Bytemark.Proofs.Writing.Parts

/-!
# What can be written

A value can be written if its type has a codec, if no size in it is too great, if its variants are listed, and if its
parts can be written in the codings that the codec has for them. `Registry.Encodable` says just this, without a byte
being written, and `Registry.Made.writes_iff` that it is the exact domain of the writer. So the two ways in which a
codec says what it takes agree: the types it claims to write, by which it is found, and the values it does write.

`Registry.Refuses` tells what is wrong with a value that cannot be written. Types do not clash inside a value, since
every part is written by a codec that writes its type; the one place where they can is an array, whose items declare
their type and need not have it.
-/

set_option autoImplicit false

namespace Bytemark

open Registry

variable {registry : Registry} {element : Element} {codec : Codec} {value : Value}

/-! ## Values that can be written, and what is wrong with others -/

/-- The value is null; or the codec that the element names, or that the registry has for the value's type, writes the
type, its size is not too great, its variant is listed, and its parts can be written in their codings. -/
inductive Registry.Encodable [RecordEquality] (registry : Registry) : Element → Value → Prop
  | null {element : Element} : Encodable registry element .null
  | coded {element : Element} {value : Value} {codec : Codec} (hwriter : element.writer registry value.type = .ok codec)
      (hwrites : codec.writes value.type) (hsize : ∀ size, codec.size? value = some size → size ≤ Size.max)
      (hlisted : codec.Lists value) (hparts : ∀ part ∈ codec.parts value, Encodable registry part.1 part.2) :
      Encodable registry element value

/-- What is wrong with a value: no codec writes its type, its size is too great, its variant is not listed, an item of
an array has a type that the codec of the items does not write, or one of its parts has something wrong with it. -/
inductive Registry.Refuses [RecordEquality] (registry : Registry) : Element → Value → Error → Prop
  | missing {value : Value} (hvalue : value ≠ .null) (hnone : ∀ codec ∈ registry.codecs, ¬ codec.writes value.type) :
      Refuses registry .any value (.missingCodec value.type none)
  | overflow {element : Element} {value : Value} {codec : Codec} {size : Nat}
      (hwriter : element.writer registry value.type = .ok codec) (hwrites : codec.writes value.type)
      (hsize : codec.size? value = some size) (hmax : Size.max < size) :
      Refuses registry element value (.sizeOverflow size)
  | unlisted {element : Element} {type : String} {index : UInt16} {markers : MarkerRange} {variants : List UInt16}
      (hwriter : element.writer registry (.enumeration type) = .ok (.enumeration markers type variants))
      (hunlisted : ∀ variant ∈ variants, ¬ RecordEquality.variants type index variant) :
      Refuses registry element (.variant type index) (.typeMismatch type (.unlisted type index))
  | foreign {element : Element} {type : ValueType} {items : List Value} {item : Value} {markers : MarkerRange}
      {codec : Codec} (hwriter : element.writer registry (.array type) = .ok (.array markers type (.boxed codec)))
      (hitem : item ∈ items) (hvalue : item ≠ .null) (hforeign : ¬ codec.writes item.type) :
      Refuses registry element (.array type items) (.typeMismatch codec.name (.foreign item.type))
  | part {element : Element} {value : Value} {codec : Codec} {part : Element × Value} {e : Error}
      (hwriter : element.writer registry value.type = .ok codec) (hwrites : codec.writes value.type)
      (hpart : part ∈ codec.parts value) (h : Refuses registry part.1 part.2 e) : Refuses registry element value e

/-! ## Heads -/

/-- A size is written unless it is too great, and this is the only error. -/
theorem Size.write_outcome (base : Marker) (size : Nat) :
    (size ≤ max ∧ Writes (write base size)) ∨ (max < size ∧ Fails (write base size) (.sizeOverflow size)) := by
  unfold write
  by_cases hmax : size ≤ max
  · rw [if_pos hmax]
    exact .inl ⟨hmax, _, .markerAnd _ _ _⟩
  · rw [if_neg hmax]
    exact .inr ⟨Nat.lt_of_not_le hmax, fails_throw _⟩

/-- A size and what follows it are written if the size is not too great. -/
theorem Size.write_then_outcome (base : Marker) (size : Nat) {rest : Write} (hrest : Writes rest)
    (huniform : Uniform rest) :
    (size ≤ max ∧ Writes (do write base size; rest)) ∨
      (max < size ∧ Fails (do write base size; rest) (.sizeOverflow size)) := by
  rw [writes_bind_iff (uniform_write base size) huniform, fails_bind_iff (uniform_write base size) huniform]
  exact (write_outcome base size).imp (fun hsize => ⟨hsize.1, hsize.2, hrest⟩) fun hsize => ⟨hsize.1, .inl hsize.2⟩

/-- An atom is written by a codec of its type, if its size is not too great. -/
theorem AtomCodec.write_outcome {codec : AtomCodec} (hcount : codec.markers.count = codec.form.count) {atom : Atom}
    (htype : atom.type = codec.form.type) :
    (atom.size ≤ Size.max ∧ Writes (codec.write atom)) ∨
      (Size.max < atom.size ∧ Fails (codec.write atom) (.sizeOverflow atom.size)) := by
  obtain ⟨form, markers⟩ := codec
  have hcounted (size : Nat) (data : List UInt8) (base : Marker) :=
    Size.write_then_outcome base size ⟨_, .bytes data⟩ (.of_emits (.bytes data))
  unfold write
  cases form with
  | bool =>
    cases atom <;> cases htype
    exact .inl ⟨Nat.zero_le _, _, .marker _⟩
  | char =>
    cases atom <;> cases htype
    exact .inl ⟨Nat.zero_le _, _, .markerAnd _ _ _⟩
  | word kind =>
    cases atom <;> cases htype
    dsimp only
    rw [if_pos rfl]
    exact .inl ⟨Nat.zero_le _, _, .markerAnd _ _ _⟩
  | string inline =>
    cases atom <;> cases htype
    rename_i text
    dsimp only at hcount ⊢
    split
    · -- A length that the marker tells is less than the number of markers there are.
      rename_i hshort
      have hfits := markers.fits
      have hlow := Int8.le_toInt markers.base
      rw [hcount, AtomForm.count] at hfits
      refine .inl ⟨?_, _, (Emits.marker _).bind (Emits.bytes _)⟩
      show (Utf8.encode text.toList).length ≤ Size.max
      unfold Size.max
      omega
    · exact hcounted _ _ _
  | bools =>
    cases atom <;> cases htype
    exact hcounted _ _ _
  | chars =>
    cases atom <;> cases htype
    exact hcounted _ _ _
  | words kind =>
    cases atom <;> cases htype
    rename_i items
    dsimp only
    rw [if_pos rfl]
    split
    · exact hcounted _ _ _
    · have hitem (item : Word kind) := Shortest.uniform_write kind.innerMarkers item.toInt
      have hitems : Writes (items.forM fun item => Shortest.write kind.innerMarkers item.toInt) :=
        (writes_forM_iff fun item _ => hitem item).2 fun item _ => ⟨_, .markerAnd _ _ _⟩
      exact Size.write_then_outcome _ _ hitems (.forM fun item _ => hitem item)

/-- What becomes of the head of a value: it is written, the size is too great, or the variant is not listed. -/
inductive Codec.HeadOutcome [RecordEquality] (codec : Codec) (value : Value) : Prop
  | written (hsize : ∀ size, codec.size? value = some size → size ≤ Size.max) (hlisted : codec.Lists value)
      (h : Writes (codec.head value)) : HeadOutcome codec value
  | overflow {size : Nat} (hsize : codec.size? value = some size) (hmax : Size.max < size)
      (h : Fails (codec.head value) (.sizeOverflow size)) : HeadOutcome codec value
  | unlisted {type : String} {index : UInt16} (hvariant : value = .variant type index) (hunlisted : ¬ codec.Lists value)
      (h : Fails (codec.head value) (.typeMismatch type (.unlisted type index))) : HeadOutcome codec value

/-- The outcome of a head with a size is that of the size. -/
theorem Codec.HeadOutcome.of_size [RecordEquality] {size : Nat} (hsize : codec.size? value = some size)
    (hlisted : codec.Lists value) (h : (size ≤ Size.max ∧ Writes (codec.head value)) ∨
      (Size.max < size ∧ Fails (codec.head value) (.sizeOverflow size))) : codec.HeadOutcome value := by
  rcases h with ⟨hmax, hhead⟩ | ⟨hmax, hhead⟩
  · exact .written (fun other hother => Option.some.inj (hsize.symm.trans hother) ▸ hmax) hlisted hhead
  · exact .overflow hsize hmax hhead

/-- A head without a size that is written is a head that is written. -/
theorem Codec.HeadOutcome.of_no_size [RecordEquality] (hsize : codec.size? value = none) (hlisted : codec.Lists value)
    (h : Writes (codec.head value)) : codec.HeadOutcome value := by
  refine .written (fun size hsome => ?_) hlisted h
  cases hsize.symm.trans hsome

/-- The head of a value is written if its size is not too great and its variant is listed. -/
theorem Codec.head_outcome [RecordEquality] (hlegal : codec.Legal) (hvalue : value ≠ .null)
    (hwrites : codec.writes value.type) :
    codec.HeadOutcome value := by
  cases value with
  | null => exact absurd rfl hvalue
  | atom leaf =>
    obtain ⟨codec, rfl, htype⟩ := writes_atom_iff.1 hwrites
    cases hlegal with
    | atom _ hcount => exact .of_size rfl trivial (AtomCodec.write_outcome hcount htype)
  | variant type index =>
    obtain ⟨markers, variants, rfl⟩ := writes_enumeration_iff.1 hwrites
    cases hordinal : ordinal? type variants index with
    | some ordinal =>
      obtain ⟨variant, hvariant, hlisted, -⟩ := getElem?_of_ordinal? hordinal
      refine .of_no_size rfl ⟨variant, List.mem_of_getElem? hvariant, ?_⟩ ?_
      · exact List.find?_some (p := fun variant => RecordEquality.variants type index variant) hlisted
      · simp only [head, hordinal]
        exact ⟨_, .markerAnd _ _ _⟩
    | none =>
      refine .unlisted rfl ?_ ?_
      · rintro ⟨variant, hvariant, hequal⟩
        rw [List.findIdx?_eq_none_iff.1 hordinal variant hvariant] at hequal
        exact Bool.false_ne_true hequal
      · simp only [head, hordinal]
        exact fails_throw _
  | sequence kind items =>
    rcases writes_sequence_iff.1 hwrites with ⟨markers, part, rfl⟩ | ⟨markers, part, rfl⟩
    · exact .of_size rfl trivial (Size.write_outcome _ _)
    · exact .of_no_size rfl trivial ⟨_, .marker _⟩
  | map entries =>
    obtain ⟨markers, key, value, rfl⟩ := writes_map_iff.1 hwrites
    exact .of_size rfl trivial (Size.write_outcome _ _)
  | array type items =>
    obtain ⟨markers, part, rfl⟩ := writes_array_iff.1 hwrites
    refine .of_size rfl trivial ?_
    unfold head
    dsimp only
    by_cases hmax : items.length ≤ Size.max
    · rw [if_pos hmax]
      exact .inl ⟨hmax, _, .markerAnd _ _ _⟩
    · rw [if_neg hmax]
      exact .inr ⟨Nat.lt_of_not_le hmax, fails_throw _⟩
  | record type slots =>
    obtain ⟨markers, fresh, fields, rfl⟩ := writes_record_iff.1 hwrites
    exact .of_no_size rfl trivial ⟨_, .marker _⟩

/-- A head is written alike behind any bytes. -/
theorem Codec.uniform_head [RecordEquality] (codec : Codec) (value : Value) : Uniform (codec.head value) := by
  unfold head
  split
  · exact AtomCodec.uniform_write ..
  · split
    · exact .of_emits (.markerAnd _ _ _)
    · exact .throw _
  · exact Size.uniform_write ..
  · exact .of_emits (.marker _)
  · exact Size.uniform_write ..
  · split
    · exact .of_emits (.markerAnd _ _ _)
    · exact .throw _
  · exact .of_emits (.marker _)
  · exact .of_emits .pure

/-- What ends the parts is always written. -/
theorem Codec.emits_last (codec : Codec) (value : Value) : ∃ bytes, Emits (codec.last value) bytes := by
  unfold last
  split
  · exact ⟨_, .marker _⟩
  · exact ⟨_, .pure⟩

/-! ## Codings of parts -/

/-- Items of arrays are parts like any other: null is one of them. -/
def Codec.ItemsBoxed : Codec → Prop
  | array _ _ part => ∀ codec, part ≠ .direct codec
  | _ => True

/-- No recipe makes a codec of arrays that codes its items directly. -/
theorem Recipe.itemsBoxed_make {next : Registry} {recipe : Recipe} (h : recipe.make registry = .ok codec next) :
    codec.ItemsBoxed := by
  rcases Recipe.cases_make h with ⟨kind, base, inline, hbuiltin⟩ | ⟨_, _, _, -, rfl⟩ | ⟨_, _, _, -, hboxed, rfl⟩ |
    ⟨_, _, _, _, -, rfl⟩
  · cases kind <;> obtain ⟨_, -, hpure⟩ := answer_bind_eq_ok_iff.1 hbuiltin <;> cases hpure <;> trivial
  · trivial
  · exact hboxed
  · trivial

/-- Only codecs that were made are registered. -/
theorem Registry.Reachable.mem_made {made : List Codec} (h : Reachable registry made) :
    ∀ codec ∈ registry.codecs, codec ∈ made := by
  induction h with
  | empty => exact fun _ hmem => nomatch hmem
  | lookup hreach type ih =>
    rw [(quiet_lookup type _ hreach.sound.1.consistent).2.2]
    exact ih
  | @make registry next made recipe _ hreach hmake ih =>
    have hquiet := recipe.looks_make.quiet registry hreach.sound.1.consistent
    rw [after_of_ok hmake] at hquiet
    rw [hquiet.2.2]
    exact fun codec hmem => List.mem_cons_of_mem _ (ih codec hmem)
  | @fail registry next made recipe _ hreach hmake ih =>
    have hquiet := recipe.looks_make.quiet registry hreach.sound.1.consistent
    rw [after_of_error hmake] at hquiet
    rw [hquiet.2.2]
    exact ih
  | @register registry made codec _ hcodec ih =>
    cases hregister : Registry.register codec registry with
    | ok result next =>
      rw [after_of_ok hregister]
      obtain ⟨-, -, rfl⟩ := register_eq_ok_iff.1 hregister
      intro other hother
      rcases List.mem_append.1 hother with hold | hnew
      · exact ih other hold
      · rw [List.mem_singleton.1 hnew]
        exact hcodec
    | error e next =>
      rw [after_of_error hregister]
      obtain ⟨rfl, -⟩ := register_eq_error_iff.1 hregister
      exact ih

/-- A registry of codecs as recipes make them. -/
structure Registry.Made (registry : Registry) : Prop where
  sound : registry.Sound
  boxed {codec : Codec} (h : codec ∈ registry.codecs) : codec.ItemsBoxed

/-- A reachable registry holds codecs as recipes make them. -/
theorem Registry.Reachable.isMade {made : List Codec} (h : Reachable registry made) : registry.Made :=
  ⟨h.sound.1, fun hmem => h.forall_made Recipe.itemsBoxed_make _ (h.mem_made _ hmem)⟩

/-- No field is coded directly by a codec of collections. -/
theorem Binding.Fits.plain {binding : Binding} {self : Codec} {building : ValueType} {kind : FieldKind}
    (hfits : binding.Fits registry building kind) : (binding.resolve self).Plain := by
  intro markers part hdirect
  obtain ⟨hbuiltin, hkind⟩ := hfits.builtin_of_direct hdirect
  cases kind <;> cases hkind

/-- The codings that the codec has for the parts of its values. -/
def Codec.codings : Codec → List Element
  | sequence _ _ part => [part]
  | collection _ part => [part]
  | map _ key value => [key, value]
  | array _ _ part => [part]
  | record markers type fresh fields =>
    fields.map fun field => field.binding.resolve (record markers type fresh fields)
  | _ => []

/-- A part is coded in one of the codings of its codec. -/
theorem Codec.mem_codings_of_mem_parts {part : Element × Value} (h : part ∈ codec.parts value) :
    part.1 ∈ codec.codings := by
  unfold parts at h
  split at h
  · obtain ⟨item, -, rfl⟩ := List.mem_map.1 h
    exact List.mem_singleton_self _
  · obtain ⟨item, -, rfl⟩ := List.mem_map.1 h
    exact List.mem_singleton_self _
  · obtain ⟨entry, -, hmem⟩ := List.mem_flatMap.1 h
    exact List.mem_pair.2 ((List.mem_pair.1 hmem).imp (congrArg Prod.fst) (congrArg Prod.fst))
  · obtain ⟨item, -, rfl⟩ := List.mem_map.1 h
    exact List.mem_singleton_self _
  · obtain ⟨field, hfield, rfl⟩ := List.mem_map.1 h
    exact List.mem_map.2 ⟨field, hfield, rfl⟩
  · cases h

/-- The codec that writes a value codes its parts by codecs that the registry has, and takes sequences of any kind. -/
theorem Registry.Made.coded_parts (hmade : registry.Made) (hfits : element.Fits registry)
    (hwriter : element.writer registry value.type = .ok codec) :
    ∀ part ∈ codec.parts value, part.1.Fits registry ∧ part.1.Plain := by
  intro part hpart
  have hcoding := Codec.mem_codings_of_mem_parts hpart
  by_cases hnull : codec = .null
  · subst hnull
    cases hcoding
  · have hmem := hmade.sound.mem_of_writer hfits hwriter hnull
    have hany : Element.any.Fits registry ∧ Element.any.Plain := ⟨Element.fits_any, nofun⟩
    have hboxed := hmade.boxed hmem
    have hself := hmade.sound.fits_parts hfits hwriter
    cases hmade.sound.fits hmem with
    | atom _ => cases hcoding
    | enumeration _ => cases hcoding
    | sequence _ =>
      rw [List.mem_singleton.1 hcoding]
      exact hany
    | collection _ =>
      rw [List.mem_singleton.1 hcoding]
      exact hany
    | map _ =>
      rcases List.mem_pair.1 hcoding with hkey | hvalue
      · rw [hkey]
        exact hany
      · rw [hvalue]
        exact hany
    | array helement =>
      rw [List.mem_singleton.1 hcoding]
      exact ⟨helement.fits, fun _ _ => hboxed _⟩
    | record hfields =>
      obtain ⟨field, hfield, hresolve⟩ := List.mem_map.1 hcoding
      rw [← hresolve]
      exact ⟨hself field hfield, (hfields field hfield).plain⟩

/-! ## The domain of the writer -/

/-- Parts are written alike behind any bytes. -/
theorem Registry.uniform_parts [RecordEquality] (parts : List (Element × Value)) :
    Uniform (parts.forM fun part => registry.writeAs part.2 part.1) :=
  .forM fun part _ => registry.uniform_writeAs part.2 part.1

/-- Null is written in every coding. -/
theorem Registry.writes_null [RecordEquality] (registry : Registry) (element : Element) : Writes
    (registry.writeAs .null element) :=
  ⟨_, .marker _⟩

/-- A value is written by a codec that writes its type if its head and its parts are. -/
theorem Registry.writes_iff_of_writes [RecordEquality] (hwriter : element.writer registry value.type = .ok codec)
    (hplain : element.Plain) (hvalue : value ≠ .null) (hwrites : codec.writes value.type) :
    Writes (registry.writeAs value element) ↔
      Writes (codec.head value) ∧ ∀ part ∈ codec.parts value, Writes (registry.writeAs part.2 part.1) := by
  obtain ⟨bytes, hlast⟩ := codec.emits_last value
  rw [writeAs_of_writes hwriter hplain hvalue hwrites,
    writes_bind_iff (codec.uniform_head value) ((uniform_parts _).bind (.of_emits hlast)),
    writes_bind_iff (uniform_parts _) (.of_emits hlast), writes_forM_iff fun part _ => registry.uniform_writeAs _ _]
  exact ⟨fun h => ⟨h.1, h.2.1⟩, fun h => ⟨h.1, h.2, bytes, hlast⟩⟩

/-- A value that a codec writes the type of fails over its head or over one of its parts. -/
theorem Registry.fails_of_writes [RecordEquality] (hwriter : element.writer registry value.type = .ok codec)
    (hplain : element.Plain) (hvalue : value ≠ .null) (hwrites : codec.writes value.type) {e : Error}
    (h : Fails (registry.writeAs value element) e) :
    Fails (codec.head value) e ∨ ∃ part ∈ codec.parts value, Fails (registry.writeAs part.2 part.1) e := by
  obtain ⟨bytes, hlast⟩ := codec.emits_last value
  rw [writeAs_of_writes hwriter hplain hvalue hwrites,
    fails_bind_iff (codec.uniform_head value) ((uniform_parts _).bind (.of_emits hlast)),
    fails_bind_iff (uniform_parts _) (.of_emits hlast)] at h
  rcases h with hhead | ⟨-, hparts | ⟨-, hend⟩⟩
  · exact .inl hhead
  · exact .inr (fails_forM (fun part _ => registry.uniform_writeAs _ _) hparts)
  · exact absurd ⟨bytes, hlast⟩ hend.not_writes

/-- The codec that writes a value is legal. -/
theorem Registry.Made.legal_of_writer (hmade : registry.Made) (hfits : element.Fits registry)
    (hwriter : element.writer registry value.type = .ok codec) : codec.Legal := by
  by_cases hnull : codec = .null
  · subst hnull
    exact .null
  · exact hmade.sound.legal (hmade.sound.mem_of_writer hfits hwriter hnull)

/-- The writer's domain is the encodable values. -/
theorem Registry.Made.writes_iff [RecordEquality] (hmade : registry.Made) (hfits : element.Fits registry)
    (hplain : element.Plain) :
    Writes (registry.writeAs value element) ↔ registry.Encodable element value := by
  induction value using Value.parts_induction generalizing element with
  | step value ih =>
    by_cases hvalue : value = .null
    · subst hvalue
      exact ⟨fun _ => .null, fun _ => registry.writes_null element⟩
    cases hwriter : element.writer registry value.type with
    | error e =>
      rw [writeAs_of_no_writer hwriter hvalue]
      refine ⟨fun h => absurd h (fails_throw e).not_writes, fun h => ?_⟩
      cases h with
      | null => exact absurd rfl hvalue
      | coded hfound => cases hwriter.symm.trans hfound
    | ok codec =>
      by_cases hwrites : codec.writes value.type
      · have hparts : ∀ part ∈ codec.parts value,
            (Writes (registry.writeAs part.2 part.1) ↔ registry.Encodable part.1 part.2) := by
          intro part hpart
          obtain ⟨hpartFits, hpartPlain⟩ := hmade.coded_parts hfits hwriter part hpart
          exact ih codec part hpart hpartFits hpartPlain
        rw [writes_iff_of_writes hwriter hplain hvalue hwrites]
        constructor
        · rintro ⟨hhead, hall⟩
          cases Codec.head_outcome (hmade.legal_of_writer hfits hwriter) hvalue hwrites with
          | written hsize hlisted =>
            exact .coded hwriter hwrites hsize hlisted fun part hpart => (hparts part hpart).1 (hall part hpart)
          | overflow _ _ hfails => exact absurd hhead hfails.not_writes
          | unlisted _ _ hfails => exact absurd hhead hfails.not_writes
        · intro h
          cases h with
          | null => exact absurd rfl hvalue
          | coded hfound _ hsize hlisted hall =>
            cases hwriter.symm.trans hfound
            refine ⟨?_, fun part hpart => (hparts part hpart).2 (hall part hpart)⟩
            cases Codec.head_outcome (hmade.legal_of_writer hfits hwriter) hvalue hwrites with
            | written _ _ hhead => exact hhead
            | overflow hsome hmax => exact absurd (hsize _ hsome) (Nat.not_le_of_lt hmax)
            | unlisted _ hunlisted => exact absurd hlisted hunlisted
      · rw [writeAs_of_not_writes hwriter hvalue hwrites]
        refine ⟨fun h => absurd h (fails_throw _).not_writes, fun h => ?_⟩
        cases h with
        | null => exact absurd rfl hvalue
        | coded hfound hfoundWrites =>
          cases hwriter.symm.trans hfound
          exact absurd hfoundWrites hwrites

/-! ## What goes wrong -/

/-- The value is null, or the codec that it is given to writes its type. -/
def Element.Accepts (registry : Registry) (value : Value) (element : Element) : Prop :=
  value ≠ .null → ∀ codec, element.writer registry value.type = .ok codec → codec.writes value.type

/-- A value is given to a codec that writes its type if the registry chooses the codec. -/
theorem Registry.Sound.accepts_any (hsound : registry.Sound) (value : Value) : Element.any.Accepts registry value := by
  intro hvalue codec hwriter
  rcases hsound.known hwriter with ⟨hnull, -⟩ | ⟨-, hwrites⟩
  · exact absurd (Value.type_eq_null_iff.1 hnull) hvalue
  · exact hwrites

/-- A field's coding takes the values that the field may hold. -/
theorem Binding.Fits.accepts {binding : Binding} {self : Codec} {building : ValueType} {type : FieldType}
    (hsound : registry.Sound) (hfits : binding.Fits registry building type.kind)
    (hself : self.Legal ∧ self.writes building) (hholds : type.Holds value) :
    (binding.resolve self).Accepts registry value := by
  rcases hfits.known hsound hself with ⟨rfl, -⟩ | ⟨codec, hcodec, -, hwrites⟩
  · exact hsound.accepts_any value
  · have hnamed : (binding.resolve self).writer registry value.type = .ok codec := by
      rcases hcodec with hcodec | hcodec <;> rw [hcodec] <;> rfl
    intro hvalue named hwriter
    cases hnamed.symm.trans hwriter
    rcases hholds with ⟨-, hnull⟩ | hany | htype
    · exact absurd hnull hvalue
    · -- Fields of any type are bound to no codec, but nothing says so here; no codec writes values of any type.
      rw [hany] at hwrites
      cases codec <;> simp [Codec.writes, FieldKind.valueType] at hwrites
    · exact htype ▸ hwrites

/-- The part is an item of an array, and its type is not one that the codec of the items writes. -/
def Codec.Foreign (codec : Codec) (value : Value) (part : Element × Value) : Prop :=
  ∃ markers type items inner, codec = .array markers type (.boxed inner) ∧ value = .array type items ∧
    part.1 = .boxed inner ∧ part.2 ∈ items ∧ part.2 ≠ .null ∧ ¬ inner.writes part.2.type

/-- The codings of a value's parts take them, apart from foreign items of arrays. -/
theorem Registry.Made.part_cases (hmade : registry.Made) (hfits : element.Fits registry)
    (hwriter : element.writer registry value.type = .ok codec) (hwrites : codec.writes value.type)
    (hadmits : registry.Admits value) :
    ∀ part ∈ codec.parts value, registry.Admits part.2 ∧
      (part.1.Accepts registry part.2 ∨ codec.Foreign value part) := by
  intro part hpart
  have hsound := hmade.sound
  by_cases hnull : codec = .null
  · subst hnull
    cases hpart
  · have hmem := hsound.mem_of_writer hfits hwriter hnull
    have hboxed := hmade.boxed hmem
    have hcodec := hsound.fits hmem
    unfold Codec.parts at hpart
    split at hpart
    · obtain ⟨item, hitem, rfl⟩ := List.mem_map.1 hpart
      cases hcodec
      exact ⟨hadmits.item item hitem, .inl (hsound.accepts_any item)⟩
    · obtain ⟨item, hitem, rfl⟩ := List.mem_map.1 hpart
      cases hcodec
      exact ⟨hadmits.item item hitem, .inl (hsound.accepts_any item)⟩
    · obtain ⟨entry, hentry, hside⟩ := List.mem_flatMap.1 hpart
      cases hcodec
      obtain ⟨hkey, hvalue⟩ := hadmits.entry entry hentry
      rcases List.mem_pair.1 hside with rfl | rfl
      · exact ⟨hkey, .inl (hsound.accepts_any _)⟩
      · exact ⟨hvalue, .inl (hsound.accepts_any _)⟩
    · rename_i markers type element type' items
      obtain ⟨item, hitem, rfl⟩ := List.mem_map.1 hpart
      refine ⟨hadmits.arrayItem item hitem, ?_⟩
      obtain rfl : type' = type := by simpa [Codec.writes, Value.type] using hwrites
      cases element with
      | any => exact .inl (hsound.accepts_any item)
      | direct inner => exact absurd rfl (hboxed inner)
      | boxed inner =>
        by_cases haccepts : (Element.boxed inner).Accepts registry item
        · exact .inl haccepts
        · obtain ⟨hvalue, named, hnamed, hforeign⟩ : item ≠ .null ∧
              ∃ named, (Element.boxed inner).writer registry item.type = .ok named ∧ ¬ named.writes item.type := by
            simpa [Element.Accepts] using haccepts
          cases hnamed
          exact .inr ⟨markers, type', items, inner, rfl, rfl, rfl, hitem, hvalue, hforeign⟩
    · rename_i markers type fresh fields type' slots
      obtain ⟨field, hfield, rfl⟩ := List.mem_map.1 hpart
      have hself := hsound.answer_of_record_writer hfits hwriter
      obtain rfl : type' = type := by simpa [Codec.writes, Value.type] using hwrites
      obtain ⟨held, hslot, hholds, hheld⟩ := hadmits.slot hself field hfield
      dsimp only
      rw [hslot, Option.getD_some]
      cases hcodec with
      | record hfields =>
        exact ⟨hheld, .inl ((hfields field hfield).accepts hsound ⟨hsound.legal hmem, hwrites⟩ hholds)⟩
    · cases hpart

/-- What is not written has something wrong with it, and the error says what. -/
theorem Registry.Made.refuses_of_fails [RecordEquality] (hmade : registry.Made) (hfits : element.Fits registry)
    (hplain : element.Plain) (hadmits : registry.Admits value) (haccepts : element.Accepts registry value) {e : Error}
    (h : Fails (registry.writeAs value element) e) : registry.Refuses element value e := by
  induction value using Value.parts_induction generalizing element with
  | step value ih =>
    have hvalue : value ≠ .null := by
      rintro rfl
      exact absurd (registry.writes_null element) h.not_writes
    cases hwriter : element.writer registry value.type with
    | error e' =>
      rw [writeAs_of_no_writer hwriter hvalue] at h
      obtain rfl := (fails_throw e').unique h
      cases element with
      | any =>
        have hne : value.type ≠ .null := mt Value.type_eq_null_iff.1 hvalue
        obtain ⟨rfl, hnone⟩ := (hmade.sound.consistent.codecForType_eq_error_iff hne).1 hwriter
        exact .missing hvalue hnone
      | boxed codec => cases hwriter
      | direct codec => cases hwriter
    | ok codec =>
      have hwrites := haccepts hvalue codec hwriter
      rcases fails_of_writes hwriter hplain hvalue hwrites h with hhead | ⟨part, hpart, hfails⟩
      · cases Codec.head_outcome (hmade.legal_of_writer hfits hwriter) hvalue hwrites with
        | written _ _ hok => exact absurd hok hhead.not_writes
        | overflow hsize hmax hoverflow =>
          obtain rfl := hhead.unique hoverflow
          exact .overflow hwriter hwrites hsize hmax
        | unlisted hvariant hunlisted hmismatch =>
          obtain rfl := hhead.unique hmismatch
          subst hvariant
          obtain ⟨markers, variants, rfl⟩ := Codec.writes_enumeration_iff.1 hwrites
          exact .unlisted hwriter fun variant hvariant hequal => hunlisted ⟨variant, hvariant, hequal⟩
      · obtain ⟨hpartAdmits, hpartAccepts | hforeign⟩ := hmade.part_cases hfits hwriter hwrites hadmits part hpart
        · obtain ⟨hpartFits, hpartPlain⟩ := hmade.coded_parts hfits hwriter part hpart
          exact .part hwriter hwrites hpart (ih codec part hpart hpartFits hpartPlain hpartAdmits hpartAccepts hfails)
        · obtain ⟨markers, type, items, inner, rfl, rfl, hcoding, hitem, hpartNull, hpartForeign⟩ := hforeign
          rw [hcoding, writeAs_of_not_writes rfl hpartNull hpartForeign] at hfails
          obtain rfl := hfails.unique (fails_throw _)
          exact .foreign hwriter hitem hpartNull hpartForeign

/-- What has something wrong with it cannot be written. -/
theorem Registry.Sound.not_encodable_of_refuses [RecordEquality] (hsound : registry.Sound) {e : Error}
    (h : registry.Refuses element value e) : ¬ registry.Encodable element value := by
  induction h with
  | missing hvalue hnone =>
    intro hencodable
    cases hencodable with
    | null => exact hvalue rfl
    | coded hwriter hwrites _ _ _ =>
      rcases hsound.known hwriter with ⟨hnull, -⟩ | ⟨hmem, -⟩
      · exact hvalue (Value.type_eq_null_iff.1 hnull)
      · exact hnone _ hmem hwrites
  | overflow hwriter hwrites hsize hmax =>
    intro hencodable
    cases hencodable with
    | null => cases hsize.symm.trans (Codec.size?_null _)
    | coded hfound _ hsizes _ _ =>
      cases hwriter.symm.trans hfound
      exact absurd (hsizes _ hsize) (Nat.not_le_of_lt hmax)
  | unlisted hwriter hunlisted =>
    intro hencodable
    cases hencodable with
    | coded hfound _ _ hlisted _ =>
      cases hwriter.symm.trans hfound
      obtain ⟨variant, hvariant, hequal⟩ := hlisted
      exact hunlisted variant hvariant hequal
  | foreign hwriter hitem hvalue hforeign =>
    intro hencodable
    cases hencodable with
    | coded hfound _ _ _ hparts =>
      cases hwriter.symm.trans hfound
      cases hparts _ (List.mem_map.2 ⟨_, hitem, rfl⟩) with
      | null => exact hvalue rfl
      | coded hinner hinnerWrites _ _ _ =>
        cases hinner
        exact hforeign hinnerWrites
  | part hwriter _ hpart _ ih =>
    intro hencodable
    cases hencodable with
    | null =>
      rw [Codec.parts_null] at hpart
      cases hpart
    | coded hfound _ _ _ hparts =>
      cases hwriter.symm.trans hfound
      exact ih (hparts _ hpart)

namespace Registry

/-- A reachable registry writes the encodable values and no others, behind any bytes. What it does not write is refused
for what is wrong with it: no codec writes a type, a size is too great, a variant is not listed, or an item of an array
has a type that the codec of the items does not write. A value with any of this wrong is not written. -/
theorem write_domain [RecordEquality] (hreachable : ∃ made, Reachable registry made) (value : Value) :
    (∀ output, (∃ written, registry.write value output = .ok () written) ↔ registry.Encodable .any value) ∧
    (registry.Admits value → ∀ output e written, registry.write value output = .error e written →
      registry.Refuses .any value e) ∧
    ∀ e, registry.Refuses .any value e → ∀ output written, registry.write value output ≠ .ok () written := by
  obtain ⟨made, hreachable⟩ := hreachable
  have hmade := hreachable.isMade
  have huniform := registry.uniform_writeAs value .any
  have hplain : Element.any.Plain := nofun
  have hencodable : ∀ output, (∃ written, registry.write value output = .ok () written) ↔
      registry.Encodable .any value := fun output =>
    (Writes.iff_of_run huniform output).trans (hmade.writes_iff Element.fits_any hplain)
  refine ⟨hencodable, fun hadmits output e written hwrite => ?_, fun e hrefuses output written hwrite => ?_⟩
  · have hfails : Fails (registry.writeAs value .any) e := by
      rcases huniform.writes_or_fails with ⟨bytes, hemits⟩ | ⟨e', hfails⟩
      · cases (hemits output).symm.trans hwrite
      · exact hfails.eq_of_run hwrite ▸ hfails
    exact hmade.refuses_of_fails Element.fits_any hplain hadmits (hmade.sound.accepts_any value) hfails
  · exact hmade.sound.not_encodable_of_refuses hrefuses ((hencodable output).1 ⟨written, hwrite⟩)

/-- How the codecs of longs and of arrays of longs are made. -/
def longsRecipes : List Recipe := [.builtin (.atom (.word .long)) (-120) 0, .array 1 (.atom (.word .long))]

/-- An array of longs that holds null and an item. -/
def longs (item : Value) : Value := .array (.atom (.word .long)) [.null, item]

set_option maxRecDepth 2000 in
/-- An array of longs may hold null and longs. A list in it is refused by the codec of longs, after the null in front of
it has been written. -/
theorem write_domain_longs :
    let registry := ofRecipes longsRecipes
    let foreign : Error := .typeMismatch "long" (.foreign (.sequence .list))
    (∃ made, Reachable registry made) ∧
    registry.write (longs (.atom (.word .long 5))) #[7] = .ok () #[7, 1, 0, 0, 0, 2, 128, 136, 5] ∧
    registry.Encodable .any (longs (.atom (.word .long 5))) ∧
    registry.Admits (longs (.sequence .list [])) ∧
    registry.write (longs (.sequence .list [])) #[7] = .error foreign #[7, 1, 0, 0, 0, 2, 128] ∧
    registry.Refuses .any (longs (.sequence .list [])) foreign := by
  intro registry foreign
  have hreachable : ∃ made, Reachable registry made := reachable_ofRecipes longsRecipes
  have hwrite : registry.write (longs (.atom (.word .long 5))) #[7] = .ok () #[7, 1, 0, 0, 0, 2, 128, 136, 5] := rfl
  have hadmits : registry.Admits (longs (.sequence .list [])) :=
    .array (List.forall_mem_cons.2 ⟨.null, List.forall_mem_singleton.2 (.sequence fun _ hmem => nomatch hmem)⟩)
  have hfails : registry.write (longs (.sequence .list [])) #[7] = .error foreign #[7, 1, 0, 0, 0, 2, 128] := rfl
  exact ⟨hreachable, hwrite, ((write_domain hreachable _).1 #[7]).1 ⟨_, hwrite⟩, hadmits, hfails,
    (write_domain hreachable _).2.1 hadmits _ _ _ hfails⟩

end Registry

end Bytemark
