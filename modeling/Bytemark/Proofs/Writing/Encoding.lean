import Bytemark.Proofs.Writing.Appending

/-!
# The bytes of a value

`Encodes registry value element bytes` says what the bytes of a value coded as an element look like: the marker of the
codec that writes the value, a size where the codec writes one, and the bytes of the parts in their order. It leaves out
everything a writer does apart from that: the checks, the order of effects, and the output written to before.

`Registry.encodes_of_emits` finds these bytes in every successful write, so that readers can be compared with what was
written instead of with the writer. `Encodes.emits` is the way back: a value that has such bytes is written, as just
these bytes.
-/

set_option autoImplicit false

namespace Bytemark

/-- The bytes of a value coded as an element. Sequences of parts come with the list of what each part is written as. -/
inductive Encodes [RecordEquality] (registry : Registry) : Value → Element → List UInt8 → Prop
  | null {element : Element} : Encodes registry .null element [Marker.null.toByte]
  | atom {atom : Atom} {element : Element} {codec : AtomCodec} {bytes : List UInt8}
      (hwriter : element.writer registry (.atom atom.type) = .ok (.atom codec))
      (hbytes : Emits (codec.write atom) bytes) :
      Encodes registry (.atom atom) element bytes
  | variant {type : String} {index : UInt16} {element : Element} {markers : MarkerRange} {variants : List UInt16}
      {ordinal : Nat} (hwriter : element.writer registry (.enumeration type) = .ok (.enumeration markers type variants))
      (hordinal : Codec.ordinal? type variants index = some ordinal) :
      Encodes registry (.variant type index) element (markers.base.toByte :: BigEndian.encode 1 (ordinal - 128))
  | sized {kind : SequenceKind} {items : List Value} {element part : Element} {markers : MarkerRange}
      {size : List UInt8} {parts : List (List UInt8)}
      (hwriter : element.writer registry (.sequence kind) = .ok (.sequence markers kind part))
      (hsize : Emits (Size.write markers.base items.length) size) (hlength : parts.length = items.length)
      (hparts : ∀ pair ∈ items.zip parts, Encodes registry pair.1 part pair.2) :
      Encodes registry (.sequence kind items) element (size ++ parts.flatten)
  | delimited {kind : SequenceKind} {items : List Value} {element part : Element} {markers : MarkerRange}
      {parts : List (List UInt8)}
      (hwriter : element.writer registry (.sequence kind) = .ok (.collection markers part))
      (hcollects : element.collects kind) (hlength : parts.length = items.length)
      (hparts : ∀ pair ∈ items.zip parts, Encodes registry pair.1 part pair.2) :
      Encodes registry (.sequence kind items) element
        (markers.base.toByte :: (parts.flatten ++ [(markers.markerAt 1).toByte]))
  | map {entries : List (Value × Value)} {element key value : Element} {markers : MarkerRange} {size : List UInt8}
      {parts : List (List UInt8 × List UInt8)}
      (hwriter : element.writer registry .map = .ok (.map markers key value))
      (hsize : Emits (Size.write markers.base entries.length) size) (hlength : parts.length = entries.length)
      (hkeys : ∀ pair ∈ entries.zip parts, Encodes registry pair.1.1 key pair.2.1)
      (hvalues : ∀ pair ∈ entries.zip parts, Encodes registry pair.1.2 value pair.2.2) :
      Encodes registry (.map entries) element (size ++ parts.flatMap fun part => part.1 ++ part.2)
  | array {type : ValueType} {items : List Value} {element part : Element} {markers : MarkerRange}
      {parts : List (List UInt8)}
      (hwriter : element.writer registry (.array type) = .ok (.array markers type part))
      (hmax : items.length ≤ Size.max) (hlength : parts.length = items.length)
      (hparts : ∀ pair ∈ items.zip parts, Encodes registry pair.1 part pair.2) :
      Encodes registry (.array type items) element
        (markers.base.toByte :: (BigEndian.encode 4 items.length ++ parts.flatten))
  | record {type : String} {slots fresh : List (String × Value)} {element : Element} {markers : MarkerRange}
      {fields : List Field} {parts : List (List UInt8)}
      (hwriter : element.writer registry (.record type) = .ok (.record markers type fresh fields))
      (hlength : parts.length = fields.length)
      (hparts : ∀ pair ∈ fields.zip parts,
        Encodes registry ((slots.lookup pair.1.info.source).getD .null)
          (pair.1.binding.resolve (.record markers type fresh fields)) pair.2) :
      Encodes registry (.record type slots) element (markers.base.toByte :: parts.flatten)

/-- If something is written after an answer, the answer was given. -/
theorem Emits.of_ofExcept {α : Type} {answer : Except Error α} {next : α → Write} {bytes : List UInt8}
    (h : Emits (MonadExcept.ofExcept answer >>= next) bytes) : ∃ a, answer = .ok a ∧ Emits (next a) bytes := by
  cases answer with
  | ok a => exact ⟨a, rfl, h⟩
  | error e => exact absurd h not_emits_throw

/-- After an answer that is given, what follows is written. -/
theorem Emits.ofExcept {α : Type} {answer : Except Error α} {next : α → Write} {a : α} {bytes : List UInt8}
    (hanswer : answer = .ok a) (hnext : Emits (next a) bytes) : Emits (MonadExcept.ofExcept answer >>= next) bytes := by
  subst hanswer
  exact hnext

/-- What is emitted for each member of a list is emitted for all of them, one after the other. -/
theorem Emits.forM {α β : Type} {items : List α} {parts : List β} {write : α → Write} (spell : β → List UInt8)
    (hlength : parts.length = items.length)
    (h : ∀ pair ∈ items.zip parts, Emits (write pair.1) (spell pair.2)) :
    Emits (items.forM write) (parts.flatMap spell) := by
  induction items generalizing parts with
  | nil =>
    obtain rfl := List.length_eq_zero_iff.1 hlength
    exact .pure
  | cons item items ih =>
    cases parts with
    | nil => cases hlength
    | cons part parts =>
      rw [List.zip_cons_cons, List.forall_mem_cons] at h
      rw [List.flatMap_cons]
      exact h.1.bind (ih (Nat.succ.inj hlength) h.2)

/-- What is emitted for the members of a list falls into what is emitted for each of them. -/
theorem Emits.forM_parts {α β : Type} {items : List α} {write : α → Write} (spell : β → List UInt8)
    (Means : α → β → Prop) {bytes : List UInt8} (huniform : ∀ item ∈ items, Uniform (write item))
    (hmeans : ∀ item ∈ items, ∀ bytes, Emits (write item) bytes → ∃ part, bytes = spell part ∧ Means item part)
    (h : Emits (items.forM write) bytes) :
    ∃ parts : List β, bytes = parts.flatMap spell ∧ parts.length = items.length ∧
      ∀ pair ∈ items.zip parts, Means pair.1 pair.2 := by
  induction items generalizing bytes with
  | nil =>
    obtain rfl := Emits.pure.unique h
    exact ⟨[], rfl, rfl, fun _ hmem => nomatch hmem⟩
  | cons item items ih =>
    have hrest : Uniform (items.forM write) := .forM fun item hitem => huniform item (List.mem_cons_of_mem _ hitem)
    obtain ⟨front, back, hfront, hback, rfl⟩ := (huniform item List.mem_cons_self).emits_bind hrest h
    obtain ⟨part, rfl, hpart⟩ := hmeans item List.mem_cons_self front hfront
    obtain ⟨parts, rfl, hlength, hparts⟩ :=
      ih (fun item hitem => huniform item (List.mem_cons_of_mem _ hitem))
        (fun item hitem => hmeans item (List.mem_cons_of_mem _ hitem)) hback
    refine ⟨part :: parts, rfl, by rw [List.length_cons, List.length_cons, hlength], ?_⟩
    rw [List.zip_cons_cons]
    exact List.forall_mem_cons.2 ⟨hpart, hparts⟩

namespace Registry

variable {registry : Registry}

/-- What is written for elements is made of the bytes of each of them. -/
theorem encodes_of_emits_items [RecordEquality] {items : List Value} {part : Element} {bytes : List UInt8}
    (ih : ∀ item ∈ items, ∀ {element bytes}, Emits (registry.writeAs item element) bytes →
      Encodes registry item element bytes)
    (h : Emits (registry.writeItems items part) bytes) :
    ∃ parts : List (List UInt8), bytes = parts.flatten ∧ parts.length = items.length ∧
      ∀ pair ∈ items.zip parts, Encodes registry pair.1 part pair.2 := by
  rw [writeItems_eq_forM] at h
  obtain ⟨parts, rfl, hrest⟩ := h.forM_parts id _ (fun item _ => registry.uniform_writeAs item part)
    fun item hitem bytes hbytes => ⟨bytes, rfl, ih item hitem hbytes⟩
  exact ⟨parts, List.flatMap_id .., hrest⟩

/-- What is written for entries is made of the bytes of each key and each value, in turn. -/
theorem encodes_of_emits_entries [RecordEquality] {entries : List (Value × Value)} {key value : Element}
    {bytes : List UInt8} (ih : ∀ entry ∈ entries,
      (∀ {element bytes}, Emits (registry.writeAs entry.1 element) bytes → Encodes registry entry.1 element bytes) ∧
      ∀ {element bytes}, Emits (registry.writeAs entry.2 element) bytes → Encodes registry entry.2 element bytes)
    (h : Emits (registry.writeEntries entries key value) bytes) :
    ∃ parts : List (List UInt8 × List UInt8), bytes = parts.flatMap (fun part => part.1 ++ part.2) ∧
      parts.length = entries.length ∧ ∀ pair ∈ entries.zip parts,
        Encodes registry pair.1.1 key pair.2.1 ∧ Encodes registry pair.1.2 value pair.2.2 := by
  rw [writeEntries_eq_forM] at h
  refine h.forM_parts (fun (part : List UInt8 × List UInt8) => part.1 ++ part.2)
    (fun entry part => Encodes registry entry.1 key part.1 ∧ Encodes registry entry.2 value part.2)
    (fun entry _ => ?_) fun entry hentry bytes hbytes => ?_
  · exact (registry.uniform_writeAs entry.1 key).bind (registry.uniform_writeAs entry.2 value)
  · obtain ⟨front, back, hfront, hback, rfl⟩ :=
      (registry.uniform_writeAs entry.1 key).emits_bind (registry.uniform_writeAs entry.2 value) hbytes
    exact ⟨(front, back), rfl, (ih entry hentry).1 hfront, (ih entry hentry).2 hback⟩

/-- What is written for a field is what is written for the value of its slot. -/
theorem encodes_of_emits_field [RecordEquality] {slots : List (String × Value)} {self : Codec} {field : Field}
    {bytes : List UInt8} (ih : ∀ slot ∈ slots, ∀ {element bytes}, Emits (registry.writeAs slot.2 element) bytes →
      Encodes registry slot.2 element bytes)
    (h : Emits (field.write (registry.slotWriters slots) self) bytes) :
    Encodes registry ((slots.lookup field.info.source).getD .null) (field.binding.resolve self) bytes := by
  unfold Field.write at h
  rw [lookup_slotWriters] at h
  cases hslot : slots.lookup field.info.source with
  | none =>
    rw [hslot] at h
    obtain rfl := h.unique (.marker Marker.null)
    exact .null
  | some value =>
    rw [hslot] at h
    exact ih _ (Value.mem_of_lookup hslot) h

/-- Whatever is written for a value are bytes of the value. -/
theorem encodes_of_emits [RecordEquality] {value : Value} {element : Element} {bytes : List UInt8}
    (h : Emits (registry.writeAs value element) bytes) : Encodes registry value element bytes := by
  induction value using Value.induction generalizing element bytes with
  | null =>
    obtain rfl := h.unique (.marker Marker.null)
    exact .null
  | atom atom =>
    obtain ⟨codec, hwriter, hbody⟩ := h.of_ofExcept
    clear h
    split at hbody
    · exact .atom hwriter hbody
    · exact absurd hbody not_emits_throw
  | variant type index =>
    obtain ⟨codec, hwriter, hbody⟩ := h.of_ofExcept
    clear h
    -- The branches are those of the writer. All but one of them throw, and so emit nothing.
    split at hbody
    · split at hbody
      · subst type
        split at hbody
        · rename_i ordinal hordinal
          obtain rfl := hbody.unique (.markerAnd _ _ _)
          exact .variant hwriter hordinal
        · exact absurd hbody not_emits_throw
      · exact absurd hbody not_emits_throw
    · exact absurd hbody not_emits_throw
  | sequence kind items ih =>
    obtain ⟨codec, hwriter, hbody⟩ := h.of_ofExcept
    clear h
    have hitems (part : Element) : Uniform (registry.writeItems items part) :=
      uniform_writeItems fun item _ => registry.uniform_writeAs item
    split at hbody
    · split at hbody
      · subst kind
        obtain ⟨size, rest, hsize, hrest, rfl⟩ := (Size.uniform_write ..).emits_bind (hitems _) hbody
        obtain ⟨parts, rfl, hlength, hparts⟩ := encodes_of_emits_items ih hrest
        exact .sized hwriter hsize hlength hparts
      · exact absurd hbody not_emits_throw
    · split at hbody
      · rename_i hcollects
        have hlast (marker : Marker) := Uniform.of_emits (.marker marker)
        obtain ⟨first, rest, hfirst, hrest, rfl⟩ := (hlast _).emits_bind ((hitems _).bind (hlast _)) hbody
        obtain ⟨middle, last, hmiddle, hlast, rfl⟩ := (hitems _).emits_bind (hlast _) hrest
        obtain ⟨parts, rfl, hlength, hparts⟩ := encodes_of_emits_items ih hmiddle
        obtain rfl := hfirst.unique (.marker _)
        obtain rfl := hlast.unique (.marker _)
        exact .delimited hwriter hcollects hlength hparts
      · exact absurd hbody not_emits_throw
    · exact absurd hbody not_emits_throw
  | map entries ih =>
    obtain ⟨codec, hwriter, hbody⟩ := h.of_ofExcept
    clear h
    split at hbody
    · have hentries (key value : Element) : Uniform (registry.writeEntries entries key value) :=
        uniform_writeEntries fun entry _ => ⟨registry.uniform_writeAs entry.1, registry.uniform_writeAs entry.2⟩
      obtain ⟨size, rest, hsize, hrest, rfl⟩ := (Size.uniform_write ..).emits_bind (hentries _ _) hbody
      obtain ⟨parts, rfl, hlength, hparts⟩ := encodes_of_emits_entries ih hrest
      exact .map hwriter hsize hlength (fun pair hpair => (hparts pair hpair).1) fun pair hpair => (hparts pair hpair).2
    · exact absurd hbody not_emits_throw
  | array type items ih =>
    obtain ⟨codec, hwriter, hbody⟩ := h.of_ofExcept
    clear h
    split at hbody
    · split at hbody
      · subst type
        split at hbody
        · rename_i hmax
          obtain ⟨front, rest, hfront, hrest, rfl⟩ := (Uniform.of_emits (.markerAnd _ _ _)).emits_bind
            (uniform_writeItems fun item _ => registry.uniform_writeAs item) hbody
          obtain ⟨parts, rfl, hlength, hparts⟩ := encodes_of_emits_items ih hrest
          obtain rfl := hfront.unique (.markerAnd _ _ _)
          exact .array hwriter hmax hlength hparts
        · exact absurd hbody not_emits_throw
      · exact absurd hbody not_emits_throw
    · exact absurd hbody not_emits_throw
  | record type slots ih =>
    obtain ⟨codec, hwriter, hbody⟩ := h.of_ofExcept
    clear h
    split at hbody
    · dsimp only at hbody
      split at hbody
      · subst type
        have hfield (self : Codec) (field : Field) : Uniform (field.write (registry.slotWriters slots) self) :=
          uniform_writeField (fun slot _ => registry.uniform_writeAs slot.2) self field
        obtain ⟨first, rest, hfirst, hrest, rfl⟩ :=
          (Uniform.of_emits (.marker _)).emits_bind (.forM fun field _ => hfield _ field) hbody
        obtain ⟨parts, rfl, hlength, hparts⟩ := hrest.forM_parts id _ (fun field _ => hfield _ field)
          fun field _ bytes hbytes => ⟨bytes, rfl, encodes_of_emits_field ih hbytes⟩
        obtain rfl := hfirst.unique (.marker _)
        rw [List.flatMap_id]
        exact .record hwriter hlength hparts
      · exact absurd hbody not_emits_throw
    · exact absurd hbody not_emits_throw

/-- The bytes of the elements, one after the other, are what is written for all of them. -/
theorem emits_items [RecordEquality] {items : List Value} {part : Element} {parts : List (List UInt8)}
    (hlength : parts.length = items.length)
    (hparts : ∀ pair ∈ items.zip parts, Emits (registry.writeAs pair.1 part) pair.2) :
    Emits (registry.writeItems items part) parts.flatten := by
  rw [writeItems_eq_forM, ← List.flatMap_id]
  exact .forM id hlength hparts

/-- The bytes of the slot's value are what is written for the field. -/
theorem emits_field [RecordEquality] {slots : List (String × Value)} {self : Codec} {field : Field} {bytes : List UInt8}
    (h : Emits (registry.writeAs ((slots.lookup field.info.source).getD .null) (field.binding.resolve self)) bytes) :
    Emits (field.write (registry.slotWriters slots) self) bytes := by
  unfold Field.write
  rw [lookup_slotWriters]
  cases hslot : slots.lookup field.info.source with
  | none =>
    rw [hslot] at h
    exact h
  | some value =>
    rw [hslot] at h
    exact h

end Registry

/-- A value that has bytes is written as these bytes. -/
theorem Encodes.emits [RecordEquality] {registry : Registry} {value : Value} {element : Element} {bytes : List UInt8}
    (h : Encodes registry value element bytes) : Emits (registry.writeAs value element) bytes := by
  induction h with
  | null => exact .marker Marker.null
  | atom hwriter hbytes => exact .ofExcept hwriter hbytes
  | variant hwriter hordinal =>
    refine .ofExcept hwriter ?_
    dsimp only
    rw [if_pos rfl, hordinal]
    exact .markerAnd _ _ _
  | sized hwriter hsize hlength _ ih =>
    refine .ofExcept hwriter ?_
    dsimp only
    rw [if_pos rfl]
    exact hsize.bind (Registry.emits_items hlength ih)
  | delimited hwriter hcollects hlength _ ih =>
    refine .ofExcept hwriter ?_
    dsimp only
    rw [if_pos hcollects]
    exact (Emits.marker _).bind ((Registry.emits_items hlength ih).bind (Emits.marker _))
  | map hwriter hsize hlength _ _ ihkeys ihvalues =>
    refine .ofExcept hwriter (hsize.bind ?_)
    rw [Registry.writeEntries_eq_forM]
    refine Emits.forM (fun part => part.1 ++ part.2) hlength fun pair hpair => ?_
    exact (ihkeys pair hpair).bind (ihvalues pair hpair)
  | array hwriter hmax hlength _ ih =>
    refine .ofExcept hwriter ?_
    dsimp only
    rw [if_pos rfl, if_pos hmax]
    exact (Emits.markerAnd _ _ _).bind (Registry.emits_items hlength ih)
  | record hwriter hlength _ ih =>
    refine .ofExcept hwriter ?_
    dsimp only
    rw [if_pos rfl, ← List.flatMap_id]
    exact (Emits.marker _).bind (Emits.forM id hlength fun pair hpair => Registry.emits_field (ih pair hpair))

end Bytemark
