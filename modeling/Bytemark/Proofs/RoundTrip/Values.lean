import Bytemark.Proofs.Coding.Codecs
import Bytemark.Proofs.RoundTrip.Back

/-!
# Values are read back

In a sound registry the first byte of a written value is a marker of the codec that wrote it, so the reader finds that
codec again: by the marker when the value may be of any type, and by the coding otherwise. From there the bytes are read
part by part, by induction on how the value was written.

Elements of a delimited run need one more fact: none of them starts with the marker that ends the run. That marker
belongs to the codec of collections and no other, and what this codec writes starts with its other marker.
-/

set_option autoImplicit false

namespace Bytemark

open Registry

/-- The registry has the codec that the element names, if it names one. -/
def Element.Fits (registry : Registry) (element : Element) : Prop := ∃ type, element.FitsType registry type

/-- The parts of what the codec writes are coded by codecs that the registry has. -/
def Codec.PartsFit (registry : Registry) : Codec → Prop
  | sequence _ _ part => part.Fits registry
  | collection _ part => part.Fits registry
  | map _ key value => key.Fits registry ∧ value.Fits registry
  | array _ _ part => part.Fits registry
  | record markers type fresh fields =>
    ∀ field ∈ fields, (field.binding.resolve (record markers type fresh fields)).Fits registry
  | _ => True

variable {registry : Registry} {element : Element} {type : ValueType} {codec : Codec}

/-- A coding that names no codec fits every registry. -/
theorem Element.fits_any : Element.any.Fits registry := ⟨.any, trivial⟩

/-- What fits a type fits. -/
theorem Element.FitsType.fits (h : element.FitsType registry type) : element.Fits registry := ⟨type, h⟩

/-- The codec that a coding names, or finds, is an answer of the registry. -/
theorem Element.Fits.answer_of_writer (hfits : element.Fits registry)
    (hwriter : element.writer registry type = .ok codec) : ∃ type', registry.codecForType type' = .ok codec := by
  obtain ⟨type', hfits⟩ := hfits
  cases element with
  | any => exact ⟨type, hwriter⟩
  | boxed named =>
    cases hwriter
    exact ⟨type', hfits⟩
  | direct named =>
    cases hwriter
    exact ⟨type', hfits⟩

/-! ## The codec that writes a value -/

namespace Registry.Sound

/-- The answer to a look-up by type is null's codec for null's type, and a registered writer of the type otherwise. -/
theorem known (hsound : registry.Sound) (h : registry.codecForType type = .ok codec) :
    (type = .null ∧ codec = .null) ∨ (codec ∈ registry.codecs ∧ codec.writes type) := by
  by_cases hnull : type = .null
  · subst hnull
    cases h
    exact .inl ⟨rfl, rfl⟩
  · have hfirst := (hsound.consistent.codecForType_eq_ok_iff hnull).1 h
    exact .inr ⟨List.mem_of_find?_eq_some hfirst, List.find?_some hfirst⟩

/-- A codec that writes anything but null is registered. -/
theorem mem_of_writer (hsound : registry.Sound) (hfits : element.Fits registry)
    (hwriter : element.writer registry type = .ok codec) (hne : codec ≠ .null) : codec ∈ registry.codecs := by
  obtain ⟨type', hanswer⟩ := hfits.answer_of_writer hwriter
  rcases hsound.known hanswer with ⟨-, hnull⟩ | ⟨hmem, -⟩
  · exact absurd hnull hne
  · exact hmem

/-- No registered codec has null's marker. -/
theorem base_ne_null (hsound : registry.Sound) (hmem : codec ∈ registry.codecs) :
    codec.markers.base ≠ Marker.null := by
  intro hnull
  have hbase := codec.markers.base_mem
  rw [hnull] at hbase
  exact hsound.consistent.null_free hmem hbase

/-- The codec that writes a record is the one that the registry has for the record's type. -/
theorem answer_of_record_writer (hsound : registry.Sound) (hfits : element.Fits registry) {markers : MarkerRange}
    {name : String} {fresh : List (String × Value)} {fields : List Field}
    (hwriter : element.writer registry type = .ok (.record markers name fresh fields)) :
    registry.codecForType (.record name) = .ok (.record markers name fresh fields) := by
  obtain ⟨type', hanswer⟩ := hfits.answer_of_writer hwriter
  rcases hsound.known hanswer with ⟨-, hnull⟩ | ⟨-, hwrites⟩
  · cases hnull
  · obtain rfl : type' = .record name := of_decide_eq_true hwrites
    exact hanswer

/-! ## Finding the codec again -/

/-- The reader finds the codec by the first byte, or knows it from the coding. -/
theorem select_eq (hsound : registry.Sound) (hwriter : element.writer registry type = .ok codec)
    (hmem : codec ∈ registry.codecs) {bytes : List UInt8} (hstart : StartsIn codec.markers bytes) (rest : Input) :
    registry.select element (bytes ++ rest) = .ok codec (bytes ++ rest) := by
  cases element with
  | any =>
    obtain ⟨marker, tail, rfl, hmarker⟩ := hstart
    have howner := hsound.consistent.owner_of_mem hmem hmarker
    have hcodec : registry.codecForMarker marker = .ok codec := by
      rw [codecForMarker, howner]
    simp [select, bind, EStateM.bind, Input.peek, hcodec, ofExcept, pure, EStateM.pure]
  | boxed named =>
    cases hwriter
    rfl
  | direct named =>
    cases hwriter
    rfl

/-- The registry reads the bytes that the codec for them reads. -/
theorem decodes_readAs [RecordEquality] (hsound : registry.Sound) (hwriter : element.writer registry type = .ok codec)
    (hmem : codec ∈ registry.codecs) {bytes : List UInt8} {value : Value} (hstart : StartsIn codec.markers bytes)
    (hread : Decodes (codec.read registry.readAs) bytes value) : Decodes (registry.readAs element) bytes value := by
  intro rest
  rw [registry.readAs_eq]
  exact bind_eq_ok_iff.2 ⟨codec, _, hsound.select_eq hwriter hmem hstart rest, hread rest⟩

end Registry.Sound

/-! ## Null -/

/-- In every coding null is read from null's marker. -/
theorem Registry.Sound.decodes_null [RecordEquality] (hsound : registry.Sound) (hfits : element.Fits registry) :
    Decodes (registry.readAs element) [Marker.null.toByte] .null := by
  have hnamed : ∀ {codec}, (∃ type, registry.codecForType type = .ok codec) →
      Decodes (codec.read registry.readAs) [Marker.null.toByte] .null := by
    rintro codec ⟨type, hanswer⟩
    apply Codec.decodes_null
    rcases hsound.known hanswer with ⟨-, hnull⟩ | ⟨hmem, -⟩
    · exact .inl hnull
    · exact .inr (hsound.base_ne_null hmem)
  cases element with
  | any =>
    intro rest
    have hcodec : registry.codecForMarker Marker.null = .ok .null := by
      rw [codecForMarker, hsound.consistent.owner_null]
    have hselect : registry.select .any ([Marker.null.toByte] ++ rest) = .ok .null ([Marker.null.toByte] ++ rest) := by
      simp [select, bind, EStateM.bind, Input.peek, hcodec, ofExcept, pure, EStateM.pure]
    rw [registry.readAs_eq]
    exact bind_eq_ok_iff.2 ⟨.null, _, hselect, Codec.decodes_null _ (.inl rfl) rest⟩
  | boxed codec =>
    rw [registry.readAs_boxed]
    exact hnamed hfits
  | direct codec =>
    rw [registry.readAs_direct]
    exact hnamed hfits

/-! ## The first byte -/

/-- A codec of a sound registry claims what its form writes. -/
theorem Registry.Sound.legal (hsound : registry.Sound) (hmem : codec ∈ registry.codecs) : codec.Legal := by
  have hbase := hsound.base_ne_null hmem
  cases hsound.fits hmem with
  | atom hcount => exact .atom hbase hcount
  | enumeration _ => exact .enumeration hbase
  | sequence hcount => exact .sequence hbase hcount
  | collection hcount => exact .collection hbase hcount
  | map hcount => exact .map hbase hcount
  | array _ => exact .array hbase
  | record _ => exact .record hbase

/-- A value other than null that has bytes has a codec that writes it. -/
theorem Encodes.exists_writer [RecordEquality] {value : Value} {bytes : List UInt8}
    (h : Encodes registry value element bytes) (hvalue : value ≠ .null) :
    ∃ codec, element.writer registry value.type = .ok codec ∧ codec ≠ .null := by
  cases h with
  | null => exact absurd rfl hvalue
  | atom hwriter _ => exact ⟨_, hwriter, Codec.noConfusion⟩
  | variant hwriter _ => exact ⟨_, hwriter, Codec.noConfusion⟩
  | sized hwriter _ _ _ => exact ⟨_, hwriter, Codec.noConfusion⟩
  | delimited hwriter _ _ _ => exact ⟨_, hwriter, Codec.noConfusion⟩
  | map hwriter _ _ _ _ => exact ⟨_, hwriter, Codec.noConfusion⟩
  | array hwriter _ _ _ => exact ⟨_, hwriter, Codec.noConfusion⟩
  | record hwriter _ _ => exact ⟨_, hwriter, Codec.noConfusion⟩

/-- What the codec of collections writes starts with the first of its two markers. -/
theorem Encodes.starts_base [RecordEquality] {value : Value} {bytes : List UInt8} {markers : MarkerRange}
    {part : Element} (h : Encodes registry value element bytes) (hvalue : value ≠ .null)
    (hwriter : element.writer registry value.type = .ok (.collection markers part)) :
    ∃ tail, bytes = markers.base.toByte :: tail := by
  cases h with
  | null => exact absurd rfl hvalue
  | delimited hfound _ _ _ =>
    cases hfound.symm.trans hwriter
    exact ⟨_, rfl⟩
  | atom hfound _ => cases hfound.symm.trans hwriter
  | variant hfound _ => cases hfound.symm.trans hwriter
  | sized hfound _ _ _ => cases hfound.symm.trans hwriter
  | map hfound _ _ _ _ => cases hfound.symm.trans hwriter
  | array hfound _ _ _ => cases hfound.symm.trans hwriter
  | record hfound _ _ => cases hfound.symm.trans hwriter

/-- What is written for a value other than null starts with a marker of the codec that writes it; the codec of
collections starts with the first of its two. -/
theorem Encodes.start [RecordEquality] (hsound : registry.Sound) {value : Value} {bytes : List UInt8}
    (h : Encodes registry value element bytes) (hfits : element.Fits registry) (hvalue : value ≠ .null) :
    ∃ codec ∈ registry.codecs, StartsIn codec.markers bytes ∧
      ∀ markers part, codec = .collection markers part → ∃ tail, bytes = markers.base.toByte :: tail := by
  obtain ⟨codec, hwriter, hne⟩ := h.exists_writer hvalue
  have hmem := hsound.mem_of_writer hfits hwriter hne
  refine ⟨codec, hmem, h.startsIn hvalue hwriter (hsound.legal hmem), fun markers part hcollection => ?_⟩
  exact h.starts_base hvalue (hcollection ▸ hwriter)

/-- No value starts with the marker that ends a delimited run. -/
theorem Encodes.start_ne_last [RecordEquality] (hsound : registry.Sound) {value : Value} {bytes : List UInt8}
    (h : Encodes registry value element bytes) (hfits : element.Fits registry) {markers : MarkerRange} {part : Element}
    (hmem : .collection markers part ∈ registry.codecs) (hcount : markers.count = 2) :
    ∃ marker tail, bytes = marker.toByte :: tail ∧ marker ≠ markers.markerAt 1 := by
  have hone : 1 < markers.count := by omega
  have hlast := markers.markerAt_mem hone
  by_cases hvalue : value = .null
  · subst hvalue
    cases h
    exact ⟨_, _, rfl, (markers.ne_null_of_mem (hsound.base_ne_null hmem) hlast).symm⟩
  · obtain ⟨codec, hcodec, ⟨marker, tail, rfl, hmarker⟩, hcollection⟩ := h.start hsound hfits hvalue
    refine ⟨marker, tail, rfl, ?_⟩
    rintro rfl
    -- The end marker has one owner only, so the value was written by the codec of collections.
    have howner := hsound.consistent.owner_of_mem hcodec hmarker
    rw [hsound.consistent.owner_of_mem hmem hlast] at howner
    obtain ⟨tail', hsame⟩ := hcollection _ _ (Option.some.inj howner).symm
    have hbase : markers.markerAt 1 = markers.base := by
      rw [← Marker.ofByte_toByte (markers.markerAt 1), (List.cons.inj hsame).1, Marker.ofByte_toByte]
    rw [← markers.markerAt_zero] at hbase
    exact absurd (MarkerRange.markerAt_inj hone markers.count_pos hbase) (by decide)

/-! ## Reading the parts -/

/-- The fields of a record are read one after the other and put in their slots. -/
theorem Decodes.fields {read : Field → Read Value} {fields : List Field} {parts : List (List UInt8)}
    (decoded : Field → Value) (hlength : parts.length = fields.length)
    (h : ∀ pair ∈ fields.zip parts, Decodes (read pair.1) pair.2 (decoded pair.1)) (slots : List (String × Value)) :
    Decodes (fields.foldlM (fun slots field => do return setSlot slots field.info.target (← read field)) slots)
      parts.flatten (fields.foldl (fun slots field => setSlot slots field.info.target (decoded field)) slots) := by
  induction fields generalizing parts slots with
  | nil =>
    obtain rfl := List.length_eq_zero_iff.1 hlength
    exact .pure slots
  | cons field fields ih =>
    cases parts with
    | nil => cases hlength
    | cons part parts =>
      have hfield : Decodes (read field) part (decoded field) := h (field, part) (by simp)
      have hfields := fun pair hpair => h pair (List.mem_cons_of_mem _ hpair)
      have hput : Decodes (do return setSlot slots field.info.target (← read field)) part
          (setSlot slots field.info.target (decoded field)) := hfield.bind_pure (.pure _)
      rw [List.foldlM_cons]
      exact hput.bind (ih (Nat.succ.inj hlength) hfields _)

/-- A field that is coded directly has a codec of just its kind, so its value comes back with its type. -/
theorem Registry.type_backAs_direct [RecordEquality] (registry : Registry) {kind : FieldKind} {value : Value}
    (htype : value.type = kind.valueType) (hkind : codec.builtin? = kind.builtin?) :
    (registry.backAs value (.direct codec)).type = kind.valueType := by
  rcases registry.type_backAs value (.direct codec) with hsame | ⟨⟨sequence, hsequence⟩, -⟩
  · exact hsame.trans htype
  · obtain rfl : kind = .sequence sequence := by
      rw [hsequence] at htype
      cases kind <;> cases htype
      rfl
    obtain ⟨markers, part, rfl⟩ : ∃ markers part, codec = .sequence markers sequence part := by
      cases codec <;> cases hkind
      exact ⟨_, _, rfl⟩
    cases value with
    | sequence kind items =>
      cases hsequence
      exact sequence.type_collect _
    | _ => cases hsequence

/-- Only built-in codecs code fields directly, each of the field's own kind. -/
theorem Binding.Fits.builtin_of_direct {binding : Binding} {self : Codec} {building : ValueType} {kind : FieldKind}
    (hfits : binding.Fits registry building kind) (h : binding.resolve self = .direct codec) :
    kind.builtin?.isSome ∧ codec.builtin? = kind.builtin? := by
  cases binding with
  | self => cases h
  | through element =>
    cases h
    exact hfits.2

/-- A field that is coded directly takes what comes back as it is, and takes null only if it is optional. -/
theorem FieldType.fitted_direct [RecordEquality] (registry : Registry) {type : FieldType} {value : Value}
    (hholds : type.Holds value) (hbuiltin : type.kind.builtin?.isSome) (hkind : codec.builtin? = type.kind.builtin?) :
    type.fitted (registry.backAs value (.direct codec)) = registry.backAs value (.direct codec) ∧
      ¬ ((registry.backAs value (.direct codec)).isNull ∧ ¬ type.optional) := by
  rcases hholds with ⟨hoptional, rfl⟩ | hany | htype
  · rw [backAs, FieldType.fitted, FieldType.convert_null hoptional]
    exact ⟨rfl, fun hnull => hnull.2 hoptional⟩
  · rw [hany] at hbuiltin
    cases hbuiltin
  · have hback := registry.type_backAs_direct htype hkind
    rw [FieldType.fitted, FieldType.convert_of_type hback]
    refine ⟨rfl, fun hnull => ?_⟩
    cases hvalue : registry.backAs value (.direct codec) with
    | null =>
      rw [hvalue] at hback
      exact type.kind.valueType_ne_null hback.symm
    | _ =>
      rw [hvalue] at hnull
      cases hnull.1

/-- A field that was written for a value it may hold is read back, and fitted to its type. -/
theorem Decodes.field [RecordEquality] {self : Codec} {field : Field} {building : ValueType} {bytes : List UInt8}
    {value : Value} (hfits : field.binding.Fits registry building field.info.type.kind)
    (hholds : field.info.type.Holds value)
    (h : Decodes (registry.readAs (field.binding.resolve self)) bytes
      (registry.backAs value (field.binding.resolve self))) :
    Decodes (field.read registry.readAs self) bytes
      (field.info.type.fitted (registry.backAs value (field.binding.resolve self))) := by
  have hconvert := FieldType.convert_back registry (field.binding.resolve self) hholds
  unfold Field.read
  dsimp only
  split
  · rename_i codec hdirect
    obtain ⟨hbuiltin, hkind⟩ := hfits.builtin_of_direct hdirect
    obtain ⟨hfitted, hnull⟩ := FieldType.fitted_direct registry hholds hbuiltin hkind
    -- A direct field skips the conversion and refuses null instead, which does not come back for it.
    rw [hdirect] at h ⊢
    refine h.bind_pure ?_
    rw [if_neg hnull, hfitted]
    exact .pure _
  · exact h.bind_pure (.ofExcept hconvert)

/-- The codings of a record's fields name codecs that the registry has. -/
theorem Binding.Fits.resolve {binding : Binding} {building : ValueType} {kind : FieldKind} {self : Codec}
    (hfits : binding.Fits registry building kind) (hself : registry.codecForType building = .ok self) :
    (binding.resolve self).Fits registry := by
  cases binding with
  | self => exact ⟨building, hself⟩
  | through element =>
    cases element with
    | any => exact Element.fits_any
    | boxed codec => exact ⟨kind.valueType, hfits⟩
    | direct codec => exact ⟨kind.valueType, hfits.1⟩

/-! ## Reading a value

One lemma for each way in which a value is written, where the parts are known to be read back.
-/

namespace Registry.Sound

variable {markers : MarkerRange} {part : Element} {parts : List (List UInt8)} {items : List Value}

/-- An atom comes back from what its codec has written. -/
theorem decodes_atom [RecordEquality] (hsound : registry.Sound) (hfits : element.Fits registry) {atom : Atom}
    {codec : AtomCodec} {bytes : List UInt8} (hwriter : element.writer registry (.atom atom.type) = .ok (.atom codec))
    (hbytes : Emits (codec.write atom) bytes) :
    Decodes (registry.readAs element) bytes (registry.backAs (.atom atom) element) := by
  have hcodec := hsound.mem_of_writer hfits hwriter Codec.noConfusion
  cases hsound.fits hcodec with
  | atom hcount =>
    obtain ⟨hstart, hread⟩ := Codec.decodes_atom registry.readAs (hsound.base_ne_null hcodec) hcount hbytes
    rw [backAs]
    exact hsound.decodes_readAs hwriter hcodec hstart hread

/-- A variant comes back as the one that is listed at its place. -/
theorem decodes_variant [RecordEquality] (hsound : registry.Sound) (hfits : element.Fits registry) {name : String}
    {index : UInt16} {variants : List UInt16} {ordinal : Nat}
    (hwriter : element.writer registry (.enumeration name) = .ok (.enumeration markers name variants))
    (hordinal : Codec.ordinal? name variants index = some ordinal) :
    Decodes (registry.readAs element) (markers.base.toByte :: BigEndian.encode 1 (ordinal - 128))
      (registry.backAs (.variant name index) element) := by
  have hcodec := hsound.mem_of_writer hfits hwriter Codec.noConfusion
  cases hsound.fits hcodec with
  | enumeration hlength =>
    have hstart : StartsIn markers (markers.base.toByte :: BigEndian.encode 1 (ordinal - 128)) :=
      ⟨_, _, rfl, markers.base_mem⟩
    simp only [backAs, hwriter, if_pos]
    exact hsound.decodes_readAs hwriter hcodec hstart
      (Codec.decodes_enumeration _ (hsound.base_ne_null hcodec) hlength hordinal)

/-- A sequence behind its size comes back as its elements do. -/
theorem decodes_sized [RecordEquality] (hsound : registry.Sound) (hfits : element.Fits registry) {kind : SequenceKind}
    {size : List UInt8} (hwriter : element.writer registry (.sequence kind) = .ok (.sequence markers kind part))
    (hsize : Emits (Size.write markers.base items.length) size) (hlength : parts.length = items.length)
    (hparts : ∀ pair ∈ items.zip parts, Decodes (registry.readAs part) pair.2 (registry.backAs pair.1 part)) :
    Decodes (registry.readAs element) (size ++ parts.flatten) (registry.backAs (.sequence kind items) element) := by
  have hcodec := hsound.mem_of_writer hfits hwriter Codec.noConfusion
  cases hsound.fits hcodec with
  | sequence hcount =>
    obtain ⟨hstart, hread⟩ := Codec.decodes_sequence (fun item => registry.backAs item .any)
      (hsound.base_ne_null hcodec) hcount hsize hlength
      fun pair hpair => (hparts pair hpair).readIn (.inl rfl) kind.name
    simp only [backAs, hwriter, backItems_eq_map]
    exact hsound.decodes_readAs hwriter hcodec hstart hread

/-- A sequence up to the end mark comes back as a list, as its elements do. -/
theorem decodes_delimited [RecordEquality] (hsound : registry.Sound) (hfits : element.Fits registry)
    {kind : SequenceKind} (hwriter : element.writer registry (.sequence kind) = .ok (.collection markers part))
    (hlength : parts.length = items.length)
    (hencodes : ∀ pair ∈ items.zip parts, Encodes registry pair.1 part pair.2)
    (hparts : ∀ pair ∈ items.zip parts, Decodes (registry.readAs part) pair.2 (registry.backAs pair.1 part)) :
    Decodes (registry.readAs element) (markers.base.toByte :: (parts.flatten ++ [(markers.markerAt 1).toByte]))
      (registry.backAs (.sequence kind items) element) := by
  have hcodec := hsound.mem_of_writer hfits hwriter Codec.noConfusion
  cases hsound.fits hcodec with
  | collection hcount =>
    have hstart : StartsIn markers (markers.base.toByte :: (parts.flatten ++ [(markers.markerAt 1).toByte])) :=
      ⟨_, _, rfl, markers.base_mem⟩
    have hread := Codec.decodes_collection (fun item => registry.backAs item .any) (hsound.base_ne_null hcodec) hlength
      fun pair hpair => ⟨(hparts pair hpair).readIn (.inl rfl) "collection",
        (hencodes pair hpair).start_ne_last hsound Element.fits_any hcodec hcount⟩
    simp only [backAs, hwriter, backItems_eq_map]
    exact hsound.decodes_readAs hwriter hcodec hstart hread

/-- A map comes back as its keys and values do. -/
theorem decodes_map [RecordEquality] (hsound : registry.Sound) (hfits : element.Fits registry)
    {entries : List (Value × Value)} {key value : Element} {size : List UInt8} {parts : List (List UInt8 × List UInt8)}
    (hwriter : element.writer registry .map = .ok (.map markers key value))
    (hsize : Emits (Size.write markers.base entries.length) size) (hlength : parts.length = entries.length)
    (hkeys : ∀ pair ∈ entries.zip parts, Decodes (registry.readAs key) pair.2.1 (registry.backAs pair.1.1 key))
    (hvalues : ∀ pair ∈ entries.zip parts,
      Decodes (registry.readAs value) pair.2.2 (registry.backAs pair.1.2 value)) :
    Decodes (registry.readAs element) (size ++ parts.flatMap fun part => part.1 ++ part.2)
      (registry.backAs (.map entries) element) := by
  have hcodec := hsound.mem_of_writer hfits hwriter Codec.noConfusion
  cases hsound.fits hcodec with
  | map hcount =>
    obtain ⟨hstart, hread⟩ := Codec.decodes_map (fun key => registry.backAs key .any)
      (fun value => registry.backAs value .any) (hsound.base_ne_null hcodec) hcount hsize hlength
      (fun pair hpair => (hkeys pair hpair).readIn (.inl rfl) _)
      fun pair hpair => (hvalues pair hpair).readIn (.inl rfl) _
    simp only [backAs, hwriter, backEntries_eq_map]
    exact hsound.decodes_readAs hwriter hcodec hstart hread

/-- An array comes back as its items do. -/
theorem decodes_array [RecordEquality] (hsound : registry.Sound) (hfits : element.Fits registry) {type : ValueType}
    (hwriter : element.writer registry (.array type) = .ok (.array markers type part))
    (hmax : items.length ≤ Size.max) (hlength : parts.length = items.length)
    (hparts : ∀ pair ∈ items.zip parts, Decodes (registry.readAs part) pair.2 (registry.backAs pair.1 part)) :
    Decodes (registry.readAs element) (markers.base.toByte :: (BigEndian.encode 4 items.length ++ parts.flatten))
      (registry.backAs (.array type items) element) := by
  have hcodec := hsound.mem_of_writer hfits hwriter Codec.noConfusion
  have hstart : StartsIn markers (markers.base.toByte :: (BigEndian.encode 4 items.length ++ parts.flatten)) :=
    ⟨_, _, rfl, markers.base_mem⟩
  simp only [backAs, hwriter, backItems_eq_map]
  exact hsound.decodes_readAs hwriter hcodec hstart
    (Codec.decodes_array (fun item => registry.backAs item part) (hsound.base_ne_null hcodec) hmax hlength hparts)

/-- A record comes back as its fields do, each fitted to its slot. -/
theorem decodes_record [RecordEquality] (hsound : registry.Sound) (hfits : element.Fits registry) {name : String}
    {slots fresh : List (String × Value)} {fields : List Field} (hadmits : registry.Admits (.record name slots))
    (hwriter : element.writer registry (.record name) = .ok (.record markers name fresh fields))
    (hlength : parts.length = fields.length)
    (hparts : ∀ pair ∈ fields.zip parts,
      Decodes (registry.readAs (pair.1.binding.resolve (.record markers name fresh fields))) pair.2
        (registry.backAs ((slots.lookup pair.1.info.source).getD .null)
          (pair.1.binding.resolve (.record markers name fresh fields)))) :
    Decodes (registry.readAs element) (markers.base.toByte :: parts.flatten)
      (registry.backAs (.record name slots) element) := by
  have hcodec := hsound.mem_of_writer hfits hwriter Codec.noConfusion
  have hself := hsound.answer_of_record_writer hfits hwriter
  cases hsound.fits hcodec with
  | record hbindings =>
    have hfields : ∀ pair ∈ fields.zip parts,
        Decodes (pair.1.read registry.readAs (.record markers name fresh fields)) pair.2
          (pair.1.back (registry.slotBacks slots) (.record markers name fresh fields)) := by
      intro pair hpair
      have hfield := (List.of_mem_zip hpair).1
      obtain ⟨value, hslot, hholds, -⟩ := hadmits.slot hself pair.1 hfield
      have hread := hparts pair hpair
      rw [hslot, Option.getD_some] at hread
      rw [back_field, hslot, Option.getD_some]
      exact Decodes.field (hbindings pair.1 hfield) hholds hread
    have hstart : StartsIn markers (markers.base.toByte :: parts.flatten) := ⟨_, _, rfl, markers.base_mem⟩
    refine hsound.decodes_readAs hwriter hcodec hstart (MarkerRange.decodes_opening (hsound.base_ne_null hcodec) ?_)
    refine (Decodes.fields _ hlength hfields fresh).bind_pure ?_
    simp only [backAs, hwriter, if_pos]
    exact .pure _

/-- The codec that writes a value codes its parts by codecs that the registry has. -/
theorem fits_parts (hsound : registry.Sound) (hfits : element.Fits registry)
    (hwriter : element.writer registry type = .ok codec) : codec.PartsFit registry := by
  by_cases hnull : codec = .null
  · subst hnull
    trivial
  · cases hsound.fits (hsound.mem_of_writer hfits hwriter hnull) with
    | atom _ => trivial
    | enumeration _ => trivial
    | sequence _ => exact Element.fits_any
    | collection _ => exact Element.fits_any
    | map _ => exact ⟨Element.fits_any, Element.fits_any⟩
    | array hpart => exact hpart.fits
    | record hfields =>
      have hself := hsound.answer_of_record_writer hfits hwriter
      exact fun field hfield => (hfields field hfield).resolve hself

end Registry.Sound

/-- What was written for a value is read as what the value comes back as, and nothing behind it is touched. -/
theorem Encodes.decodes [RecordEquality] (hsound : registry.Sound) {value : Value} {bytes : List UInt8}
    (h : Encodes registry value element bytes) (hfits : element.Fits registry) (hadmits : registry.Admits value) :
    Decodes (registry.readAs element) bytes (registry.backAs value element) := by
  induction h with
  | null =>
    rw [backAs]
    exact hsound.decodes_null hfits
  | atom hwriter hbytes => exact hsound.decodes_atom hfits hwriter hbytes
  | variant hwriter hordinal => exact hsound.decodes_variant hfits hwriter hordinal
  | sized hwriter hsize hlength hparts ih =>
    refine hsound.decodes_sized hfits hwriter hsize hlength fun pair hpair => ?_
    exact ih pair hpair (hsound.fits_parts hfits hwriter) (hadmits.item pair.1 (List.of_mem_zip hpair).1)
  | delimited hwriter hcollects hlength hparts ih =>
    refine hsound.decodes_delimited hfits hwriter hlength hparts fun pair hpair => ?_
    exact ih pair hpair (hsound.fits_parts hfits hwriter) (hadmits.item pair.1 (List.of_mem_zip hpair).1)
  | map hwriter hsize hlength hkeys hvalues ihkeys ihvalues =>
    obtain ⟨hkey, hvalue⟩ := hsound.fits_parts hfits hwriter
    refine hsound.decodes_map hfits hwriter hsize hlength (fun pair hpair => ?_) fun pair hpair => ?_
    · exact ihkeys pair hpair hkey (hadmits.entry pair.1 (List.of_mem_zip hpair).1).1
    · exact ihvalues pair hpair hvalue (hadmits.entry pair.1 (List.of_mem_zip hpair).1).2
  | array hwriter hmax hlength hparts ih =>
    refine hsound.decodes_array hfits hwriter hmax hlength fun pair hpair => ?_
    exact ih pair hpair (hsound.fits_parts hfits hwriter) (hadmits.arrayItem pair.1 (List.of_mem_zip hpair).1)
  | record hwriter hlength hparts ih =>
    have hself := hsound.answer_of_record_writer hfits hwriter
    have hfields := hsound.fits_parts hfits hwriter
    refine hsound.decodes_record hfits hadmits hwriter hlength fun pair hpair => ?_
    have hfield := (List.of_mem_zip hpair).1
    obtain ⟨value, hslot, -, hvalue⟩ := hadmits.slot hself pair.1 hfield
    refine ih pair hpair (hfields pair.1 hfield) ?_
    rw [hslot]
    exact hvalue

end Bytemark
