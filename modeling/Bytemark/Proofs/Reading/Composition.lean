import Bytemark.Proofs.Record.Fields
import Bytemark.Proofs.Reading.Splitting
import Bytemark.Proofs.RoundTrip.Entries
import Bytemark.Proofs.Value.Occurrences

/-!
# What bytes the parts of a value come from

A value that is read from some bytes is composed of its parts, and their bytes stand one behind the other in the bytes
of the value: `Registry.Composed` says so at every depth. A number in front of the elements of a set tells how many of
them there are in the bytes, not how many are left when repetitions are dropped.

So the sets and maps that are read, whatever the bytes are, have no repetitions. A set has the elements in the bytes in
the order of their first occurrence, also when it is made from a list or a queue for a field of a record. A map has the
keys in the order of their first occurrence, as they were first written, and each key has the value it came with last.
-/

set_option autoImplicit false

namespace Bytemark

section

variable [records : RecordEquality]

/-- What a field makes of a value that was read for it: a field of sequences makes its own kind of them. -/
def FieldKind.placed : FieldKind → Value → Value
  | .sequence kind, .sequence _ items => .sequence kind (kind.kept items)
  | _, value => value

/-- Some slots after fields have been read and put into them, one after the other. -/
def placeAll (fields : List (Field × Span)) (slots : List (String × Value)) : List (String × Value) :=
  fields.foldl (fun slots field =>
    setSlot slots field.1.info.target (field.1.info.type.kind.placed field.2.value)) slots

/-- A value that is read from some bytes, coded as an element, is composed of parts that are read from the pieces of
these bytes. -/
inductive Registry.Composed (registry : Registry) : Element → List UInt8 → Value → Prop
  | null {element : Element} {bytes : List UInt8} (hread : Decodes (registry.readAs element) bytes .null) :
      Composed registry element bytes .null
  | atom {element : Element} {bytes : List UInt8} {atom : Atom}
      (hread : Decodes (registry.readAs element) bytes (.atom atom)) : Composed registry element bytes (.atom atom)
  | variant {element : Element} {bytes : List UInt8} {type : String} {index : UInt16}
      (hread : Decodes (registry.readAs element) bytes (.variant type index)) :
      Composed registry element bytes (.variant type index)
  /-- The number of elements, and the elements. A set keeps those that equal none before them. -/
  | sequence {element part : Element} {bytes header : List UInt8} {markers : MarkerRange} {kind : SequenceKind}
      {spans : List Span} {items : List Value}
      (hread : Decodes (registry.readAs element) bytes (.sequence kind items))
      (hcodec : registry.select element bytes = .ok (.sequence markers kind part) bytes)
      (hsize : Size.read markers.base kind.name header = .ok (some spans.length) [])
      (hbytes : bytes = header ++ spans.flatMap Span.bytes)
      (hspans : ∀ span ∈ spans, Composed registry part span.bytes span.value)
      (hitems : items = kind.kept (spans.map Span.value)) :
      Composed registry element bytes (.sequence kind items)
  /-- A marker, the elements, and the marker that ends them. -/
  | collection {element part : Element} {bytes : List UInt8} {markers : MarkerRange} {spans : List Span}
      (hread : Decodes (registry.readAs element) bytes (.sequence .list (spans.map Span.value)))
      (hcodec : registry.select element bytes = .ok (.collection markers part) bytes)
      (hbytes : bytes = markers.base.toByte :: (spans.flatMap Span.bytes ++ [(markers.markerAt 1).toByte]))
      (hspans : ∀ span ∈ spans, Composed registry part span.bytes span.value) :
      Composed registry element bytes (.sequence .list (spans.map Span.value))
  /-- The number of entries, and the key and the value of each. Equal keys merge into the first, with the last value. -/
  | map {element key value : Element} {bytes header : List UInt8} {markers : MarkerRange}
      {spans : List (Span × Span)} {entries : List (Value × Value)}
      (hread : Decodes (registry.readAs element) bytes (.map entries))
      (hcodec : registry.select element bytes = .ok (.map markers key value) bytes)
      (hsize : Size.read markers.base (Codec.map markers key value).name header = .ok (some spans.length) [])
      (hbytes : bytes = header ++ spans.flatMap fun span => span.1.bytes ++ span.2.bytes)
      (hkeys : ∀ span ∈ spans, Composed registry key span.1.bytes span.1.value)
      (hvalues : ∀ span ∈ spans, Composed registry value span.2.bytes span.2.value)
      (hentries : entries = Value.mergedEntries (spans.map fun span => (span.1.value, span.2.value))) :
      Composed registry element bytes (.map entries)
  /-- A marker, the number of items in four bytes, and the items. -/
  | array {element part : Element} {bytes number : List UInt8} {markers : MarkerRange} {type : ValueType}
      {spans : List Span}
      (hread : Decodes (registry.readAs element) bytes (.array type (spans.map Span.value)))
      (hcodec : registry.select element bytes = .ok (.array markers type part) bytes)
      (hnumber : Input.signed 4 number = .ok (spans.length : Int) [])
      (hbytes : bytes = markers.base.toByte :: (number ++ spans.flatMap Span.bytes))
      (hspans : ∀ span ∈ spans, Composed registry part span.bytes span.value) :
      Composed registry element bytes (.array type (spans.map Span.value))
  /-- A marker, and the fields one after the other, each put into its slot. -/
  | record {element : Element} {bytes : List UInt8} {markers : MarkerRange} {type : String}
      {fresh slots : List (String × Value)} {fields : List (Field × Span)}
      (hread : Decodes (registry.readAs element) bytes (.record type slots))
      (hcodec : registry.select element bytes = .ok (.record markers type fresh (fields.map Prod.fst)) bytes)
      (hbytes : bytes = markers.base.toByte :: fields.flatMap fun field => field.2.bytes)
      (hfields : ∀ field ∈ fields, Composed registry
        (field.1.binding.resolve (.record markers type fresh (fields.map Prod.fst))) field.2.bytes field.2.value)
      (hslots : slots = placeAll fields fresh) :
      Composed registry element bytes (.record type slots)

/-! ## Fields -/

variable {reflexive : Prop}

/-- Null is placed as it is. -/
theorem FieldKind.placed_null (kind : FieldKind) : kind.placed .null = .null := by
  cases kind <;> rfl

/-- A well-formed value is still well-formed where it is placed. -/
theorem FieldKind.wellFormed_placed (hlawful : records.Lawful reflexive Value.equal) (kind : FieldKind) {value : Value}
    (h : value.WellFormed Value.equal) :
    (kind.placed value).WellFormed Value.equal := by
  unfold placed
  split
  · rename_i kind _ items
    cases h with | sequence hitems _ =>
    rw [← Value.collect_eq hlawful kind hitems]
    exact Value.wellFormed_collect hlawful kind hitems
  · exact h

/-- A value of the field's own type is put into it as it is. -/
theorem FieldKind.placed_of_type (hlawful : records.Lawful reflexive Value.equal) {kind : FieldKind} {value : Value}
    (h : value.WellFormed Value.equal) (htype : value.type = kind.valueType) : kind.placed value = value := by
  unfold placed
  split
  · rename_i kind kind' items
    obtain rfl : kind' = kind := by simpa [Value.type, FieldKind.valueType] using htype
    cases h with | sequence hitems hset =>
    cases kind' with
    | set => rw [SequenceKind.kept, Value.firstOccurrences_of_unequal hlawful hitems (hset rfl)]
    | list => rfl
    | queue => rfl
  · rfl

/-- Fitting a well-formed value to a field is placing it there. -/
theorem FieldType.placed_of_convert (hlawful : records.Lawful reflexive Value.equal) {type : FieldType}
    {value fitted : Value} (h : type.convert value = .ok fitted) (hwell : value.WellFormed Value.equal) :
    fitted = type.kind.placed value := by
  unfold convert at h
  split at h
  · rename_i hnull
    cases h
    cases value with
    | null => exact (type.kind.placed_null).symm
    | _ => cases hnull.2
  · split at h
    · cases h
      rename_i hkind _
      rw [hkind]
      rfl
    · cases h
      rename_i hkind _
      exact (FieldKind.placed_of_type hlawful hwell (by rw [hkind]; rfl)).symm
    · cases h
      rename_i hkind _
      cases hwell with | sequence hitems _ =>
      rw [hkind, FieldKind.placed, SequenceKind.kept, Value.distinct_eq_firstOccurrences hlawful hitems]
    · cases h
      rename_i kind _ _ _ hset hkind _
      rw [hkind, FieldKind.placed]
      cases kind with
      | set => exact (hset rfl).elim
      | list => rfl
      | queue => rfl
    · split at h
      · rename_i htype
        cases h
        exact (FieldKind.placed_of_type hlawful hwell htype).symm
      · cases h

/-- What the library reads as an element: its bytes are composed of those of its parts, and its sets and maps have no
repetitions. -/
structure Span.Sound (registry : Registry) (element : Element) (span : Span) : Prop where
  composed : registry.Composed element span.bytes span.value
  wellFormed : span.value.WellFormed Value.equal

/-- The slots that records are made from hold sets and maps as a program has them, without repetitions. -/
def Registry.FreshlyWellFormed (registry : Registry) : Prop :=
  ∀ markers type fresh fields, .record markers type fresh fields ∈ registry.codecs →
    ∀ slot ∈ fresh, slot.2.WellFormed Value.equal

variable {registry : Registry} {bound : Nat}

/-- A field is read as a value, and what is put into its slot is what the field makes of it. -/
theorem Registry.Sound.splits_field (hsound : registry.Sound) (hlawful : records.Lawful reflexive Value.equal)
    {field : Field} {self : Codec} {building : ValueType}
    (hfits : field.binding.Fits registry building field.info.type.kind)
    (h : Splits bound (Span.Sound registry (field.binding.resolve self)) Span.bytes Span.value
      (registry.readAs (field.binding.resolve self))) :
    Splits bound (Span.Sound registry (field.binding.resolve self)) Span.bytes
      (fun span => field.info.type.kind.placed span.value) (field.read registry.readAs self) := by
  intro input rest put hbound hok
  by_cases hdirect : ∃ codec, field.binding.resolve self = .direct codec
  · obtain ⟨codec, hdirect⟩ := hdirect
    rw [Field.read_direct hdirect] at hok
    obtain ⟨value, mid, hread, hpure⟩ := bind_eq_ok_iff.1 hok
    obtain ⟨rfl, rfl⟩ : value = put ∧ mid = rest := by
      dsimp only at hpure
      split at hpure
      · cases hpure
      · cases hpure
        exact ⟨rfl, rfl⟩
    have hcodec : codec.read registry.readAs input = .ok value mid := by rwa [registry.readAs_direct] at hread
    rw [← hdirect] at hread
    obtain ⟨span, hspan, rfl, rfl⟩ := h hbound hread
    refine ⟨span, hspan, rfl, ?_⟩
    rw [Binding.eq_through_of_direct hdirect] at hfits
    obtain ⟨hanswer, hkind, hbuiltin⟩ := hfits
    have hmem := ((hsound.known hanswer).resolve_left fun hnull => FieldKind.valueType_ne_null _ hnull.1).1
    rcases Codec.cases_of_read_builtin (hsound.legal hmem) hkind hbuiltin hcodec with ⟨hnull, -⟩ | ⟨-, hconvert⟩
    · dsimp only
      rw [hnull, FieldKind.placed_null]
    · exact (FieldType.placed_of_convert hlawful hconvert hspan.wellFormed).symm
  · rw [Field.read_converted (not_exists.1 hdirect)] at hok
    obtain ⟨value, mid, hread, hput⟩ := bind_eq_ok_iff.1 hok
    obtain ⟨hconvert, rfl⟩ := ofExcept_eq_ok_iff.1 hput
    obtain ⟨span, hspan, rfl, rfl⟩ := h hbound hread
    exact ⟨span, hspan, rfl, (FieldType.placed_of_convert hlawful hconvert hspan.wellFormed).symm⟩

/-- The fields of a record are read from one piece each, in the order of the fields. -/
theorem Splits.fields {self : Codec} {fields : List Field} {Q : Field → Span → Prop} {slots : List (String × Value)}
    (h : ∀ field ∈ fields, Splits bound (Q field) Span.bytes (fun span => field.info.type.kind.placed span.value)
      (field.read registry.readAs self)) :
    Splits bound (fun pieces => pieces.map Prod.fst = fields ∧ ∀ piece ∈ pieces, Q piece.1 piece.2)
      (fun pieces : List (Field × Span) => pieces.flatMap fun piece => piece.2.bytes)
      (fun pieces => placeAll pieces slots) (Field.readAll registry.readAs self fields slots) := by
  induction fields generalizing slots with
  | nil =>
    intro input rest answer _ hok
    cases hok
    exact ⟨[], by simp, rfl, rfl⟩
  | cons field fields ih =>
    obtain ⟨hfield, hothers⟩ := List.forall_mem_cons.1 h
    intro input rest answer hbound hok
    rw [Field.readAll, List.foldlM_cons] at hok
    obtain ⟨slots', mid, hput, hrest⟩ := bind_eq_ok_iff.1 hok
    obtain ⟨put, _, hread, hpure⟩ := bind_eq_ok_iff.1 hput
    cases hpure
    obtain ⟨span, hspan, rfl, rfl⟩ := hfield hbound hread
    rw [List.length_append] at hbound
    obtain ⟨pieces, ⟨rfl, hpieces⟩, rfl, rfl⟩ := ih hothers (by omega) hrest
    exact ⟨(field, span) :: pieces, ⟨rfl, List.forall_mem_cons.2 ⟨hspan, hpieces⟩⟩, by simp, rfl⟩

/-- The slots of a record are well-formed if they were, and if what is placed in them is. -/
theorem wellFormed_placeAll (hlawful : records.Lawful reflexive Value.equal) {fields : List (Field × Span)}
    {slots : List (String × Value)} (hfields : ∀ field ∈ fields, field.2.value.WellFormed Value.equal)
    (hslots : ∀ slot ∈ slots, slot.2.WellFormed Value.equal) :
    ∀ slot ∈ placeAll fields slots, slot.2.WellFormed Value.equal := by
  induction fields generalizing slots with
  | nil => exact hslots
  | cons field fields ih =>
    obtain ⟨hfield, hothers⟩ := List.forall_mem_cons.1 hfields
    refine ih hothers fun slot hslot => ?_
    obtain ⟨old, hold, rfl⟩ := List.mem_map.1 hslot
    split
    · exact FieldKind.wellFormed_placed hlawful _ hfield
    · exact hslots old hold

/-! ## Codecs -/

omit records in
/-- The codec that reads a value of a known element is null's or registered. -/
theorem Registry.Sound.mem_of_select (hsound : registry.Sound) {element : Element} (hknown : element.Known registry)
    {codec : Codec} {input mid : Input} (h : registry.select element input = .ok codec mid) :
    codec = .null ∨ codec ∈ registry.codecs := by
  cases element with
  | any =>
    obtain ⟨byte, tail, rfl, hnext⟩ := Input.peek_bind_eq_ok_iff.1 h
    exact hsound.consistent.mem_of_codecForMarker (ofExcept_eq_ok_iff.1 hnext).1
  | boxed other =>
    cases h
    exact hknown
  | direct other =>
    cases h
    exact hknown

section

variable {element : Element} {bytes : List UInt8} {value : Value} {codec : Codec}

/-- Null is sound wherever it is read. -/
theorem Span.sound_null (hdecodes : Decodes (registry.readAs element) bytes .null) :
    Span.Sound registry element ⟨bytes, .null⟩ :=
  ⟨.null hdecodes, .null⟩

/-- Parts that are read from inputs below a bound are spans whose bytes are composed of those of their parts. -/
def Registry.SoundBelow (registry : Registry) (bound : Nat) : Prop :=
  ∀ part, Element.Known registry part →
    Splits bound (Span.Sound registry part) Span.bytes Span.value (registry.readAs part)

/-- The values of sound spans are well-formed. -/
theorem Span.wellFormed_values {part : Element} {spans : List Span}
    (h : ∀ span ∈ spans, Span.Sound registry part span) :
    ∀ item ∈ spans.map Span.value, item.WellFormed Value.equal :=
  List.forall_mem_map.2 fun span hspan => (h span hspan).wellFormed

namespace Registry.SoundBelow

/-- Below the bound, what is read through the registry is sound. -/
theorem any (h : registry.SoundBelow bound) :
    Splits bound (Span.Sound registry .any) Span.bytes Span.value (registry.readAs .any) :=
  h .any trivial

/-- What a codec of sequences reads is sound: its elements are read from the spans behind the size. -/
theorem sequence (h : registry.SoundBelow bytes.length) (hlawful : records.Lawful reflexive Value.equal)
    {markers : MarkerRange} {kind : SequenceKind}
    (hcodec : registry.select element bytes = .ok (.sequence markers kind .any) bytes)
    (hdecodes : Decodes (registry.readAs element) bytes value)
    (hread : (Codec.sequence markers kind .any).read registry.readAs bytes = .ok value []) :
    Span.Sound registry element ⟨bytes, value⟩ := by
  obtain ⟨answer, mid, hcounted, hpure⟩ := bind_eq_ok_iff.1 hread
  cases hpure
  cases answer with
  | none => exact Span.sound_null hdecodes
  | some items =>
    obtain ⟨size, header, tail, hbytes, hsize, hshorter, hitems⟩ := Size.exists_header hcounted
    obtain ⟨spans, ⟨hspans, rfl⟩, rfl, rfl⟩ := (h.any.readIn kind.name).repeated size hshorter hitems
    have hwell := Span.wellFormed_values hspans
    refine ⟨?_, Value.wellFormed_collect hlawful kind hwell⟩
    have hcollect := Value.collect_eq hlawful kind hwell
    simp only [Option.elim_some] at hdecodes ⊢
    rw [hcollect] at hdecodes ⊢
    exact .sequence hdecodes hcodec hsize (by simpa using hbytes) (fun span hspan => (hspans span hspan).composed) rfl

/-- What a codec of collections reads is sound: its elements are read from the spans before the end mark. -/
theorem collection (h : registry.SoundBelow bytes.length) {markers : MarkerRange}
    (hcodec : registry.select element bytes = .ok (.collection markers .any) bytes)
    (hdecodes : Decodes (registry.readAs element) bytes value)
    (hread : (Codec.collection markers .any).read registry.readAs bytes = .ok value []) :
    Span.Sound registry element ⟨bytes, value⟩ := by
  rcases MarkerRange.cases_of_opening hread with rfl | ⟨tail, hbytes, hcontent⟩
  · exact Span.sound_null hdecodes
  · obtain ⟨items, mid, hitems, hpure⟩ := bind_eq_ok_iff.1 hcontent
    cases hpure
    obtain ⟨spans, hspans, rfl, rfl⟩ := (h.any.readIn _).readDelimited _ (by simp [hbytes]) hitems
    refine ⟨.collection hdecodes hcodec (by simpa using hbytes) fun span hspan => (hspans span hspan).composed, ?_⟩
    exact .sequence (Span.wellFormed_values hspans) fun hset => nomatch hset

/-- What a codec of maps reads is sound: keys and values are read from the spans behind the size, in turn. -/
theorem map (h : registry.SoundBelow bytes.length) (hlawful : records.Lawful reflexive Value.equal)
    {markers : MarkerRange} (hcodec : registry.select element bytes = .ok (.map markers .any .any) bytes)
    (hdecodes : Decodes (registry.readAs element) bytes value)
    (hread : (Codec.map markers .any .any).read registry.readAs bytes = .ok value []) :
    Span.Sound registry element ⟨bytes, value⟩ := by
  obtain ⟨answer, mid, hcounted, hpure⟩ := bind_eq_ok_iff.1 hread
  cases hpure
  cases answer with
  | none => exact Span.sound_null hdecodes
  | some items =>
    obtain ⟨size, header, tail, hbytes, hsize, hshorter, hitems⟩ := Size.exists_header hcounted
    have hentry := (h.any.readIn "map key").pair (h.any.readIn "map value")
    obtain ⟨entries, ⟨hentries, rfl⟩, rfl, rfl⟩ := hentry.repeated size hshorter hitems
    have hwell : ∀ entry ∈ entries.map fun entry => (entry.1.value, entry.2.value),
        entry.1.WellFormed Value.equal ∧ entry.2.WellFormed Value.equal :=
      List.forall_mem_map.2 fun entry hentry =>
        ⟨(hentries entry hentry).1.wellFormed, (hentries entry hentry).2.wellFormed⟩
    have hmerged := Value.distinctEntries_eq_mergedEntries hlawful fun entry hentry => (hwell entry hentry).1
    refine ⟨?_, Value.wellFormed_distinctEntries hlawful hwell⟩
    exact .map hdecodes hcodec hsize (by simpa using hbytes) (fun entry hentry => (hentries entry hentry).1.composed)
      (fun entry hentry => (hentries entry hentry).2.composed) hmerged

/-- What a codec of arrays reads is sound: its items are read from the spans behind the count. -/
theorem array (h : registry.SoundBelow bytes.length) {markers : MarkerRange} {type : ValueType} {part : Element}
    (hpart : part.Known registry) (hcodec : registry.select element bytes = .ok (.array markers type part) bytes)
    (hdecodes : Decodes (registry.readAs element) bytes value)
    (hread : (Codec.array markers type part).read registry.readAs bytes = .ok value []) :
    Span.Sound registry element ⟨bytes, value⟩ := by
  rcases MarkerRange.cases_of_opening hread with rfl | ⟨tail, hbytes, hcontent⟩
  · exact Span.sound_null hdecodes
  · obtain ⟨count, items, hcount, hrest⟩ := bind_eq_ok_iff.1 hcontent
    split at hrest
    · cases hrest
    · rename_i hnonneg
      obtain ⟨values, mid, hvalues, hpure⟩ := bind_eq_ok_iff.1 hrest
      cases hpure
      obtain ⟨number, rfl, hwidth, rfl⟩ := Input.signed_eq_ok_iff.1 hcount
      have hshorter : items.length < bytes.length := by
        rw [hbytes, List.length_cons, List.length_append]
        omega
      obtain ⟨spans, ⟨hspans, hlength⟩, rfl, rfl⟩ := (h part hpart).repeated _ hshorter hvalues
      have hnumber : Input.signed 4 number = .ok (spans.length : Int) [] := by
        rw [Input.signed_eq_ok_iff]
        exact ⟨number, by simp, hwidth, by omega⟩
      refine ⟨.array hdecodes hcodec hnumber (by simpa using hbytes) fun span hspan =>
        (hspans span hspan).composed, ?_⟩
      exact .array (Span.wellFormed_values hspans)

/-- What a codec of records reads is sound: every field is read from a span and placed in its slot. -/
theorem record (h : registry.SoundBelow bytes.length) (hlawful : records.Lawful reflexive Value.equal)
    (hsound : registry.Sound) (hfresh : registry.FreshlyWellFormed) {markers : MarkerRange} {type : String}
    {fresh : List (String × Value)} {fields : List Field} (hmem : .record markers type fresh fields ∈ registry.codecs)
    (hbindings : ∀ field ∈ fields, field.binding.Fits registry (.record type) field.info.type.kind)
    (hcodec : registry.select element bytes = .ok (.record markers type fresh fields) bytes)
    (hdecodes : Decodes (registry.readAs element) bytes value)
    (hread : (Codec.record markers type fresh fields).read registry.readAs bytes = .ok value []) :
    Span.Sound registry element ⟨bytes, value⟩ := by
  rcases MarkerRange.cases_of_opening hread with rfl | ⟨tail, hbytes, hcontent⟩
  · exact Span.sound_null hdecodes
  · obtain ⟨slots, mid, hslots, hpure⟩ := bind_eq_ok_iff.1 hcontent
    cases hpure
    have hsplits := fun field hfield =>
      hsound.splits_field hlawful (hbindings field hfield) (h _ ((hbindings field hfield).resolve_known hsound hmem))
    obtain ⟨pieces, ⟨rfl, hpieces⟩, htail, rfl⟩ := Splits.fields hsplits (by simp [hbytes]) hslots
    refine ⟨.record hdecodes hcodec (by simpa [htail] using hbytes)
      (fun field hfield => (hpieces field hfield).composed) rfl, .record ?_⟩
    exact wellFormed_placeAll hlawful (fun field hfield => (hpieces field hfield).wellFormed)
      (hfresh markers type fresh _ hmem)

end Registry.SoundBelow

/-- A registered codec reads what is composed of its parts, if this holds of the parts, which are shorter. -/
theorem Registry.Sound.sound_codec (hsound : registry.Sound) (hlawful : records.Lawful reflexive Value.equal)
    (hfresh : registry.FreshlyWellFormed) (hmem : codec ∈ registry.codecs)
    (hcodec : registry.select element bytes = .ok codec bytes)
    (hdecodes : Decodes (registry.readAs element) bytes value) (hparts : registry.SoundBelow bytes.length)
    (hread : codec.read registry.readAs bytes = .ok value []) : Span.Sound registry element ⟨bytes, value⟩ := by
  cases hsound.fits hmem with
  | atom _ =>
    obtain ⟨answer, mid, -, hpure⟩ := bind_eq_ok_iff.1 hread
    cases hpure
    cases answer with
    | none => exact Span.sound_null hdecodes
    | some atom => exact ⟨.atom hdecodes, .atom atom⟩
  | @enumeration markers type variants _ =>
    rcases MarkerRange.cases_of_opening hread with rfl | ⟨tail, rfl, hcontent⟩
    · exact Span.sound_null hdecodes
    · obtain ⟨number, mid, -, hvariant⟩ := bind_eq_ok_iff.1 hcontent
      cases hindex : variants[(number + 128).toNat]? with
      | some index =>
        rw [hindex] at hvariant
        cases hvariant
        exact ⟨.variant hdecodes, .variant type index⟩
      | none =>
        rw [hindex] at hvariant
        cases hvariant
  | sequence _ => exact hparts.sequence hlawful hcodec hdecodes hread
  | collection _ => exact hparts.collection hcodec hdecodes hread
  | map _ => exact hparts.map hlawful hcodec hdecodes hread
  | array helement => exact hparts.array (helement.known hsound) hcodec hdecodes hread
  | record hbindings => exact hparts.record hlawful hsound hfresh hmem hbindings hcodec hdecodes hread

/-- What is read as a known element is composed of its parts, by induction on the number of its bytes. -/
theorem Registry.Sound.sound_readAs (hsound : registry.Sound) (hlawful : records.Lawful reflexive Value.equal)
    (hfresh : registry.FreshlyWellFormed) (hknown : element.Known registry)
    (h : registry.readAs element bytes = .ok value []) :
    Span.Sound registry element ⟨bytes, value⟩ := by
  induction hlength : bytes.length using Nat.strongRecOn generalizing element bytes value with
  | ind length ih =>
    have hdecodes : Decodes (registry.readAs element) bytes value := by
      rw [← List.append_nil bytes] at h
      exact (registry.delimited_readAs element).extend h
    rw [registry.readAs_eq] at h
    obtain ⟨codec, mid, hcodec, hread⟩ := bind_eq_ok_iff.1 h
    obtain rfl := registry.eq_of_select hcodec
    rcases hsound.mem_of_select hknown hcodec with rfl | hmem
    · rcases MarkerRange.cases_of_opening hread with rfl | ⟨tail, -, hpure⟩
      · exact Span.sound_null hdecodes
      · cases hpure
        exact Span.sound_null hdecodes
    · refine hsound.sound_codec hlawful hfresh hmem hcodec hdecodes
        (fun part hpart input rest found hshorter hok => ?_) hread
      obtain ⟨taken, rfl, halone⟩ := (registry.delimited_readAs part).exists_taken hok
      rw [List.length_append, hlength] at hshorter
      exact ⟨⟨taken, found⟩, ih taken.length (by omega) hpart halone rfl, rfl, rfl⟩

end

/-- Let records compare by an equivalence, or by a partial one, and let the records of a reachable registry be made from
slots whose sets and maps have no repetitions. Whatever bytes are read, the sets in the value have pairwise unequal
elements and its maps pairwise unequal keys, at every depth, and the bytes taken are composed of those of its parts. So
the elements of a set are those in its bytes, in the order of their first occurrence, also in a field of a record that
is made from a list or a queue. The keys of a map are those in its bytes, in the order of their first occurrence and as
first written, and each has the value of its last. -/
theorem Registry.read_composed (hlawful : records.Lawful reflexive Value.equal) {made : List Codec}
    (hreachable : Reachable registry made) (hfresh : registry.FreshlyWellFormed) {input rest : Input} {value : Value}
    (h : registry.read input = .ok value rest) :
    value.WellFormed Value.equal ∧ ∃ bytes, input = bytes ++ rest ∧ registry.Composed .any bytes value := by
  obtain ⟨bytes, rfl, halone⟩ := (registry.delimited_readAs .any).exists_taken h
  have hany : Element.any.Known registry := trivial
  have hspan := hreachable.sound.1.sound_readAs hlawful hfresh hany halone
  exact ⟨hspan.wellFormed, bytes, rfl, hspan.composed⟩

end

/-! ## Sets in disguise

A registry of longs, collections, maps and one type of records. A record of this type holds a set, which the codec of
collections reads as a list.
-/

namespace Registry

/-- The plan of the records' codec. -/
def bagPlan : Plan where
  type := "bag"
  marker := 1
  fresh := some [("members", .sequence .set [])]
  entries := [⟨.direct, "members", "members", ⟨.sequence .set, false⟩⟩]

/-- The codec that the plan describes. -/
def bagCodec : Codec :=
  .record recordMarkers "bag" [("members", .sequence .set [])]
    [.mk ⟨"members", "members", "members", ⟨.sequence .set, false⟩⟩ (.through (.boxed nodeItems))]

/-- The registry of longs, collections, maps and records. Making the codec of records has looked the codec of sets
up. -/
def bagRegistry : Registry :=
  after (register bagCodec) ((ofRecipes pairRecipes).remember (.sequence .set) nodeItems)

/-- A number in a record. -/
def number (bits : Word .long) : Value := .atom (.word .long bits)

/-- A record. -/
def bag (members : List (Word .long)) : Value :=
  .record "bag" [("members", .sequence .set (members.map number))]

/-- The plan has one field, which needs no setter of its own. -/
theorem fields_bagPlan : bagPlan.fields = .ok (bagPlan.entries.map fun entry => ⟨entry, none⟩) :=
  Plan.fields_of_sorted rfl rfl (by decide)

set_option maxRecDepth 2000 in
/-- The registry is made by registering codecs that recipes have made. -/
theorem reachable_bagRegistry : ∃ made, Reachable bagRegistry made := by
  obtain ⟨made, hrecipes⟩ := reachable_ofRecipes pairRecipes
  have hbuild : (Recipe.record bagPlan).make (ofRecipes pairRecipes) =
      .ok bagCodec ((ofRecipes pairRecipes).remember (.sequence .set) nodeItems) := by
    unfold Recipe.make Plan.build
    dsimp only
    rw [fields_bagPlan]
    rfl
  exact ⟨_, (hrecipes.make hbuild).register List.mem_cons_self⟩

/-- The slot of a fresh record holds an empty set, which is well-formed. -/
theorem freshlyWellFormed_bagRegistry : bagRegistry.FreshlyWellFormed := by
  intro markers type fresh fields hmem
  have hcodecs : bagRegistry.codecs =
      [pairLongs, nodeItems, .map ⟨20, 4, by decide, by decide⟩ .any .any, bagCodec] := rfl
  rw [hcodecs] at hmem
  simp only [pairLongs, nodeItems, bagCodec, List.mem_cons, reduceCtorEq, false_or, Codec.record.injEq,
    List.not_mem_nil, or_false] at hmem
  obtain ⟨-, -, rfl, -⟩ := hmem
  refine List.forall_mem_singleton.2 (.sequence ?_ fun _ => List.Pairwise.nil)
  simp

set_option maxRecDepth 4000 in
/-- Two entries of a map, of which the keys are records. Their sets are written as lists, one with the number five in
one byte and again in two, the other in the opposite order. The keys are equal, so the first one stays, with the second
value. -/
theorem read_composed_bags :
    let bytes : List UInt8 :=
      [20, 130, 1, 166, 136, 5, 136, 7, 137, 0, 5, 167, 136, 1, 1, 166, 136, 7, 136, 5, 167, 136, 2]
    let value : Value := .map [(bag [5, 7], number 2)]
    bagRegistry.FreshlyWellFormed ∧ bagRegistry.read (bytes ++ [9]) = .ok value [9] ∧
    value.WellFormed Value.equal ∧
    ∃ taken, bytes ++ [9] = taken ++ [9] ∧ bagRegistry.Composed .any taken value := by
  intro bytes value
  obtain ⟨made, hreachable⟩ := reachable_bagRegistry
  have hkept {five seven : Value} (hother : seven.equal five = false) (hsame : five.equal five) :
      Value.distinct [five, seven, five] = [five, seven] := by
    simp [Value.distinct, Value.insertElement, hother, hsame]
  have hread : bagRegistry.read (bytes ++ [9]) = .ok value [9] := by
    have hentries : bagRegistry.read (bytes ++ [9]) = .ok (.map (Value.distinctEntries
        [(.record "bag" [("members", .sequence .set (Value.distinct [number 5, number 7, number 5]))], number 1),
          (.record "bag" [("members", .sequence .set (Value.distinct [number 7, number 5]))], number 2)])) [9] := rfl
    rw [hentries, hkept (by decide +kernel) (by decide +kernel), Value.distinctEntries_pair (by decide +kernel)]
    rfl
  have hlawful : RecordEquality.slotwise.Lawful True Value.equal := Value.lawful_slotwise True
  exact ⟨freshlyWellFormed_bagRegistry, hread, read_composed hlawful hreachable freshlyWellFormed_bagRegistry hread⟩

end Registry

end Bytemark
