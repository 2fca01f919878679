import Bytemark.Proofs.RoundTrip.Law
import Bytemark.Proofs.Value.Repetition

/-!
# Codec expressions

A program can put codecs together without registering them: a list of maps from longs to sets of any value, say, each
with markers of its own choice. Such a codec names the codecs of its parts, so nothing is looked up by a marker on the
way down, and it does not matter which codecs of the expression, or of the registry, share their markers.

So the round trip needs none of what registration ensures. It needs a codec to claim as many markers as its form writes,
which making it ensures, and one thing of the values: where elements are followed by an end marker, no element may be
written with that marker in front. The markers count again once the expression leads to the codec of any value or to a
codec that the registry has; from there on the values are the registry's.
-/

set_option autoImplicit false

namespace Bytemark

open Registry

/-- Codings put together from the codec of any value, the codecs that a registry has, and built-in codecs at any legal
markers, whose parts are coded in the same way. Of the registered codecs the one of collections is left out, since it
takes sequences that it does not give back. -/
inductive Element.Expression (registry : Registry) : Element → Prop
  | any : Expression registry .any
  | registered {marker : Marker} {codec : Codec} (howner : registry.codecForMarker marker = .ok codec)
      (hkind : codec.builtin? ≠ some .collection) : Expression registry (.boxed codec)
  | built {kind : Builtin} {base : Marker} {inline : Nat} {key part : Element} {codec : Codec}
      (hkey : Expression registry key) (hpart : Expression registry part)
      (hcodec : kind.codecOf base inline key part = .ok codec) : Expression registry (.direct codec)

/-- The values of an expression's type. Sets and maps have no repetitions. Null is a value only where the registry codes
it, and no element of a collection is written with the collection's end marker in front. -/
inductive Element.Takes [RecordEquality] (registry : Registry) : Element → Value → Prop
  | any {value : Value} (hrestores : registry.Restores value) : Takes registry .any value
  | registered {codec : Codec} {value : Value} (hrestores : registry.Restores value) :
      Takes registry (.boxed codec) value
  | atom {codec : AtomCodec} {atom : Atom} (htype : atom.type = codec.form.type) :
      Takes registry (.direct (.atom codec)) (.atom atom)
  | sequence {markers : MarkerRange} {kind : SequenceKind} {part : Element} {items : List Value}
      (hitems : ∀ item ∈ items, Takes registry part item)
      (hdistinct : kind = .set → Value.distinct items = items) :
      Takes registry (.direct (.sequence markers kind part)) (.sequence kind items)
  | collection {markers : MarkerRange} {part : Element} {items : List Value}
      (hitems : ∀ item ∈ items, Takes registry part item)
      (hends : ∀ item ∈ items, ∀ tail, ¬ Emits (registry.writeAs item part) ((markers.markerAt 1).toByte :: tail)) :
      Takes registry (.direct (.collection markers part)) (.sequence .list items)
  | map {markers : MarkerRange} {key part : Element} {entries : List (Value × Value)}
      (hkeys : ∀ entry ∈ entries, Takes registry key entry.1)
      (hvalues : ∀ entry ∈ entries, Takes registry part entry.2)
      (hdistinct : Value.distinctEntries entries = entries) :
      Takes registry (.direct (.map markers key part)) (.map entries)

/-- A built-in codec over codings of its parts, with as many markers as its form writes and none of them null's. -/
inductive Codec.Built (key part : Element) : Codec → Prop
  | atom {codec : AtomCodec} (hbase : codec.markers.base ≠ Marker.null)
      (hcount : codec.markers.count = codec.form.count) : Built key part (.atom codec)
  | sequence {markers : MarkerRange} {kind : SequenceKind} (hbase : markers.base ≠ Marker.null)
      (hcount : markers.count = Size.markers) : Built key part (.sequence markers kind part)
  | collection {markers : MarkerRange} (hbase : markers.base ≠ Marker.null) (hcount : markers.count = 2) :
      Built key part (.collection markers part)
  | map {markers : MarkerRange} (hbase : markers.base ≠ Marker.null) (hcount : markers.count = Size.markers) :
      Built key part (.map markers key part)

variable {registry : Registry} {element key part : Element} {codec : Codec} {value : Value} {bytes : List UInt8}

/-- A codec of a built-in kind is built from the codings of its parts. -/
theorem Builtin.built_of_codecOf {kind : Builtin} {base : Marker} {inline : Nat}
    (h : kind.codecOf base inline key part = .ok codec) : codec.Built key part := by
  cases kind with
  | atom type =>
    obtain ⟨codec, hof, hpure⟩ := answer_bind_eq_ok_iff.1 h
    cases hpure
    obtain ⟨-, hbase, hcount⟩ := AtomCodec.legal_of_eq_ok hof
    exact .atom hbase hcount
  | sequence kind =>
    obtain ⟨markers, hof, hpure⟩ := answer_bind_eq_ok_iff.1 h
    cases hpure
    obtain ⟨hbase, hcount⟩ := MarkerRange.legal_of_eq_ok hof
    exact .sequence hbase hcount
  | map =>
    obtain ⟨markers, hof, hpure⟩ := answer_bind_eq_ok_iff.1 h
    cases hpure
    obtain ⟨hbase, hcount⟩ := MarkerRange.legal_of_eq_ok hof
    exact .map hbase hcount
  | collection =>
    obtain ⟨markers, hof, hpure⟩ := answer_bind_eq_ok_iff.1 h
    cases hpure
    obtain ⟨hbase, hcount⟩ := MarkerRange.legal_of_eq_ok hof
    exact .collection hbase hcount

/-- A coding takes null only where it admits null. -/
theorem Element.Takes.null_admitted [RecordEquality] (h : element.Takes registry value) :
    element.admitsNull ∨ value ≠ .null := by
  cases h with
  | any => exact .inl rfl
  | registered => exact .inl rfl
  | _ => exact .inr Value.noConfusion

/-! ## Parts that come back as they were -/

section Parts

variable {nested : Element → Read Value} {markers : MarkerRange} {items : List Value} {size : List UInt8}
  {parts : List (List UInt8)}

/-- A sequence comes back as it was if its elements do. -/
theorem Codec.decodes_sequence_self [RecordEquality] {kind : SequenceKind} (hbase : markers.base ≠ Marker.null)
    (hcount : markers.count = Size.markers) (hsize : Emits (Size.write markers.base items.length) size)
    (hlength : parts.length = items.length) (hdistinct : kind = .set → Value.distinct items = items)
    (hparts : ∀ pair ∈ items.zip parts, Decodes (part.readIn nested kind.name) pair.2 pair.1) :
    Decodes ((Codec.sequence markers kind part).read nested) (size ++ parts.flatten) (.sequence kind items) := by
  have hread := (Codec.decodes_sequence id hbase hcount hsize hlength hparts).2
  rwa [List.map_id, kind.collect_eq_self hdistinct] at hread

/-- A list comes back as it was if its elements do, and if none of them starts with the end mark. -/
theorem Codec.decodes_collection_self [RecordEquality] (hbase : markers.base ≠ Marker.null)
    (hlength : parts.length = items.length)
    (hparts : ∀ pair ∈ items.zip parts, Decodes (part.readIn nested "collection") pair.2 pair.1 ∧
      ∃ marker tail, pair.2 = marker.toByte :: tail ∧ marker ≠ markers.markerAt 1) :
    Decodes ((Codec.collection markers part).read nested)
      (markers.base.toByte :: (parts.flatten ++ [(markers.markerAt 1).toByte])) (.sequence .list items) := by
  have hread := Codec.decodes_collection id hbase hlength hparts
  rwa [List.map_id] at hread

/-- An array comes back as it was if its items do. -/
theorem Codec.decodes_array_self [RecordEquality] {type : ValueType} (hbase : markers.base ≠ Marker.null)
    (hmax : items.length ≤ Size.max) (hlength : parts.length = items.length)
    (hparts : ∀ pair ∈ items.zip parts, Decodes (nested part) pair.2 pair.1) :
    Decodes ((Codec.array markers type part).read nested)
      (markers.base.toByte :: (BigEndian.encode 4 items.length ++ parts.flatten)) (.array type items) := by
  have hread : Decodes ((Codec.array markers type part).read nested) _ (.array type (items.map id)) :=
    Codec.decodes_array id hbase hmax hlength hparts
  rwa [List.map_id] at hread

/-- A map comes back as it was if its keys and values do. -/
theorem Codec.decodes_map_self [RecordEquality] {entries : List (Value × Value)}
    {parts : List (List UInt8 × List UInt8)} (hbase : markers.base ≠ Marker.null)
    (hcount : markers.count = Size.markers) (hsize : Emits (Size.write markers.base entries.length) size)
    (hlength : parts.length = entries.length) (hdistinct : Value.distinctEntries entries = entries)
    (hkeys : ∀ pair ∈ entries.zip parts, Decodes (key.readIn nested "map key") pair.2.1 pair.1.1)
    (hvalues : ∀ pair ∈ entries.zip parts, Decodes (part.readIn nested "map value") pair.2.2 pair.1.2) :
    Decodes ((Codec.map markers key part).read nested) (size ++ parts.flatMap fun part => part.1 ++ part.2)
      (.map entries) := by
  have hread := (Codec.decodes_map id id hbase hcount hsize hlength hkeys hvalues).2
  have hsame : entries.map (fun entry => (id entry.1, id entry.2)) = entries := map_eq_self fun _ _ => rfl
  rwa [hsame, hdistinct] at hread

end Parts

/-! ## What the registry codes -/

section Registered

variable (hsound : registry.Sound) (hkinds : registry.KeepsKinds)
  (hrecords : ∀ markers type fresh fields, .record markers type fresh fields ∉ registry.codecs)

include hsound hrecords in
/-- Without codecs of records, every value is admitted. -/
theorem Registry.Sound.admits_of_no_records (value : Value) : registry.Admits value := by
  induction value using Value.induction with
  | null => exact .null
  | atom atom => exact .atom atom
  | variant type index => exact .variant type index
  | sequence kind items ih => exact .sequence ih
  | map entries ih => exact .map (fun entry hentry => (ih entry hentry).1) fun entry hentry => (ih entry hentry).2
  | array type items ih => exact .array ih
  | record type slots ih =>
    refine .record ih fun markers fresh fields hcodec => ?_
    rcases hsound.known hcodec with ⟨hnull, -⟩ | ⟨hmem, -⟩
    · cases hnull
    · exact absurd hmem (hrecords markers type fresh fields)

include hsound hkinds hrecords in
/-- What a reachable registry has written comes back, also in an expression. -/
theorem Encodes.decodes_of_fits [RecordEquality] (h : Encodes registry value element bytes)
    (hfits : element.Fits registry) (hrestores : registry.Restores value) :
    Decodes (registry.readAs element) bytes value := by
  have hadmits := hsound.admits_of_no_records hrecords value
  have hback := h.decodes hsound hfits hadmits
  rwa [hsound.backAs_eq_self hkinds hfits hadmits hrestores] at hback

include hsound hkinds hrecords in
/-- A codec that the registry has reads back what it writes, also where another one is the first for the type. -/
theorem Encodes.decodes_of_registered [RecordEquality] (h : Encodes registry value (.boxed codec) bytes)
    (hcodec : codec = .null ∨ codec ∈ registry.codecs) (hkind : codec.builtin? ≠ some .collection)
    (hrestores : registry.Restores value) : Decodes (registry.readAs (.boxed codec)) bytes value := by
  have hmem : codec ≠ .null → codec ∈ registry.codecs := hcodec.resolve_left
  have hany : ∀ {value : Value} {bytes : List UInt8}, Encodes registry value .any bytes → registry.Restores value →
      Decodes (registry.readAs .any) bytes value :=
    fun hitem hrestored => hitem.decodes_of_fits hsound hkinds hrecords Element.fits_any hrestored
  rw [registry.readAs_boxed]
  cases h with
  | null => exact Codec.decodes_null _ (hcodec.imp_right hsound.base_ne_null)
  | atom hwriter hbytes =>
    cases hwriter
    replace hmem := hmem Codec.noConfusion
    cases hsound.fits hmem with
    | atom hcount => exact (Codec.decodes_atom _ (hsound.base_ne_null hmem) hcount hbytes).2
  | variant hwriter hordinal =>
    cases hwriter
    replace hmem := hmem Codec.noConfusion
    cases hsound.fits hmem with
    | enumeration hlength =>
      have hread := Codec.decodes_enumeration registry.readAs (hsound.base_ne_null hmem) hlength hordinal
      obtain ⟨variant, -, hvariant, -⟩ := getElem?_of_ordinal? hordinal
      cases hrestores with
      | variant hlisted =>
        obtain rfl := hlisted _ _ hmem variant hvariant
        rwa [hvariant] at hread
  | sized hwriter hsize hlength hparts =>
    cases hwriter
    replace hmem := hmem Codec.noConfusion
    cases hrestores with
    | sequence hitems hdistinct =>
      cases hsound.fits hmem with
      | sequence hcount =>
        refine Codec.decodes_sequence_self (hsound.base_ne_null hmem) hcount hsize hlength hdistinct ?_
        intro pair hpair
        exact (hany (hparts pair hpair) (hitems pair.1 (List.of_mem_zip hpair).1)).readIn (.inl rfl) _
  | delimited hwriter _ _ _ =>
    cases hwriter
    exact absurd rfl hkind
  | map hwriter hsize hlength hkeys hvalues =>
    cases hwriter
    replace hmem := hmem Codec.noConfusion
    cases hrestores with
    | map hrestoredKeys hrestoredValues hdistinct =>
      cases hsound.fits hmem with
      | map hcount =>
        refine Codec.decodes_map_self (hsound.base_ne_null hmem) hcount hsize hlength hdistinct ?_ ?_
        · intro pair hpair
          exact (hany (hkeys pair hpair) (hrestoredKeys pair.1 (List.of_mem_zip hpair).1)).readIn (.inl rfl) _
        · intro pair hpair
          exact (hany (hvalues pair hpair) (hrestoredValues pair.1 (List.of_mem_zip hpair).1)).readIn (.inl rfl) _
  | array hwriter hmax hlength hparts =>
    cases hwriter
    replace hmem := hmem Codec.noConfusion
    cases hrestores with
    | array hitems =>
      cases hsound.fits hmem with
      | array hpart =>
        refine Codec.decodes_array_self (hsound.base_ne_null hmem) hmax hlength fun pair hpair => ?_
        exact (hparts pair hpair).decodes_of_fits hsound hkinds hrecords hpart.fits
          (hitems pair.1 (List.of_mem_zip hpair).1)
  | record hwriter _ _ =>
    cases hwriter
    exact absurd (hmem Codec.noConfusion) (hrecords _ _ _ _)

end Registered

/-! ## What the expression codes -/

/-- What is read back has a first byte, which is not the end marker unless it could have been written. -/
theorem Decodes.start_of_not_emits [RecordEquality] {last : Marker} (h : Decodes (registry.readAs element) bytes value)
    (hencodes : Encodes registry value element bytes)
    (hends : ∀ tail, ¬ Emits (registry.writeAs value element) (last.toByte :: tail)) :
    ∃ marker tail, bytes = marker.toByte :: tail ∧ marker ≠ last := by
  cases bytes with
  | nil => exact absurd (registry.shortens_readAs element (h [])) (Nat.lt_irrefl 0)
  | cons byte tail =>
    refine ⟨Marker.ofByte byte, tail, by rw [Marker.toByte_ofByte], ?_⟩
    rintro rfl
    apply hends tail
    rw [Marker.toByte_ofByte]
    exact hencodes.emits

/-- Every coding of an expression reads back what it writes. The induction is on the expression: the codec at its top
reads its own markers, and leaves the parts to codings that are expressions themselves. -/
theorem Element.Expression.decodes [RecordEquality] (hsound : registry.Sound) (hkinds : registry.KeepsKinds)
    (hrecords : ∀ markers type fresh fields, .record markers type fresh fields ∉ registry.codecs)
    (hexpression : element.Expression registry) (htakes : element.Takes registry value)
    (h : Encodes registry value element bytes) : Decodes (registry.readAs element) bytes value := by
  induction hexpression generalizing value bytes with
  | any =>
    cases htakes with
    | any hrestores => exact h.decodes_of_fits hsound hkinds hrecords Element.fits_any hrestores
  | registered howner hkind =>
    cases htakes with
    | registered hrestores =>
      exact h.decodes_of_registered hsound hkinds hrecords (hsound.consistent.mem_of_codecForMarker howner) hkind
        hrestores
  | @built _ _ _ key part _ _ _ hcodec ihkey ihpart =>
    have hpart : ∀ {value : Value} {bytes : List UInt8}, part.Takes registry value →
        Encodes registry value part bytes → ∀ target, Decodes (part.readIn registry.readAs target) bytes value :=
      fun htaken hencoded target => (ihpart htaken hencoded).readIn htaken.null_admitted target
    rw [registry.readAs_direct]
    cases Builtin.built_of_codecOf hcodec with
    | atom hbase hcount =>
      cases htakes with
      | atom _ =>
        cases h with
        | atom hwriter hbytes =>
          cases hwriter
          exact (Codec.decodes_atom _ hbase hcount hbytes).2
    | sequence hbase hcount =>
      cases htakes with
      | sequence hitems hdistinct =>
        cases h with
        | sized hwriter hsize hlength hparts =>
          cases hwriter
          refine Codec.decodes_sequence_self hbase hcount hsize hlength hdistinct fun pair hpair => ?_
          exact hpart (hitems pair.1 (List.of_mem_zip hpair).1) (hparts pair hpair) _
        | delimited hwriter => cases hwriter
    | collection hbase hcount =>
      cases htakes with
      | collection hitems hends =>
        cases h with
        | sized hwriter => cases hwriter
        | delimited hwriter hcollects hlength hparts =>
          cases hwriter
          refine Codec.decodes_collection_self hbase hlength fun pair hpair => ?_
          have hitem := (List.of_mem_zip hpair).1
          have hencoded := hparts pair hpair
          have hread := ihpart (hitems pair.1 hitem) hencoded
          exact ⟨hpart (hitems pair.1 hitem) hencoded _, hread.start_of_not_emits hencoded (hends pair.1 hitem)⟩
    | map hbase hcount =>
      cases htakes with
      | map hkeysTaken hvaluesTaken hdistinct =>
        cases h with
        | map hwriter hsize hlength hkeys hvalues =>
          cases hwriter
          refine Codec.decodes_map_self hbase hcount hsize hlength hdistinct ?_ ?_
          · intro pair hpair
            have htaken := hkeysTaken pair.1 (List.of_mem_zip hpair).1
            exact (ihkey htaken (hkeys pair hpair)).readIn htaken.null_admitted _
          · intro pair hpair
            exact hpart (hvaluesTaken pair.1 (List.of_mem_zip hpair).1) (hvalues pair hpair) _

/-- Let codecs be put together from the codec of any value, registered codecs other than that of collections, and
built-in codecs at any legal markers, over a registry without codecs of records in which no sequence is written by the
codec of collections. Let such a coding write a value of its type behind any bytes. What it appends are some bytes, and
reading by the same coding from where they begin, whatever follows them, takes exactly these bytes and gives the value.
Nothing is asked of the markers, but that no element of a collection starts with the collection's end marker. -/
theorem Element.Expression.read_back [RecordEquality] (hreach : ∃ made, Reachable registry made)
    (hkinds : registry.KeepsKinds)
    (hrecords : ∀ markers type fresh fields, .record markers type fresh fields ∉ registry.codecs)
    (hexpression : element.Expression registry) (htakes : element.Takes registry value) {before after : Output}
    (hwrite : registry.writeAs value element before = .ok () after) :
    ∃ bytes : List UInt8, after.toList = before.toList ++ bytes ∧ ∀ behind : List UInt8,
      registry.readAs element ((before.toList ++ bytes ++ behind).drop before.size) = .ok value behind := by
  obtain ⟨made, hreach⟩ := hreach
  obtain ⟨bytes, hemits, rfl⟩ := (registry.uniform_writeAs value element).emits_of_ok hwrite
  have hread := hexpression.decodes hreach.sound.1 hkinds hrecords htakes (encodes_of_emits hemits)
  refine ⟨bytes, by simp, fun behind => ?_⟩
  rw [List.append_assoc, ← Array.length_toList, List.drop_left]
  exact hread behind

/-! ## Markers that overlap

A collection of maps from registered longs to sets of any value. The collection and the longs claim the same markers,
and both the maps and the sets claim some of these too.
-/

/-- How the codecs of the registry are made. -/
def overlapRecipes : List Recipe :=
  [.builtin (.atom (.word .long)) (-120) 0, .builtin (.sequence .list) (-112) 0, .builtin (.sequence .set) (-108) 0,
    .builtin (.sequence .queue) (-104) 0]

/-- The codec of longs that the registry has. -/
def overlapLongs : Codec := .atom ⟨.word .long, Registry.longMarkers⟩

/-- Maps whose markers begin in front of those of the longs. -/
def overlapMaps : Element :=
  .direct (.map ⟨-121, 4, by decide, by decide⟩ (.boxed overlapLongs)
    (.direct (.sequence ⟨-120, 4, by decide, by decide⟩ .set .any)))

/-- Collections whose two markers are the first ones of the longs. -/
def overlapLists : Element := .direct (.collection ⟨-120, 2, Nat.two_pos, by decide⟩ overlapMaps)

/-- A map of a number to a set, in which there are the same number and a list of null. -/
def overlapMap : Value :=
  .map [(.atom (.word .long 5), .sequence .set [.atom (.word .long 5), .sequence .list [.null]])]

/-- The coding is an expression over the registry, although the markers overlap. -/
theorem expression_overlapLists : overlapLists.Expression (ofRecipes overlapRecipes) := by
  have hlongs : Element.Expression (ofRecipes overlapRecipes) (.boxed overlapLongs) :=
    .registered (show (ofRecipes overlapRecipes).codecForMarker (-120) = .ok overlapLongs from rfl) (by decide)
  have hsets : Element.Expression (ofRecipes overlapRecipes)
      (.direct (.sequence ⟨-120, 4, by decide, by decide⟩ .set .any)) :=
    .built .any .any (show (Builtin.sequence .set).codecOf (-120) 0 .any .any = .ok _ from rfl)
  have hmaps : overlapMaps.Expression (ofRecipes overlapRecipes) :=
    .built hlongs hsets (show Builtin.map.codecOf (-121) 0 _ _ = .ok _ from rfl)
  exact .built .any hmaps (show Builtin.collection.codecOf (-120) 0 .any overlapMaps = .ok _ from rfl)

set_option maxRecDepth 2000 in
/-- The coding takes lists of the map. -/
theorem takes_overlapLists [RecordEquality] : overlapLists.Takes (ofRecipes overlapRecipes)
    (.sequence .list [overlapMap]) := by
  have hlong : (ofRecipes overlapRecipes).Restores (.atom (.word .long 5)) := .atom _
  have hnulls : (ofRecipes overlapRecipes).Restores (.sequence .list [.null]) :=
    .sequence (List.forall_mem_singleton.2 .null) fun h => nomatch h
  have hmap : overlapMaps.Takes (ofRecipes overlapRecipes) overlapMap := by
    refine .map (List.forall_mem_singleton.2 (.registered hlong)) (List.forall_mem_singleton.2 ?_) rfl
    have hapart : Value.Apart [.atom (.word .long 5), .sequence .list [.null]] := by
      simp [Value.Apart, Value.equal]
    exact .sequence (List.forall_mem_cons.2 ⟨.any hlong, List.forall_mem_singleton.2 (.any hnulls)⟩)
      fun _ => Value.distinct_of_apart hapart
  refine .collection (List.forall_mem_singleton.2 hmap) (List.forall_mem_singleton.2 fun tail hemits => ?_)
  have hwrite : (ofRecipes overlapRecipes).writeAs overlapMap overlapMaps #[] =
      .ok () #[135, 129, 136, 5, 136, 130, 136, 5, 144, 129, 128] := rfl
  -- The map starts with its own first marker, 135, and the collection ends with 137.
  rw [hemits #[]] at hwrite
  injection hwrite with _ hbytes
  have hfirst := congrArg (fun output => output.toList.head?) hbytes
  simp only [List.nil_append, Array.toList_appendList, List.head?_cons] at hfirst
  cases hfirst

set_option maxRecDepth 2000 in
/-- The list of the map is read back from among other bytes. -/
theorem Element.Expression.read_back_overlap :
    ∃ bytes : List UInt8,
      ([7, 136, 135, 129, 136, 5, 136, 130, 136, 5, 144, 129, 128, 137] : List UInt8) = [7] ++ bytes ∧
      ∀ behind : List UInt8, (ofRecipes overlapRecipes).readAs overlapLists (([7] ++ bytes ++ behind).drop 1) =
        .ok (.sequence .list [overlapMap]) behind := by
  have hkinds : (ofRecipes overlapRecipes).KeepsKinds := by
    intro kind markers part
    cases kind <;> exact fun h => nomatch h
  have hrecords : ∀ markers type fresh fields,
      .record markers type fresh fields ∉ (ofRecipes overlapRecipes).codecs := by
    intro markers type fresh fields hmem
    have hcodecs : (ofRecipes overlapRecipes).codecs =
        [overlapLongs, .sequence ⟨-112, 4, by decide, by decide⟩ .list .any,
          .sequence ⟨-108, 4, by decide, by decide⟩ .set .any,
          .sequence ⟨-104, 4, by decide, by decide⟩ .queue .any] := rfl
    rw [hcodecs] at hmem
    simp [overlapLongs] at hmem
  have hwrite : (ofRecipes overlapRecipes).writeAs (.sequence .list [overlapMap]) overlapLists #[7] =
      .ok () #[7, 136, 135, 129, 136, 5, 136, 130, 136, 5, 144, 129, 128, 137] := rfl
  exact Element.Expression.read_back (reachable_ofRecipes overlapRecipes) hkinds hrecords expression_overlapLists
    takes_overlapLists hwrite

end Bytemark
