import Bytemark.Proofs.RoundTrip.Exhaustion
import Bytemark.Proofs.RoundTrip.Law
import Mathlib.Data.List.Forall2

/-!
# Where a collection ends

A collection ends at the first element that starts with its end marker. The codec of collections takes any codec of
elements and does not look at its markers, so such an element is possible: it is written like the others, and the reader
takes its first byte for the end. What was written then starts with a shorter collection, followed by bytes that stay
unread (`TypedCodec.decodes_collection` at the elements before it).

With the registry's own coding of elements this does not happen, because the end marker belongs to the codec of
collections and nothing starts with it (`Encodes.start_ne_last`). So every read of such a collection that succeeds has
as many elements as were written.

Any codec of elements is meant by the first of these, not only those that a registry can code, so the codec of
collections is spelt out for any type. `TypedCodec.write_ofElement` and `TypedCodec.read_ofElement` compare it with the
one that codings use.
-/

set_option autoImplicit false

namespace Bytemark

/-- Encodings of elements between the two markers of a collection. -/
def MarkerRange.enclose (markers : MarkerRange) (parts : List (List UInt8)) : List UInt8 :=
  markers.base.toByte :: (parts.flatten ++ [(markers.markerAt 1).toByte])

/-- A codec of one type: how an element is written, and how one is read or found to be absent. -/
structure TypedCodec (α : Type) where
  write : α → Write
  read : Read (Option α)

namespace TypedCodec

variable {α : Type} {codec : TypedCodec α} {markers : MarkerRange} {items : List α} {parts : List (List UInt8)}

/-- Reads an element of `target`, which may not be absent. -/
def readElement (codec : TypedCodec α) (target : String) : Read α := do
  match ← codec.read with
  | some a => return a
  | none => throw (.unexpectedNull target)

/-- The codec of collections over a codec of their elements: the elements, between the first marker and the second. -/
def collection (codec : TypedCodec α) (markers : MarkerRange) : TypedCodec (List α) where
  write items := do
    Output.marker markers.base
    items.forM codec.write
    Output.marker (markers.markerAt 1)
  read := do
    let marker ← Input.marker
    if marker = Marker.null then return none
    if marker ≠ markers.base then throw (.decode "collection" marker)
    return some (← readDelimited (markers.markerAt 1) (codec.readElement "collection"))

/-- The coding of a part as a codec. Null is the absence of an element where the coding does not admit it. -/
def ofElement [RecordEquality] (registry : Registry) (part : Element) : TypedCodec Value where
  write value := registry.writeAs value part
  read := do
    let value ← registry.readAs part
    return if value.isNull ∧ ¬ part.admitsNull then none else some value

/-- Bytes that the codec has written for an element: an encoding of it. -/
def Spells (codec : TypedCodec α) (a : α) (bytes : List UInt8) : Prop :=
  ∃ output : Output, codec.write a output = .ok () (output ++ bytes)

/-- The codec writes an element by appending to the output, never nothing, and reads the element back from each of its
encodings, whatever follows, taking no other bytes. -/
structure Faithful (codec : TypedCodec α) (a : α) : Prop where
  appends {output written : Output} (h : codec.write a output = .ok () written) :
    ∃ bytes : List UInt8, written = output ++ bytes
  nonempty {bytes : List UInt8} (h : codec.Spells a bytes) : bytes ≠ []
  decodes {bytes : List UInt8} (h : codec.Spells a bytes) : Decodes codec.read bytes (some a)

/-! ## The codec of collections -/

/-- An element that is there is read as such. -/
theorem decodes_readElement {a : α} {bytes : List UInt8} (h : Decodes codec.read bytes (some a)) (target : String) :
    Decodes (codec.readElement target) bytes a := h.bind_pure (.pure a)

/-- What is written for a list of elements falls into an encoding of each of them. -/
theorem exists_parts (hfaithful : ∀ item ∈ items, codec.Faithful item) {output written : Output}
    (h : items.forM codec.write output = .ok () written) :
    ∃ parts : List (List UInt8), List.Forall₂ codec.Spells items parts ∧ written = output ++ parts.flatten := by
  induction items generalizing output with
  | nil =>
    cases h
    exact ⟨[], .nil, by simp⟩
  | cons item items ih =>
    rw [List.forall_mem_cons] at hfaithful
    obtain ⟨_, mid, hitem, hitems⟩ := bind_eq_ok_iff.1 h
    obtain ⟨bytes, rfl⟩ := hfaithful.1.appends hitem
    obtain ⟨parts, hparts, rfl⟩ := ih hfaithful.2 hitems
    refine ⟨bytes :: parts, .cons ⟨output, hitem⟩ hparts, ?_⟩
    rw [Output.append_assoc, List.flatten_cons]

/-- A collection is written as encodings of its elements between its two markers. -/
theorem exists_parts_of_collection (hfaithful : ∀ item ∈ items, codec.Faithful item) {output written : Output}
    (h : (codec.collection markers).write items output = .ok () written) :
    ∃ parts : List (List UInt8), List.Forall₂ codec.Spells items parts ∧
      written = output ++ markers.enclose parts := by
  obtain ⟨_, first, hfirst, hrest⟩ := bind_eq_ok_iff.1 h
  obtain ⟨_, mid, hitems, hlast⟩ := bind_eq_ok_iff.1 hrest
  rw [Output.marker_apply] at hfirst
  cases hfirst
  obtain ⟨parts, hparts, rfl⟩ := exists_parts hfaithful hitems
  rw [Output.marker_apply] at hlast
  cases hlast
  refine ⟨parts, hparts, ?_⟩
  rw [Output.append_assoc, Output.append_assoc]
  rfl

/-- Elements that do not start with the end marker are read back, whatever follows that marker. -/
theorem decodes_collection (hbase : markers.base ≠ Marker.null) (hfaithful : ∀ item ∈ items, codec.Faithful item)
    (hparts : List.Forall₂ codec.Spells items parts)
    (hstart : ∀ part ∈ parts, part.head? ≠ some (markers.markerAt 1).toByte) :
    Decodes (codec.collection markers).read (markers.enclose parts) (some items) := by
  obtain ⟨hlength, hspells⟩ := List.forall₂_iff_zip.1 hparts
  have hitems : ∀ pair ∈ items.zip parts, Decodes (codec.readElement "collection") pair.2 (id pair.1) ∧
      ∃ marker tail, pair.2 = marker.toByte :: tail ∧ marker ≠ markers.markerAt 1 := by
    rintro ⟨item, part⟩ hpair
    obtain ⟨hitem, hpart⟩ := List.of_mem_zip hpair
    have hspelt := hspells hpair
    refine ⟨decodes_readElement ((hfaithful item hitem).decodes hspelt) _, ?_⟩
    obtain ⟨byte, tail, rfl⟩ := List.exists_cons_of_ne_nil ((hfaithful item hitem).nonempty hspelt)
    refine ⟨Marker.ofByte byte, tail, by rw [Marker.toByte_ofByte], ?_⟩
    intro hlast
    apply hstart _ hpart
    rw [List.head?_cons, ← hlast, Marker.toByte_ofByte]
  have hrun := Decodes.readDelimited id hlength.symm hitems
  rw [List.map_id] at hrun
  refine Decodes.marker_bind ?_
  rw [if_neg hbase, if_neg (not_not_intro rfl)]
  exact hrun.bind_pure (.pure _)

/-- The first element that starts with the end marker ends the collection, and is left behind its first byte. -/
theorem read_collection_stops (hbase : markers.base ≠ Marker.null) (hfaithful : ∀ item ∈ items, codec.Faithful item)
    (hparts : List.Forall₂ codec.Spells items parts) {index : Nat} {tail : List UInt8}
    (hstop : parts[index]? = some ((markers.markerAt 1).toByte :: tail))
    (hbefore : ∀ part ∈ parts.take index, part.head? ≠ some (markers.markerAt 1).toByte) (rest : List UInt8) :
    (codec.collection markers).read (markers.enclose parts ++ rest) = .ok (some (items.take index))
      (tail ++ (parts.drop (index + 1)).flatten ++ (markers.markerAt 1).toByte :: rest) := by
  obtain ⟨hindex, hpart⟩ := List.getElem?_eq_some_iff.1 hstop
  -- What was written starts with the collection of the elements before, and that is what is read.
  have hinput : markers.enclose parts ++ rest = markers.enclose (parts.take index) ++
      (tail ++ (parts.drop (index + 1)).flatten ++ (markers.markerAt 1).toByte :: rest) := by
    have hflat : parts.flatten = (parts.take index).flatten ++
        ((markers.markerAt 1).toByte :: tail ++ (parts.drop (index + 1)).flatten) := by
      conv => lhs; rw [← List.take_append_drop index parts, List.drop_eq_getElem_cons hindex, hpart]
      rw [List.flatten_append, List.flatten_cons]
    unfold MarkerRange.enclose
    rw [hflat]
    simp
  rw [hinput]
  exact decodes_collection hbase (fun item hitem => hfaithful item (List.mem_of_mem_take hitem))
    (List.forall₂_take index hparts) hbefore _

/-! ## The codings of a registry -/

section Codings

variable {registry : Registry} {part : Element}

/-- The codec of the elements reads them as the registry does. -/
theorem readElement_ofElement [RecordEquality] (target : String) :
    (ofElement registry part).readElement target = part.readIn registry.readAs target := by
  funext input
  simp only [readElement, ofElement, Element.readIn, bind, EStateM.bind]
  cases registry.readAs part input with
  | error e rest => rfl
  | ok value rest =>
    by_cases habsent : value.isNull ∧ ¬ part.admitsNull
    · simp only [if_pos habsent]
      rfl
    · simp only [if_neg habsent]
      rfl

/-- A coding of collections writes a list as the codec of collections does, over the coding of their elements. -/
theorem write_ofElement [RecordEquality] (items : List Value) :
    registry.writeAs (.sequence .list items) (.direct (.collection markers part)) =
      ((ofElement registry part).collection markers).write items := by
  calc registry.writeAs (.sequence .list items) (.direct (.collection markers part))
      = (do
          Output.marker markers.base
          registry.writeItems items part
          Output.marker (markers.markerAt 1)) := by
        have hwriter : (Element.direct (.collection markers part)).writer registry (.sequence .list) =
          .ok (.collection markers part) := rfl
        unfold Registry.writeAs
        simp only [hwriter]
        rfl
    _ = ((ofElement registry part).collection markers).write items := by
        rw [Registry.writeItems_eq_forM]
        rfl

/-- It reads as the codec of collections does, too. -/
theorem read_ofElement [RecordEquality] : registry.readAs (.direct (.collection markers part)) = (do
    return (← ((ofElement registry part).collection markers).read).elim .null (.sequence .list)) := by
  rw [registry.readAs_direct]
  unfold Codec.read MarkerRange.opening collection
  simp only [readElement_ofElement, bind_assoc]
  congr 1
  funext marker
  split
  · rfl
  split
  · rfl
  · simp [Codec.name]

/-- What a writer that appends alike to every output has written for an element is what it emits. -/
theorem Spells.emits {a : α} {bytes : List UInt8} (huniform : Uniform (codec.write a)) (h : codec.Spells a bytes) :
    Emits (codec.write a) bytes := by
  obtain ⟨output, hwrite⟩ := h
  obtain ⟨bytes', hemits, hsame⟩ := huniform.emits_of_ok hwrite
  obtain rfl : bytes = bytes' := by
    have hlists := congrArg Array.toList hsame
    simpa using hlists
  exact hemits

/-- A codec of atoms with as many markers as its form writes, none of them null's, is one of those that the codec of
collections is meant for. -/
theorem faithful_atom [RecordEquality] {codec : AtomCodec} (hbase : codec.markers.base ≠ Marker.null)
    (hcount : codec.markers.count = codec.form.count) (atom : Atom) :
    (ofElement registry (.direct (.atom codec))).Faithful (.atom atom) := by
  have huniform := registry.uniform_writeAs (.atom atom) (.direct (.atom codec))
  have hdecodes : ∀ bytes, (ofElement registry (.direct (.atom codec))).Spells (.atom atom) bytes →
      StartsIn codec.markers bytes ∧ Decodes codec.read bytes (some atom) :=
    fun bytes hspells => AtomCodec.decodes_read hbase hcount (hspells.emits huniform)
  constructor
  · intro output written h
    obtain ⟨bytes, -, hwritten⟩ := huniform.emits_of_ok h
    exact ⟨bytes, hwritten⟩
  · intro bytes hspells hnil
    obtain ⟨⟨marker, tail, hstart, -⟩, -⟩ := hdecodes bytes hspells
    rw [hnil] at hstart
    cases hstart
  · intro bytes hspells
    have hread : Decodes (registry.readAs (.direct (.atom codec))) bytes (.atom atom) := by
      rw [registry.readAs_direct]
      exact (hdecodes bytes hspells).2.bind_pure (.pure _)
    exact hread.bind_pure (.pure _)

end Codings

end TypedCodec

/-! ## The collections of a registry -/

namespace Registry.Sound

variable {registry : Registry} {markers : MarkerRange} {part element : Element} {kind : SequenceKind}
  {items : List Value} {bytes : List UInt8}

/-- Nothing that the registry writes starts with the end marker of its codec of collections. -/
theorem head_ne_last [RecordEquality] (hsound : registry.Sound) (hmem : .collection markers part ∈ registry.codecs)
    {value : Value} (h : Emits (registry.write value) bytes) : bytes.head? ≠ some (markers.markerAt 1).toByte := by
  cases hsound.legal hmem with
  | collection hbase hcount =>
    obtain ⟨marker, tail, rfl, hmarker⟩ :=
      (encodes_of_emits h).start_ne_last hsound Element.fits_any hmem hcount
    intro hhead
    apply hmarker
    rw [← Marker.ofByte_toByte marker, Option.some.inj hhead, Marker.ofByte_toByte]

section Untyped

variable [RecordEquality] (hsound : registry.Sound) (hmem : .collection markers part ∈ registry.codecs)
  (hwriter : element.writer registry (.sequence kind) = .ok (.collection markers part))
  (h : Emits (registry.writeAs (.sequence kind items) element) bytes)
include hsound hmem hwriter h

/-- What the registry's codec of collections writes are encodings of the elements, which do not start with its end
marker. -/
theorem exists_parts : ∃ parts : List (List UInt8),
    bytes = markers.enclose parts ∧ parts.length = items.length ∧
      ∀ pair ∈ items.zip parts, Encodes registry pair.1 .any pair.2 ∧
        ∃ marker tail, pair.2 = marker.toByte :: tail ∧ marker ≠ markers.markerAt 1 := by
  cases hsound.fits hmem with
  | collection hcount =>
    cases encodes_of_emits h with
    | sized hother => cases hwriter.symm.trans hother
    | delimited hsame hcollects hlength hparts =>
      cases hwriter.symm.trans hsame
      refine ⟨_, rfl, hlength, fun pair hpair => ⟨hparts pair hpair, ?_⟩⟩
      exact (hparts pair hpair).start_ne_last hsound Element.fits_any hmem hcount

/-- Whatever the elements are read as, there are as many of them, and nothing behind the end mark is taken. -/
theorem length_of_read {rest left : Input} {value : Value}
    (hread : registry.readAs element (bytes ++ rest) = .ok value left) :
    ∃ items' : List Value, value = .sequence .list items' ∧ items'.length = items.length ∧ left = rest := by
  obtain ⟨parts, rfl, hlength, hparts⟩ := hsound.exists_parts hmem hwriter h
  have hstart : StartsIn markers (markers.enclose parts) := .base _ _
  rw [registry.readAs_eq] at hread
  obtain ⟨codec, mid, hselect, hvalue⟩ := bind_eq_ok_iff.1 hread
  cases (hsound.select_eq hwriter hmem hstart rest).symm.trans hselect
  rw [← hlength]
  cases hsound.fits hmem with
  | collection hcount =>
    refine Codec.length_of_read_collection (hsound.base_ne_null hmem) ?_ hvalue
    exact forall_mem_of_zip hlength fun pair hpair =>
      ⟨(hparts pair hpair).1.exhausts hsound Element.fits_any, (hparts pair hpair).2⟩

/-- The elements come back as a list. -/
theorem decodes_list (hadmits : ∀ item ∈ items, registry.Admits item) :
    Decodes (registry.readAs element) bytes (.sequence .list (items.map registry.back)) := by
  obtain ⟨parts, rfl, hlength, hparts⟩ := hsound.exists_parts hmem hwriter h
  refine hsound.decodes_readAs hwriter hmem (.base _ _) ?_
  cases hsound.fits hmem with
  | collection hcount =>
    refine Codec.decodes_collection registry.back (hsound.base_ne_null hmem) hlength fun pair hpair => ?_
    obtain ⟨hencodes, hstart⟩ := hparts pair hpair
    have hitem := hencodes.decodes hsound Element.fits_any (hadmits pair.1 (List.of_mem_zip hpair).1)
    exact ⟨hitem.readIn (.inl rfl) _, hstart⟩

end Untyped

end Registry.Sound

/-- Collections at any two markers but null's, of which the second ends them. Let a codec of elements append an encoding
of each element, never nothing, and read the element back from it, whatever follows. Then a collection that is written
is an encoding of each element between the markers. All elements are read back if none of the encodings starts with the
end marker. Otherwise those before the first one that does are read, and what follows its first byte is left. The
codings of a registry write and read collections in just this way. If a reachable registry has the codec of collections
at these markers, nothing that it writes starts with the end marker. So no read of what this codec writes over the
registry's own coding has fewer elements, and elements that are admitted all come back. -/
theorem collection_ends [RecordEquality] {registry : Registry} (hreach : ∃ made, Registry.Reachable registry made)
    {base : Marker} {markers : MarkerRange} (hmarkers : MarkerRange.of base 2 = .ok markers) :
    (∀ (α : Type) (codec : TypedCodec α) (items : List α) (output written : Output),
      (∀ item ∈ items, codec.Faithful item) → (codec.collection markers).write items output = .ok () written →
      ∃ parts : List (List UInt8), List.Forall₂ codec.Spells items parts ∧ written = output ++ markers.enclose parts ∧
        ((∀ part ∈ parts, part.head? ≠ some (markers.markerAt 1).toByte) →
          Decodes (codec.collection markers).read (markers.enclose parts) (some items)) ∧
        ∀ (index : Nat) (tail : List UInt8), parts[index]? = some ((markers.markerAt 1).toByte :: tail) →
          (∀ part ∈ parts.take index, part.head? ≠ some (markers.markerAt 1).toByte) → ∀ rest : List UInt8,
          (codec.collection markers).read (markers.enclose parts ++ rest) = .ok (some (items.take index))
            (tail ++ (parts.drop (index + 1)).flatten ++ (markers.markerAt 1).toByte :: rest)) ∧
    (∀ (part : Element) (items : List Value),
      registry.writeAs (.sequence .list items) (.direct (.collection markers part)) =
          ((TypedCodec.ofElement registry part).collection markers).write items ∧
        registry.readAs (.direct (.collection markers part)) = do
          return (← ((TypedCodec.ofElement registry part).collection markers).read).elim .null (.sequence .list)) ∧
    (.collection markers .any ∈ registry.codecs →
      (∀ (value : Value) (output written : Output), registry.write value output = .ok () written →
        ∃ bytes : List UInt8, written = output ++ bytes ∧ bytes.head? ≠ some (markers.markerAt 1).toByte) ∧
      ∀ (element : Element) (kind : SequenceKind) (items : List Value) (output written : Output),
        element.writer registry (.sequence kind) = .ok (.collection markers .any) →
        registry.writeAs (.sequence kind items) element output = .ok () written →
        ∃ bytes : List UInt8, written = output ++ bytes ∧
          (∀ rest value left, registry.readAs element (bytes ++ rest) = .ok value left →
            ∃ items' : List Value, value = .sequence .list items' ∧ items'.length = items.length ∧ left = rest) ∧
          ((∀ item ∈ items, registry.Admits item) →
            Decodes (registry.readAs element) bytes (.sequence .list (items.map registry.back)))) := by
  obtain ⟨made, hreach⟩ := hreach
  have hsound := hreach.sound.1
  obtain ⟨hbase, -⟩ := MarkerRange.legal_of_eq_ok hmarkers
  refine ⟨fun α codec items output written hfaithful hwrite => ?_,
    fun part items => ⟨TypedCodec.write_ofElement items, TypedCodec.read_ofElement⟩, fun hmem => ⟨?_, ?_⟩⟩
  · obtain ⟨parts, hparts, rfl⟩ := TypedCodec.exists_parts_of_collection hfaithful hwrite
    exact ⟨parts, hparts, rfl, TypedCodec.decodes_collection hbase hfaithful hparts,
      fun index tail hstop hbefore rest =>
        TypedCodec.read_collection_stops hbase hfaithful hparts hstop hbefore rest⟩
  · intro value output written hwrite
    obtain ⟨bytes, hemits, rfl⟩ := (registry.uniform_writeAs value .any).emits_of_ok hwrite
    exact ⟨bytes, rfl, hsound.head_ne_last hmem hemits⟩
  · intro element kind items output written hwriter hwrite
    obtain ⟨bytes, hemits, rfl⟩ := (registry.uniform_writeAs (.sequence kind items) element).emits_of_ok hwrite
    exact ⟨bytes, rfl, fun rest value left hread => hsound.length_of_read hmem hwriter hemits hread,
      fun hadmits => hsound.decodes_list hmem hwriter hemits hadmits⟩

/-! ## A list that comes back shorter -/

/-- Two numbers, of which the second takes two bytes. -/
def twoLongs : List Value := [.atom (.word .long 5), .atom (.word .long 300)]

set_option maxRecDepth 2000 in
/-- A number of two bytes starts with the end marker of the collections, if the markers of the numbers overlap theirs.
It ends the list that it stands in. What the registry writes by itself does not start with this marker. -/
theorem collection_ends_early :
    (∃ made, Registry.Reachable Registry.nodeRegistry made) ∧
    ∃ markers longs, MarkerRange.of (-90) 2 = .ok markers ∧ AtomCodec.of (.word .long) (-90) = .ok longs ∧
      Registry.nodeRegistry.writeAs (.sequence .list twoLongs) (.direct (.collection markers (.direct (.atom longs))))
        #[] = .ok () #[166, 166, 5, 167, 1, 44, 167] ∧
      (∀ rest : List UInt8, Registry.nodeRegistry.readAs (.direct (.collection markers (.direct (.atom longs))))
        ([166, 166, 5, 167, 1, 44, 167] ++ rest) =
          .ok (.sequence .list [.atom (.word .long 5)]) ([1, 44, 167] ++ rest)) ∧
      .collection markers .any ∈ Registry.nodeRegistry.codecs ∧
      ∀ (value : Value) (output written : Output), Registry.nodeRegistry.write value output = .ok () written →
        ∃ bytes : List UInt8, written = output ++ bytes ∧ bytes.head? ≠ some 167 := by
  let longs : AtomCodec := ⟨.word .long, ⟨-90, 8, by decide, by decide⟩⟩
  let part : Element := .direct (.atom longs)
  have hmarkers : MarkerRange.of (-90) 2 = .ok ⟨-90, 2, by decide, by decide⟩ := rfl
  obtain ⟨htyped, hcodings, huntyped⟩ := collection_ends Registry.reachable_nodeRegistry hmarkers
  obtain ⟨hwrites, hreads⟩ := hcodings part twoLongs
  have hwrite : Registry.nodeRegistry.writeAs (.sequence .list twoLongs)
      (.direct (.collection ⟨-90, 2, by decide, by decide⟩ part)) #[] = .ok () #[166, 166, 5, 167, 1, 44, 167] := rfl
  have hmem : Registry.nodeItems ∈ Registry.nodeRegistry.codecs := List.mem_iff_getElem?.2 ⟨1, rfl⟩
  refine ⟨Registry.reachable_nodeRegistry, _, longs, hmarkers, rfl, hwrite, fun rest => ?_, hmem, (huntyped hmem).1⟩
  have hfaithful : ∀ item ∈ twoLongs, (TypedCodec.ofElement Registry.nodeRegistry part).Faithful item := by
    have hatom (atom : Atom) := @TypedCodec.faithful_atom Registry.nodeRegistry _ longs (by decide) rfl atom
    simp only [twoLongs, List.forall_mem_cons]
    exact ⟨hatom _, hatom _, fun _ hmem => nomatch hmem⟩
  rw [hwrites] at hwrite
  obtain ⟨parts, hparts, -, -, hstop⟩ := htyped Value _ twoLongs #[] _ hfaithful hwrite
  have huniform (item : Value) := Registry.nodeRegistry.uniform_writeAs item part
  have hfive : Emits (Registry.nodeRegistry.writeAs (.atom (.word .long 5)) part) [166, 5] := Emits.markerAnd (-90) 5 1
  have hlong : Emits (Registry.nodeRegistry.writeAs (.atom (.word .long 300)) part) [167, 1, 44] :=
    Emits.markerAnd (-89) 300 2
  obtain rfl : parts = [[166, 5], [167, 1, 44]] := by
    obtain _ | ⟨hfirst, _ | ⟨hsecond, hnone⟩⟩ := hparts
    cases hnone
    rw [(hfirst.emits (huniform _)).unique hfive, (hsecond.emits (huniform _)).unique hlong]
  have hread := hstop 1 [1, 44] rfl (by decide) rest
  rw [hreads]
  exact bind_eq_ok_iff.2 ⟨_, _, hread, rfl⟩

end Bytemark
