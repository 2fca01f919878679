import Bytemark.Proofs.Comparing.Upholding
import Bytemark.Proofs.Reading.Owned
import Bytemark.Proofs.RoundTrip.Law

/-!
# Typed containers

A container may be bound to one codec for its parts, which spares it a look-up for each of them. The codec comes from
the registry that the container is used with: it is a registered one, or a built-in one that was asked for by its kind.

Such a container agrees with the one that is bound to none. It writes the same, if every part is one that the registry
would have given to the same codec; null, which needs no codec, is allowed where a part may be null. It reads nothing
that the other does not read in the same way, because the codec of a part can be found again by the part's first byte.
-/

set_option autoImplicit false

namespace Bytemark

/-- The type of the values that are coded directly by codecs of the kind. -/
def Builtin.valueType : Builtin → ValueType
  | atom type => .atom type
  | sequence kind => .sequence kind
  | map => .map
  | collection => .sequence .list

/-- A coding of parts that a program takes from a registry: by whatever codec it has, or by one of its codecs, which
codes parts directly only if it is built in. -/
inductive Element.TakenFrom (registry : Registry) : Element → Prop
  | any : TakenFrom registry .any
  | boxed {codec : Codec} (hcodec : codec ∈ registry.codecs) : TakenFrom registry (.boxed codec)
  | direct {codec : Codec} (hcodec : codec ∈ registry.codecs) (hbuiltin : codec.builtin?.isSome) :
      TakenFrom registry (.direct codec)

/-- The registry has the codec of the coding for the part. A part that is coded directly is of the codec's own kind. -/
def Element.Suits (registry : Registry) (part : Value) : Element → Prop
  | any => True
  | boxed codec => part = .null ∨ registry.codecForType part.type = .ok codec
  | direct codec =>
    registry.codecForType part.type = .ok codec ∧ codec.builtin?.map Builtin.valueType = some part.type

/-- Keys of a map suit the first coding, and all other parts of a container the second. -/
def Value.PartsSuit (registry : Registry) (key part : Element) : Value → Prop
  | .sequence _ items => ∀ item ∈ items, part.Suits registry item
  | .map entries => ∀ entry ∈ entries, key.Suits registry entry.1 ∧ part.Suits registry entry.2
  | _ => True

open Registry

variable {registry : Registry} {key part : Element}

/-! ## Writing -/

/-- How a value is coded matters to its writer only in which codec it names, and in whether a codec of collections
named so takes sequences of the value's kind. -/
theorem Registry.writeAs_congr [RecordEquality] {value : Value} {element element' : Element}
    (hwriter : element.writer registry value.type = element'.writer registry value.type)
    (hcollects : ∀ kind markers part, value.type = .sequence kind →
      element.writer registry value.type = .ok (.collection markers part) →
        element.collects kind = element'.collects kind) :
    registry.writeAs value element = registry.writeAs value element' := by
  cases value with
  | null => rfl
  | sequence kind items =>
    simp only [Value.type] at hwriter hcollects
    unfold writeAs
    rw [← hwriter]
    cases hcodec : element.writer registry (.sequence kind) with
    | error e => rfl
    | ok codec =>
      cases codec with
      | collection markers part =>
        have hsame := hcollects kind markers part rfl hcodec
        simp only [hsame]
      | _ => rfl
  | _ =>
    unfold writeAs
    simp only [Value.type] at hwriter
    rw [hwriter]

/-- A part that suits its coding is written as the registry would write it. -/
theorem Element.Suits.writeAs_eq [RecordEquality] {value : Value} (h : part.Suits registry value) :
    registry.writeAs value part = registry.writeAs value .any := by
  cases part with
  | any => rfl
  | boxed codec =>
    rcases h with rfl | hcodec
    · rfl
    · exact writeAs_congr hcodec.symm fun kind markers part _ _ => rfl
  | direct codec =>
    obtain ⟨hcodec, hkind⟩ := h
    refine writeAs_congr hcodec.symm fun kind markers part htype hcollection => ?_
    -- Of the sequences, a codec of collections takes lists alone when it is named directly.
    cases hcollection
    rw [htype] at hkind
    cases hkind
    rfl

/-- What a container bound to codings of its parts is, next to the container that is bound to none. -/
theorem Builtin.codecOf_cases {kind : Builtin} {base : Marker} {inline : Nat} {typed : Codec}
    (h : kind.codecOf base inline key part = .ok typed) :
    kind.codec base inline = .ok typed ∨
    (∃ markers sequence, typed = .sequence markers sequence part ∧
      kind.codec base inline = .ok (.sequence markers sequence .any)) ∨
    (∃ markers, typed = .collection markers part ∧ kind.codec base inline = .ok (.collection markers .any)) ∨
    ∃ markers, typed = .map markers key part ∧ kind.codec base inline = .ok (.map markers .any .any) := by
  unfold Builtin.codec
  cases kind with
  | atom type => exact .inl h
  | sequence kind =>
    obtain ⟨markers, hmarkers, hpure⟩ := answer_bind_eq_ok_iff.1 h
    cases hpure
    exact .inr (.inl ⟨markers, kind, rfl, answer_bind_eq_ok_iff.2 ⟨markers, hmarkers, rfl⟩⟩)
  | collection =>
    obtain ⟨markers, hmarkers, hpure⟩ := answer_bind_eq_ok_iff.1 h
    cases hpure
    exact .inr (.inr (.inl ⟨markers, rfl, answer_bind_eq_ok_iff.2 ⟨markers, hmarkers, rfl⟩⟩))
  | map =>
    obtain ⟨markers, hmarkers, hpure⟩ := answer_bind_eq_ok_iff.1 h
    cases hpure
    exact .inr (.inr (.inr ⟨markers, rfl, answer_bind_eq_ok_iff.2 ⟨markers, hmarkers, rfl⟩⟩))

/-- Only codecs of collections delimit their elements. -/
theorem Builtin.eq_collection {kind : Builtin} {base : Marker} {inline : Nat} {markers : MarkerRange}
    (h : kind.codec base inline = .ok (.collection markers part)) : kind = .collection := by
  cases kind with
  | collection => rfl
  | _ =>
    obtain ⟨made, -, hpure⟩ := answer_bind_eq_ok_iff.1 h
    cases hpure

/-- Elements that suit their coding are written as any elements are. -/
theorem Registry.writeItems_eq_of_suits [RecordEquality] {items : List Value}
    (h : ∀ item ∈ items, part.Suits registry item) :
    registry.writeItems items part = registry.writeItems items .any := by
  induction items with
  | nil => rfl
  | cons item items ih =>
    rw [writeItems, writeItems, (h item List.mem_cons_self).writeAs_eq,
      ih fun item hitem => h item (List.mem_cons_of_mem _ hitem)]

/-- Keys and values that suit their codings are written as any entries are. -/
theorem Registry.writeEntries_eq_of_suits [RecordEquality] {entries : List (Value × Value)}
    (h : ∀ entry ∈ entries, key.Suits registry entry.1 ∧ part.Suits registry entry.2) :
    registry.writeEntries entries key part = registry.writeEntries entries .any .any := by
  induction entries with
  | nil => rfl
  | cons entry entries ih =>
    obtain ⟨hkey, hvalue⟩ := h entry List.mem_cons_self
    rw [writeEntries, writeEntries, hkey.writeAs_eq, hvalue.writeAs_eq,
      ih fun entry hentry => h entry (List.mem_cons_of_mem _ hentry)]

/-- A codec of sequences that codes suitable elements in one way writes what the plain one writes. -/
theorem Registry.writeAs_sequence_eq [RecordEquality] {value : Value} (h : value.PartsSuit registry key part)
    (markers : MarkerRange) (kind : SequenceKind) : registry.writeAs value (.direct (.sequence markers kind part)) =
      registry.writeAs value (.direct (.sequence markers kind .any)) := by
  cases value with
  | sequence kind' items =>
    unfold writeAs
    show (if kind' = kind then _ else _) = (if kind' = kind then _ else _)
    rw [writeItems_eq_of_suits h]
    rfl
  | _ => rfl

/-- A codec of collections that codes suitable elements in one way writes what the plain one writes. -/
theorem Registry.writeAs_collection_eq [RecordEquality] {value : Value} (h : value.PartsSuit registry key part)
    (markers : MarkerRange) :
    registry.writeAs value (.direct (.collection markers part)) =
      registry.writeAs value (.direct (.collection markers .any)) := by
  cases value with
  | sequence kind items =>
    unfold writeAs
    show (if _ then _ else _) = (if _ then _ else _)
    rw [writeItems_eq_of_suits h]
    rfl
  | _ => rfl

/-- A codec of maps that codes suitable entries in one way writes what the plain one writes. -/
theorem Registry.writeAs_map_eq [RecordEquality] {value : Value} (h : value.PartsSuit registry key part)
    (markers : MarkerRange) :
    registry.writeAs value (.direct (.map markers key part)) =
      registry.writeAs value (.direct (.map markers .any .any)) := by
  cases value with
  | map entries =>
    unfold writeAs
    show (Size.write _ _ >>= fun _ => _) = (Size.write _ _ >>= fun _ => _)
    rw [writeEntries_eq_of_suits h]
  | _ => rfl

/-- The values of just the kind that a codec codes are written alike by the codec, whichever way it is named. -/
theorem Registry.writeAs_direct_eq [RecordEquality] {kind : Builtin} {base : Marker} {inline : Nat} {codec : Codec}
    (hcodec : kind.codec base inline = .ok codec) (value : Value) (htype : value.type = kind.valueType) :
    registry.writeAs value (.direct codec) = registry.writeAs value (.boxed codec) := by
  refine writeAs_congr rfl fun sequence markers part hsequence hcollection => ?_
  cases hcollection
  rw [hsequence] at htype
  obtain rfl := Builtin.eq_collection hcodec
  cases htype
  rfl

/-! ## Reading -/

/-- A built-in codec that was asked for by its kind is one of the registry's. -/
theorem Registry.Sound.takenFrom_of_lookupKind (hsound : registry.Sound) {kind : Builtin} {type : ValueType}
    {codec : Codec} {next : Registry} (h : lookupKind kind type registry = .ok codec next) :
    Element.TakenFrom registry (.direct codec) := by
  obtain ⟨found, looked, hlookup, hrest⟩ := bind_eq_ok_iff.1 h
  split at hrest
  · rename_i hkind
    cases hrest
    rcases hsound.known (lookup_eq_ok_iff.1 hlookup).1 with ⟨-, rfl⟩ | ⟨hmem, -⟩
    · cases hkind
    · exact .direct hmem (Option.isSome_iff_exists.2 ⟨kind, hkind⟩)
  · cases hrest

/-- Whatever is read by a coding that was taken from the registry, the registry reads by the first byte. -/
theorem Registry.Sound.upholds_readAs [RecordEquality] (hsound : registry.Sound) (hpart : part.TakenFrom registry) :
    Upholds (fun _ => True) (registry.readAs part) (registry.readAs .any) := by
  have hnamed : ∀ {codec}, codec ∈ registry.codecs →
      Upholds (fun _ => True) (registry.readAs (.boxed codec)) (registry.readAs .any) := by
    intro codec hmem input
    cases hread : registry.readAs (.boxed codec) input with
    | ok value rest => exact .inl (hsound.readAs_any_of_boxed hmem hread)
    | error e rest => exact .inr ⟨e, rest, trivial, rfl⟩
  cases hpart with
  | any => exact .refl _
  | boxed hmem => exact hnamed hmem
  | direct hmem _ =>
    rw [readAs_direct, ← readAs_boxed]
    exact hnamed hmem

/-- A part that is read into a container by a coding of the registry could be read by the first byte. Only a part that
is coded directly may not be null. -/
theorem Registry.Sound.upholds_readIn [RecordEquality] (hsound : registry.Sound) (hpart : part.TakenFrom registry)
    (target : String) :
    Upholds (fun _ => True) (part.readIn registry.readAs target) (Element.any.readIn registry.readAs target) := by
  refine (hsound.upholds_readAs hpart).bind fun value input => ?_
  by_cases hnull : value.isNull ∧ ¬ part.admitsNull
  · exact .inr ⟨_, _, trivial, by rw [if_pos hnull]; rfl⟩
  · rw [if_neg hnull, if_neg (by simp [Element.admitsNull])]
    exact .inl rfl

section Reading

variable (hsound : registry.Sound) (hpart : part.TakenFrom registry) (markers : MarkerRange)
include hsound hpart

/-- What a codec of sequences reads with one coding for the elements, the plain one reads too. -/
theorem Registry.Sound.upholds_sequence [RecordEquality] (kind : SequenceKind) :
    Upholds (fun _ => True) ((Codec.sequence markers kind part).read registry.readAs)
      ((Codec.sequence markers kind .any).read registry.readAs) :=
  (Upholds.counted (fun size => (hsound.upholds_readIn hpart kind.name).repeated size) _ _).bind fun _ => .refl _

/-- What a codec of collections reads with one coding for the elements, the plain one reads too. -/
theorem Registry.Sound.upholds_collection [RecordEquality] :
    Upholds (fun _ => True) ((Codec.collection markers part).read registry.readAs)
      ((Codec.collection markers .any).read registry.readAs) :=
  Upholds.opening (((hsound.upholds_readIn hpart "collection").readDelimited _).bind fun _ => .refl _) _ _

/-- What a codec of maps reads with one coding for keys and one for values, the plain one reads too. -/
theorem Registry.Sound.upholds_map [RecordEquality] (hkey : key.TakenFrom registry) :
    Upholds (fun _ => True) ((Codec.map markers key part).read registry.readAs)
      ((Codec.map markers .any .any).read registry.readAs) := by
  refine (Upholds.counted (fun size => Upholds.repeated ?_ size) _ _).bind fun _ => .refl _
  refine (hsound.upholds_readIn hkey "map key").bind fun read => ?_
  exact (hsound.upholds_readIn hpart "map value").bind fun _ => .refl _

end Reading

/-- Let a container be bound to codings of its parts that were taken from a reachable registry. Then the container that
is bound to none can be made at the same markers. Both write every value alike whose parts suit the codings; and
whatever bytes the first reads, the second reads as the same value, and takes as many of them. -/
theorem Builtin.typed_agrees [RecordEquality] (hreach : ∃ made, Reachable registry made) (hkey : key.TakenFrom registry)
    (hpart : part.TakenFrom registry) {kind : Builtin} {base : Marker} {inline : Nat} {typed : Codec}
    (htyped : kind.codecOf base inline key part = .ok typed) :
    ∃ untyped, kind.codec base inline = .ok untyped ∧
      (∀ value : Value, value.PartsSuit registry key part →
        registry.writeAs value (.direct typed) = registry.writeAs value (.direct untyped)) ∧
      (∀ value : Value, value.type = kind.valueType →
        registry.writeAs value (.direct untyped) = registry.writeAs value (.boxed untyped)) ∧
      ∀ input value rest, registry.readAs (.direct typed) input = .ok value rest →
        registry.readAs (.direct untyped) input = .ok value rest := by
  obtain ⟨made, hreach⟩ := hreach
  have hsound := hreach.sound.1
  have hread : ∀ {untyped : Codec},
      Upholds (fun _ => True) (typed.read registry.readAs) (untyped.read registry.readAs) →
      ∀ input value rest, registry.readAs (.direct typed) input = .ok value rest →
        registry.readAs (.direct untyped) input = .ok value rest := by
    intro untyped huphold input value rest hok
    rw [registry.readAs_eq] at hok ⊢
    exact huphold.ok hok
  rcases codecOf_cases htyped with
    hsame | ⟨markers, sequence, rfl, hcodec⟩ | ⟨markers, rfl, hcodec⟩ | ⟨markers, rfl, hcodec⟩
  · exact ⟨typed, hsame, fun _ _ => rfl, writeAs_direct_eq hsame, hread (.refl _)⟩
  · exact ⟨_, hcodec, fun value hvalue => writeAs_sequence_eq hvalue markers sequence, writeAs_direct_eq hcodec,
      hread (hsound.upholds_sequence hpart markers sequence)⟩
  · exact ⟨_, hcodec, fun value hvalue => writeAs_collection_eq hvalue markers, writeAs_direct_eq hcodec,
      hread (hsound.upholds_collection hpart markers)⟩
  · exact ⟨_, hcodec, fun value hvalue => writeAs_map_eq hvalue markers, writeAs_direct_eq hcodec,
      hread (hsound.upholds_map hpart markers hkey)⟩

/-- The codec of longs in the registry of records. -/
def Registry.nodeLongs : Codec := .atom ⟨.word .long, longMarkers⟩

set_option maxRecDepth 2000 in
/-- A map of numbered sequences, one of which is missing, whose keys are longs and whose values are collections. -/
theorem Builtin.typed_agrees_numbered :
    let typed : Codec := .map ⟨20, 4, by decide, by decide⟩ (.direct nodeLongs) (.boxed nodeItems)
    let value : Value := .map [(.atom (.word .long 5), .sequence .queue [.null]), (.atom (.word .long 6), .null)]
    value.PartsSuit nodeRegistry (.direct nodeLongs) (.boxed nodeItems) ∧
    ∃ untyped, map.codec 20 0 = .ok untyped ∧
      nodeRegistry.writeAs value (.direct typed) = nodeRegistry.writeAs value (.direct untyped) ∧
      nodeRegistry.writeAs value (.direct untyped) = nodeRegistry.writeAs value (.boxed untyped) ∧
      ∀ input value rest, nodeRegistry.readAs (.direct typed) input = .ok value rest →
        nodeRegistry.readAs (.direct untyped) input = .ok value rest := by
  intro typed value
  obtain ⟨made, hreach⟩ := reachable_nodeRegistry
  have hlookup : lookupKind (.atom (.word .long)) (.atom (.word .long)) nodeRegistry =
      .ok nodeLongs (nodeRegistry.remember (.atom (.word .long)) nodeLongs) := rfl
  have hkey := hreach.sound.1.takenFrom_of_lookupKind hlookup
  have hpart : Element.TakenFrom nodeRegistry (.boxed nodeItems) := .boxed (.tail _ (.head _))
  have hvalue : value.PartsSuit nodeRegistry (.direct nodeLongs) (.boxed nodeItems) := by
    refine List.forall_mem_cons.2 ⟨⟨⟨rfl, rfl⟩, .inr rfl⟩, List.forall_mem_singleton.2 ⟨⟨rfl, rfl⟩, .inl rfl⟩⟩
  have htyped : map.codecOf 20 0 (.direct nodeLongs) (.boxed nodeItems) = .ok typed := rfl
  obtain ⟨untyped, hcodec, hwrite, hboxed, hread⟩ := typed_agrees ⟨made, hreach⟩ hkey hpart htyped
  exact ⟨hvalue, untyped, hcodec, hwrite value hvalue, hboxed value rfl, hread⟩

end Bytemark
