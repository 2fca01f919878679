import Bytemark.Proofs.Reading.Tidy
import Bytemark.Proofs.RoundTrip.Values
import Bytemark.Record.Layout

/-!
# Markers and what follows them

The first byte of an encoded value says whose it is. Null is one byte for every codec; a codec puts one of its own
markers in front of everything else that it writes, fails on every marker that is neither null nor its own, and what it
reads after one of its own is a value of a type that it writes. Dispatch by the first byte, fields that are bound to a
codec, and the round trip all rest on this.

Each form of codec spends its markers in another way: on the bytes of a number, on the length of a text, on the tier of
a size, on the start of a run and its end. `Gated` is what the readers of all forms have in common. It only asks that a
codec claim as many markers as its form writes, none of them null's, so it does not matter where in the signed range the
markers lie, nor how the codec reads its parts.
-/

set_option autoImplicit false

namespace Bytemark

/-! ## Codecs that can be made -/

/-- The codecs that a program can put together in a registry: null's, those that it made by recipes, and the built-in
ones at any legal markers and over any codings of their parts. -/
inductive Codec.Constructible (made : List Codec) : Codec → Prop
  | null : Constructible made .null
  | made {codec : Codec} (h : codec ∈ made) : Constructible made codec
  | built {kind : Builtin} {base : Marker} {inline : Nat} {key part : Element} {codec : Codec}
      (h : kind.codecOf base inline key part = .ok codec) : Constructible made codec

/-- Codecs of built-in kinds are made legal, whatever they code their parts by. -/
theorem Builtin.legal_of_codecOf {kind : Builtin} {base : Marker} {inline : Nat} {key part : Element} {codec : Codec}
    (h : kind.codecOf base inline key part = .ok codec) : codec.Legal := by
  have hrange : ∀ {count : Nat} {make : MarkerRange → Codec},
      (∀ range : MarkerRange, range.base ≠ Marker.null → range.count = count → (make range).Legal) →
      (do return make (← MarkerRange.of base count)) = Except.ok codec → codec.Legal := by
    intro count make hmake hok
    obtain ⟨range, hof, hpure⟩ := answer_bind_eq_ok_iff.1 hok
    cases hpure
    obtain ⟨hbase, hcount⟩ := MarkerRange.legal_of_eq_ok hof
    exact hmake range hbase hcount
  cases kind with
  | atom type =>
    obtain ⟨codec, hof, hpure⟩ := answer_bind_eq_ok_iff.1 h
    cases hpure
    obtain ⟨-, hbase, hcount⟩ := AtomCodec.legal_of_eq_ok hof
    exact .atom hbase hcount
  | sequence kind => exact hrange (fun _ => .sequence) h
  | map => exact hrange (fun _ => .map) h
  | collection => exact hrange (fun _ => .collection) h

/-- Whatever a recipe makes is a built-in codec or one of a single marker. The items of arrays are never coded
directly. -/
theorem Recipe.cases_make {registry next : Registry} {recipe : Recipe} {codec : Codec}
    (h : recipe.make registry = .ok codec next) :
    (∃ kind base inline, Builtin.codecOf kind base inline .any .any = .ok codec) ∨
    (∃ markers type variants, markers.base ≠ Marker.null ∧ codec = .enumeration markers type variants) ∨
    (∃ markers type part, markers.base ≠ Marker.null ∧ (∀ inner, part ≠ .direct inner) ∧
      codec = .array markers type part) ∨
    ∃ markers type fresh fields, markers.base ≠ Marker.null ∧ codec = .record markers type fresh fields := by
  cases recipe with
  | builtin kind base inline => exact .inl ⟨kind, base, inline, (ofExcept_eq_ok_iff.1 h).1⟩
  | enumeration marker type variants =>
    have hmake := (ofExcept_eq_ok_iff.1 h).1
    unfold Codec.ofVariants at hmake
    split at hmake
    · obtain ⟨range, hof, hpure⟩ := answer_bind_eq_ok_iff.1 hmake
      cases hpure
      exact .inr (.inl ⟨range, type, variants, (MarkerRange.legal_of_eq_ok hof).1, rfl⟩)
    · cases hmake
  | array marker type =>
    obtain ⟨element, _, helement, hrest⟩ := bind_eq_ok_iff.1 h
    obtain ⟨range, _, hrange, hpure⟩ := bind_eq_ok_iff.1 hrest
    cases hpure
    have hbase := (MarkerRange.legal_of_eq_ok (ofExcept_eq_ok_iff.1 hrange).1).1
    refine .inr (.inr (.inl ⟨range, type, element, hbase, ?_, rfl⟩))
    unfold Codec.itemElement at helement
    split at helement
    · cases helement
      exact nofun
    · obtain ⟨_, _, -, hboxed⟩ := bind_eq_ok_iff.1 helement
      cases hboxed
      exact nofun
  | record plan =>
    change plan.build registry = _ at h
    unfold Plan.build at h
    cases hfresh : plan.fresh with
    | none =>
      rw [hfresh] at h
      cases h
    | some fresh =>
      rw [hfresh] at h
      obtain ⟨range, _, hrange, hmarked⟩ := bind_eq_ok_iff.1 h
      obtain ⟨_, _, -, hbind⟩ := bind_eq_ok_iff.1 hmarked
      obtain ⟨fields, _, -, hpure⟩ := bind_eq_ok_iff.1 hbind
      cases hpure
      have hbase := (MarkerRange.legal_of_eq_ok (ofExcept_eq_ok_iff.1 hrange).1).1
      exact .inr (.inr (.inr ⟨range, plan.type, fresh, fields, hbase, rfl⟩))

/-- What holds of all that recipes make holds of the codecs that were made, whatever has happened since. -/
theorem Registry.Reachable.forall_made {P : Codec → Prop}
    (hmake : ∀ {recipe : Recipe} {registry next : Registry} {codec : Codec},
      recipe.make registry = .ok codec next → P codec)
    {registry : Registry} {made : List Codec} (h : Registry.Reachable registry made) : ∀ codec ∈ made, P codec := by
  induction h with
  | empty => exact fun _ hmem => nomatch hmem
  | lookup _ _ ih => exact ih
  | make _ hmade ih => exact List.forall_mem_cons.2 ⟨hmake hmade, ih⟩
  | fail _ _ ih => exact ih
  | register _ _ ih => exact ih

/-- Every recipe makes legal codecs. -/
theorem Recipe.legal_make {registry next : Registry} {recipe : Recipe} {codec : Codec}
    (h : recipe.make registry = .ok codec next) : codec.Legal := by
  rcases Recipe.cases_make h with ⟨kind, base, inline, hbuiltin⟩ | ⟨_, _, _, hbase, rfl⟩ | ⟨_, _, _, hbase, -, rfl⟩ |
    ⟨_, _, _, _, hbase, rfl⟩
  · exact Builtin.legal_of_codecOf hbuiltin
  · exact .enumeration hbase
  · exact .array hbase
  · exact .record hbase

/-- Every codec that was made claims what its form writes, and goes on doing so. -/
theorem Registry.Reachable.legal {registry : Registry} {made : List Codec} (h : Registry.Reachable registry made) :
    ∀ codec ∈ made, codec.Legal := h.forall_made Recipe.legal_make

/-- Whatever can be constructed is legal. -/
theorem Codec.Constructible.legal {registry : Registry} {made : List Codec} {codec : Codec}
    (h : codec.Constructible made) (hreachable : Registry.Reachable registry made) : codec.Legal := by
  cases h with
  | null => exact .null
  | made hmem => exact hreachable.legal codec hmem
  | built hcodec => exact Builtin.legal_of_codecOf hcodec

/-! ## Readers behind markers -/

/-- The reader fails on every marker that is neither null nor one of the given ones, having consumed just the marker,
and what it gives after any marker but null satisfies the predicate. -/
structure Gated {α : Type} (markers : MarkerRange) (target : String) (P : α → Prop) (read : Read α) : Prop where
  refuses : ∀ marker tail, marker ≠ Marker.null → marker ∉ markers →
    read (marker.toByte :: tail) = .error (.decode target marker) tail
  yields : ∀ marker, marker ≠ Marker.null → Yields P fun tail => read (marker.toByte :: tail)

namespace Gated

variable {α β : Type} {markers : MarkerRange} {target : String} {P : α → Prop} {Q : β → Prop}

/-- A reader that takes the marker itself is judged by what it does with each marker. -/
theorem marker {next : Marker → Read α}
    (hforeign : ∀ marker tail, marker ≠ Marker.null → marker ∉ markers →
      next marker tail = .error (.decode target marker) tail)
    (hown : ∀ marker, marker ≠ Marker.null → Yields P (next marker)) :
    Gated markers target P (Input.marker >>= next) := by
  have htake : ∀ (marker : Marker) (tail : Input),
      (Input.marker >>= next) (marker.toByte :: tail) = next marker tail := by
    intro marker tail
    simp [bind, EStateM.bind, Input.marker]
  refine ⟨fun marker tail hnull hmem => ?_, fun marker hnull tail rest a hok => ?_⟩
  · rw [htake]
    exact hforeign marker tail hnull hmem
  · exact hown marker hnull ((htake marker tail).symm.trans hok)

/-- What comes later changes nothing about the markers that are refused. -/
theorem bind {read : Read α} {next : α → Read β} (h : Gated markers target P read)
    (hnext : ∀ a, P a → Yields Q (next a)) : Gated markers target Q (read >>= next) := by
  refine ⟨fun marker tail hnull hmem => ?_, fun marker hnull tail rest b hok => ?_⟩
  · simp only [Bind.bind, EStateM.bind, h.refuses marker tail hnull hmem]
  · obtain ⟨a, mid, hread, hrest⟩ := bind_eq_ok_iff.1 hok
    exact hnext a (h.yields marker hnull hread) hrest

end Gated

variable {nested : Element → Read Value}

/-- A marker outside the run is at no distance from its base. -/
theorem MarkerRange.offset?_of_not_mem {range : MarkerRange} {marker : Marker} (h : marker ∉ range) :
    range.offset? marker = none := if_neg h

/-- An opening marker gates the content: only null's marker is read otherwise. -/
theorem MarkerRange.gated_opening {P : Value → Prop} {content : Read Value} (h : Yields P content) (range : MarkerRange)
    (target : String) : Gated range target P (range.opening target content) := by
  refine .marker (fun marker tail hnull hmem => ?_) fun marker hnull => ?_
  · have hbase : marker ≠ range.base := fun heq => hmem (heq ▸ range.base_mem)
    rw [if_neg hnull, if_pos hbase]
    rfl
  · rw [if_neg hnull]
    dsimp only
    split
    · exact .bind (.throw _) fun _ (_ : True) => h
    · exact h

/-- The tiers of a size are the markers of the codec that counts by it. -/
theorem Size.gated_read {range : MarkerRange} (hcount : range.count = Size.markers) (target : String) :
    Gated range target (fun size => ∃ count, size = some count) (Size.read range.base target) := by
  refine .marker (fun marker tail hnull hmem => ?_) fun marker hnull => ?_
  · rw [MarkerRange.mem_iff, hcount] at hmem
    have htier : ¬ (0 ≤ marker.toInt - range.base.toInt ∧ marker.toInt - range.base.toInt < Size.markers) := by omega
    rw [if_neg hnull]
    simp only [readPayload, if_neg htier]
    rfl
  · rw [if_neg hnull]
    exact (Yields.any _).bind fun size _ => .pure ⟨size, rfl⟩

/-- The markers of a size gate what is counted. -/
theorem Size.gated_counted {α : Type} {range : MarkerRange} (hcount : range.count = Size.markers) (target : String)
    (payload : Nat → Read α) :
    Gated range target (fun answer => ∃ a, answer = some a) (Size.counted range.base target payload) := by
  refine (gated_read hcount target).bind ?_
  rintro _ ⟨count, rfl⟩
  exact (Yields.any _).bind fun a _ => .pure ⟨a, rfl⟩

/-- The markers of a range gate a number in its shortest form. -/
theorem Shortest.gated_read (range : MarkerRange) (target : String) :
    Gated range target (fun answer => ∃ number, answer = some number) (Shortest.read range target) := by
  refine .marker (fun marker tail hnull hmem => ?_) fun marker hnull => ?_
  · rw [if_neg hnull, MarkerRange.offset?_of_not_mem hmem]
    rfl
  · rw [if_neg hnull]
    cases range.offset? marker with
    | some offset => exact (Yields.any _).bind fun number _ => .pure ⟨number, rfl⟩
    | none => exact .throw _

/-! ## The codecs -/

/-- The markers of an atom's codec gate atoms of its type. -/
theorem AtomCodec.gated_read {codec : AtomCodec} (hcount : codec.markers.count = codec.form.count) :
    Gated codec.markers codec.name (fun answer => ∃ atom : Atom, answer = some atom ∧ atom.type = codec.form.type)
      codec.read := by
  obtain ⟨form, markers⟩ := codec
  have hmap : ∀ {α : Type} {read : Read (Option α)} {make : α → Atom}, (∀ a, (make a).type = form.type) →
      Gated markers (name ⟨form, markers⟩) (fun answer => ∃ a, answer = some a) read →
      Gated markers (name ⟨form, markers⟩) (fun answer => ∃ atom : Atom, answer = some atom ∧ atom.type = form.type) (do
        return (← read).map make) := by
    intro α read make hmake hread
    refine hread.bind ?_
    rintro _ ⟨a, rfl⟩
    exact .pure ⟨make a, rfl, hmake a⟩
  unfold read
  dsimp only at hcount ⊢
  cases form with
  | bool =>
    refine .marker (fun marker tail hnull hmem => ?_) fun marker hnull => ?_
    · rw [MarkerRange.offset?_of_not_mem hmem]
      dsimp only
      rw [if_neg hnull]
      rfl
    · cases markers.offset? marker with
      | some offset => exact .pure ⟨_, rfl, rfl⟩
      | none =>
        dsimp only
        rw [if_neg hnull]
        exact .throw _
  | char =>
    refine (Shortest.gated_read _ _).bind ?_
    rintro _ ⟨code, rfl⟩
    exact (Yields.any _).bind fun char _ => .pure ⟨_, rfl, rfl⟩
  | word kind => exact hmap (fun _ => rfl) (Shortest.gated_read _ _)
  | string inline =>
    have htext : ∀ length : Read Nat, Yields (fun answer => ∃ atom : Atom, answer = some atom ∧ atom.type = .string) (do
        return some (.string (String.ofList (← Utf8.read (← length))))) :=
      fun length => (Yields.any length).bind fun count _ => (Yields.any _).bind fun _ _ => .pure ⟨_, rfl, rfl⟩
    refine .marker (fun marker tail hnull hmem => ?_) fun marker hnull => ?_
    · rw [if_neg hnull, MarkerRange.offset?_of_not_mem hmem]
      rfl
    · rw [if_neg hnull]
      cases markers.offset? marker with
      | some offset =>
        dsimp only
        split
        · exact htext (pure offset)
        · exact htext _
      | none => exact htext (throw _)
  | bools => exact hmap (fun _ => rfl) (Size.gated_counted hcount _ _)
  | chars => exact hmap (fun _ => rfl) (Size.gated_counted hcount _ _)
  | words kind => cases kind <;> exact hmap (fun _ => rfl) (Size.gated_counted hcount _ _)

/-- A codec that claims what its form writes fails on foreign markers, with the marker and its own name, and what it
reads after a marker of its own is a value that it writes. -/
theorem Codec.gated_read [RecordEquality] {codec : Codec} (hlegal : codec.Legal) (nested : Element → Read Value) :
    Gated codec.markers codec.name (fun value => value ≠ .null ∧ codec.writes value.type) (codec.read nested) := by
  cases hlegal with
  | null =>
    refine .marker (fun marker tail hnull _ => ?_) fun marker hnull => ?_
    · rw [if_neg hnull, if_pos (show marker ≠ MarkerRange.null.base from hnull)]
      rfl
    · rw [if_neg hnull, if_pos (show marker ≠ MarkerRange.null.base from hnull)]
      exact .bind (.throw _) fun _ (h : False) => h.elim
  | atom _ hcount =>
    refine (AtomCodec.gated_read hcount).bind ?_
    rintro _ ⟨atom, rfl, htype⟩
    exact .pure ⟨Value.noConfusion, decide_eq_true (congrArg ValueType.atom htype)⟩
  | enumeration _ =>
    refine MarkerRange.gated_opening ((Yields.any _).bind fun ordinal _ => ?_) _ _
    split
    · exact .pure (by simp [writes, Value.type])
    · exact .throw _
  | @sequence _ kind _ _ hcount =>
    refine (Size.gated_counted hcount _ _).bind ?_
    rintro _ ⟨items, rfl⟩
    have htype := kind.type_collect items
    refine .pure ⟨fun hnull => ?_, decide_eq_true htype⟩
    rw [← Value.type_eq_null_iff] at hnull
    cases htype.symm.trans hnull
  | collection _ _ =>
    refine MarkerRange.gated_opening ((Yields.any _).bind fun items _ => .pure ?_) _ _
    simp [writes, Value.type]
  | map _ hcount =>
    refine (Size.gated_counted hcount _ _).bind ?_
    rintro _ ⟨entries, rfl⟩
    exact .pure (by simp [writes, Value.type])
  | @array markers type part _ =>
    refine MarkerRange.gated_opening ((Yields.any _).bind fun count _ => ?_) _ _
    have hitems : ∀ count, Yields (fun value : Value => value ≠ .null ∧ writes value.type (.array markers type part))
        (do return .array type (← Input.repeated count (nested part))) :=
      fun count => (Yields.any _).bind fun items _ => .pure (by simp [writes, Value.type])
    dsimp only
    split
    · exact (Yields.throw _).bind fun _ (_ : True) => hitems _
    · exact hitems _
  | record _ =>
    refine MarkerRange.gated_opening ((Yields.any _).bind fun slots _ => .pure ?_) _ _
    simp [writes, Value.type]

/-! ## The law -/

namespace Codec

open Registry

/-- Null is one byte for every codec that a program can put together, in every registry and at either coding that names
the codec. Whatever else the codec writes starts with one of its markers. It reads null from that one byte, fails on
every marker that is neither null nor its own with the marker and its own name, and what it reads after a marker of its
own is not null and of a type that it writes. -/
theorem marker_discipline [RecordEquality] {registry : Registry} {made : List Codec}
    (hreachable : Reachable registry made) {codec : Codec} (hcodec : codec.Constructible made) {element : Element}
    (helement : element = .boxed codec ∨ element = .direct codec) :
    Emits (registry.writeAs .null element) [Marker.null.toByte] ∧
    (∀ value output written, value ≠ .null → registry.writeAs value element output = .ok () written →
      ∃ marker ∈ codec.markers, ∃ tail, written = output ++ (marker.toByte :: tail)) ∧
    (∀ tail, registry.readAs element (Marker.null.toByte :: tail) = .ok .null tail) ∧
    (∀ marker tail, marker ≠ Marker.null → marker ∉ codec.markers →
      registry.readAs element (marker.toByte :: tail) = .error (.decode codec.name marker) tail) ∧
    (∀ marker tail value rest, marker ≠ Marker.null → marker ∈ codec.markers →
      registry.readAs element (marker.toByte :: tail) = .ok value rest → value ≠ .null ∧ codec.writes value.type) := by
  have hlegal := hcodec.legal hreachable
  have hread : registry.readAs element = codec.read registry.readAs := by
    rcases helement with rfl | rfl
    · exact registry.readAs_boxed codec
    · exact registry.readAs_direct codec
  have hwriter : ∀ type, element.writer registry type = .ok codec := by
    rcases helement with rfl | rfl <;> exact fun _ => rfl
  have hgated := Codec.gated_read hlegal registry.readAs
  rw [hread]
  refine ⟨.marker _, fun value output written hvalue hok => ?_, Codec.decodes_null _ hlegal.base_ne_null,
    hgated.refuses, fun marker tail value rest hnull _ hok => hgated.yields marker hnull hok⟩
  obtain ⟨bytes, hemits, rfl⟩ := (registry.uniform_writeAs value element).emits_of_ok hok
  obtain ⟨marker, tail, rfl, hmarker⟩ := (encodes_of_emits hemits).startsIn hvalue (hwriter _) hlegal
  exact ⟨marker, hmarker, tail, rfl⟩

/-- The codec of strings with three inline lengths, at the end of the signed range. -/
def edgeStrings : Codec := .atom ⟨.string 3, ⟨121, 7, by decide, by decide⟩⟩

/-- The last seven markers are as good as any others: the markers of the tiers of a size are the last four of them, and
none is past 127. -/
theorem marker_discipline_edge :
    Reachable Registry.empty [edgeStrings] ∧ edgeStrings.Constructible [edgeStrings] ∧
    Emits (Registry.empty.writeAs .null (.boxed edgeStrings)) [Marker.null.toByte] ∧
    (∀ value output written, value ≠ .null →
      Registry.empty.writeAs value (.boxed edgeStrings) output = .ok () written →
      ∃ marker ∈ edgeStrings.markers, ∃ tail, written = output ++ (marker.toByte :: tail)) ∧
    (∀ tail, Registry.empty.readAs (.boxed edgeStrings) (Marker.null.toByte :: tail) = .ok .null tail) ∧
    (∀ tail, Registry.empty.readAs (.boxed edgeStrings) (Marker.toByte 120 :: tail) =
      .error (.decode "string" 120) tail) ∧
    (∀ tail value rest, Registry.empty.readAs (.boxed edgeStrings) (Marker.toByte 127 :: tail) = .ok value rest →
      value ≠ .null ∧ edgeStrings.writes value.type) := by
  have hreachable : Reachable Registry.empty [edgeStrings] :=
    Reachable.empty.make (show (Recipe.builtin (.atom .string) 121 3).make Registry.empty = _ from rfl)
  have hmade : edgeStrings.Constructible [edgeStrings] := .made List.mem_cons_self
  obtain ⟨hnull, hwrite, hread, hforeign, hown⟩ := marker_discipline hreachable hmade (.inl rfl)
  exact ⟨hreachable, hmade, hnull, hwrite, hread, fun tail => hforeign 120 tail (by decide) (by decide),
    fun tail value rest => hown 127 tail value rest (by decide) (by decide)⟩

end Codec

end Bytemark
