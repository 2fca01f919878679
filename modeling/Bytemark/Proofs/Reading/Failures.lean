import Bytemark.Proofs.Coding.Discipline
import Bytemark.Proofs.RoundTrip.Law
import Mathlib.Tactic.ByContra

/-!
# Why reading fails

Bytes can be missing, or not fit what they are read as: a marker belongs to no codec or to another one, a payload is out
of range, a text is not UTF-8. Apart from that reading fails over one thing only, a null where there has to be a value:
an item of an array of words, or a field that is not optional.

What a field is read as always fits the field, unless it is null. A field is bound to a codec that writes values of its
type, a codec reads only what it writes, and the one codec that writes several types, that of collections, reads
sequences, which can be put into a field of any kind of sequence.

`Blames` says of a reader that its failures are the bytes' fault or failures of readers of parts. It is kept by putting
readers together; arrays of words and records are looked at by themselves.
-/

set_option autoImplicit false

namespace Bytemark

variable {α β : Type} {registry : Registry} {parts : Element → Prop}

/-! ## Failures that are the bytes' fault -/

/-- A failure that says that bytes are missing or do not fit what they are read as. -/
inductive Error.OfBytes : Error → Prop
  | decode (target : String) (marker : Marker) : OfBytes (.decode target marker)
  | underflow (needed available : Nat) : OfBytes (.underflow needed available)
  | unknownMarker (marker : Marker) : OfBytes (.unknownMarker marker)
  | invalidUtf8 (fault : Utf8Fault) : OfBytes (.invalidUtf8 fault)
  | invalidChar (code : Nat) : OfBytes (.invalidChar code)

/-- The codec that the element names, if it names one, is null's or registered. -/
def Element.Known (registry : Registry) : Element → Prop
  | any => True
  | boxed codec => codec = .null ∨ codec ∈ registry.codecs
  | direct codec => codec = .null ∨ codec ∈ registry.codecs

section Readers

variable [RecordEquality]

/-- What the reader leaves is the end of its input, and its failures are the bytes' fault or failures of readers of its
parts, from further on. -/
structure Blames (registry : Registry) (parts : Element → Prop) (read : Read α) : Prop where
  suffix {input rest : Input} {a : α} (h : read input = .ok a rest) : rest <:+ input
  cause {input left : Input} {e : Error} (h : read input = .error e left) :
    e.OfBytes ∨ ∃ element point, parts element ∧ point <:+ input ∧ registry.readAs element point = .error e left

namespace Blames

/-- What succeeds has no failure to explain. -/
theorem pure (a : α) : Blames registry parts (pure a : Read α) where
  suffix h := by
    cases h
    exact List.suffix_rfl
  cause h := nomatch h

/-- A failure over the bytes is the fault of the bytes. -/
theorem throw {e : Error} (he : e.OfBytes) : Blames registry parts (throw e : Read α) where
  suffix h := nomatch h
  cause h := by
    cases h
    exact .inl he

/-- Missing bytes are the fault of the bytes. -/
theorem underflow (needed : Nat) : Blames registry parts (Input.underflow needed : Read α) where
  suffix h := nomatch h
  cause h := by
    cases h
    exact .inl (.underflow _ _)

/-- Bytes are missing or they are read. -/
theorem bytes (count : Nat) : Blames registry parts (Input.bytes count) where
  suffix h := by
    obtain ⟨rfl, -⟩ := Input.bytes_eq_ok_iff.1 h
    exact List.suffix_append _ _
  cause {input left e} h := by
    unfold Input.bytes at h
    dsimp only at h
    split at h
    · cases h
    · exact (underflow count).cause h

/-- A marker is missing or it is read. -/
theorem marker : Blames registry parts Input.marker where
  suffix {input rest marker} h := by
    cases input with
    | nil => cases h
    | cons byte tail =>
      cases h
      exact List.suffix_cons _ _
  cause {input left e} h := by
    cases input with
    | nil => exact (underflow (α := Marker) 1).cause h
    | cons byte tail => cases h

/-- Looking ahead fails if there is nothing to look at. -/
theorem peek : Blames registry parts Input.peek where
  suffix {input rest marker} h := by
    cases input with
    | nil => cases h
    | cons byte tail =>
      cases h
      exact List.suffix_rfl
  cause {input left e} h := by
    cases input with
    | nil => exact (underflow (α := Marker) 1).cause h
    | cons byte tail => cases h

/-- A part that is read is all that has to be blamed. -/
theorem readAs {element : Element} (hpart : parts element) : Blames registry parts (registry.readAs element) where
  suffix h := by
    obtain ⟨front, rfl⟩ := (registry.delimited_readAs element).front h
    exact List.suffix_append _ _
  cause h := .inr ⟨element, _, hpart, List.suffix_rfl, h⟩

/-- Two readers in a row fail as one of them does, and the second is further on. -/
theorem bind {read : Read α} {next : α → Read β} (hread : Blames registry parts read)
    (hnext : ∀ a, Blames registry parts (next a)) : Blames registry parts (read >>= next) where
  suffix h := by
    obtain ⟨a, mid, hok, hrest⟩ := bind_eq_ok_iff.1 h
    exact ((hnext a).suffix hrest).trans (hread.suffix hok)
  cause h := by
    rcases bind_eq_error_iff.1 h with hfirst | ⟨a, mid, hok, hsecond⟩
    · exact hread.cause hfirst
    · refine ((hnext a).cause hsecond).imp_right ?_
      rintro ⟨element, point, hpart, hpoint, hfails⟩
      exact ⟨element, point, hpart, hpoint.trans (hread.suffix hok), hfails⟩

/-- A number fails over its bytes. -/
theorem signed (width : Nat) : Blames registry parts (Input.signed width) := (bytes width).bind fun _ => .pure _

/-- Repeated reads fail as the read of an item does. -/
theorem repeated {item : Read α} (h : Blames registry parts item) (count : Nat) :
    Blames registry parts (Input.repeated count item) := by
  suffices hrun : ∀ done : List α, Blames registry parts (Input.repeatOnto item count done) from hrun []
  induction count with
  | zero => exact fun done => .pure done.reverse
  | succ count ih =>
    intro done
    rw [Input.repeatOnto_succ]
    exact h.bind fun a => ih (a :: done)

/-- Elements up to a mark fail as one of them does, or over a missing mark. -/
theorem readUntil {item : Read Value} (h : Blames registry parts item) (last : Marker) (bound : Nat)
    (done : List Value) : Blames registry parts (readUntil last item bound done) := by
  induction bound generalizing done with
  | zero => exact .underflow 1
  | succ bound ih =>
    rw [readUntil_succ]
    refine peek.bind fun marker => ?_
    split
    · exact Blames.marker.bind fun _ => .pure _
    · exact h.bind fun value => ih (value :: done)

/-- Elements up to a mark fail as one of them does, or over a missing mark, whatever the bound. -/
theorem readDelimited {item : Read Value} (h : Blames registry parts item) (last : Marker) :
    Blames registry parts (readDelimited last item) where
  suffix hok := (h.readUntil last _ []).suffix hok
  cause herror := (h.readUntil last _ []).cause herror

/-- Where null is a part like any other, a part fails only if its reader does. -/
theorem readIn_any (hany : parts .any) (target : String) :
    Blames registry parts (Element.any.readIn registry.readAs target) := by
  refine (readAs hany).bind fun value => ?_
  rw [if_neg (by simp [Element.admitsNull])]
  exact .pure value

/-- The payload of a size fails over its bytes. -/
theorem readPayload (marker base : Marker) (target : String) :
    Blames registry parts (Size.readPayload marker base target) := by
  unfold Size.readPayload
  dsimp only
  split
  · refine (signed _).bind fun distance => ?_
    split
    · exact (throw (.decode _ _)).bind fun _ => .pure _
    · exact .pure _
  · exact .throw (.decode _ _)

/-- A text fails over its bytes. -/
theorem utf8 (count : Nat) : Blames registry parts (Utf8.read count) := by
  refine (bytes count).bind fun bytes => ?_
  cases Utf8.decode bytes with
  | ok chars => exact .pure chars
  | error fault => exact .throw (.invalidUtf8 fault)

/-- A number that is no character is the fault of the bytes. -/
theorem scalar (code : Int) : Blames registry parts (ofExcept (scalar code) : Read Char) := by
  unfold Bytemark.scalar
  dsimp only
  split
  · exact .pure _
  · exact .throw (.invalidChar _)

end Blames

/-- A part of what was to be read from `input` fails, from further on. -/
def PartFails (registry : Registry) (parts : Element → Prop) (input left : Input) (e : Error) : Prop :=
  ∃ element point, parts element ∧ point <:+ input ∧ point.length < input.length ∧
    registry.readAs element point = .error e left

/-- The reader takes a marker first, so its parts are behind it. -/
def BlamesBehind (registry : Registry) (parts : Element → Prop) (read : Read α) : Prop :=
  ∃ next : Marker → Read α, read = Input.marker >>= next ∧ ∀ marker, Blames registry parts (next marker)

namespace BlamesBehind

/-- What comes after a marker is behind it. -/
theorem marker {next : Marker → Read α} (h : ∀ marker, Blames registry parts (next marker)) :
    BlamesBehind registry parts (Input.marker >>= next) := ⟨next, rfl, h⟩

/-- What is behind a marker is further on. -/
theorem blames {read : Read α} (h : BlamesBehind registry parts read) : Blames registry parts read := by
  obtain ⟨next, rfl, hnext⟩ := h
  exact Blames.marker.bind hnext

/-- What comes after a reader that takes a marker is behind the marker as well. -/
theorem bind {read : Read α} {next : α → Read β} (h : BlamesBehind registry parts read)
    (hnext : ∀ a, Blames registry parts (next a)) : BlamesBehind registry parts (read >>= next) := by
  obtain ⟨first, rfl, hfirst⟩ := h
  rw [bind_assoc]
  exact marker fun marker => (hfirst marker).bind hnext

/-- A failure is the fault of the bytes, or that of a part further on. -/
theorem cause {read : Read α} (h : BlamesBehind registry parts read) {input left : Input} {e : Error}
    (herror : read input = .error e left) :
    e.OfBytes ∨ PartFails registry parts input left e := by
  obtain ⟨next, rfl, hnext⟩ := h
  cases input with
  | nil =>
    cases herror
    exact .inl (.underflow _ _)
  | cons byte tail =>
    refine ((hnext (Marker.ofByte byte)).cause herror).imp_right ?_
    rintro ⟨element, point, hpart, hpoint, hfails⟩
    exact ⟨element, point, hpart, hpoint.trans (List.suffix_cons _ _), Nat.lt_succ_of_le hpoint.length_le, hfails⟩

/-- The content is behind its opening marker. -/
theorem opening {content : Read Value} (h : Blames registry parts content) (markers : MarkerRange) (target : String) :
    BlamesBehind registry parts (markers.opening target content) := by
  refine marker fun marker => ?_
  dsimp only
  split
  · exact .pure _
  split
  · exact (Blames.throw (.decode _ _)).bind fun _ => h
  · exact h

/-- A size takes a marker first. -/
theorem readSize (base : Marker) (target : String) : BlamesBehind registry parts (Size.read base target) := by
  refine marker fun marker => ?_
  split
  · exact .pure none
  · exact (Blames.readPayload _ _ _).bind fun _ => .pure _

/-- What is counted is behind the marker of the size. -/
theorem counted {payload : Nat → Read α} (h : ∀ count, Blames registry parts (payload count)) (base : Marker)
    (target : String) : BlamesBehind registry parts (Size.counted base target payload) := by
  refine (readSize base target).bind fun size => ?_
  cases size with
  | some size => exact (h size).bind fun _ => .pure _
  | none => exact .pure none

/-- A number in its shortest form takes a marker first. -/
theorem shortest (range : MarkerRange) (target : String) :
    BlamesBehind registry parts (Shortest.read range target) := by
  refine marker fun marker => ?_
  split
  · exact .pure none
  · cases range.offset? marker with
    | some offset => exact (Blames.signed _).bind fun _ => .pure _
    | none => exact .throw (.decode _ _)

end BlamesBehind

/-- Apart from arrays of words that have markers of their own, an atom's reader fails over the bytes alone. -/
theorem AtomCodec.blames_read {codec : AtomCodec} (h : ∀ kind, codec.form = .words kind → kind = .byte) :
    BlamesBehind registry parts codec.read := by
  unfold AtomCodec.read
  dsimp only
  split
  · refine .marker fun marker => ?_
    cases codec.markers.offset? marker with
    | some offset => exact .pure _
    | none =>
      dsimp only
      split
      · exact .pure none
      · exact .throw (.decode _ _)
  · refine (BlamesBehind.shortest _ _).bind fun code => ?_
    cases code with
    | some code => exact (Blames.scalar code).bind fun _ => .pure _
    | none => exact .pure none
  · exact (BlamesBehind.shortest _ _).bind fun _ => .pure _
  · refine .marker fun marker => ?_
    split
    · exact .pure none
    · cases codec.markers.offset? marker with
      | some offset =>
        dsimp only
        split
        · exact (Blames.pure _).bind fun _ => (Blames.utf8 _).bind fun _ => .pure _
        · exact (Blames.readPayload _ _ _).bind fun _ => (Blames.utf8 _).bind fun _ => .pure _
      | none => exact (Blames.throw (.decode _ _)).bind fun _ => (Blames.utf8 _).bind fun _ => .pure _
  · exact (BlamesBehind.counted (fun count => (Blames.bytes _).bind fun _ => .pure _) _ _).bind fun _ => .pure _
  · exact (BlamesBehind.counted Blames.utf8 _ _).bind fun _ => .pure _
  · exact (BlamesBehind.counted Blames.bytes _ _).bind fun _ => .pure _
  · rename_i kind hbyte hform
    exact absurd (h kind hform) hbyte

end Readers

/-! ## Nulls -/

/-- What is read is null's answer for the null marker, or what a marker of the reader's own announces. -/
theorem Gated.cases_of_read {markers : MarkerRange} {target : String} {P : α → Prop} {read : Read α} {absent a : α}
    (hgated : Gated markers target P read) (hshortens : Shortens read)
    (hnull : Decodes read [Marker.null.toByte] absent) {input left : Input} (h : read input = .ok a left) :
    (a = absent ∧ input = Marker.null.toByte :: left) ∨ P a := by
  cases input with
  | nil => exact absurd (hshortens h) (Nat.not_lt_zero _)
  | cons byte tail =>
    by_cases hbyte : Marker.ofByte byte = Marker.null
    · obtain rfl : byte = Marker.null.toByte := by rw [← hbyte, Marker.toByte_ofByte]
      have hsame := h.symm.trans (hnull tail)
      injection hsame with ha hleft
      rw [hleft]
      exact .inl ⟨ha, rfl⟩
    · have hyields := hgated.yields _ hbyte
      rw [Marker.toByte_ofByte] at hyields
      exact .inr (hyields h)

/-- Only null's marker is read as no number. -/
theorem Shortest.eq_null_of_read {range : MarkerRange} {target : String} {input left : Input}
    (h : Shortest.read range target input = .ok none left) : input = Marker.null.toByte :: left := by
  have hopens : Opens (fun _ => Input.underflow 1) (fun _ => Input.underflow 1) (Shortest.read range target)
      (Shortest.read range target) := opens_shortest range target
  have hshortens : Shortens (Shortest.read range target) := hopens.shortens fun _ _ _ _ hok => nomatch hok
  rcases (Shortest.gated_read range target).cases_of_read hshortens (decodes_read_null _ _) h with
    ⟨-, hinput⟩ | ⟨number, hnumber⟩
  · exact hinput
  · cases hnumber

/-- A legal codec reads null from null's marker, and else a value of a type that it writes. -/
theorem Codec.cases_of_read [RecordEquality] {codec : Codec} (hlegal : codec.Legal) {input left : Input} {value : Value}
    (h : codec.read registry.readAs input = .ok value left) :
    (value = .null ∧ input = Marker.null.toByte :: left) ∨ (value ≠ .null ∧ codec.writes value.type) := by
  have hshortens : Shortens (codec.read registry.readAs) :=
    (codec.opens_read _ registry.readAs).shortens fun element => (registry.shortens_readAs element).neverGrows
  exact (Codec.gated_read hlegal registry.readAs).cases_of_read hshortens (decodes_null _ hlegal.base_ne_null) h

/-! ## Where a null has no place -/

/-- Reads fields of a record whose codec is `self`, one after the other, into slots. -/
def Field.readAll [RecordEquality] (nested : Element → Read Value) (self : Codec) (fields : List Field)
    (slots : List (String × Value)) :
    Read (List (String × Value)) :=
  fields.foldlM (fun slots field => do
    return setSlot slots field.info.target (← field.read nested self)) slots

/-- The codec, reading from `start`, comes to a null where it needs a value: as an item of an array of words, or as a
field that is not optional. What comes before has been read, and `left` is behind the null. The error is an unexpected
null in arrays and in fields that are coded directly, and a mismatch in fields that are coded by a registered codec, or
by the one that they belong to. -/
inductive Codec.StopsAtNull [RecordEquality] (registry : Registry) (left : Input) : Codec → Input → Error → Prop
  | item {kind : WordKind} {markers : MarkerRange} {start items : Input} {count : Nat} {before : List (Word kind)}
      (hkind : kind ≠ .byte)
      (hsize : Size.read markers.base (AtomType.words kind).name start = .ok (some count) items)
      (hbefore : Input.repeated before.length (AtomCodec.readWord kind (AtomType.words kind).name) items =
        .ok before (Marker.null.toByte :: left))
      (hmore : before.length < count) :
      StopsAtNull registry left (.atom ⟨.words kind, markers⟩) start (.unexpectedNull (AtomType.words kind).name)
  | direct {markers : MarkerRange} {type : String} {fresh slots : List (String × Value)} {before after : List Field}
      {field : Field} {codec : Codec} {content : Input}
      (hbefore : Field.readAll registry.readAs (.record markers type fresh (before ++ field :: after)) before fresh
        content = .ok slots (Marker.null.toByte :: left))
      (hbinding : field.binding = .through (.direct codec)) (hneeded : ¬ field.info.type.optional) :
      StopsAtNull registry left (.record markers type fresh (before ++ field :: after))
        (markers.base.toByte :: content) (.unexpectedNull field.info.name)
  | boxed {markers : MarkerRange} {type : String} {fresh slots : List (String × Value)} {before after : List Field}
      {field : Field} {content : Input}
      (hbefore : Field.readAll registry.readAs (.record markers type fresh (before ++ field :: after)) before fresh
        content = .ok slots (Marker.null.toByte :: left))
      (hbinding : field.binding = .self ∨ ∃ codec, field.binding = .through (.boxed codec))
      (hneeded : ¬ field.info.type.optional) :
      StopsAtNull registry left (.record markers type fresh (before ++ field :: after))
        (markers.base.toByte :: content) (.typeMismatch field.info.type.kind.text (.foreign .null))

/-- The fields of a record are read alike, one after the other. -/
theorem Alike.readAll [RecordEquality] {nested nested' : Element → Read Value} (self : Codec) (fields : List Field)
    (slots : List (String × Value)) :
    Alike nested nested' (Field.readAll nested self fields slots) (Field.readAll nested' self fields slots) :=
  .foldlM (fun _ field => .bind (.readField self field) fun _ => .pure _) fields slots

/-- A run fails at an item, after those before it have been read. -/
theorem Input.repeated_eq_error {item : Read α} {count : Nat} {input left : Input} {e : Error}
    (h : Input.repeated count item input = .error e left) :
    ∃ before point, Input.repeated before.length item input = .ok before point ∧ before.length < count ∧
      item point = .error e left := by
  suffices hrun : ∀ done : List α, Input.repeatOnto item count done input = .error e left →
      ∃ passed < count, ∃ before point, Input.repeatOnto item passed done input = .ok before point ∧
        item point = .error e left by
    obtain ⟨passed, hpassed, before, point, hbefore, hitem⟩ := hrun [] h
    obtain rfl := Input.length_of_repeated hbefore
    exact ⟨before, point, hbefore, hpassed, hitem⟩
  clear h
  induction count generalizing input with
  | zero => exact fun _ h => nomatch h
  | succ count ih =>
    intro done h
    rw [Input.repeatOnto_succ] at h
    rcases bind_eq_error_iff.1 h with hfirst | ⟨a, mid, hfirst, hrest⟩
    · exact ⟨0, Nat.zero_lt_succ _, _, _, rfl, hfirst⟩
    · obtain ⟨passed, hpassed, before, point, hbefore, hitem⟩ := ih _ hrest
      refine ⟨passed + 1, Nat.succ_lt_succ hpassed, before, point, ?_, hitem⟩
      rw [Input.repeatOnto_succ]
      exact bind_eq_ok_iff.2 ⟨a, mid, hfirst, hbefore⟩

/-- The fields of a record fail at one of them, after those before it have been read. -/
theorem Field.readAll_eq_error [RecordEquality] {nested : Element → Read Value} {self : Codec} {fields : List Field}
    {slots : List (String × Value)} {input left : Input} {e : Error}
    (h : Field.readAll nested self fields slots input = .error e left) :
    ∃ before field after, fields = before ++ field :: after ∧ ∃ slots' point,
      Field.readAll nested self before slots input = .ok slots' point ∧
        field.read nested self point = .error e left := by
  induction fields generalizing slots input with
  | nil => cases h
  | cons first fields ih =>
    unfold readAll at h
    rw [List.foldlM_cons] at h
    rcases bind_eq_error_iff.1 h with hfirst | ⟨next, mid, hfirst, hrest⟩
    · rcases bind_eq_error_iff.1 hfirst with hread | ⟨_, _, _, hpure⟩
      · exact ⟨[], first, fields, rfl, slots, input, rfl, hread⟩
      · cases hpure
    · obtain ⟨before, field, after, rfl, slots', point, hbefore, hread⟩ := ih hrest
      refine ⟨first :: before, field, after, rfl, slots', point, ?_, hread⟩
      unfold readAll
      rw [List.foldlM_cons]
      exact bind_eq_ok_iff.2 ⟨next, mid, hfirst, hbefore⟩

/-! ## Fields -/

/-- Whatever is put into a field is a value that the field may hold. -/
theorem FieldType.holds_of_convert [RecordEquality] {type : FieldType} {value fitted : Value}
    (h : type.convert value = .ok fitted) :
    type.Holds fitted := by
  by_cases hnull : type.optional ∧ value.isNull
  · unfold convert at h
    rw [if_pos hnull] at h
    cases h
    exact .inl ⟨hnull.1, rfl⟩
  · unfold convert at h
    rw [if_neg hnull] at h
    -- The branches in the middle put a sequence into a field of sequences.
    split at h
    · exact .inr (.inl ‹_›)
    · cases h
      exact .inr (.inr (by rw [‹type.kind = _›]; rfl))
    · cases h
      exact .inr (.inr (by rw [‹type.kind = _›]; rfl))
    · cases h
      exact .inr (.inr (by rw [‹type.kind = _›]; rfl))
    · split at h
      · cases h
        exact .inr (.inr ‹_›)
      · cases h

/-- A field that needs a value, and one of its own type, refuses null. -/
theorem FieldType.convert_null_of_needed [RecordEquality] {type : FieldType} (hneeded : ¬ type.optional)
    (hany : type.kind ≠ .any) :
    type.convert .null = .error (.typeMismatch type.kind.text (.foreign .null)) := by
  unfold convert
  rw [if_neg fun hnull => hneeded hnull.1]
  split
  · exact absurd ‹_› hany
  · rename_i hvalue
    cases hvalue
  · rename_i hvalue
    cases hvalue
  · rename_i hvalue
    cases hvalue
  · rw [if_neg fun heq => type.kind.valueType_ne_null heq.symm]
    rfl

/-- Only a field that needs a value refuses null, and only if it cannot hold values of every type. -/
theorem FieldType.convert_null_eq_error [RecordEquality] {type : FieldType} {e : Error}
    (h : type.convert .null = .error e) :
    ¬ type.optional ∧ type.kind ≠ .any ∧ e = .typeMismatch type.kind.text (.foreign .null) := by
  have hany : type.kind ≠ .any := fun hany => nomatch h.symm.trans (convert_of_any hany)
  have hneeded : ¬ type.optional := fun hoptional => nomatch h.symm.trans (convert_null hoptional)
  rw [convert_null_of_needed hneeded hany] at h
  exact ⟨hneeded, hany, (Except.error.inj h).symm⟩

/-- A codec writes one type, or the three types of sequences. -/
theorem Codec.eq_or_sequences_of_writes {codec : Codec} {one other : ValueType} (hone : codec.writes one)
    (hother : codec.writes other) :
    one = other ∨ (∃ kind, one = .sequence kind) ∧ ∃ kind, other = .sequence kind := by
  have hsequence : ∀ {type}, (type = .sequence .list ∨ type = .sequence .set ∨ type = .sequence .queue) →
      ∃ kind, type = ValueType.sequence kind := by
    rintro type (rfl | rfl | rfl) <;> exact ⟨_, rfl⟩
  cases codec with
  | collection markers part =>
    exact .inr ⟨hsequence (of_decide_eq_true hone), hsequence (of_decide_eq_true hother)⟩
  | _ => exact .inl ((of_decide_eq_true hone).trans (of_decide_eq_true hother).symm)

/-- What a codec reads can be put into every field whose type the codec writes. -/
theorem FieldType.convert_of_writes [RecordEquality] {type : FieldType} {codec : Codec} {value : Value}
    (hfield : codec.writes type.kind.valueType) (hvalue : codec.writes value.type) :
    ∃ fitted, type.convert value = .ok fitted := by
  rcases Codec.eq_or_sequences_of_writes hvalue hfield with hsame | ⟨⟨kind', hkind'⟩, kind, hkind⟩
  · exact ⟨value, convert_of_type hsame⟩
  · have hsequence : type.kind = .sequence kind := by
      cases hfound : type.kind <;> rw [hfound] at hkind <;> cases hkind
      rfl
    exact convert_sequence hsequence hkind'

/-- A field that cannot hold values of every type is coded by a codec that writes values of its type. -/
theorem Binding.Fits.known {binding : Binding} {self : Codec} {building : ValueType} {kind : FieldKind}
    (hsound : registry.Sound) (hfits : binding.Fits registry building kind)
    (hself : self.Legal ∧ self.writes building) :
    (binding = .through .any ∧ kind = .any) ∨
      ∃ codec, (binding.resolve self = .boxed codec ∨ binding.resolve self = .direct codec) ∧ codec.Legal ∧
        codec.writes kind.valueType := by
  have hanswer : ∀ {codec}, registry.codecForType kind.valueType = .ok codec →
      codec.Legal ∧ codec.writes kind.valueType := by
    intro codec hcodec
    rcases hsound.known hcodec with ⟨hnull, -⟩ | ⟨hmem, hwrites⟩
    · exact absurd hnull kind.valueType_ne_null
    · exact ⟨hsound.legal hmem, hwrites⟩
  cases binding with
  | self =>
    have hbuilding : kind.valueType = building := hfits
    exact .inr ⟨self, .inl rfl, hself.1, hbuilding ▸ hself.2⟩
  | through element =>
    cases element with
    | any => exact .inl ⟨rfl, hfits⟩
    | boxed codec => exact .inr ⟨codec, .inl rfl, hanswer hfits⟩
    | direct codec => exact .inr ⟨codec, .inr rfl, hanswer hfits.1⟩

/-- Whatever the bytes are, a field is read as null, and from null's marker unless it holds values of every type, or as
a value that can be put into it. -/
theorem Registry.Sound.read_field [RecordEquality] (hsound : registry.Sound) {binding : Binding} {self : Codec}
    {building : ValueType} {type : FieldType} (hfits : binding.Fits registry building type.kind)
    (hself : self.Legal ∧ self.writes building) {input rest : Input} {value : Value}
    (h : registry.readAs (binding.resolve self) input = .ok value rest) :
    (value = .null → type.kind = .any ∨ input = Marker.null.toByte :: rest) ∧
      (value ≠ .null → ∃ fitted, type.convert value = .ok fitted) := by
  rcases hfits.known hsound hself with ⟨-, hany⟩ | ⟨codec, hcodec, hlegal, hwrites⟩
  · exact ⟨fun _ => .inl hany, fun _ => ⟨value, FieldType.convert_of_any hany⟩⟩
  · have hread : codec.read registry.readAs input = .ok value rest := by
      rcases hcodec with hboxed | hdirect
      · rwa [hboxed, registry.readAs_boxed] at h
      · rwa [hdirect, registry.readAs_direct] at h
    rcases Codec.cases_of_read hlegal hread with ⟨hnull, hinput⟩ | ⟨hvalue, htype⟩
    · exact ⟨fun _ => .inr hinput, fun hvalue => absurd hnull hvalue⟩
    · exact ⟨fun hnull => absurd hnull hvalue, fun _ => FieldType.convert_of_writes hwrites htype⟩

/-- A coding that fits a type names a registered codec, if it names one. -/
theorem Element.FitsType.known {element : Element} {type : ValueType} (hsound : registry.Sound)
    (hfits : element.FitsType registry type) : element.Known registry := by
  have hanswer : ∀ {codec}, registry.codecForType type = .ok codec → codec = .null ∨ codec ∈ registry.codecs :=
    fun hcodec => (hsound.known hcodec).imp And.right And.left
  cases element with
  | any => trivial
  | boxed codec => exact hanswer hfits
  | direct codec => exact hanswer hfits

/-- A field is coded by a registered codec, if by one that its binding names. -/
theorem Binding.Fits.resolve_known {binding : Binding} {self : Codec} {building : ValueType} {kind : FieldKind}
    (hsound : registry.Sound) (hfits : binding.Fits registry building kind) (hself : self ∈ registry.codecs) :
    (binding.resolve self).Known registry := by
  cases binding with
  | self => exact .inr hself
  | through element =>
    cases element with
    | any => trivial
    | boxed codec =>
      have hboxed : (Element.boxed codec).FitsType registry kind.valueType := hfits
      exact hboxed.known hsound
    | direct codec =>
      have hdirect : (Element.direct codec).FitsType registry kind.valueType := hfits.1
      exact hdirect.known hsound

/-! ## Codecs -/

/-- A reader without parts fails over the bytes alone. -/
theorem Blames.ofBytes [RecordEquality] {read : Read α} (h : Blames registry (fun _ => False) read) {input left : Input}
    {e : Error} (herror : read input = .error e left) : e.OfBytes := by
  rcases h.cause herror with he | ⟨_, _, hpart, -⟩
  · exact he
  · exact hpart.elim

/-- An array of words fails over the bytes, or over a null among its items. -/
theorem AtomCodec.cause_readWords [RecordEquality] {kind : WordKind} {markers : MarkerRange} (hkind : kind ≠ .byte)
    {input left : Input} {e : Error} (h : AtomCodec.read ⟨.words kind, markers⟩ input = .error e left) :
    e.OfBytes ∨ Codec.StopsAtNull registry left (.atom ⟨.words kind, markers⟩) input e := by
  have hread : AtomCodec.read ⟨.words kind, markers⟩ = (do
      return (← Size.counted markers.base (AtomType.words kind).name fun count =>
        Input.repeated count (readWord kind (AtomType.words kind).name)).map (.words kind)) := by
    cases kind <;> first | rfl | exact absurd rfl hkind
  rw [hread] at h
  rcases bind_eq_error_iff.1 h with hcounted | ⟨_, _, -, hpure⟩
  · rcases bind_eq_error_iff.1 hcounted with hsize | ⟨size, items, hsize, hpayload⟩
    · have hblames : BlamesBehind registry (fun _ => False) (Size.read markers.base (AtomType.words kind).name) :=
        .readSize _ _
      exact .inl (hblames.blames.ofBytes hsize)
    · cases size with
      | none => cases hpayload
      | some count =>
        rcases bind_eq_error_iff.1 hpayload with hitems | ⟨_, _, -, hpure⟩
        · obtain ⟨before, point, hbefore, hmore, hword⟩ := Input.repeated_eq_error hitems
          rcases bind_eq_error_iff.1 hword with hnumber | ⟨number, rest, hnumber, hnull⟩
          · have hblames : BlamesBehind registry (fun _ => False) (Shortest.read kind.innerMarkers kind.name) :=
              .shortest _ _
            exact .inl (hblames.blames.ofBytes hnumber)
          · cases number with
            | some number => cases hnull
            | none =>
              cases hnull
              obtain rfl := Shortest.eq_null_of_read hnumber
              exact .inr (.item hkind hsize hbefore hmore)
        · cases hpure
  · cases hpure

/-- A field that is coded directly takes what is read, unless it is null and the field needs a value. -/
theorem Field.read_direct [RecordEquality] {nested : Element → Read Value} {self codec : Codec} {field : Field}
    (h : field.binding.resolve self = .direct codec) :
    field.read nested self = (do
      let value ← nested (.direct codec)
      if value.isNull ∧ ¬ field.info.type.optional then throw (.unexpectedNull field.info.name)
      return value) := by
  unfold Field.read
  rw [h]

/-- All other fields fit what is read to their types. -/
theorem Field.read_converted [RecordEquality] {nested : Element → Read Value} {self : Codec} {field : Field}
    (h : ∀ codec, field.binding.resolve self ≠ .direct codec) :
    field.read nested self =
      nested (field.binding.resolve self) >>= fun value => ofExcept (field.info.type.convert value) := by
  unfold Field.read
  dsimp only
  split
  · exact absurd ‹_› (h _)
  · rfl

/-- Only a binding that names a codec codes a field directly. -/
theorem Binding.eq_through_of_direct {binding : Binding} {self codec : Codec}
    (h : binding.resolve self = .direct codec) : binding = .through (.direct codec) := by
  cases binding with
  | self => cases h
  | through element => exact congrArg through h

/-- A field fails because its value does, or over a null that it does not take. -/
theorem Registry.Sound.cause_readField [RecordEquality] (hsound : registry.Sound) {field : Field} {self : Codec}
    {building : ValueType} (hfits : field.binding.Fits registry building field.info.type.kind)
    (hself : self.Legal ∧ self.writes building) {input left : Input} {e : Error}
    (h : field.read registry.readAs self input = .error e left) :
    registry.readAs (field.binding.resolve self) input = .error e left ∨
      (input = Marker.null.toByte :: left ∧ ¬ field.info.type.optional ∧
        ((∃ codec, field.binding = .through (.direct codec)) ∧ e = .unexpectedNull field.info.name ∨
          (field.binding = .self ∨ ∃ codec, field.binding = .through (.boxed codec)) ∧
            e = .typeMismatch field.info.type.kind.text (.foreign .null))) := by
  by_cases hdirect : ∃ codec, field.binding.resolve self = .direct codec
  · obtain ⟨codec, hdirect⟩ := hdirect
    have hbinding := Binding.eq_through_of_direct hdirect
    rw [Field.read_direct hdirect] at h
    rcases bind_eq_error_iff.1 h with hvalue | ⟨value, rest, hvalue, hrest⟩
    · rw [hdirect]
      exact .inl hvalue
    · dsimp only at hrest
      split at hrest
      · rename_i hnull
        cases hrest
        obtain rfl : value = .null := by
          cases value with
          | null => rfl
          | _ => cases hnull.1
        rw [← hdirect] at hvalue
        rcases (hsound.read_field hfits hself hvalue).1 rfl with hany | hinput
        · rw [hbinding, hany] at hfits
          cases hfits.2.1
        · exact .inr ⟨hinput, hnull.2, .inl ⟨⟨codec, hbinding⟩, rfl⟩⟩
      · cases hrest
  · rw [Field.read_converted (not_exists.1 hdirect)] at h
    rcases bind_eq_error_iff.1 h with hvalue | ⟨value, rest, hvalue, hrest⟩
    · exact .inl hvalue
    · cases hconvert : field.info.type.convert value with
      | ok fitted =>
        rw [hconvert] at hrest
        cases hrest
      | error e' =>
        rw [hconvert] at hrest
        cases hrest
        obtain ⟨hnull, hfitted⟩ := hsound.read_field hfits hself hvalue
        by_cases hvalue : value = .null
        · subst hvalue
          obtain ⟨hneeded, hany, rfl⟩ := FieldType.convert_null_eq_error hconvert
          refine .inr ⟨(hnull rfl).resolve_left hany, hneeded, .inr ⟨?_, rfl⟩⟩
          cases hfound : field.binding with
          | self => exact .inl rfl
          | through element =>
            rw [hfound] at hfits hdirect
            cases element with
            | any => exact absurd hfits hany
            | boxed codec => exact .inr ⟨codec, rfl⟩
            | direct codec => exact absurd ⟨codec, rfl⟩ hdirect
        · obtain ⟨fitted, hok⟩ := hfitted hvalue
          cases hok.symm.trans hconvert

/-- A value that starts with a codec's first marker fails over the marker, or over what is behind it. -/
theorem MarkerRange.opening_eq_error [RecordEquality] {range : MarkerRange} {target : String} {content : Read Value}
    {input left : Input} {e : Error} (h : range.opening target content input = .error e left) :
    e.OfBytes ∨ ∃ tail, input = range.base.toByte :: tail ∧ content tail = .error e left := by
  rcases bind_eq_error_iff.1 h with hmarker | ⟨marker, tail, hmarker, hbody⟩
  · have hblames : Blames Registry.empty (fun _ => False) Input.marker := .marker
    exact .inl (hblames.ofBytes hmarker)
  · split at hbody
    · cases hbody
    · dsimp only at hbody
      split at hbody
      · cases hbody
        exact .inl (.decode _ _)
      · rename_i hbase
        obtain rfl := not_not.1 hbase
        cases input with
        | nil => cases hmarker
        | cons byte tail' =>
          injection hmarker with hbyte htail
          subst htail
          exact .inr ⟨_, by rw [← hbyte, Marker.toByte_ofByte], hbody⟩

/-- A record fails over the bytes, because one of its fields does, or over a null that one of its fields does not
take. -/
theorem Registry.Sound.cause_readRecord [RecordEquality] (hsound : registry.Sound) {markers : MarkerRange}
    {type : String} {fresh : List (String × Value)} {fields : List Field}
    (hmem : .record markers type fresh fields ∈ registry.codecs) {input left : Input} {e : Error}
    (h : (Codec.record markers type fresh fields).read registry.readAs input = .error e left) :
    e.OfBytes ∨ PartFails registry (Element.Known registry) input left e ∨
      (Codec.record markers type fresh fields).StopsAtNull registry left input e := by
  have hwrites : (Codec.record markers type fresh fields).writes (.record type) := decide_eq_true rfl
  cases hsound.fits hmem with
  | record hbindings =>
    rcases MarkerRange.opening_eq_error h with he | ⟨content, rfl, hcontent⟩
    · exact .inl he
    · rcases bind_eq_error_iff.1 hcontent with hfields | ⟨_, _, -, hpure⟩
      · obtain ⟨before, field, after, rfl, slots, point, hbefore, hfield⟩ := Field.readAll_eq_error hfields
        have hsuffix : point <:+ content := by
          have halike : Alike registry.readAs registry.readAs _ _ :=
            .readAll (.record markers type fresh (before ++ field :: after)) before fresh
          have hdelimited := halike.delimited_of_nested registry.delimited_readAs registry.shortens_readAs
          obtain ⟨front, rfl⟩ := hdelimited.front hbefore
          exact List.suffix_append _ _
        have hfits := hbindings field (List.mem_append_right _ List.mem_cons_self)
        rcases hsound.cause_readField hfits ⟨hsound.legal hmem, hwrites⟩ hfield with
          hvalue | ⟨rfl, hneeded, ⟨⟨codec, hbinding⟩, rfl⟩ | ⟨hbinding, rfl⟩⟩
        · have hpoint := hsuffix.trans (List.suffix_cons markers.base.toByte content)
          refine .inr (.inl ⟨_, point, hfits.resolve_known hsound hmem, hpoint, ?_, hvalue⟩)
          exact Nat.lt_succ_of_le hsuffix.length_le
        · exact .inr (.inr (.direct hbefore hbinding hneeded))
        · exact .inr (.inr (.boxed hbefore hbinding hneeded))
      · cases hpure

/-- A codec of a sound registry fails over the bytes, because one of its parts does, or over a null. -/
theorem Registry.Sound.cause_readCodec [RecordEquality] (hsound : registry.Sound) {codec : Codec}
    (hmem : codec ∈ registry.codecs) {input left : Input} {e : Error}
    (h : codec.read registry.readAs input = .error e left) :
    e.OfBytes ∨ PartFails registry (Element.Known registry) input left e ∨
      codec.StopsAtNull registry left input e := by
  have hbehind (hblames : BlamesBehind registry (Element.Known registry) (codec.read registry.readAs)) :
      e.OfBytes ∨ PartFails registry (Element.Known registry) input left e ∨ codec.StopsAtNull registry left input e :=
    (hblames.cause h).imp_right .inl
  have hany (target : String) :
      Blames registry (Element.Known registry) (Element.any.readIn registry.readAs target) :=
    .readIn_any trivial target
  cases hsound.fits hmem with
  | @atom codec _ =>
    by_cases hwords : ∃ kind ≠ .byte, codec.form = .words kind
    · obtain ⟨kind, hkind, hform⟩ := hwords
      obtain ⟨_, markers⟩ := codec
      obtain rfl := hform
      rcases bind_eq_error_iff.1 h with hatom | ⟨_, _, -, hpure⟩
      · exact (AtomCodec.cause_readWords hkind hatom).imp_right .inr
      · cases hpure
    · refine hbehind ((AtomCodec.blames_read fun kind hform => ?_).bind fun _ => .pure _)
      by_contra hkind
      exact hwords ⟨kind, hkind, hform⟩
  | enumeration _ =>
    refine hbehind (.opening ((Blames.signed 1).bind fun ordinal => ?_) _ _)
    split
    · exact .pure _
    · exact .throw (.decode _ _)
  | sequence _ =>
    exact hbehind ((BlamesBehind.counted (fun count => (hany _).repeated count) _ _).bind fun _ => .pure _)
  | collection _ => exact hbehind (.opening (((hany _).readDelimited _).bind fun _ => .pure _) _ _)
  | map _ =>
    refine hbehind ((BlamesBehind.counted (fun count => Blames.repeated ?_ count) _ _).bind fun _ => .pure _)
    exact (hany _).bind fun _ => (hany _).bind fun _ => .pure _
  | @array _ _ element helement =>
    refine hbehind (.opening ((Blames.signed 4).bind fun count => ?_) _ _)
    have hitem : Blames registry (Element.Known registry) (registry.readAs element) := .readAs (helement.known hsound)
    dsimp only
    split
    · exact (Blames.throw (.decode _ _)).bind fun _ => (hitem.repeated _).bind fun _ => .pure _
    · exact (hitem.repeated _).bind fun _ => .pure _
  | record _ => exact hsound.cause_readRecord hmem h

/-! ## Registries -/

namespace Registry

/-- The codec for a marker is missing, or it is null's or registered. -/
theorem Sound.cause_select [RecordEquality] (hsound : registry.Sound) {element : Element}
    (hknown : element.Known registry) {input left : Input} {e : Error}
    (h : registry.readAs element input = .error e left) :
    e.OfBytes ∨ ∃ codec, (codec = .null ∨ codec ∈ registry.codecs) ∧
      codec.read registry.readAs input = .error e left := by
  cases element with
  | any =>
    rw [registry.readAs_eq, select, bind_assoc] at h
    rcases bind_eq_error_iff.1 h with hpeek | ⟨marker, mid, hpeek, hcodec⟩
    · have hblames : Blames registry (fun _ => False) Input.peek := .peek
      exact .inl (hblames.ofBytes hpeek)
    · obtain rfl : mid = input := by
        cases input with
        | nil => cases hpeek
        | cons byte tail =>
          cases hpeek
          rfl
      cases hfound : registry.codecForMarker marker with
      | ok codec =>
        rw [hfound] at hcodec
        exact .inr ⟨codec, hsound.consistent.mem_of_codecForMarker hfound, hcodec⟩
      | error e' =>
        rw [hfound] at hcodec
        cases hcodec
        unfold codecForMarker at hfound
        split at hfound
        · cases hfound
        · cases hfound
          exact .inl (.unknownMarker marker)
  | boxed codec =>
    rw [registry.readAs_boxed] at h
    exact .inr ⟨codec, hknown, h⟩
  | direct codec =>
    rw [registry.readAs_direct] at h
    exact .inr ⟨codec, hknown, h⟩

/-- The part that fails at last fails over the bytes or over a null. -/
theorem Sound.cause_readAs [RecordEquality] (hsound : registry.Sound) {element : Element}
    (hknown : element.Known registry) {input left : Input} {e : Error}
    (h : registry.readAs element input = .error e left) :
    e.OfBytes ∨ ∃ codec ∈ registry.codecs, ∃ start, start <:+ input ∧
      registry.readAs (.boxed codec) start = .error e left ∧ codec.StopsAtNull registry left start e := by
  induction hlength : input.length using Nat.strongRecOn generalizing element input with
  | ind length ih =>
    rcases hsound.cause_select hknown h with he | ⟨codec, rfl | hmem, hread⟩
    · exact .inl he
    · have hnull : BlamesBehind registry (fun _ => False) (Codec.null.read registry.readAs) := .opening (.pure _) _ _
      exact .inl (hnull.blames.ofBytes hread)
    · rcases hsound.cause_readCodec hmem hread with he | ⟨part, point, hpart, hpoint, hshorter, hfails⟩ | hnull
      · exact .inl he
      · refine (ih _ (hlength ▸ hshorter) hpart hfails rfl).imp_right ?_
        rintro ⟨codec, hmem, start, hstart, hcause⟩
        exact ⟨codec, hmem, start, hstart.trans hpoint, hcause⟩
      · refine .inr ⟨codec, hmem, input, List.suffix_rfl, ?_, hnull⟩
        rw [registry.readAs_boxed]
        exact hread

/-- Reading any bytes with a registry fails over the bytes themselves, or over a null where a value has to be: an item
of an array of words, or a field that is not optional. The error tells which. So a field is read as null or as a value
that can be put into it, whatever the bytes are, and what is put into it is a value that the field may hold. -/
theorem read_failures [RecordEquality] {made : List Codec} (hreachable : Reachable registry made) :
    (∀ input left e, registry.read input = .error e left →
      e.OfBytes ∨ ∃ codec ∈ registry.codecs, ∃ start, start <:+ input ∧
        registry.readAs (.boxed codec) start = .error e left ∧ codec.StopsAtNull registry left start e) ∧
    (∀ markers type fresh fields, .record markers type fresh fields ∈ registry.codecs → ∀ field ∈ fields,
      ∀ input rest value,
        registry.readAs (field.binding.resolve (.record markers type fresh fields)) input = .ok value rest →
        value = .null ∨ ∃ fitted, field.info.type.convert value = .ok fitted ∧ field.info.type.Holds fitted) := by
  have hsound := hreachable.sound.1
  have hany : Element.any.Known registry := trivial
  refine ⟨fun input left e => hsound.cause_readAs hany, ?_⟩
  intro markers type fresh fields hmem field hfield input rest value hread
  by_cases hvalue : value = .null
  · exact .inl hvalue
  · cases hsound.fits hmem with
    | record hbindings =>
      have hself : (Codec.record markers type fresh fields).Legal ∧
          (Codec.record markers type fresh fields).writes (.record type) :=
        ⟨hsound.legal hmem, decide_eq_true rfl⟩
      obtain ⟨fitted, hfitted⟩ := (hsound.read_field (hbindings field hfield) hself hread).2 hvalue
      exact .inr ⟨fitted, hfitted, FieldType.holds_of_convert hfitted⟩

set_option maxRecDepth 2000 in
/-- A null for the queue of a record is a mismatch, since the field is bound to the registered codec of collections.
Whatever else that codec reads can be put into the queue, although it reads lists only. -/
theorem read_failures_node :
    (∃ made, Reachable nodeRegistry made) ∧
    nodeRegistry.read [1, 128, 7] = .error (.typeMismatch "VecDeque<Value>" (.foreign .null)) [7] ∧
    (∃ codec ∈ nodeRegistry.codecs, ∃ start, start <:+ [1, 128, 7] ∧
      nodeRegistry.readAs (.boxed codec) start = .error (.typeMismatch "VecDeque<Value>" (.foreign .null)) [7] ∧
      codec.StopsAtNull nodeRegistry [7] start (.typeMismatch "VecDeque<Value>" (.foreign .null))) ∧
    ∀ input rest value, nodeRegistry.readAs (.boxed nodeItems) input = .ok value rest →
      value = .null ∨ ∃ fitted, FieldType.convert ⟨.sequence .queue, false⟩ value = .ok fitted ∧
        FieldType.Holds ⟨.sequence .queue, false⟩ fitted := by
  obtain ⟨made, hreachable⟩ := reachable_nodeRegistry
  obtain ⟨hfailures, hfields⟩ := read_failures hreachable
  have hread : nodeRegistry.read [1, 128, 7] = .error (.typeMismatch "VecDeque<Value>" (.foreign .null)) [7] := rfl
  have hmem : nodeCodec ∈ nodeRegistry.codecs := List.mem_of_getLast? rfl
  exact ⟨⟨made, hreachable⟩, hread, (hfailures _ _ _ hread).resolve_left nofun,
    hfields _ _ _ _ hmem _ List.mem_cons_self⟩

end Registry

end Bytemark
