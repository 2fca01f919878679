import Bytemark.Proofs.Reading.Progress
import Bytemark.Proofs.Registry.Standard
import Bytemark.Proofs.Value.Repetition

/-!
# What readers give

Bytes can be laid out in more ways than a writer would choose: numbers wider than they need to be, elements and keys
that repeat, sizes in more bytes than necessary. The values that are read from them show nothing of it. They are *tidy*:
no set and no map repeats itself, and what has a size has one that can be written.

`Yields` says of a reader that all its results satisfy a predicate. It is kept by putting readers together, so it holds
of the readers of values in any registry of built-in codecs.
-/

set_option autoImplicit false

-- A power of a number is the core library's, also where monoids have powers of their own.
attribute [local instance (2000)] instPowNat instNatPowNat Int.instNatPow

namespace Bytemark

/-- The size that is written in front of an atom's bytes or items, if there is one. -/
def Atom.size : Atom → Nat
  | string text => (Utf8.encode text.toList).length
  | bools items => items.length
  | chars items => (Utf8.encode items).length
  | words _ items => items.length
  | _ => 0

/-- Values of the built-in types in which nothing repeats, made of atoms whose sizes can be written. -/
inductive Value.Tidy [RecordEquality] : Value → Prop
  | null : Tidy .null
  | atom {atom : Atom} (hsize : atom.size ≤ Size.max) : Tidy (.atom atom)
  | sequence {kind : SequenceKind} {items : List Value} (hitems : ∀ item ∈ items, Tidy item)
      (hdistinct : kind = .set → Value.distinct items = items) : Tidy (.sequence kind items)
  | map {entries : List (Value × Value)} (hkeys : ∀ entry ∈ entries, Tidy entry.1)
      (hvalues : ∀ entry ∈ entries, Tidy entry.2) (hdistinct : Value.distinctEntries entries = entries) :
      Tidy (.map entries)

/-- A sequence of tidy elements is tidy. -/
theorem Value.tidy_collect [RecordEquality] (kind : SequenceKind) {items : List Value} (h : ∀ item ∈ items, item.Tidy) :
    (kind.collect items).Tidy := by
  cases kind with
  | set => exact .sequence (forall_mem_distinct h) fun _ => distinct_of_apart (apart_distinct items)
  | list => exact .sequence h fun hset => nomatch hset
  | queue => exact .sequence h fun hset => nomatch hset

/-- A map of tidy keys and values is tidy. -/
theorem Value.tidy_distinctEntries [RecordEquality] {entries : List (Value × Value)}
    (h : ∀ entry ∈ entries, entry.1.Tidy ∧ entry.2.Tidy) : Value.Tidy (.map (distinctEntries entries)) :=
  have hentries := forall_mem_distinctEntries h
  .map (fun entry hentry => (hentries entry hentry).1) (fun entry hentry => (hentries entry hentry).2)
    (distinctEntries_of_apart (apart_keys_distinctEntries entries))

/-! ## Results of readers -/

variable {α β : Type} {P : α → Prop} {Q : β → Prop} {nested : Element → Read Value}

/-- Everything that the reader gives satisfies the predicate. -/
def Yields (P : α → Prop) (read : Read α) : Prop := ∀ ⦃input rest : Input⦄ ⦃a : α⦄, read input = .ok a rest → P a

namespace Yields

/-- What is given is what was asked for, if it has the property. -/
theorem pure {a : α} (h : P a) : Yields P (pure a) := by
  intro input rest b hok
  cases hok
  exact h

/-- A failure yields nothing that could lack the property. -/
theorem throw (e : Error) : Yields P (throw e : Read α) := fun _ _ _ hok => nomatch hok

/-- Every reader yields something. -/
theorem any (read : Read α) : Yields (fun _ => True) read := fun _ _ _ _ => trivial

/-- What the first reader yields may be relied on by the second. -/
theorem bind {read : Read α} {next : α → Read β} (h : Yields P read) (hnext : ∀ a, P a → Yields Q (next a)) :
    Yields Q (read >>= next) := by
  intro input rest b hok
  obtain ⟨a, mid, hread, hrest⟩ := bind_eq_ok_iff.1 hok
  exact hnext a (h hread) hrest

/-- Repeated reads yield what the read of an item does. -/
theorem repeated {item : Read α} (h : Yields P item) (count : Nat) :
    Yields (fun items => ∀ a ∈ items, P a) (Input.repeated count item) := by
  suffices hrun : ∀ done : List α, (∀ a ∈ done, P a) →
      Yields (fun items => ∀ a ∈ items, P a) (Input.repeatOnto item count done) from hrun [] fun _ hmem => nomatch hmem
  induction count with
  | zero => exact fun done hdone => .pure fun a hmem => hdone a (List.mem_reverse.1 hmem)
  | succ count ih =>
    intro done hdone
    rw [Input.repeatOnto_succ]
    exact h.bind fun a ha => ih (a :: done) (List.forall_mem_cons.2 ⟨ha, hdone⟩)

/-- Elements up to a mark are what the read of an element yields. -/
theorem readDelimited {P : Value → Prop} {item : Read Value} (h : Yields P item) (last : Marker) :
    Yields (fun items => ∀ value ∈ items, P value) (readDelimited last item) := by
  suffices hrun : ∀ bound done, (∀ value ∈ done, P value) →
      Yields (fun items => ∀ value ∈ items, P value) (readUntil last item bound done) from
    fun input _ _ hok => hrun input.length [] (fun _ hmem => nomatch hmem) hok
  intro bound
  induction bound with
  | zero => exact fun done _ _ _ _ hok => nomatch hok
  | succ bound ih =>
    intro done hdone
    rw [readUntil_succ]
    refine (any Input.peek).bind fun marker _ => ?_
    split
    · refine (any Input.marker).bind fun _ _ => .pure ?_
      exact fun value hmem => hdone value (List.mem_reverse.1 hmem)
    · exact h.bind fun value hvalue => ih (value :: done) (List.forall_mem_cons.2 ⟨hvalue, hdone⟩)

/-- A part is what the reader of nested values yields. -/
theorem readIn {P : Value → Prop} {part : Element} (h : Yields P (nested part)) (target : String) :
    Yields P (part.readIn nested target) := by
  refine h.bind fun value hvalue => ?_
  dsimp only
  split
  · exact (Yields.throw _).bind fun _ (_ : True) => .pure hvalue
  · exact .pure hvalue

/-- Behind an opening marker is what the content yields, and else null. -/
theorem opening {P : Value → Prop} {content : Read Value} (hnull : P .null) (h : Yields P content)
    (markers : MarkerRange) (target : String) : Yields P (markers.opening target content) := by
  refine (any Input.marker).bind fun marker _ => ?_
  dsimp only
  split
  · exact .pure hnull
  split
  · exact (Yields.throw _).bind fun _ (_ : True) => h
  · exact h

end Yields

/-! ## Sizes and atoms -/

/-- No tier reaches past the greatest size. -/
theorem Size.add_offset_le {tier : Nat} (htier : tier < markers) {distance : Int} (h : distance < 128 * 256 ^ tier) :
    distance + offset tier ≤ max := by
  unfold markers at htier
  obtain rfl | rfl | rfl | rfl : tier = 0 ∨ tier = 1 ∨ tier = 2 ∨ tier = 3 := by omega
  all_goals
    simp only [offset, max]
    omega

/-- A size that is read can be written, however many bytes it took. -/
theorem Size.yields_readPayload (marker base : Marker) (target : String) :
    Yields (· ≤ Size.max) (Size.readPayload marker base target) := by
  intro input rest size hok
  unfold Size.readPayload at hok
  dsimp only at hok
  split at hok
  · rename_i htier
    obtain ⟨distance, mid, hsigned, hsize⟩ := bind_eq_ok_iff.1 hok
    obtain ⟨bytes, mid', hbytes, hpure⟩ := bind_eq_ok_iff.1 hsigned
    cases hpure
    have hlength := (Input.bytes_eq_ok_iff.1 hbytes).2
    have hbound := add_offset_le ((Int.toNat_lt htier.1).2 htier.2) (BigEndian.decode_lt hlength)
    split at hsize
    · cases hsize
    · cases hsize
      omega
  · cases hok

/-- What is counted may rely on a size that is not too great. -/
theorem Yields.counted {payload : Nat → Read α} (h : ∀ count ≤ Size.max, Yields P (payload count)) (base : Marker)
    (target : String) : Yields (fun answer => answer.elim True P) (Size.counted base target payload) := by
  have hsize : Yields (fun size => size.elim True (· ≤ Size.max)) (Size.read base target) := by
    refine (any Input.marker).bind fun marker _ => ?_
    split
    · exact .pure trivial
    · exact (Size.yields_readPayload marker base target).bind fun size hsize => .pure hsize
  refine hsize.bind fun size hmax => ?_
  cases size with
  | none => exact .pure trivial
  | some size => exact (h size hmax).bind fun a ha => .pure ha

/-- A payload that is no longer than its size has a size that can be written, and so has the atom made of it. -/
theorem Yields.atom_of_counted {payload : Nat → Read α} {make : α → Atom} (length : α → Nat)
    (h : ∀ count, Yields (fun a => length a ≤ count) (payload count)) (hmake : ∀ a, (make a).size = length a)
    (base : Marker) (target : String) :
    Yields (fun answer => answer.elim True fun atom => atom.size ≤ Size.max) (do
      return (← Size.counted base target payload).map make) := by
  have hbounded (count : Nat) (hmax : count ≤ Size.max) : Yields (fun a => length a ≤ Size.max) (payload count) :=
    fun _ _ _ hok => Nat.le_trans (h count hok) hmax
  refine (Yields.counted hbounded base target).bind fun answer hanswer => .pure ?_
  cases answer with
  | none => trivial
  | some a =>
    show (make a).size ≤ Size.max
    rw [hmake]
    exact hanswer

/-- No more booleans are read than were asked for. -/
theorem Bits.yields_read (count : Nat) : Yields (fun items => items.length ≤ count) (Bits.read count) :=
  (Yields.any _).bind fun _ _ => .pure (List.length_take_le ..)

/-- The characters that are read take the bytes that were read. -/
theorem Utf8.yields_read (count : Nat) : Yields (fun chars => (encode chars).length = count) (Utf8.read count) := by
  intro input rest chars hok
  obtain ⟨bytes, mid, hbytes, hchars⟩ := bind_eq_ok_iff.1 hok
  have hlength := (Input.bytes_eq_ok_iff.1 hbytes).2
  cases hdecode : decode bytes with
  | ok decoded =>
    rw [hdecode] at hchars
    cases hchars
    rwa [decode_eq_ok_iff.1 hdecode] at hlength
  | error fault =>
    rw [hdecode] at hchars
    cases hchars

/-- Whatever is read for an atom has a size that can be written. -/
theorem AtomCodec.yields_read (codec : AtomCodec) :
    Yields (fun answer => answer.elim True fun atom => atom.size ≤ Size.max) codec.read := by
  unfold AtomCodec.read
  dsimp only
  split
  · refine (Yields.any _).bind fun marker _ => ?_
    cases codec.markers.offset? marker with
    | some offset => exact .pure (Nat.zero_le _)
    | none =>
      dsimp only
      split
      · exact .pure trivial
      · exact .throw _
  · refine (Yields.any _).bind fun code _ => ?_
    cases code with
    | some code => exact (Yields.any _).bind fun _ _ => .pure (Nat.zero_le _)
    | none => exact .pure trivial
  · refine (Yields.any _).bind fun value _ => .pure ?_
    cases value with
    | some value => exact Nat.zero_le _
    | none => trivial
  · rename_i inline _
    refine (Yields.any _).bind fun marker _ => ?_
    split
    · exact .pure trivial
    · have htext (count : Nat) (hcount : count ≤ Size.max) :
          Yields (fun answer : Option Atom => answer.elim True fun atom => atom.size ≤ Size.max) (do
            return some (.string (String.ofList (← Utf8.read count)))) := by
        refine (Utf8.yields_read count).bind fun chars hchars => .pure ?_
        show (Utf8.encode (String.ofList chars).toList).length ≤ Size.max
        rw [String.toList_ofList, hchars]
        exact hcount
      cases hoffset : codec.markers.offset? marker with
      | some offset =>
        dsimp only
        split
        · -- A length that the marker tells is less than the number of markers there are.
          have hcount := (MarkerRange.offset?_eq_some_iff.1 hoffset).1
          have hfits := codec.markers.fits
          have hlow := Int8.le_toInt codec.markers.base
          exact htext offset (by unfold Size.max; omega)
        · exact (Size.yields_readPayload ..).bind htext
      | none => exact (Yields.throw _).bind htext
  · exact .atom_of_counted List.length Bits.yields_read (fun _ => rfl) _ _
  · refine .atom_of_counted (fun chars => (Utf8.encode chars).length) (fun count => ?_) (fun _ => rfl) _ _
    exact fun _ _ _ hok => Nat.le_of_eq (Utf8.yields_read count hok)
  · refine .atom_of_counted List.length (fun count => ?_) (fun bytes => ?_) _ _
    · exact fun _ _ _ hok => Nat.le_of_eq (Input.bytes_eq_ok_iff.1 hok).2
    · exact (List.length_map UInt8.toBitVec : (bytes.map UInt8.toBitVec).length = bytes.length)
  · refine .atom_of_counted List.length (fun count => ?_) (fun _ => rfl) _ _
    exact fun _ _ _ hok => Nat.le_of_eq (Input.length_of_repeated hok)

/-! ## Codecs -/

/-- A registered built-in codec gives tidy values, if the readers of its parts do. -/
theorem Codec.yields_read [RecordEquality] {registry : Registry} {codec : Codec} (hfits : codec.Fits registry)
    (hbuiltin : ∃ kind, codec.builtin? = some kind) (h : Yields Value.Tidy (nested .any)) :
    Yields Value.Tidy (codec.read nested) := by
  obtain ⟨kind, hbuiltin⟩ := hbuiltin
  cases hfits with
  | @atom codec _ =>
    refine codec.yields_read.bind fun answer hanswer => .pure ?_
    cases answer with
    | none => exact .null
    | some atom => exact .atom hanswer
  | @sequence _ kind _ =>
    refine (Yields.counted (fun count _ => (h.readIn kind.name).repeated count) _ _).bind fun answer hanswer => .pure ?_
    cases answer with
    | none => exact .null
    | some items => exact Value.tidy_collect kind hanswer
  | collection _ =>
    refine .opening .null (((h.readIn _).readDelimited _).bind fun items hitems => .pure ?_) _ _
    exact .sequence hitems fun hset => nomatch hset
  | map _ =>
    have hentry : Yields (fun entry : Value × Value => entry.1.Tidy ∧ entry.2.Tidy) (do
        let key ← Element.any.readIn nested "map key"
        let value ← Element.any.readIn nested "map value"
        return (key, value)) :=
      (h.readIn _).bind fun key hkey => (h.readIn _).bind fun value hvalue => .pure ⟨hkey, hvalue⟩
    refine (Yields.counted (fun count _ => hentry.repeated count) _ _).bind fun answer hanswer => .pure ?_
    cases answer with
    | none => exact .null
    | some entries => exact Value.tidy_distinctEntries hanswer
  | enumeration _ => cases hbuiltin
  | array _ => cases hbuiltin
  | record _ => cases hbuiltin

namespace Registry

variable {registry : Registry}

/-- To any depth, a registry of built-in codecs reads tidy values. -/
theorem OfBuiltins.yields_readPart [RecordEquality] (h : registry.OfBuiltins) (depth : Nat) :
    Yields Value.Tidy (registry.readPart depth .any) := by
  induction depth with
  | zero => exact fun _ _ _ hok => nomatch hok
  | succ depth ih =>
    rw [readPart_succ_any]
    refine (Yields.any _).bind fun marker _ => ?_
    cases hcodec : registry.codecForMarker marker with
    | error e => exact .throw e
    | ok codec =>
      rcases h.sound.consistent.mem_of_codecForMarker hcodec with rfl | hmem
      · exact .opening .null (.pure .null) _ _
      · exact Codec.yields_read (h.sound.fits hmem) (h.builtin hmem) ih

/-- Every value that a registry of built-in codecs reads is tidy, whatever the bytes are. -/
theorem OfBuiltins.yields_read [RecordEquality] (h : registry.OfBuiltins) : Yields Value.Tidy registry.read :=
  fun input _ _ hok => h.yields_readPart input.length hok

end Registry

end Bytemark
