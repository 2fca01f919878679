import Bytemark.Proofs.Coding.Atoms
import Mathlib.Algebra.GroupWithZero.Nat

/-!
# Reading makes progress

Whatever the bytes are, reading them comes to an end, and costs no more than the bytes are worth. A value takes at least
one byte, so nested values start later than the value around them, and the equations that say how a codec reads its
parts have one solution. The loops over parts are bounded in the same way: a loop that was told to read more parts than
there are bytes fails by the time the bytes are used up, however many parts were announced.

The last fact is about what is read. `Value.count` counts the values that a value is made of, and `Pays` says that a
reader takes a byte for each of them. It is kept by putting readers together, with values read so far as a credit.
-/

set_option autoImplicit false

namespace Bytemark

/-! ## Counting values -/

/-- Items of an array that are no values of their own. Packed booleans count by the byte. -/
def Atom.items : Atom → Nat
  | bools items => Bits.width items.length
  | chars items => items.length
  | words _ items => items.length
  | _ => 0

namespace Value

mutual

/-- How many values a value is made of: itself, the elements of sequences, the items of arrays, the keys and values of
maps, and what these are made of. A record is one value, whatever it holds. -/
def count : Value → Nat
  | .null => 1
  | .atom leaf => 1 + leaf.items
  | .variant _ _ => 1
  | .sequence _ items => 1 + countItems items
  | .map entries => 1 + countEntries entries
  | .array _ items => 1 + countItems items
  | .record _ _ => 1

/-- How many values some values are made of. -/
def countItems : List Value → Nat
  | [] => 0
  | item :: items => item.count + countItems items

/-- How many values the keys and the values of entries are made of. -/
def countEntries : List (Value × Value) → Nat
  | [] => 0
  | (key, value) :: entries => key.count + value.count + countEntries entries

end

/-- How many values the key and the value of an entry are made of. -/
def countEntry (entry : Value × Value) : Nat := entry.1.count + entry.2.count

/-- Elements are made of as many values as all of them together. -/
theorem countItems_eq_sum (items : List Value) : countItems items = (items.map count).sum := by
  induction items with
  | nil => rfl
  | cons item items ih => rw [countItems, ih, List.map_cons, List.sum_cons]

/-- Entries are made of as many values as all of them together. -/
theorem countEntries_eq_sum (entries : List (Value × Value)) :
    countEntries entries = (entries.map countEntry).sum := by
  induction entries with
  | nil => rfl
  | cons entry entries ih => rw [countEntries, ih, List.map_cons, List.sum_cons, countEntry]

/-- A value is made of itself at least. -/
theorem count_pos (value : Value) : 0 < value.count := by
  cases value <;> simp only [count] <;> omega

/-- A sequence is made of at least as many values as it has elements, and of those that each element is made of. -/
theorem countItems_bounds (items : List Value) :
    items.length ≤ countItems items ∧ ∀ item ∈ items, item.count ≤ countItems items := by
  induction items with
  | nil => exact ⟨Nat.le_refl _, fun _ hmem => nomatch hmem⟩
  | cons item items ih =>
    obtain ⟨hlength, hitems⟩ := ih
    have hpos := item.count_pos
    rw [countItems, List.length_cons, List.forall_mem_cons]
    refine ⟨by omega, Nat.le_add_right _ _, fun other hother => ?_⟩
    exact Nat.le_trans (hitems other hother) (Nat.le_add_left _ _)

/-- Entries are made of no fewer values than there are entries, and of no fewer than each one is. -/
theorem countEntries_bounds (entries : List (Value × Value)) :
    entries.length ≤ countEntries entries ∧ ∀ entry ∈ entries, countEntry entry ≤ countEntries entries := by
  induction entries with
  | nil => exact ⟨Nat.le_refl _, fun _ hmem => nomatch hmem⟩
  | cons entry entries ih =>
    obtain ⟨hlength, hentries⟩ := ih
    have hpos := entry.1.count_pos
    rw [countEntries, List.length_cons, List.forall_mem_cons]
    refine ⟨by omega, Nat.le_add_right _ _, fun other hother => ?_⟩
    exact Nat.le_trans (hentries other hother) (Nat.le_add_left _ _)

/-- Dropping what repeats leaves no more values. -/
theorem sum_count_distinct_le [RecordEquality] (items : List Value) : ((distinct items).map count).sum ≤
    (items.map count).sum := by
  suffices hrun : ∀ done, ((items.foldl insertElement done).map count).sum ≤
      (done.map count).sum + (items.map count).sum by
    have hall := hrun []
    rwa [List.map_nil, List.sum_nil, Nat.zero_add] at hall
  induction items with
  | nil => exact fun done => Nat.le_add_right _ _
  | cons item items ih =>
    intro done
    have hrest := ih (insertElement done item)
    have hinsert : ((insertElement done item).map count).sum ≤ (done.map count).sum + item.count := by
      unfold insertElement
      split
      · exact Nat.le_add_right _ _
      · simp
    rw [List.foldl_cons, List.map_cons, List.sum_cons]
    omega

/-- A repeated key keeps its place, and its old value makes room for the new one. -/
theorem sum_countEntry_insertEntry_le [RecordEquality] (done : List (Value × Value)) (entry : Value × Value) :
    ((insertEntry done entry).map countEntry).sum ≤ (done.map countEntry).sum + countEntry entry := by
  induction done with
  | nil => simp [insertEntry]
  | cons first done ih =>
    obtain ⟨key, value⟩ := first
    unfold insertEntry
    split
    · simp only [List.map_cons, List.sum_cons, countEntry]
      omega
    · rw [List.map_cons, List.sum_cons, List.map_cons, List.sum_cons]
      omega

/-- Merging entries with equal keys leaves no more values. -/
theorem sum_countEntry_distinctEntries_le [RecordEquality] (entries : List (Value × Value)) :
    ((distinctEntries entries).map countEntry).sum ≤ (entries.map countEntry).sum := by
  suffices hrun : ∀ done, ((entries.foldl insertEntry done).map countEntry).sum ≤
      (done.map countEntry).sum + (entries.map countEntry).sum by
    have hall := hrun []
    rwa [List.map_nil, List.sum_nil, Nat.zero_add] at hall
  induction entries with
  | nil => exact fun done => Nat.le_add_right _ _
  | cons entry entries ih =>
    intro done
    have hrest := ih (insertEntry done entry)
    have hinsert := sum_countEntry_insertEntry_le done entry
    rw [List.foldl_cons, List.map_cons, List.sum_cons]
    omega

/-- A sequence is made of itself and of no more values than what it was made from. -/
theorem count_collect_le [RecordEquality] (kind : SequenceKind) (items : List Value) :
    (kind.collect items).count ≤ 1 + (items.map count).sum := by
  have hset := sum_count_distinct_le items
  cases kind <;> simp only [SequenceKind.collect, count, countItems_eq_sum] <;> omega

end Value

/-! ## Paying for values -/

variable {α β : Type} {weight : α → Nat} {credit : Nat} {nested : Element → Read Value}

/-- Apart from those covered by the credit, the reader takes a byte for each of the values it gives. -/
def Pays (weight : α → Nat) (credit : Nat) (read : Read α) : Prop :=
  ∀ ⦃input rest : Input⦄ ⦃a : α⦄, read input = .ok a rest → weight a + rest.length ≤ credit + input.length

namespace Pays

/-- What is given without reading is covered by the credit. -/
theorem pure {a : α} (h : weight a ≤ credit) : Pays weight credit (pure a) := by
  intro input rest b hok
  cases hok
  omega

/-- A failure gives nothing to pay for. -/
theorem throw (e : Error) : Pays weight credit (throw e : Read α) := fun _ _ _ hok => nomatch hok

/-- What the first reader gives is the credit of the second. -/
theorem bind {weight' : β → Nat} {read : Read α} {next : α → Read β} (h : Pays weight credit read)
    (hnext : ∀ a, Pays weight' (weight a) (next a)) : Pays weight' credit (read >>= next) := by
  intro input rest b hok
  obtain ⟨a, mid, hread, hrest⟩ := bind_eq_ok_iff.1 hok
  exact Nat.le_trans (hnext a hrest) (h hread)

/-- What was there before is still there afterwards. -/
theorem add {read : Read α} (h : Pays weight credit read) (more : Nat) :
    Pays (fun a => weight a + more) (credit + more) read := by
  intro input rest a hok
  have hpaid := h hok
  dsimp only
  omega

end Pays

/-- A reader that adds no bytes keeps the credit. -/
theorem NeverGrows.pays {read : Read α} (h : NeverGrows read) (credit : Nat) : Pays (fun _ => credit) credit read :=
  fun _ _ _ hok => Nat.add_le_add_left (h hok) credit

/-- Without credit, a reader that pays adds no bytes. -/
theorem Pays.neverGrows {read : Read α} (h : Pays weight 0 read) : NeverGrows read := by
  intro input rest a hok
  have hpaid := h hok
  omega

/-- A reader that takes a byte pays for one value. -/
theorem Shortens.pays {read : Read α} (h : Shortens read) : Pays (fun _ => 1) 0 read := by
  intro input rest a hok
  have hlt := h hok
  dsimp only
  omega

/-- Repeated reads pay for all items if the read of an item pays for it. -/
theorem Pays.repeated {item : Read α} (h : Pays weight 0 item) (count : Nat) :
    Pays (fun items => (items.map weight).sum) 0 (Input.repeated count item) := by
  suffices hrun : ∀ done, Pays (fun items => (items.map weight).sum) (done.map weight).sum
      (Input.repeatOnto item count done) from hrun []
  induction count with
  | zero => exact fun done => .pure (by simp)
  | succ count ih =>
    intro done
    rw [Input.repeatOnto_succ]
    have hitem := h.add (done.map weight).sum
    rw [Nat.zero_add] at hitem
    refine hitem.bind fun a => ?_
    have hrest := ih (a :: done)
    rwa [List.map_cons, List.sum_cons] at hrest

/-- Repeated reads pay for the number of items if each takes a byte. -/
theorem Shortens.pays_repeated {item : Read α} (h : Shortens item) (count : Nat) :
    Pays List.length 0 (Input.repeated count item) := by
  intro input rest items hok
  have hpaid := h.pays.repeated count hok
  simpa only [List.map_const', List.sum_replicate_nat, Nat.mul_one] using hpaid

/-- Looking ahead adds no bytes. -/
theorem neverGrows_peek : NeverGrows Input.peek := by
  intro input rest marker h
  cases input with
  | nil => cases h
  | cons byte tail =>
    cases h
    exact Nat.le_refl _

/-- Elements up to a mark are paid for if each of them is. -/
theorem Pays.readDelimited {weight : Value → Nat} {item : Read Value} (h : Pays weight 0 item) (last : Marker) :
    Pays (fun items => (items.map weight).sum) 0 (readDelimited last item) := by
  suffices hrun : ∀ bound done, Pays (fun items => (items.map weight).sum) (done.map weight).sum
      (readUntil last item bound done) from fun input _ _ hok => hrun input.length [] hok
  intro bound
  induction bound with
  | zero => exact fun done _ _ _ hok => nomatch hok
  | succ bound ih =>
    intro done
    rw [readUntil_succ]
    refine (neverGrows_peek.pays _).bind fun marker => ?_
    split
    · exact (shortens_marker.neverGrows.pays _).bind fun _ => .pure (by simp)
    · have hitem := h.add (done.map weight).sum
      rw [Nat.zero_add] at hitem
      refine hitem.bind fun value => ?_
      have hrest := ih (value :: done)
      rwa [List.map_cons, List.sum_cons] at hrest

/-- A part is paid for if nested values are. -/
theorem Pays.readIn (h : ∀ element, Pays Value.count 0 (nested element)) (element : Element) (target : String) :
    Pays Value.count 0 (element.readIn nested target) := by
  refine (h element).bind fun value => ?_
  dsimp only
  split
  · exact (Pays.throw _).bind (fun _ => .pure (Nat.le_refl _))
  · exact .pure (Nat.le_refl _)

/-- A reader that reads nothing nested. -/
theorem Alike.neverGrows_self {read : Read α} (h : ∀ nested, Alike nested nested read read) : NeverGrows read :=
  (h fun _ => Pure.pure Value.null).neverGrows fun _ => neverGrows_pure _

/-- A reader that starts with a marker and reads nothing nested. -/
theorem Opens.shortens_self {read : Read α} (h : ∀ nested, Opens nested nested read read) : Shortens read :=
  (h fun _ => Pure.pure Value.null).shortens fun _ => neverGrows_pure _

/-- A size takes a byte. -/
theorem Size.shortens_read (base : Marker) (target : String) : Shortens (Size.read base target) := by
  refine Opens.shortens_self fun nested => opens_marker fun marker => ?_
  split
  · exact .pure none
  · exact .bind (.readPayload marker base target) fun _ => .pure _

/-- The bytes of a size pay for the value whose parts it counts. -/
theorem Pays.counted {payload : Nat → Read α} (h : ∀ count, Pays weight 0 (payload count)) (base : Marker)
    (target : String) :
    Pays (fun answer => answer.elim 1 fun a => 1 + weight a) 0 (Size.counted base target payload) := by
  refine (Size.shortens_read base target).pays.bind fun size => ?_
  cases size with
  | none => exact .pure (Nat.le_refl _)
  | some size => exact ((h size).add 1).bind fun a => .pure (Nat.le_of_eq (Nat.add_comm _ _))

/-- The opening marker pays for the value around the content. -/
theorem Pays.opening {content : Read Value} (h : Pays Value.count 1 content) (markers : MarkerRange) (target : String) :
    Pays Value.count 0 (markers.opening target content) := by
  refine shortens_marker.pays.bind fun marker => ?_
  dsimp only
  split
  · exact .pure (by simp [Value.count])
  split
  · exact (Pays.throw _).bind fun _ => h
  · exact h

/-! ## Atoms -/

/-- Bytes pay for themselves. -/
theorem pays_bytes (count : Nat) : Pays List.length 0 (Input.bytes count) := by
  intro input rest front hok
  obtain ⟨rfl, -⟩ := Input.bytes_eq_ok_iff.1 hok
  simp

/-- Packed booleans are paid for by the bytes that they fill. -/
theorem Bits.pays_read (count : Nat) : Pays (fun items => width items.length) 0 (Bits.read count) := by
  refine (pays_bytes _).bind fun packed => .pure ?_
  have hlength : (packed.flatMap unpackByte).length = 8 * packed.length := by
    induction packed with
    | nil => rfl
    | cons byte packed ih =>
      rw [List.flatMap_cons, List.length_append, length_unpackByte, ih, List.length_cons]
      omega
  rw [List.length_take, hlength]
  unfold width
  omega

/-- A text pays for its characters, as each of them takes a byte. -/
theorem Utf8.pays_read (count : Nat) : Pays List.length 0 (Utf8.read count) := by
  refine (pays_bytes _).bind fun bytes => ?_
  cases hdecode : Utf8.decode bytes with
  | ok chars =>
    obtain rfl := Utf8.decode_eq_ok_iff.1 hdecode
    exact .pure (Utf8.length_le_length_encode chars)
  | error fault => exact .throw _

/-- A number in its shortest form takes a byte. -/
theorem Shortest.shortens_read (range : MarkerRange) (target : String) : Shortens (Shortest.read range target) :=
  Opens.shortens_self fun _ => opens_shortest range target

/-- A word of an array takes a byte. -/
theorem AtomCodec.shortens_readWord (kind : WordKind) (array : String) : Shortens (readWord kind array) := by
  refine (Shortest.shortens_read _ _).bind fun value => ?_
  cases value with
  | some value => exact neverGrows_pure _
  | none => exact neverGrows_throw _

/-- An atom takes a byte for itself, and one for each of its items. -/
theorem AtomCodec.pays_read (codec : AtomCodec) :
    Pays (fun answer => answer.elim 1 fun atom => 1 + atom.items) 0 codec.read := by
  unfold AtomCodec.read
  dsimp only
  split
  · refine shortens_marker.pays.bind fun marker => ?_
    cases codec.markers.offset? marker with
    | some offset => exact .pure (Nat.le_refl _)
    | none =>
      dsimp only
      split
      · exact .pure (Nat.le_refl _)
      · exact .throw _
  · refine (Shortest.shortens_read _ _).pays.bind fun code => ?_
    cases code with
    | some code => exact ((Alike.neverGrows_self fun _ => .ofExcept _).pays _).bind fun _ => .pure (Nat.le_refl _)
    | none => exact .pure (Nat.le_refl _)
  · refine (Shortest.shortens_read _ _).pays.bind fun value => .pure ?_
    cases value <;> exact Nat.le_refl _
  · rename_i inline _
    refine shortens_marker.pays.bind fun marker => ?_
    split
    · exact .pure (Nat.le_refl _)
    · have hlength : NeverGrows (Size.readPayload marker (codec.markers.markerAt inline) codec.name) :=
        Alike.neverGrows_self fun _ => .readPayload _ _ _
      have htext (count : Nat) : Pays (fun answer : Option Atom => answer.elim 1 fun atom => 1 + atom.items) 1 (do
          return some (.string (String.ofList (← Utf8.read count)))) :=
        ((Alike.neverGrows_self fun _ => .utf8 count).pays 1).bind fun _ => .pure (Nat.le_refl _)
      cases codec.markers.offset? marker with
      | some offset =>
        dsimp only
        split
        · exact htext offset
        · exact (hlength.pays 1).bind htext
      | none => exact (Pays.throw _).bind htext
  · refine (Pays.counted Bits.pays_read _ _).bind fun items => .pure ?_
    cases items <;> exact Nat.le_refl _
  · refine (Pays.counted Utf8.pays_read _ _).bind fun items => .pure ?_
    cases items <;> exact Nat.le_refl _
  · refine (Pays.counted pays_bytes _ _).bind fun items => .pure ?_
    cases items with
    | none => exact Nat.le_refl _
    | some items => exact Nat.le_of_eq (congrArg _ (List.length_map _))
  · rename_i kind _ _
    refine (Pays.counted (shortens_readWord kind codec.name).pays_repeated _ _).bind fun items => .pure ?_
    cases items <;> exact Nat.le_refl _

/-! ## Codecs -/

/-- A codec takes a byte for each value it gives, if the readers of nested values do. -/
theorem Codec.pays_read [RecordEquality] (h : ∀ element, Pays Value.count 0 (nested element)) (codec : Codec) :
    Pays Value.count 0 (codec.read nested) := by
  cases codec with
  | null => exact .opening (.pure (Nat.le_refl _)) _ _
  | atom codec =>
    refine codec.pays_read.bind fun atom => .pure ?_
    cases atom <;> exact Nat.le_refl _
  | enumeration markers type variants =>
    refine .opening (((neverGrows_bytes 1).bind fun _ => neverGrows_pure _).pays 1 |>.bind fun ordinal => ?_) _ _
    split
    · exact .pure (Nat.le_refl _)
    · exact .throw _
  | sequence markers kind element =>
    have hitems (count : Nat) := (Pays.readIn h element kind.name).repeated count
    refine (Pays.counted hitems _ _).bind fun items => .pure ?_
    cases items with
    | none => exact Nat.le_refl _
    | some items => exact Value.count_collect_le kind items
  | collection markers element =>
    refine .opening (((Pays.readIn h element _).readDelimited _).add 1 |>.bind fun items => .pure ?_) _ _
    simp only [Value.count, Value.countItems_eq_sum]
    omega
  | map markers key value =>
    have hentry : Pays Value.countEntry 0 (do
        let key ← key.readIn nested "map key"
        let value ← value.readIn nested "map value"
        return (key, value)) := by
      refine (Pays.readIn h key _).bind fun key => ?_
      have hvalue := (Pays.readIn h value "map value").add key.count
      rw [Nat.zero_add] at hvalue
      exact hvalue.bind fun value => .pure (Nat.le_of_eq (Nat.add_comm _ _))
    refine (Pays.counted (fun count => hentry.repeated count) _ _).bind fun entries => .pure ?_
    cases entries with
    | none => exact Nat.le_refl _
    | some entries =>
      have hentries := Value.sum_countEntry_distinctEntries_le entries
      simp only [Option.elim, Value.count, Value.countEntries_eq_sum]
      omega
  | array markers type element =>
    refine .opening (((neverGrows_bytes 4).bind fun _ => neverGrows_pure _).pays 1 |>.bind fun count => ?_) _ _
    have hitems : Pays Value.count 1 (do
        return .array type (← Input.repeated count.toNat (nested element))) := by
      refine (((h element).repeated _).add 1).bind fun items => .pure ?_
      simp only [Value.count, Value.countItems_eq_sum]
      omega
    dsimp only
    split
    · exact (Pays.throw _).bind fun _ => hitems
    · exact hitems
  | record markers type fresh fields =>
    have hfield (slots : List (String × Value)) (field : Field) : Alike nested nested
        (do return setSlot slots field.info.target (← field.read nested (.record markers type fresh fields)))
        (do return setSlot slots field.info.target (← field.read nested (.record markers type fresh fields))) :=
      .bind (.readField _ field) fun _ => .pure _
    have hfields := (Alike.foldlM hfield fields fresh).neverGrows fun element => (h element).neverGrows
    exact .opening ((hfields.pays 1).bind fun _ => .pure (Nat.le_refl _)) _ _

/-! ## Announced numbers -/

/-- What the codec reads starts with a header that announces `count` parts, and `rest` is left behind the header. -/
inductive Codec.Announces (input : Input) (count : Nat) (rest : Input) : Codec → Prop
  | sequence {markers : MarkerRange} {kind : SequenceKind} {element : Element}
      (h : Size.read markers.base kind.name input = .ok (some count) rest) :
      Announces input count rest (.sequence markers kind element)
  | map {markers : MarkerRange} {key value : Element} (h : Size.read markers.base "map" input = .ok (some count) rest) :
      Announces input count rest (.map markers key value)
  | words {markers : MarkerRange} {kind : WordKind}
      (h : Size.read markers.base (AtomType.words kind).name input = .ok (some count) rest) :
      Announces input count rest (.atom ⟨.words kind, markers⟩)
  | array {markers : MarkerRange} {type : ValueType} {element : Element} {tail : Input}
      (hbase : markers.base ≠ Marker.null) (hinput : input = markers.base.toByte :: tail)
      (h : Input.signed 4 tail = .ok (count : Int) rest) : Announces input count rest (.array markers type element)

section Loops

variable {item : Read α} {count : Nat} {input rest : Input}

/-- As many items are read as were asked for. -/
theorem Input.length_of_repeated {items : List α} (h : Input.repeated count item input = .ok items rest) :
    items.length = count := by
  suffices hrun : ∀ done input, Input.repeatOnto item count done input = .ok items rest →
      items.length = done.length + count by simpa using hrun [] input h
  clear h
  induction count with
  | zero =>
    intro done input h
    cases h
    simp
  | succ count ih =>
    intro done input h
    rw [Input.repeatOnto_succ] at h
    obtain ⟨a, mid, -, hrest⟩ := bind_eq_ok_iff.1 h
    have hlength := ih _ _ hrest
    rw [List.length_cons] at hlength
    omega

/-- A loop that is to read more items than there are bytes fails. -/
theorem Input.le_of_repeated (hitem : Shortens item) {items : List α}
    (h : Input.repeated count item input = .ok items rest) : count ≤ input.length := by
  have hpaid := hitem.pays_repeated count h
  rw [Input.length_of_repeated h] at hpaid
  omega

/-- Such a loop ends when the bytes are used up, however many items are still to come. -/
theorem Input.repeatOnto_eq_of_lt (hitem : Shortens item) {count' : Nat} {done : List α} (h : input.length < count)
    (h' : input.length < count') :
    Input.repeatOnto item count done input = Input.repeatOnto item count' done input := by
  induction count generalizing count' done input with
  | zero => exact absurd h (Nat.not_lt_zero _)
  | succ count ih =>
    obtain ⟨less, rfl⟩ := Nat.exists_eq_add_one_of_ne_zero (Nat.ne_zero_of_lt h')
    rw [Input.repeatOnto_succ, Input.repeatOnto_succ]
    simp only [bind, EStateM.bind]
    cases hread : item input with
    | error e mid => rfl
    | ok a mid =>
      have hlt := hitem hread
      exact ih (by omega) (by omega)

end Loops

/-- Behind a size that has been read, the counted part is read with this size. -/
theorem Size.payload_of_counted {payload : Nat → Read α} {base : Marker} {target : String} {input rest stop : Input}
    {count : Nat} {answer : Option α} (hsize : Size.read base target input = .ok (some count) rest)
    (h : Size.counted base target payload input = .ok answer stop) : ∃ a, payload count rest = .ok a stop := by
  obtain ⟨size, mid, hread, hpayload⟩ := bind_eq_ok_iff.1 h
  cases hsize.symm.trans hread
  obtain ⟨a, last, ha, hpure⟩ := bind_eq_ok_iff.1 hpayload
  cases hpure
  exact ⟨a, ha⟩

/-- The base of a run opens the content. -/
theorem MarkerRange.opening_base {markers : MarkerRange} (hbase : markers.base ≠ Marker.null) (target : String)
    (content : Read Value) (tail : Input) :
    markers.opening target content (markers.base.toByte :: tail) = content tail := by
  simp [MarkerRange.opening, bind, EStateM.bind, Input.marker, hbase]

/-- A codec does not read what announces more parts than there are bytes behind the header. -/
theorem Codec.read_fails_of_announces [RecordEquality] (h : ∀ element, Shortens (nested element)) {codec : Codec}
    {input rest : Input} {count : Nat} (hannounces : codec.Announces input count rest) (hcount : rest.length < count) :
    ∃ e left, codec.read nested input = .error e left := by
  cases hread : codec.read nested input with
  | error e left => exact ⟨e, left, rfl⟩
  | ok value stop =>
    refine absurd hcount (Nat.not_lt.2 ?_)
    cases hannounces with
    | sequence hsize =>
      obtain ⟨items, mid, hcounted, -⟩ := bind_eq_ok_iff.1 hread
      obtain ⟨items, hitems⟩ := Size.payload_of_counted hsize hcounted
      exact Input.le_of_repeated (Element.shortens_readIn h _ _) hitems
    | map hsize =>
      obtain ⟨entries, mid, hcounted, -⟩ := bind_eq_ok_iff.1 hread
      obtain ⟨entries, hentries⟩ := Size.payload_of_counted hsize hcounted
      refine Input.le_of_repeated ?_ hentries
      refine (Element.shortens_readIn h _ _).bind fun key => NeverGrows.bind ?_ fun value => neverGrows_pure _
      exact (Element.shortens_readIn h _ _).neverGrows
    | @words markers kind hsize =>
      obtain ⟨atom, mid, hatom, -⟩ := bind_eq_ok_iff.1 hread
      cases kind with
      | byte =>
        obtain ⟨items, mid', hcounted, -⟩ := bind_eq_ok_iff.1 hatom
        obtain ⟨bytes, hbytes⟩ := Size.payload_of_counted hsize hcounted
        obtain ⟨rfl, hlength⟩ := Input.bytes_eq_ok_iff.1 hbytes
        simp [← hlength]
      | _ =>
        obtain ⟨items, mid', hcounted, -⟩ := bind_eq_ok_iff.1 hatom
        obtain ⟨items, hitems⟩ := Size.payload_of_counted hsize hcounted
        exact Input.le_of_repeated (AtomCodec.shortens_readWord _ _) hitems
    | array hbase hinput hsigned =>
      subst hinput
      have hopened := (MarkerRange.opening_base hbase _ _ _).symm.trans hread
      obtain ⟨count', mid, hcount', hrest⟩ := bind_eq_ok_iff.1 hopened
      cases hsigned.symm.trans hcount'
      rw [if_neg (by omega), Int.toNat_natCast] at hrest
      obtain ⟨items, mid', hitems, -⟩ := bind_eq_ok_iff.1 hrest
      exact Input.le_of_repeated (h _) hitems

namespace Registry

variable (registry : Registry)

/-- To any depth, a value takes a byte for each of the values that it is made of. -/
theorem pays_readPart [RecordEquality] (depth : Nat) (element : Element) : Pays Value.count 0
    (registry.readPart depth element) := by
  induction depth generalizing element with
  | zero => exact fun _ _ _ hok => nomatch hok
  | succ depth ih =>
    have hread (codec : Codec) : Pays Value.count 0 (codec.read (registry.readPart depth)) := codec.pays_read ih
    cases element with
    | any =>
      rw [readPart_succ_any]
      refine (neverGrows_peek.pays 0).bind fun marker => ?_
      cases registry.codecForMarker marker with
      | ok codec => exact hread codec
      | error e => exact .throw e
    | boxed codec => exact hread codec
    | direct codec => exact hread codec

/-- A value that is read takes a byte for each value that it is made of. -/
theorem pays_readAs [RecordEquality] (element : Element) : Pays Value.count 0 (registry.readAs element) :=
  fun input _ _ hok => registry.pays_readPart input.length element hok

/-- There is one way of reading that selects a codec for each part and runs its reader. -/
theorem eq_readAs_iff [RecordEquality] {nested : Element → Read Value} :
    (∀ element, nested element = registry.select element >>= fun codec => codec.read nested) ↔
      nested = registry.readAs := by
  constructor
  · intro hequation
    -- By induction on the number of bytes: a codec turns to nested values with fewer bytes left than it was given.
    suffices hsame : ∀ length element (input : Input), input.length = length →
        registry.readAs element input = nested element input from
      funext fun element => funext fun input => (hsame _ element input rfl).symm
    intro length
    induction length using Nat.strongRecOn with
    | ind length ih =>
      intro element input hlength
      rw [hequation, registry.readAs_eq]
      simp only [bind, EStateM.bind]
      cases hselect : registry.select element input with
      | error e mid => rfl
      | ok codec mid =>
        cases registry.eq_of_select hselect
        refine codec.read_congr (fun element => (registry.shortens_readAs element).neverGrows) ?_
        exact fun element shorter hlt => ih shorter.length (by omega) element shorter rfl
  · rintro rfl
    exact registry.readAs_eq

/-- Every read value takes at least one byte, and one for each value that it is made of. Codecs turn to nested values
only with fewer bytes left than they were given, so the equations of reading have exactly one solution. A loop that is
to read more items than there are bytes fails when these are used up, and a delimited loop takes no more rounds than
there are bytes. So whatever announces more parts than there are bytes behind its header is not read. -/
theorem readAs_progress [RecordEquality] :
    (∀ element input value rest, registry.readAs element input = .ok value rest →
      rest.length < input.length ∧ value.count + rest.length ≤ input.length) ∧
    (∀ (codec : Codec) (input : Input) (nested : Element → Read Value),
      (∀ element shorter, shorter.length < input.length → nested element shorter = registry.readAs element shorter) →
        codec.read nested input = codec.read registry.readAs input) ∧
    (∀ nested : Element → Read Value,
      (∀ element, nested element = registry.select element >>= fun codec => codec.read nested) ↔
        nested = registry.readAs) ∧
    (∀ {α : Type} (item : Read α) (count : Nat) (input : Input), Shortens item → input.length < count →
      ∃ e left, Input.repeated count item input = .error e left ∧
        Input.repeated (input.length + 1) item input = .error e left) ∧
    (∀ (item : Read Value) (last : Marker) (bound : Nat) (input : Input), Shortens item → input.length ≤ bound →
      readUntil last item bound [] input = readDelimited last item input) ∧
    ∀ (element : Element) (codec : Codec) (input rest : Input) (count : Nat),
      registry.select element input = .ok codec input → codec.Announces input count rest → rest.length < count →
        ∃ e left, registry.readAs element input = .error e left := by
  refine ⟨?_, ?_, fun nested => registry.eq_readAs_iff, ?_, ?_, ?_⟩
  · intro element input value rest hok
    have hpaid := registry.pays_readAs element hok
    exact ⟨registry.shortens_readAs element hok, by omega⟩
  · intro codec input nested hnested
    refine (codec.read_congr (fun element => (registry.shortens_readAs element).neverGrows) ?_).symm
    exact fun element shorter hlt => (hnested element shorter hlt).symm
  · intro α item count input hitem hcount
    have hsame : Input.repeated count item input = Input.repeated (input.length + 1) item input :=
      Input.repeatOnto_eq_of_lt hitem hcount (Nat.lt_succ_self _)
    cases hread : Input.repeated count item input with
    | ok items rest => exact absurd hcount (Nat.not_lt.2 (Input.le_of_repeated hitem hread))
    | error e left => exact ⟨e, left, rfl, hsame.symm.trans hread⟩
  · intro item last bound input hitem hbound
    exact readUntil_eq last hitem hbound (Nat.le_refl _)
  · intro element codec input rest count hselect hannounces hcount
    obtain ⟨e, left, hread⟩ := codec.read_fails_of_announces registry.shortens_readAs hannounces hcount
    refine ⟨e, left, ?_⟩
    rw [registry.readAs_eq]
    simp only [bind, EStateM.bind, hselect, hread]

end Registry

end Bytemark
