import Bytemark.Proofs.Reading.Alike

/-!
# The depth bound does not matter

`Registry.readPart` counts the depth of nested values down from a bound, so that it is a recursion on numbers. Every
reader takes at least one byte for the value it reads (`Registry.shortens_readAs`), so a nested value has fewer bytes to
be read from than the value around it, and any bound that is at least the number of bytes left gives the same answer,
failures included (`Registry.readPart_eq`). So reading a value is selecting a codec and running its reader with the very
same function for nested values: `Registry.readAs_eq` is the recursive equation without a bound.
-/

set_option autoImplicit false

namespace Bytemark

variable {nested nested' : Element → Read Value} {α β : Type}

/-- A reader that succeeds leaves no more bytes than it was given. -/
def NeverGrows (read : Read α) : Prop :=
  ∀ ⦃input rest : Input⦄ ⦃a : α⦄, read input = .ok a rest → rest.length ≤ input.length

/-- A reader that succeeds has taken at least one byte. -/
def Shortens (read : Read α) : Prop :=
  ∀ ⦃input rest : Input⦄ ⦃a : α⦄, read input = .ok a rest → rest.length < input.length

/-- A reader that takes a byte does not add any. -/
theorem Shortens.neverGrows {read : Read α} (h : Shortens read) : NeverGrows read :=
  fun _ _ _ hok => Nat.le_of_lt (h hok)

/-- What takes no byte adds none. -/
theorem neverGrows_pure (a : α) : NeverGrows (pure a) := by
  intro input rest b h
  cases h
  exact Nat.le_refl _

/-- What fails leaves nothing to compare. -/
theorem neverGrows_throw (e : Error) : NeverGrows (throw e : Read α) := fun _ _ _ h => nomatch h

/-- Two readers in a row add no bytes if neither does. -/
theorem NeverGrows.bind {read : Read α} {next : α → Read β} (h : NeverGrows read) (hnext : ∀ a, NeverGrows (next a)) :
    NeverGrows (read >>= next) := by
  intro input rest b hok
  obtain ⟨a, mid, hread, hrest⟩ := bind_eq_ok_iff.1 hok
  exact Nat.le_trans (hnext a hrest) (h hread)

/-- Two readers in a row take a byte if the first does and the second adds none. -/
theorem Shortens.bind {read : Read α} {next : α → Read β} (h : Shortens read) (hnext : ∀ a, NeverGrows (next a)) :
    Shortens (read >>= next) := by
  intro input rest b hok
  obtain ⟨a, mid, hread, hrest⟩ := bind_eq_ok_iff.1 hok
  exact Nat.lt_of_le_of_lt (hnext a hrest) (h hread)

/-- Reading bytes adds none. -/
theorem neverGrows_bytes (count : Nat) : NeverGrows (Input.bytes count) := by
  intro input rest front h
  obtain ⟨rfl, -⟩ := Input.bytes_eq_ok_iff.1 h
  simp

/-- A marker takes a byte. -/
theorem shortens_marker : Shortens Input.marker := by
  intro input rest marker h
  cases input with
  | nil => cases h
  | cons byte input =>
    cases h
    simp

/-- What looks ahead succeeds if there is a byte, and goes on with the byte still there. -/
theorem Input.peek_bind_eq_ok_iff {next : Marker → Read α} {input rest : Input} {a : α} :
    (Input.peek >>= next) input = .ok a rest ↔
      ∃ byte tail, input = byte :: tail ∧ next (Marker.ofByte byte) input = .ok a rest := by
  cases input with
  | nil => simp [bind_eq_ok_iff, Input.peek, Input.underflow]
  | cons byte tail =>
    rw [bind_eq_ok_iff]
    constructor
    · rintro ⟨marker, mid, hpeek, hnext⟩
      cases hpeek
      exact ⟨byte, tail, rfl, hnext⟩
    · rintro ⟨byte', tail', heq, hnext⟩
      cases heq
      exact ⟨_, _, rfl, hnext⟩

/-- Looking ahead takes no byte, but what comes after it may. -/
theorem shortens_peek_bind {next : Marker → Read α} (h : ∀ marker, Shortens (next marker)) :
    Shortens (Input.peek >>= next) := by
  intro input rest a hok
  obtain ⟨byte, tail, -, hnext⟩ := Input.peek_bind_eq_ok_iff.1 hok
  exact h _ hnext

/-- With some bound left, elements end at the mark, or go on with one more. -/
theorem readUntil_succ {α : Type} (last : Marker) (item : Read α) (bound : Nat) (done : List α) :
    readUntil last item (bound + 1) done = Input.peek >>= fun marker =>
      if marker = last then Input.marker >>= fun _ => pure done.reverse
      else item >>= fun value => readUntil last item bound (value :: done) := rfl

/-- Elements up to a mark take the byte of the mark. -/
theorem shortens_readUntil (last : Marker) {item : Read Value} (h : NeverGrows item) (bound : Nat) (done : List Value) :
    Shortens (readUntil last item bound done) := by
  induction bound generalizing done with
  | zero => exact fun _ _ _ hok => nomatch hok
  | succ bound ih =>
    rw [readUntil_succ]
    refine shortens_peek_bind fun marker => ?_
    split
    · exact shortens_marker.bind fun _ => neverGrows_pure _
    · intro input rest items hok
      obtain ⟨value, mid, hitem, hrest⟩ := bind_eq_ok_iff.1 hok
      exact Nat.lt_of_lt_of_le (ih _ hrest) (h hitem)

/-- A part adds no bytes if nested values add none. -/
theorem Element.neverGrows_readIn (h : ∀ element, NeverGrows (nested element)) (element : Element) (target : String) :
    NeverGrows (element.readIn nested target) := by
  refine (h element).bind fun value => ?_
  dsimp only
  split
  · exact (neverGrows_throw _).bind fun _ => neverGrows_pure value
  · exact neverGrows_pure value

/-- A part takes a byte if nested values take one. -/
theorem Element.shortens_readIn (h : ∀ element, Shortens (nested element)) (element : Element) (target : String) :
    Shortens (element.readIn nested target) := by
  refine (h element).bind fun value => ?_
  dsimp only
  split
  · exact (neverGrows_throw _).bind fun _ => neverGrows_pure value
  · exact neverGrows_pure value

/-- However a reader is put together, it adds no bytes if nested values add none. -/
theorem Alike.neverGrows {read read' : Read α} (halike : Alike nested nested' read read')
    (h : ∀ element, NeverGrows (nested element)) : NeverGrows read := by
  induction halike with
  | pure a => exact neverGrows_pure a
  | throw e => exact neverGrows_throw e
  | bytes count => exact neverGrows_bytes count
  | marker => exact shortens_marker.neverGrows
  | nested element => exact h element
  | bind _ _ first rest => exact first.bind rest
  | delimited last element target =>
    intro input rest items hok
    exact (shortens_readUntil last (element.neverGrows_readIn h target) input.length []).neverGrows hok

/-- A reader that opens with a marker takes a byte if nested values add none. -/
theorem Opens.shortens {read read' : Read α} (hopens : Opens nested nested' read read')
    (h : ∀ element, NeverGrows (nested element)) : Shortens read := by
  obtain ⟨body, body', rfl, -, hbody⟩ := hopens
  exact shortens_marker.bind fun marker => (hbody marker).neverGrows h

/-- Elements up to a mark are read alike by readers that agree on all inputs that are not longer. -/
theorem readUntil_congr {last : Marker} {item item' : Read Value} {bound length : Nat} (hitem : NeverGrows item)
    (heq : ∀ input, input.length ≤ length → item input = item' input) (done : List Value) {input : Input}
    (hle : input.length ≤ length) : readUntil last item bound done input = readUntil last item' bound done input := by
  induction bound generalizing done input with
  | zero => rfl
  | succ bound ih =>
    cases input with
    | nil => rfl
    | cons byte tail =>
      have hpeek (next : Marker → Read (List Value)) :
          (Input.peek >>= next) (byte :: tail) = next (Marker.ofByte byte) (byte :: tail) := rfl
      rw [readUntil_succ, readUntil_succ, hpeek, hpeek]
      split
      · rfl
      · simp only [bind, EStateM.bind, ← heq _ hle]
        cases hread : item (byte :: tail) with
        | ok value mid => exact ih _ (Nat.le_trans (hitem hread) hle)
        | error e mid => rfl

/-- Two readers that are put together in the same way agree on short inputs if their readers of nested values do. -/
theorem Alike.eq_of_length_le {read read' : Read α} (halike : Alike nested nested' read read') {length : Nat}
    (hnested : ∀ element, NeverGrows (nested element))
    (heq : ∀ element input, input.length ≤ length → nested element input = nested' element input) {input : Input}
    (hle : input.length ≤ length) : read input = read' input := by
  induction halike generalizing input with
  | pure a => rfl
  | throw e => rfl
  | bytes count => rfl
  | marker => rfl
  | nested element => exact heq element input hle
  | bind halike _ first rest =>
    simp only [Bind.bind, EStateM.bind, ← first hle]
    split
    · rename_i a mid hread
      exact rest a (Nat.le_trans (halike.neverGrows hnested hread) hle)
    · rfl
  | delimited last element target =>
    refine readUntil_congr (element.neverGrows_readIn hnested target) (fun input hle => ?_) [] hle
    simp only [Element.readIn, Bind.bind, EStateM.bind, heq element input hle]

/-- With nested readers that agree on inputs shorter than this one, the readers of a codec agree on this one. -/
theorem Codec.read_congr [RecordEquality] (codec : Codec) {input : Input}
    (hnested : ∀ element, NeverGrows (nested element))
    (heq : ∀ element shorter, shorter.length < input.length → nested element shorter = nested' element shorter) :
    codec.read nested input = codec.read nested' input := by
  obtain ⟨body, body', hbody, hbody', halike⟩ := codec.opens_read nested nested'
  rw [hbody, hbody']
  cases input with
  | nil => rfl
  | cons byte tail =>
    refine (halike (Marker.ofByte byte)).eq_of_length_le hnested (fun element shorter hle => ?_) (Nat.le_refl _)
    exact heq element shorter (Nat.lt_succ_of_le hle)

/-- From no bytes every codec reads nothing, and says that one is missing. -/
theorem Codec.read_nil [RecordEquality] (codec : Codec) : codec.read nested [] = .error (.underflow 1 0) [] := by
  obtain ⟨body, body', hbody, -, -⟩ := codec.opens_read nested nested
  rw [hbody]
  rfl

namespace Registry

variable (registry : Registry)

/-- One level further down, the marker tells the codec, and the parts are read with the depth that is left. -/
theorem readPart_succ_any [RecordEquality] (depth : Nat) :
    registry.readPart (depth + 1) .any = Input.peek >>= fun marker =>
      ofExcept (registry.codecForMarker marker) >>= fun codec => codec.read (registry.readPart depth) := by
  rw [readPart, select, bind_assoc]

/-- To any depth, a value takes a byte. -/
theorem shortens_readPart [RecordEquality] (depth : Nat) (element : Element) : Shortens
    (registry.readPart depth element) := by
  induction depth generalizing element with
  | zero => exact fun _ _ _ hok => nomatch hok
  | succ depth ih =>
    have hread (codec : Codec) : Shortens (codec.read (registry.readPart depth)) :=
      (codec.opens_read _ (registry.readPart depth)).shortens fun element => (ih element).neverGrows
    cases element with
    | any =>
      rw [readPart_succ_any]
      refine shortens_peek_bind fun marker => ?_
      cases registry.codecForMarker marker with
      | ok codec => exact hread codec
      | error e => exact fun _ _ _ hok => nomatch hok
    | boxed codec => exact hread codec
    | direct codec => exact hread codec

/-- To any depth, nothing is read from no bytes. -/
theorem readPart_nil [RecordEquality] (depth : Nat) (element : Element) :
    registry.readPart depth element [] = .error (.underflow 1 0) [] := by
  cases depth with
  | zero => rfl
  | succ depth =>
    cases element with
    | any => rfl
    | boxed codec => exact codec.read_nil
    | direct codec => exact codec.read_nil

/-- Finding the codec takes no byte. -/
theorem eq_of_select {element : Element} {codec : Codec} {input mid : Input}
    (h : registry.select element input = .ok codec mid) : mid = input := by
  cases element with
  | any =>
    obtain ⟨byte, tail, rfl, hnext⟩ := Input.peek_bind_eq_ok_iff.1 h
    cases hcodec : registry.codecForMarker (Marker.ofByte byte) with
    | ok codec =>
      rw [hcodec] at hnext
      cases hnext
      rfl
    | error e =>
      rw [hcodec] at hnext
      cases hnext
  | boxed codec =>
    cases h
    rfl
  | direct codec =>
    cases h
    rfl

/-- Any two bounds that are no less than the number of bytes left give the same answer. -/
theorem readPart_eq [RecordEquality] {depth depth' : Nat} (element : Element) {input : Input}
    (hle : input.length ≤ depth) (hle' : input.length ≤ depth') :
    registry.readPart depth element input = registry.readPart depth' element input := by
  induction depth generalizing depth' element input with
  | zero =>
    obtain rfl : input = [] := List.length_eq_zero_iff.1 (by omega)
    rw [readPart_nil, readPart_nil]
  | succ depth ih =>
    cases depth' with
    | zero =>
      obtain rfl : input = [] := List.length_eq_zero_iff.1 (by omega)
      rw [readPart_nil, readPart_nil]
    | succ depth' =>
      simp only [readPart, bind, EStateM.bind]
      cases hsel : registry.select element input with
      | error e mid => rfl
      | ok codec mid =>
        cases registry.eq_of_select hsel
        -- The codec takes its marker before it turns to nested values, so their inputs are shorter.
        refine codec.read_congr (fun element => (registry.shortens_readPart depth element).neverGrows) ?_
        intro element shorter hlt
        exact ih element (by omega) (by omega)

/-- A depth of as many levels as there are bytes is enough. -/
theorem readAs_eq_readPart [RecordEquality] {depth : Nat} (element : Element) {input : Input}
    (hle : input.length ≤ depth) :
    registry.readAs element input = registry.readPart depth element input :=
  registry.readPart_eq element (Nat.le_refl _) hle

/-- Every value takes a byte. -/
theorem shortens_readAs [RecordEquality] (element : Element) : Shortens (registry.readAs element) :=
  fun input _ _ hok => registry.shortens_readPart input.length element hok

/-- Reading is selecting a codec and running its reader, with reading itself for the nested values. -/
theorem readAs_eq [RecordEquality] (element : Element) :
    registry.readAs element = registry.select element >>= fun codec => codec.read registry.readAs := by
  funext input
  rw [registry.readAs_eq_readPart element (Nat.le_succ input.length), readPart]
  simp only [bind, EStateM.bind]
  cases hsel : registry.select element input with
  | error e mid => rfl
  | ok codec mid =>
    cases registry.eq_of_select hsel
    refine codec.read_congr (fun element => (registry.shortens_readPart _ element).neverGrows) ?_
    intro element shorter hlt
    exact (registry.readAs_eq_readPart element (Nat.le_of_lt hlt)).symm

/-- A codec that is named needs no look-up. -/
theorem readAs_boxed [RecordEquality] (codec : Codec) : registry.readAs (.boxed codec) = codec.read registry.readAs :=
  registry.readAs_eq (.boxed codec)

/-- A codec that is named is asked at once. -/
theorem readAs_direct [RecordEquality] (codec : Codec) : registry.readAs (.direct codec) = codec.read registry.readAs :=
  registry.readAs_eq (.direct codec)

end Registry

end Bytemark
