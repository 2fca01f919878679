import Bytemark.Registry.Read

/-!
# How readers are put together

Every reader of a codec starts with a marker. What follows is put together from primitive reads, failures, readers of
nested values and runs of elements up to an end marker, and nothing in it looks at the input in any other way.
`Alike nested nested'` relates two readers that are put together in the same way, one with `nested` and one with
`nested'` for its nested values, and `Codec.opens_read` says that a codec's readers are so related.

A fact about the readers of all codecs is then an induction over `Alike`, with a case for each way of putting readers
together and none for each codec.
-/

set_option autoImplicit false

namespace Bytemark

variable {nested nested' : Element → Read Value} {α β : Type}

/-- Two readers are put together in the same way, but for the readers of nested values. -/
inductive Alike (nested nested' : Element → Read Value) : {α : Type} → Read α → Read α → Prop
  | pure {α : Type} (a : α) : Alike nested nested' (pure a) (pure a)
  | throw {α : Type} (e : Error) : Alike nested nested' (throw e : Read α) (throw e)
  | bytes (count : Nat) : Alike nested nested' (Input.bytes count) (Input.bytes count)
  | marker : Alike nested nested' Input.marker Input.marker
  | nested (element : Element) : Alike nested nested' (nested element) (nested' element)
  | bind {α β : Type} {read read' : Read α} {next next' : α → Read β} (first : Alike nested nested' read read')
      (rest : ∀ a, Alike nested nested' (next a) (next' a)) : Alike nested nested' (read >>= next) (read' >>= next')
  | delimited (last : Marker) (element : Element) (target : String) :
      Alike nested nested' (readDelimited last (element.readIn nested target))
        (readDelimited last (element.readIn nested' target))

/-- Two readers start with a marker and go on alike. -/
def Opens (nested nested' : Element → Read Value) (read read' : Read α) : Prop :=
  ∃ body body' : Marker → Read α, read = Input.marker >>= body ∧ read' = Input.marker >>= body' ∧
    ∀ marker, Alike nested nested' (body marker) (body' marker)

/-- A reader that opens with a marker is put together like any other. -/
theorem Opens.alike {read read' : Read α} (h : Opens nested nested' read read') : Alike nested nested' read read' := by
  obtain ⟨body, body', rfl, rfl, hbody⟩ := h
  exact .bind .marker hbody

/-- A marker opens what is read after it. -/
theorem opens_marker {body body' : Marker → Read α} (h : ∀ marker, Alike nested nested' (body marker) (body' marker)) :
    Opens nested nested' (Input.marker >>= body) (Input.marker >>= body') :=
  ⟨body, body', rfl, rfl, h⟩

/-- What opens with a marker still does when more is read after it. -/
theorem Opens.bind {read read' : Read α} {next next' : α → Read β} (h : Opens nested nested' read read')
    (hnext : ∀ a, Alike nested nested' (next a) (next' a)) :
    Opens nested nested' (read >>= next) (read' >>= next') := by
  obtain ⟨body, body', rfl, rfl, hbody⟩ := h
  rw [bind_assoc, bind_assoc]
  exact opens_marker fun marker => .bind (hbody marker) hnext

/-! ## Parts of readers -/

/-- An answer that is given has no nested values. -/
theorem Alike.ofExcept (result : Except Error α) : Alike nested nested' (ofExcept result : Read α)
    (ofExcept result) := by
  cases result with
  | ok a => exact .pure a
  | error e => exact .throw e

/-- A number has no nested values. -/
theorem Alike.signed (width : Nat) : Alike nested nested' (Input.signed width) (Input.signed width) :=
  .bind (.bytes width) fun _ => .pure _

/-- One item more is read first, and then the others. -/
theorem Input.repeatOnto_succ (item : Read α) (count : Nat) (done : List α) :
    Input.repeatOnto item (count + 1) done = item >>= fun a => Input.repeatOnto item count (a :: done) := by
  funext input
  simp only [Input.repeatOnto, bind, EStateM.bind]
  cases item input <;> rfl

/-- Repeated reads are alike if the reads of an item are. -/
theorem Alike.repeated {item item' : Read α} (h : Alike nested nested' item item') (count : Nat) :
    Alike nested nested' (Input.repeated count item) (Input.repeated count item') := by
  unfold Input.repeated
  generalize ([] : List α) = done
  induction count generalizing done with
  | zero => exact .pure done.reverse
  | succ count ih =>
    rw [Input.repeatOnto_succ, Input.repeatOnto_succ]
    exact .bind h fun a => ih (a :: done)

/-- Parts are where the two readers of nested values come in. -/
theorem Alike.readIn (element : Element) (target : String) :
    Alike nested nested' (element.readIn nested target) (element.readIn nested' target) := by
  refine .bind (.nested element) fun value => ?_
  dsimp only
  split
  · exact .bind (.throw _) fun _ => .pure value
  · exact .pure value

/-- The payload of a size has no nested values. -/
theorem Alike.readPayload (marker base : Marker) (target : String) :
    Alike nested nested' (Size.readPayload marker base target) (Size.readPayload marker base target) := by
  unfold Size.readPayload
  dsimp only
  split
  · refine .bind (.signed _) fun value => ?_
    split
    · exact .bind (.throw _) fun _ => .pure _
    · exact .pure _
  · exact .throw _

/-- A size opens with a marker, and what it counts is behind it. -/
theorem opens_counted {payload payload' : Nat → Read α} (base : Marker) (target : String)
    (h : ∀ count, Alike nested nested' (payload count) (payload' count)) :
    Opens nested nested' (Size.counted base target payload) (Size.counted base target payload') := by
  refine Opens.bind (opens_marker fun marker => ?_) fun size => ?_
  · split
    · exact .pure none
    · exact .bind (.readPayload _ _ _) fun _ => .pure _
  · cases size with
    | some size => exact .bind (h size) fun _ => .pure _
    | none => exact .pure none

/-- A number in its shortest form opens with a marker. -/
theorem opens_shortest (range : MarkerRange) (target : String) :
    Opens nested nested' (Shortest.read range target) (Shortest.read range target) := by
  refine opens_marker fun marker => ?_
  split
  · exact .pure none
  · cases range.offset? marker with
    | some offset => exact .bind (.signed _) fun _ => .pure _
    | none => exact .throw _

/-- Packed booleans have no nested values. -/
theorem Alike.bits (count : Nat) : Alike nested nested' (Bits.read count) (Bits.read count) :=
  .bind (.bytes _) fun _ => .pure _

/-- A text has no nested values. -/
theorem Alike.utf8 (count : Nat) : Alike nested nested' (Utf8.read count) (Utf8.read count) := by
  refine .bind (.bytes count) fun bytes => ?_
  cases Utf8.decode bytes with
  | ok chars => exact .pure chars
  | error fault => exact .throw _

/-- A word of an array has no nested values. -/
theorem Alike.readWord (kind : WordKind) (array : String) :
    Alike nested nested' (AtomCodec.readWord kind array) (AtomCodec.readWord kind array) := by
  refine .bind (opens_shortest _ _).alike fun value => ?_
  cases value with
  | some value => exact .pure _
  | none => exact .throw _

/-- An opening marker is a marker to open with. -/
theorem opens_opening {content content' : Read Value} (markers : MarkerRange) (target : String)
    (h : Alike nested nested' content content') :
    Opens nested nested' (markers.opening target content) (markers.opening target content') := by
  refine opens_marker fun marker => ?_
  dsimp only
  split
  · exact .pure _
  split
  · exact .bind (.throw _) fun _ => h
  · exact h

/-! ## Codecs -/

/-- The codec of an atom opens with a marker, and has no nested values. -/
theorem AtomCodec.opens_read (codec : AtomCodec) : Opens nested nested' codec.read codec.read := by
  unfold AtomCodec.read
  dsimp only
  split
  · refine opens_marker fun marker => ?_
    cases codec.markers.offset? marker with
    | some offset => exact .pure _
    | none =>
      dsimp only
      split
      · exact .pure none
      · exact .throw _
  · refine (opens_shortest _ _).bind fun code => ?_
    cases code with
    | some code => exact .bind (.ofExcept _) fun _ => .pure _
    | none => exact .pure none
  · exact (opens_shortest _ _).bind fun _ => .pure _
  · refine opens_marker fun marker => ?_
    split
    · exact .pure none
    · cases codec.markers.offset? marker with
      | some offset =>
        dsimp only
        split
        · exact .bind (.pure _) fun _ => .bind (.utf8 _) fun _ => .pure _
        · exact .bind (.readPayload _ _ _) fun _ => .bind (.utf8 _) fun _ => .pure _
      | none => exact .bind (.throw _) fun _ => .bind (.utf8 _) fun _ => .pure _
  · exact (opens_counted _ _ .bits).bind fun _ => .pure _
  · exact (opens_counted _ _ .utf8).bind fun _ => .pure _
  · exact (opens_counted _ _ .bytes).bind fun _ => .pure _
  · exact (opens_counted _ _ fun count => (Alike.readWord _ _).repeated count).bind fun _ => .pure _

/-- A field is read through the reader of nested values, and then fitted. -/
theorem Alike.readField [RecordEquality] (self : Codec) (field : Field) :
    Alike nested nested' (field.read nested self) (field.read nested' self) := by
  unfold Field.read
  dsimp only
  split
  · refine .bind (.nested _) fun value => ?_
    split
    · exact .bind (.throw _) fun _ => .pure _
    · exact .pure _
  · exact .bind (.nested _) fun _ => .ofExcept _

/-- A run of reads is alike if its steps are. -/
theorem Alike.foldlM {σ : Type} {step step' : β → σ → Read β} (h : ∀ b a, Alike nested nested' (step b a) (step' b a))
    (items : List σ) (start : β) : Alike nested nested' (items.foldlM step start) (items.foldlM step' start) := by
  induction items generalizing start with
  | nil => exact .pure start
  | cons item items ih =>
    rw [List.foldlM_cons, List.foldlM_cons]
    exact .bind (h start item) ih

/-- The readers of a codec start with a marker and go on alike, whatever reads nested values. -/
theorem Codec.opens_read [RecordEquality] (nested nested' : Element → Read Value) (codec : Codec) :
    Opens nested nested' (codec.read nested) (codec.read nested') := by
  cases codec with
  | null => exact opens_opening _ _ (.pure _)
  | atom codec => exact codec.opens_read.bind fun _ => .pure _
  | enumeration markers type variants =>
    refine opens_opening _ _ (.bind (.signed 1) fun ordinal => ?_)
    split
    · exact .pure _
    · exact .throw _
  | sequence markers kind element =>
    exact (opens_counted _ _ fun count => (Alike.readIn element kind.name).repeated count).bind fun _ => .pure _
  | collection markers element =>
    exact opens_opening _ _ (.bind (.delimited _ element _) fun _ => .pure _)
  | map markers key value =>
    refine (opens_counted _ _ fun count => Alike.repeated ?_ count).bind fun _ => .pure _
    exact .bind (.readIn key _) fun _ => .bind (.readIn value _) fun _ => .pure _
  | array markers type element =>
    refine opens_opening _ _ (.bind (.signed 4) fun count => ?_)
    dsimp only
    split
    · exact .bind (.throw _) fun _ => .bind ((Alike.nested element).repeated _) fun _ => .pure _
    · exact .bind ((Alike.nested element).repeated _) fun _ => .pure _
  | record markers type fresh fields =>
    refine opens_opening _ _ (.bind (.foldlM (fun slots field => ?_) fields fresh) fun _ => .pure _)
    exact .bind (.readField _ field) fun _ => .pure _

end Bytemark
