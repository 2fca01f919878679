import Bytemark.Registry.Write

/-!
# Writers only append

What a writer appends and how it ends do not depend on what has been written before. This holds of the primitive writers
and is kept by sequencing, so it holds of the writers of all values. It is the reason why a failed write can be undone
by cutting the output, and why the bytes of a value can be spoken of without the output they are written to.
-/

set_option autoImplicit false

namespace Bytemark

/-- Whatever has been written before, `write` appends `bytes` and ends with `result`. -/
def Appends (write : Write) (result : Except Error Unit) (bytes : List UInt8) : Prop :=
  ∀ output : Output, write output = match result with
    | .ok _ => .ok () (output ++ bytes)
    | .error e => .error e (output ++ bytes)

/-- `write` succeeds and appends `bytes`. -/
abbrev Emits (write : Write) (bytes : List UInt8) : Prop := Appends write (.ok ()) bytes

/-- What `write` appends does not depend on what has been written before. -/
def Uniform (write : Write) : Prop := ∃ result bytes, Appends write result bytes

/-- Bytes appended in two parts are appended. -/
theorem Output.append_assoc (output : Output) (front back : List UInt8) :
    output ++ front ++ back = output ++ (front ++ back) := by
  apply Array.toList_inj.1
  simp

namespace Emits

/-- Nothing is written without a step. -/
theorem pure : Emits (pure ()) [] := by
  intro output
  simp [Pure.pure, EStateM.pure]

/-- Bytes are written as they are. -/
theorem bytes (data : List UInt8) : Emits (Output.bytes data) data := Output.bytes_apply data

/-- A marker is written as its byte. -/
theorem marker (marker : Marker) : Emits (Output.marker marker) [marker.toByte] := Output.marker_apply marker

/-- A marker and a number are written one after the other. -/
theorem markerAnd (marker : Marker) (value : Int) (width : Nat) :
    Emits (Output.markerAnd marker value width) (marker.toByte :: BigEndian.encode width value) :=
  Output.markerAnd_apply marker value width

/-- A writer writes no more than one thing. -/
theorem unique {write : Write} {bytes bytes' : List UInt8} (h : Emits write bytes) (h' : Emits write bytes') :
    bytes = bytes' := by
  have heq := (h #[]).symm.trans (h' #[])
  simpa using heq

end Emits

namespace Appends

variable {first : Write} {next : Unit → Write} {result : Except Error Unit} {front back : List UInt8}

/-- What fails at once has written nothing. -/
theorem throw (e : Error) : Appends (throw e) (.error e) [] := by
  intro output
  have hnothing : output ++ ([] : List UInt8) = output := by simp
  exact congrArg (EStateM.Result.error e) hnothing.symm

/-- Two writers in a row append the bytes of both. -/
theorem bind (hfirst : Emits first front) (hnext : Appends (next ()) result back) :
    Appends (first >>= next) result (front ++ back) := by
  intro output
  simp only [Bind.bind, EStateM.bind]
  rw [hfirst output]
  dsimp only
  rw [hnext (output ++ front)]
  cases result <;> simp only [Output.append_assoc]

/-- If the first writer fails, the second does not get to write. -/
theorem bind_error {e : Error} (hfirst : Appends first (.error e) front) :
    Appends (first >>= next) (.error e) front := by
  intro output
  simp only [Bind.bind, EStateM.bind]
  rw [hfirst output]

end Appends

namespace Uniform

/-- What always writes the same bytes depends on nothing. -/
theorem of_emits {write : Write} {bytes : List UInt8} (h : Emits write bytes) : Uniform write := ⟨_, _, h⟩

/-- What fails at once depends on nothing. -/
theorem throw (e : Error) : Uniform (throw e) := ⟨_, _, .throw e⟩

/-- Two writers in a row depend on nothing if neither does. -/
theorem bind {first : Write} {next : Unit → Write} (hfirst : Uniform first) (hnext : Uniform (next ())) :
    Uniform (first >>= next) := by
  obtain ⟨result, front, hfirst⟩ := hfirst
  obtain ⟨result', back, hnext⟩ := hnext
  cases result with
  | ok _ => exact ⟨_, _, hfirst.bind hnext⟩
  | error e => exact ⟨_, _, hfirst.bind_error⟩

/-- An answer that is given is the same whatever has been written. -/
theorem ofExcept {α : Type} {answer : Except Error α} {next : α → Write} (hnext : ∀ a, Uniform (next a)) :
    Uniform (MonadExcept.ofExcept answer >>= next) := by
  cases answer with
  | ok a => exact hnext a
  | error e => exact .throw e

/-- A run of writers depends on nothing if none of them does. -/
theorem forM {α : Type} {items : List α} {write : α → Write} (h : ∀ item ∈ items, Uniform (write item)) :
    Uniform (items.forM write) := by
  induction items with
  | nil => exact .of_emits .pure
  | cons item items ih =>
    refine bind (h item List.mem_cons_self) (ih fun item hitem => ?_)
    exact h item (List.mem_cons_of_mem _ hitem)

/-- What a sequence of two writers emits falls into what either of them emits. -/
theorem emits_bind {first : Write} {next : Unit → Write} {bytes : List UInt8} (hfirst : Uniform first)
    (hnext : Uniform (next ())) (h : Emits (first >>= next) bytes) :
    ∃ front back, Emits first front ∧ Emits (next ()) back ∧ bytes = front ++ back := by
  obtain ⟨result, front, hfirst⟩ := hfirst
  obtain ⟨result', back, hnext⟩ := hnext
  cases result with
  | error e => exact nomatch (h #[]).symm.trans (hfirst.bind_error #[])
  | ok _ =>
    cases result' with
    | error e => exact nomatch (h #[]).symm.trans (hfirst.bind hnext #[])
    | ok _ => exact ⟨front, back, hfirst, hnext, h.unique (hfirst.bind hnext)⟩

/-- What a uniform writer has done once, it does whatever has been written before. -/
theorem emits_of_ok {write : Write} (huniform : Uniform write) {output written : Output}
    (h : write output = .ok () written) : ∃ bytes, Emits write bytes ∧ written = output ++ bytes := by
  obtain ⟨result, bytes, happends⟩ := huniform
  have hsame := h.symm.trans (happends output)
  cases result with
  | error e => cases hsame
  | ok _ =>
    injection hsame with _ hwritten
    exact ⟨bytes, happends, hwritten⟩

end Uniform

/-- What fails writes nothing that counts. -/
theorem not_emits_throw {e : Error} {bytes : List UInt8} : ¬ Emits (throw e) bytes :=
  fun h => nomatch (h #[]).symm.trans (Appends.throw e #[])

/-- A size is written alike behind any bytes. -/
theorem Size.uniform_write (base : Marker) (size : Nat) : Uniform (Size.write base size) := by
  unfold Size.write
  split
  · exact .of_emits (.markerAnd _ _ _)
  · exact .throw _

/-- A mismatch is refused alike behind any bytes. -/
theorem AtomCodec.uniform_mismatch (codec : AtomCodec) (atom : Atom) : Uniform (codec.mismatch atom) := .throw _

/-- A number is written alike behind any bytes. -/
theorem Shortest.uniform_write (range : MarkerRange) (value : Int) : Uniform (Shortest.write range value) :=
  .of_emits (.markerAnd _ _ _)

/-- An atom is written alike behind any bytes. -/
theorem AtomCodec.uniform_write (codec : AtomCodec) (atom : Atom) : Uniform (codec.write atom) := by
  unfold AtomCodec.write
  dsimp only
  split
  · exact .of_emits (.marker _)
  · exact Shortest.uniform_write ..
  · split
    · exact Shortest.uniform_write ..
    · exact codec.uniform_mismatch _
  · split
    · exact (Uniform.of_emits (.marker _)).bind (.of_emits (.bytes _))
    · exact (Size.uniform_write ..).bind (.of_emits (.bytes _))
  · exact (Size.uniform_write ..).bind (.of_emits (.bytes _))
  · exact (Size.uniform_write ..).bind (.of_emits (.bytes _))
  · split
    · refine (Size.uniform_write ..).bind ?_
      split
      · exact .of_emits (.bytes _)
      · exact .forM fun item _ => Shortest.uniform_write ..
    · exact codec.uniform_mismatch _
  · exact codec.uniform_mismatch _

namespace Registry

variable {registry : Registry}

/-- Elements are written one after the other. -/
theorem writeItems_eq_forM [RecordEquality] (items : List Value) (part : Element) :
    registry.writeItems items part = items.forM fun item => registry.writeAs item part := by
  induction items with
  | nil => rfl
  | cons item items ih =>
    rw [writeItems, ih]
    rfl

/-- Entries are written one after the other, each key in front of its value. -/
theorem writeEntries_eq_forM [RecordEquality] (entries : List (Value × Value)) (key value : Element) :
    registry.writeEntries entries key value = entries.forM fun entry =>
      registry.writeAs entry.1 key >>= fun _ => registry.writeAs entry.2 value := by
  induction entries with
  | nil => rfl
  | cons entry entries ih =>
    rw [writeEntries, ih]
    exact (bind_assoc ..).symm

/-- Elements are written alike behind any bytes if each of them is. -/
theorem uniform_writeItems [RecordEquality] {items : List Value} {part : Element}
    (h : ∀ item ∈ items, ∀ element, Uniform (registry.writeAs item element)) :
    Uniform (registry.writeItems items part) := by
  rw [writeItems_eq_forM]
  exact .forM fun item hitem => h item hitem part

/-- Entries are written alike behind any bytes if each key and each value is. -/
theorem uniform_writeEntries [RecordEquality] {entries : List (Value × Value)} {key value : Element}
    (h : ∀ entry ∈ entries, (∀ element, Uniform (registry.writeAs entry.1 element)) ∧
      ∀ element, Uniform (registry.writeAs entry.2 element)) :
    Uniform (registry.writeEntries entries key value) := by
  rw [writeEntries_eq_forM]
  exact .forM fun entry hentry => ((h entry hentry).1 key).bind ((h entry hentry).2 value)

/-- A slot is written by writing its value. -/
theorem lookup_slotWriters [RecordEquality] (slots : List (String × Value)) (name : String) :
    (registry.slotWriters slots).lookup name = (slots.lookup name).map registry.writeAs := by
  induction slots with
  | nil => rfl
  | cons slot slots ih =>
    rw [slotWriters, List.lookup_cons, List.lookup_cons, ih]
    split <;> rfl

/-- A field is written alike behind any bytes if the slots are. -/
theorem uniform_writeField [RecordEquality] {slots : List (String × Value)}
    (h : ∀ slot ∈ slots, ∀ element, Uniform (registry.writeAs slot.2 element)) (self : Codec) (field : Field) :
    Uniform (field.write (registry.slotWriters slots) self) := by
  unfold Field.write
  rw [lookup_slotWriters]
  cases hslot : slots.lookup field.info.source with
  | none => exact .of_emits (.marker _)
  | some value => exact h _ (Value.mem_of_lookup hslot) _

/-- What the writer of a value appends does not depend on what has been written before. -/
theorem uniform_writeAs [RecordEquality] (registry : Registry) (value : Value) (element : Element) :
    Uniform (registry.writeAs value element) := by
  induction value using Value.induction generalizing element with
  | null => exact .of_emits (.marker _)
  | atom atom =>
    refine .ofExcept fun codec => ?_
    split
    · exact AtomCodec.uniform_write ..
    · exact .throw _
  | variant type index =>
    refine .ofExcept fun codec => ?_
    split
    · split
      · split
        · exact .of_emits (.markerAnd _ _ _)
        · exact .throw _
      · exact .throw _
    · exact .throw _
  | sequence kind items ih =>
    refine .ofExcept fun codec => ?_
    split
    · split
      · exact (Size.uniform_write ..).bind (uniform_writeItems ih)
      · exact .throw _
    · split
      · refine (Uniform.of_emits (.marker _)).bind ((uniform_writeItems ih).bind ?_)
        exact .of_emits (.marker _)
      · exact .throw _
    · exact .throw _
  | map entries ih =>
    refine .ofExcept fun codec => ?_
    split
    · exact (Size.uniform_write ..).bind (uniform_writeEntries ih)
    · exact .throw _
  | array type items ih =>
    refine .ofExcept fun codec => ?_
    split
    · split
      · split
        · exact (Uniform.of_emits (.markerAnd _ _ _)).bind (uniform_writeItems ih)
        · exact .throw _
      · exact .throw _
    · exact .throw _
  | record type slots ih =>
    refine .ofExcept fun codec => ?_
    split
    · dsimp only
      split
      · refine (Uniform.of_emits (.marker _)).bind (.forM fun field _ => ?_)
        exact uniform_writeField ih _ field
      · exact .throw _
    · exact .throw _

end Registry

end Bytemark
