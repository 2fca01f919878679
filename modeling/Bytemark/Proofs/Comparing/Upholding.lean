import Bytemark.Proofs.Reading.Depth
import Bytemark.Proofs.Writing.Appending

/-!
# One computation in the place of another

`Upholds excused old new` says that `new` may stand where `old` stood: it does the same from every state, failures
included, except from states where `old` fails with an error that is excused. What `old` achieves, `new` achieves too.

Sequences, runs and delimited runs of computations uphold each other when their parts do. So do two readers that are put
together in the same way from nested readers that uphold each other, which covers the readers of all codecs at once.
-/

set_option autoImplicit false

namespace Bytemark

/-- From every state `new` does what `old` does, unless `old` fails there with an excused error. -/
def Upholds {σ α : Type} (excused : Error → Prop) (old new : EStateM Error σ α) : Prop :=
  ∀ state, new state = old state ∨ ∃ e left, excused e ∧ old state = .error e left

namespace Upholds

variable {σ α β : Type} {excused : Error → Prop} {old new : EStateM Error σ α}

/-- A computation upholds itself. -/
theorem refl (old : EStateM Error σ α) : Upholds excused old old := fun _ => .inl rfl

/-- Where the old computation succeeds, the new one does the same. -/
theorem ok (h : Upholds excused old new) {state last : σ} {a : α} (hok : old state = .ok a last) :
    new state = .ok a last := by
  rcases h state with hsame | ⟨e, left, -, herror⟩
  · rw [hsame, hok]
  · rw [hok] at herror
    cases herror

/-- With no excuse the new computation is the old one. -/
theorem eq (h : Upholds (fun _ => False) old new) : new = old :=
  funext fun state => (h state).resolve_right fun ⟨_, _, hexcused, _⟩ => hexcused

/-- A sequence is upheld step by step. -/
theorem bind {next next' : α → EStateM Error σ β} (h : Upholds excused old new)
    (hnext : ∀ a, Upholds excused (next a) (next' a)) : Upholds excused (old >>= next) (new >>= next') := by
  intro state
  simp only [Bind.bind, EStateM.bind]
  rcases h state with hsame | ⟨e, left, hexcused, herror⟩
  · rw [hsame]
    cases old state with
    | ok a mid => exact hnext a mid
    | error e mid => exact .inl rfl
  · rw [herror]
    exact .inr ⟨e, left, hexcused, rfl⟩

/-- An answer is upheld by the same answer, and by every one if it is an excused error. -/
theorem ofExcept {answer answer' : Except Error α} (h : answer' = answer ∨ ∃ e, excused e ∧ answer = .error e) :
    Upholds excused (MonadExcept.ofExcept answer : EStateM Error σ α) (MonadExcept.ofExcept answer') := by
  rcases h with rfl | ⟨e, hexcused, rfl⟩
  · exact refl _
  · exact fun state => .inr ⟨e, state, hexcused, rfl⟩

/-- A choice is upheld in both of its branches. -/
theorem ite {condition : Prop} [Decidable condition] {old' new' : EStateM Error σ α} (h : Upholds excused old new)
    (h' : Upholds excused old' new') :
    Upholds excused (if condition then old else old') (if condition then new else new') := by
  by_cases hcondition : condition
  · rw [if_pos hcondition, if_pos hcondition]
    exact h
  · rw [if_neg hcondition, if_neg hcondition]
    exact h'

/-- A run of writers is upheld by the writers for its items. -/
theorem forM {write write' : α → EStateM Error σ Unit} {items : List α}
    (h : ∀ item ∈ items, Upholds excused (write item) (write' item)) :
    Upholds excused (items.forM write) (items.forM write') := by
  induction items with
  | nil => exact refl _
  | cons item items ih =>
    refine bind (h item List.mem_cons_self) fun _ => ih fun item hitem => ?_
    exact h item (List.mem_cons_of_mem _ hitem)

/-- A number of reads is upheld by the read of an item. -/
theorem repeated {item item' : Read α} (h : Upholds excused item item') (count : Nat) :
    Upholds excused (Input.repeated count item) (Input.repeated count item') := by
  unfold Input.repeated
  generalize ([] : List α) = done
  induction count generalizing done with
  | zero => exact refl _
  | succ count ih =>
    rw [Input.repeatOnto_succ, Input.repeatOnto_succ]
    exact h.bind fun a => ih (a :: done)

/-- Items up to an end mark are upheld by the read of an item. -/
theorem readDelimited {item item' : Read Value} (h : Upholds excused item item') (last : Marker) :
    Upholds excused (readDelimited last item) (Bytemark.readDelimited last item') := by
  -- The bound is the same on both sides, since it is counted on the input that both start from.
  have hrun : ∀ bound done, Upholds excused (readUntil last item bound done) (readUntil last item' bound done) := by
    intro bound
    induction bound with
    | zero => exact fun done => refl _
    | succ bound ih =>
      intro done
      rw [readUntil_succ, readUntil_succ]
      refine (refl Input.peek).bind fun marker => ?_
      split
      · exact refl _
      · exact h.bind fun value => ih (value :: done)
  exact fun input => hrun input.length [] input

/-- What is read behind a size is upheld by the read for each size. -/
theorem counted {payload payload' : Nat → Read α} (h : ∀ size, Upholds excused (payload size) (payload' size))
    (base : Marker) (target : String) :
    Upholds excused (Size.counted base target payload) (Size.counted base target payload') := by
  refine (refl (Size.read base target)).bind fun size => ?_
  cases size with
  | none => exact refl _
  | some size => exact (h size).bind fun _ => refl _

/-- What is read behind an opening marker is upheld by the read of the content. -/
theorem opening {content content' : Read Value} (h : Upholds excused content content') (markers : MarkerRange)
    (target : String) : Upholds excused (markers.opening target content) (markers.opening target content') := by
  refine (refl Input.marker).bind fun marker => ?_
  split
  · exact refl _
  · split
    · exact refl _
    · exact h

/-- A part is upheld by the reader of nested values. -/
theorem readIn {nested nested' : Element → Read Value} {element : Element}
    (h : Upholds excused (nested element) (nested' element)) (target : String) :
    Upholds excused (element.readIn nested target) (element.readIn nested' target) :=
  h.bind fun _ => refl _

end Upholds

/-- Two readers that are put together in the same way uphold each other if their nested readers do. -/
theorem Alike.upholds {nested nested' : Element → Read Value} {α : Type} {excused : Error → Prop}
    {read read' : Read α} (halike : Alike nested nested' read read')
    (h : ∀ element, Upholds excused (nested element) (nested' element)) : Upholds excused read read' := by
  induction halike with
  | pure a => exact .refl _
  | throw e => exact .refl _
  | bytes count => exact .refl _
  | marker => exact .refl _
  | nested element => exact h element
  | bind _ _ first rest => exact first.bind rest
  | delimited last element target => exact ((h element).readIn target).readDelimited last

/-! ## Registries

What a registry does with a value hangs on its answers by type, and what it does with bytes on the owners of markers.
-/

namespace Registry

variable {registry next : Registry} {excused : Error → Prop}

/-- Elements are upheld by what becomes of each of them. -/
theorem upholds_writeItems [RecordEquality] {items : List Value}
    (h : ∀ item ∈ items, ∀ element, Upholds excused (registry.writeAs item element) (next.writeAs item element))
    (part : Element) : Upholds excused (registry.writeItems items part) (next.writeItems items part) := by
  rw [writeItems_eq_forM, writeItems_eq_forM]
  exact .forM fun item hitem => h item hitem part

/-- A field is upheld by what becomes of the slots. -/
theorem upholds_writeField [RecordEquality] {slots : List (String × Value)}
    (h : ∀ slot ∈ slots, ∀ element, Upholds excused (registry.writeAs slot.2 element) (next.writeAs slot.2 element))
    (self : Codec) (field : Field) :
    Upholds excused (field.write (registry.slotWriters slots) self) (field.write (next.slotWriters slots) self) := by
  unfold Field.write
  rw [lookup_slotWriters, lookup_slotWriters]
  cases hslot : slots.lookup field.info.source with
  | none => exact .refl _
  | some value => exact h _ (Value.mem_of_lookup hslot) _

/-- A registry whose answers by type stand writes every value as the other one does. -/
theorem upholds_writeAs [RecordEquality] (h : ∀ type, next.codecForType type = registry.codecForType type ∨
      ∃ e, excused e ∧ registry.codecForType type = .error e) (value : Value) (element : Element) :
    Upholds excused (registry.writeAs value element) (next.writeAs value element) := by
  have hwriter : ∀ (type : ValueType) (element : Element),
      Upholds excused (MonadExcept.ofExcept (element.writer registry type) : EStateM Error Output Codec)
        (MonadExcept.ofExcept (element.writer next type)) := by
    intro type element
    cases element with
    | any => exact .ofExcept (h type)
    | boxed codec => exact .refl _
    | direct codec => exact .refl _
  -- The codec found, what is written besides the parts is the same on both sides.
  induction value using Value.induction generalizing element with
  | null => exact .refl _
  | atom atom => exact (hwriter _ element).bind fun codec => .refl _
  | variant type index => exact (hwriter _ element).bind fun codec => .refl _
  | sequence kind items ih =>
    refine (hwriter _ element).bind fun codec => ?_
    cases codec with
    | sequence markers kind' part => exact .ite ((Upholds.refl _).bind fun _ => upholds_writeItems ih part) (.refl _)
    | collection markers part =>
      refine .ite ((Upholds.refl _).bind fun _ => ?_) (.refl _)
      exact (upholds_writeItems ih part).bind fun _ => .refl _
    | _ => exact .refl _
  | map entries ih =>
    refine (hwriter _ element).bind fun codec => ?_
    cases codec with
    | map markers key value =>
      refine (Upholds.refl _).bind fun _ => ?_
      rw [writeEntries_eq_forM, writeEntries_eq_forM]
      exact .forM fun entry hentry => ((ih entry hentry).1 key).bind fun _ => (ih entry hentry).2 value
    | _ => exact .refl _
  | array type items ih =>
    refine (hwriter _ element).bind fun codec => ?_
    cases codec with
    | array markers type' part =>
      exact .ite (.ite ((Upholds.refl _).bind fun _ => upholds_writeItems ih part) (.refl _)) (.refl _)
    | _ => exact .refl _
  | record type slots ih =>
    refine (hwriter _ element).bind fun codec => ?_
    cases codec with
    | record markers type' fresh fields =>
      refine .ite ((Upholds.refl _).bind fun _ => ?_) (.refl _)
      exact .forM fun field _ => upholds_writeField ih _ field
    | _ => exact .refl _

/-- A registry in which markers keep their owners reads all bytes as the other one does. -/
theorem upholds_readAs [RecordEquality] (h : ∀ marker, next.codecForMarker marker = registry.codecForMarker marker ∨
      ∃ e, excused e ∧ registry.codecForMarker marker = .error e) (element : Element) :
    Upholds excused (registry.readAs element) (next.readAs element) := by
  have hselect : ∀ element : Element, Upholds excused (registry.select element) (next.select element) := by
    intro element
    cases element with
    | any => exact (Upholds.refl _).bind fun marker => .ofExcept (h marker)
    | boxed codec => exact .refl _
    | direct codec => exact .refl _
  have hpart : ∀ (depth : Nat) (element : Element),
      Upholds excused (registry.readPart depth element) (next.readPart depth element) := by
    intro depth
    induction depth with
    | zero => exact fun element => .refl _
    | succ depth ih => exact fun element => (hselect element).bind fun codec => (codec.opens_read _ _).alike.upholds ih
  exact fun input => hpart input.length element input

end Registry

end Bytemark
