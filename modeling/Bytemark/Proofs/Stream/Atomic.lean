import Bytemark.Proofs.Reading.Delimited
import Bytemark.Proofs.Stream.Law

/-!
# Calls on streams are atomic

A serializer undoes a failed call by cutting its output to the length that it had before the call, and a deserializer by
going back to where it stood. The latter is a matter of keeping a copy. The former is right only because no writer ever
touches bytes that were there before it, however deep inside a value it fails.

A deserializer stands somewhere in the bytes that it was made for. Every call keeps it there: one that fails moves
nothing, one that succeeds moves it forward, and iteration moves it to the end after the first failure. So whatever has
been called before, the bytes left are those behind its position.
-/

set_option autoImplicit false

namespace Bytemark

namespace Serializer

/-- How a call that writes by `write` may end: with the bytes that `write` gives on its own behind those that were
there, or with the error that it gives on its own and nothing changed. -/
def Whole (write : Write) (before : Serializer) : EStateM.Result Error Serializer Unit → Prop
  | .ok _ after =>
    ∃ alone, write #[] = .ok () alone ∧ after.registry = before.registry ∧
      after.toList = before.toList ++ alone.toList
  | .error e after => after = before ∧ ∃ part, write #[] = .error e part

/-- A writer that does not depend on what stands in front of it writes all or nothing. -/
theorem whole_run {write : Write} (huniform : Uniform write) (serializer : Serializer) :
    serializer.Whole write (run write serializer) := by
  obtain ⟨registry, output⟩ := serializer
  obtain ⟨result, bytes, happends⟩ := huniform
  unfold run Output.guarded
  dsimp only
  rw [happends output]
  cases result with
  | ok _ => exact ⟨#[] ++ bytes, happends #[], rfl, by simp [toList]⟩
  | error e =>
    dsimp only
    rw [Output.truncate_append]
    exact ⟨rfl, #[] ++ bytes, happends #[]⟩

/-- Appending a value writes all of it or nothing. -/
theorem whole_append [RecordEquality] (serializer : Serializer) (value : Value) :
    serializer.Whole (serializer.registry.write value) (append value serializer) :=
  serializer.whole_run (serializer.registry.uniform_writeAs value .any)

/-- Appending a value in a given coding writes all of it or nothing. -/
theorem whole_appendAs [RecordEquality] (serializer : Serializer) (element : Element) (value : Value) :
    serializer.Whole (serializer.registry.writeAs value element) (appendAs element value serializer) :=
  serializer.whole_run (serializer.registry.uniform_writeAs value element)

end Serializer

namespace Deserializer

/-- A call on a deserializer. -/
inductive Call
  | read
  | readAs (element : Element)
  | next

/-- The deserializer that a call leaves behind, whether it succeeds or fails. -/
def left {α : Type} : EStateM.Result Error Deserializer α → Deserializer
  | .ok _ after => after
  | .error _ after => after

/-- A deserializer after a call. -/
def step [RecordEquality] (state : Deserializer) : Call → Deserializer
  | .read => left (read state)
  | .readAs element => left (readAs element state)
  | .next =>
    match state.next with
    | some (_, next) => next
    | none => state

/-- A deserializer at the start of some bytes, after some calls. -/
def after [RecordEquality] (registry : Registry) (data : List UInt8) (calls : List Call) : Deserializer :=
  calls.foldl step (ofBytes registry data)

/-- The deserializer stands in `data`, and what is left is what lies behind its position. -/
structure Over (data : List UInt8) (state : Deserializer) : Prop where
  total : state.total = data.length
  input : state.input = data.drop state.position

/-- How a call may end: nothing has changed, or the position has moved forward in `data`. -/
def Moves {α : Type} (data : List UInt8) (before : Deserializer) : EStateM.Result Error Deserializer α → Prop
  | .ok _ after =>
    after.registry = before.registry ∧ after.Over data ∧ before.position < after.position ∧
      after.position ≤ data.length
  | .error _ after => after = before

variable {α : Type} {data : List UInt8} {state : Deserializer}

/-- At first nothing has been read, and everything is left. -/
theorem over_ofBytes (registry : Registry) (data : List UInt8) : Over data (ofBytes registry data) := by
  refine ⟨rfl, ?_⟩
  simp [ofBytes, position, available]

/-- The position is never past the end of the data. -/
theorem Over.position_le (h : Over data state) : state.position ≤ data.length := by
  rw [← h.total]
  exact Nat.sub_le ..

/-- What lies at the end of the bytes left lies at the end of all bytes. -/
theorem Over.of_suffix {front rest : Input} (h : Over data state) (hinput : state.input = front ++ rest) :
    Over data { state with input := rest } ∧
      ({ state with input := rest } : Deserializer).position = state.position + front.length := by
  obtain ⟨registry, total, input⟩ := state
  obtain ⟨htotal, hdrop⟩ := h
  simp only [position, available] at htotal hdrop hinput ⊢
  subst hinput htotal
  have hlength := congrArg List.length hdrop
  rw [List.length_append, List.length_drop] at hlength
  have hposition : data.length - rest.length = data.length - (front ++ rest).length + front.length := by
    rw [List.length_append]
    omega
  refine ⟨⟨rfl, ?_⟩, hposition⟩
  simp only [position, available]
  rw [hposition, ← List.drop_drop, ← hdrop, List.drop_left]

/-- A reader that takes bytes from the front, and at least one of them, is run to the end or not at all. -/
theorem Over.moves_run {read : Read α} (h : Over data state) (hdelimited : Delimited read)
    (hshortens : Shortens read) : Moves data state (run read state) := by
  unfold run Input.guarded
  dsimp only
  cases hread : read state.input with
  | error e left => rfl
  | ok a rest =>
    obtain ⟨front, hfront⟩ := hdelimited.front hread
    obtain ⟨hover, hposition⟩ := h.of_suffix hfront
    have hshorter := hshortens hread
    rw [hfront, List.length_append] at hshorter
    exact ⟨rfl, hover, by rw [hposition]; omega, hover.position_le⟩

/-- Reading a value moves forward, or fails and does not move. -/
theorem Over.moves_read [RecordEquality] (h : Over data state) : Moves data state (read state) :=
  h.moves_run (state.registry.delimited_readAs .any) (state.registry.shortens_readAs .any)

/-- Reading a value in a given coding moves forward, or fails and does not move. -/
theorem Over.moves_readAs [RecordEquality] (h : Over data state) (element : Element) : Moves data state
    (readAs element state) := by
  have hmoves := h.moves_run (state.registry.delimited_readAs element) (state.registry.shortens_readAs element)
  -- Whether a null stands for no value is asked after the bytes have been taken.
  show Moves data state ((run (state.registry.readAs element) >>= _) state)
  simp only [bind, EStateM.bind]
  cases hrun : run (state.registry.readAs element) state with
  | error e next => rwa [hrun] at hmoves
  | ok value next => rwa [hrun] at hmoves

/-- Wherever a call has moved to, what is left lies behind the position. -/
theorem Over.of_moves {outcome : EStateM.Result Error Deserializer α} (h : Over data state)
    (hmoves : Moves data state outcome) : Over data (left outcome) := by
  cases outcome with
  | ok a next => exact hmoves.2.1
  | error e next =>
    obtain rfl : next = state := hmoves
    exact h

/-- After every call, what is left lies behind the position. -/
theorem Over.step [RecordEquality] (h : Over data state) (call : Call) : Over data (state.step call) := by
  cases call with
  | read => exact h.of_moves h.moves_read
  | readAs element => exact h.of_moves (h.moves_readAs element)
  | next =>
    have hmoves := h.moves_read
    unfold Deserializer.step Deserializer.next
    dsimp only
    split
    · rename_i next hnext
      split at hnext
      · cases hnext
      · split at hnext
        · rename_i value rest hread
          cases hnext
          rw [hread] at hmoves
          exact hmoves.2.1
        · rename_i e rest hread
          cases hnext
          rw [hread] at hmoves
          obtain rfl : rest = state := hmoves
          exact (h.of_suffix (List.append_nil _).symm).1
    · exact h

/-- Whatever has been called, a deserializer stands in the bytes that it was made for. -/
theorem over_after [RecordEquality] (registry : Registry) (data : List UInt8) (calls : List Call) :
    Over data (after registry data calls) := by
  suffices hfold : ∀ state, Over data state → Over data (calls.foldl Deserializer.step state) from
    hfold _ (over_ofBytes registry data)
  induction calls with
  | nil => exact fun _ h => h
  | cons call calls ih => exact fun state h => ih _ (h.step call)

end Deserializer

/-- A writer adds bytes behind those that are there, also when it fails midway, and neither these bytes nor its outcome
depend on what was there. So a serializer that fails to append a value is left as it was, and one that succeeds gets
what the writer gives on its own. A deserializer that has got anywhere in its bytes by calls of any kind stays where it
is when a read fails, and moves forward within these bytes when one succeeds. -/
theorem stream_calls_atomic [RecordEquality] :
    (∀ (registry : Registry) (value : Value) (element : Element), ∃ (result : Except Error Unit) (bytes : List UInt8),
      ∀ output : Output, registry.writeAs value element output = match result with
        | .ok _ => .ok () (output ++ bytes)
        | .error e => .error e (output ++ bytes)) ∧
    (∀ (serializer : Serializer) (value : Value),
      serializer.Whole (serializer.registry.write value) (serializer.append value) ∧
      ∀ element, serializer.Whole (serializer.registry.writeAs value element) (serializer.appendAs element value)) ∧
    ∀ (registry : Registry) (data : List UInt8) (calls : List Deserializer.Call),
      let state := Deserializer.after registry data calls
      state.Over data ∧ Deserializer.Moves data state state.read ∧
        ∀ element, Deserializer.Moves data state (state.readAs element) := by
  refine ⟨Registry.uniform_writeAs, fun serializer value => ?_, fun registry data calls => ?_⟩
  · exact ⟨serializer.whole_append value, fun element => serializer.whole_appendAs element value⟩
  · have hover := Deserializer.over_after registry data calls
    exact ⟨hover, hover.moves_read, hover.moves_readAs⟩

end Bytemark
