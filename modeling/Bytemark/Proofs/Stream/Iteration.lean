import Bytemark.Proofs.Reading.Splitting
import Bytemark.Proofs.Stream.Atomic

/-!
# Iteration cuts the bytes into values

Iteration reads value after value from where the last one ended. It stops where the bytes end, or at the first error,
which it yields before it skips the rest. So any bytes at all are cut into the spans of the values, none of them empty,
and what cannot be read behind them, unless the bytes end with the last span.

What a step yields and where it leads to is settled first (`next_outcome`); the cut is then found from the front, one
span a step.
-/

set_option autoImplicit false

namespace Bytemark

namespace Deserializer

/-- The deserializer after some steps of the iteration. -/
def iterated [RecordEquality] (state : Deserializer) (steps : Nat) : Deserializer :=
    (List.replicate steps Call.next).foldl step state

/-- What the next step of the iteration yields. -/
def yielded [RecordEquality] (state : Deserializer) : Option (Except Error Value) := state.next.map Prod.fst

/-- The spans of some values, and the bytes behind them that cannot be read with the error that they give, if the bytes
do not end there. -/
structure Cut where
  spans : List Span
  failure : Option (List UInt8 × Error)

namespace Cut

/-- The bytes behind the spans. -/
def tail (cut : Cut) : List UInt8 := (cut.failure.map Prod.fst).getD []

/-- The bytes from one of the spans on. -/
def rest (cut : Cut) (place : Nat) : List UInt8 := (cut.spans.drop place).flatMap Span.bytes ++ cut.tail

/-- What is yielded: the values, and then the error, if there is one. -/
def items (cut : Cut) : List (Except Error Value) :=
  (cut.spans.map fun span => .ok span.value) ++ cut.failure.toList.map fun failure => .error failure.2

/-- The iteration from a deserializer on follows a cut. -/
structure FollowedFrom [RecordEquality] (cut : Cut) (state : Deserializer) : Prop where
  /-- The spans and the bytes behind them are the bytes left. -/
  covers : cut.rest 0 = state.input
  /-- A span is not empty, and reading at its start gives its value and ends where the next one starts. -/
  reads : ∀ place span, cut.spans[place]? = some span →
    span.bytes ≠ [] ∧ state.registry.read (cut.rest place) = .ok span.value (cut.rest (place + 1))
  /-- Reading fails behind the last span, if any bytes are left there. -/
  fails : ∀ bytes e, cut.failure = some (bytes, e) → bytes ≠ [] ∧ ∃ left, state.registry.read bytes = .error e left
  /-- As long as there are values, the iteration stands at the start of the next span. -/
  stands : ∀ steps ≤ cut.spans.length, state.iterated steps = { state with input := cut.rest steps }
  /-- In the end it has skipped all bytes. -/
  ends : ∀ steps, cut.items.length ≤ steps → state.iterated steps = { state with input := [] }
  /-- Every step yields the next item, and nothing when they are used up. -/
  yields : ∀ steps, (state.iterated steps).yielded = cut.items[steps]?

end Cut

variable {state : Deserializer}

/-- One step more is taken first, and then the others. -/
theorem iterated_succ [RecordEquality] (state : Deserializer) (steps : Nat) :
    state.iterated (steps + 1) = (state.step .next).iterated steps := by
  rw [iterated, List.replicate_succ, List.foldl_cons, iterated]

/-- A value is read from what is left; if that fails, nothing has been taken. -/
theorem read_eq [RecordEquality] (state : Deserializer) :
    read state = match state.registry.read state.input with
      | .ok value rest => .ok value { state with input := rest }
      | .error e _ => .error e state := by
  show run state.registry.read state = _
  unfold run Input.guarded
  dsimp only
  cases state.registry.read state.input <;> rfl

/-- A step of the iteration finds no bytes, or fails and skips them, or reads a value from the front of them. -/
theorem next_outcome [RecordEquality] (state : Deserializer) :
    (state.input = [] ∧ state.next = none) ∨
    (∃ e left, state.input ≠ [] ∧ state.registry.read state.input = .error e left ∧
      state.next = some (.error e, { state with input := [] })) ∨
    ∃ span : Span, ∃ rest, state.input = span.bytes ++ rest ∧ span.bytes ≠ [] ∧
      state.registry.read state.input = .ok span.value rest ∧
      state.next = some (.ok span.value, { state with input := rest }) := by
  by_cases hnil : state.input = []
  · exact .inl ⟨hnil, by simp [next, isEmpty, hnil]⟩
  · right
    cases hread : state.registry.read state.input with
    | error e left =>
      left
      exact ⟨e, left, hnil, rfl, by simp [next, isEmpty, hnil, read_eq, hread, skipToEnd_eq]⟩
    | ok value rest =>
      right
      obtain ⟨front, hfront⟩ := (state.registry.delimited_readAs .any).front hread
      have hshorter := state.registry.shortens_readAs .any hread
      have hbytes : front ≠ [] := by
        rintro rfl
        simp [hfront] at hshorter
      exact ⟨⟨front, value⟩, rest, hfront, hbytes, rfl, by simp [next, isEmpty, hnil, read_eq, hread]⟩

/-- At the end of the bytes nothing happens any more. -/
theorem iterated_of_nil [RecordEquality] (hnil : state.input = []) (steps : Nat) : state.iterated steps = state := by
  have hstep : state.step .next = state := by
    have hnext : state.next = none := by simp [next, isEmpty, hnil]
    rw [step, hnext]
  induction steps with
  | zero => rfl
  | succ steps ih => rw [iterated_succ, hstep, ih]

/-- Nothing is yielded when nothing is left. -/
theorem yielded_of_nil [RecordEquality] (hnil : state.input = []) : state.yielded = none := by
  simp [yielded, next, isEmpty, hnil]

namespace Cut

/-- Behind the first span, what is left is told by the other spans. -/
theorem rest_cons (span : Span) (spans : List Span) (failure : Option (List UInt8 × Error)) (place : Nat) :
    rest ⟨span :: spans, failure⟩ (place + 1) = rest ⟨spans, failure⟩ place := rfl

/-- At first there is the first span, and then what the others leave. -/
theorem rest_cons_zero (span : Span) (spans : List Span) (failure : Option (List UInt8 × Error)) :
    rest ⟨span :: spans, failure⟩ 0 = span.bytes ++ rest ⟨spans, failure⟩ 0 := by
  simp [rest, tail]

/-- The first span yields the first value. -/
theorem items_cons (span : Span) (spans : List Span) (failure : Option (List UInt8 × Error)) :
    items ⟨span :: spans, failure⟩ = .ok span.value :: items ⟨spans, failure⟩ := rfl

/-- Without bytes there is nothing to cut. -/
theorem followedFrom_of_nil [RecordEquality] (hnil : state.input = []) : FollowedFrom ⟨[], none⟩ state := by
  have hsame : { state with input := [] } = state := by rw [← hnil]
  refine ⟨by simp [rest, tail, hnil], by simp, by simp, ?_, ?_, ?_⟩
  · intro steps hsteps
    rw [iterated_of_nil hnil]
    simpa [rest, tail] using hsame.symm
  · intro steps _
    rw [iterated_of_nil hnil, hsame]
  · intro steps
    rw [iterated_of_nil hnil, yielded_of_nil hnil]
    simp [items]

/-- If reading fails at once, no value is yielded, and all bytes are skipped. -/
theorem followedFrom_of_error [RecordEquality] {e : Error} {left : Input} (hinput : state.input ≠ [])
    (hread : state.registry.read state.input = .error e left)
    (hnext : state.next = some (.error e, { state with input := [] })) :
    FollowedFrom ⟨[], some (state.input, e)⟩ state := by
  have hstep : state.step .next = { state with input := [] } := by rw [step, hnext]
  have hrest : rest ⟨[], some (state.input, e)⟩ 0 = state.input := by simp [rest, tail]
  refine ⟨hrest, by simp, ?_, ?_, ?_, ?_⟩
  · rintro bytes e' hfailure
    cases hfailure
    exact ⟨hinput, left, hread⟩
  · intro steps hsteps
    obtain rfl : steps = 0 := Nat.le_zero.1 hsteps
    rw [hrest]
    rfl
  · intro steps hsteps
    cases steps with
    | zero => simp [items] at hsteps
    | succ steps => rw [iterated_succ, hstep, iterated_of_nil rfl]
  · intro steps
    cases steps with
    | zero =>
      show state.yielded = _
      rw [yielded, hnext]
      rfl
    | succ steps =>
      rw [iterated_succ, hstep, iterated_of_nil rfl, yielded_of_nil rfl]
      simp [items]

/-- If a value is read, its span is the first one, and the others are those of the bytes left. -/
theorem FollowedFrom.cons [RecordEquality] {span : Span} {input : Input} {cut : Cut}
    (h : cut.FollowedFrom { state with input := input }) (hinput : state.input = span.bytes ++ input)
    (hbytes : span.bytes ≠ []) (hread : state.registry.read state.input = .ok span.value input)
    (hnext : state.next = some (.ok span.value, { state with input := input })) :
    FollowedFrom ⟨span :: cut.spans, cut.failure⟩ state := by
  obtain ⟨spans, failure⟩ := cut
  have hstep : state.step .next = { state with input := input } := by rw [step, hnext]
  have hstart : rest ⟨span :: spans, failure⟩ 0 = state.input := by rw [rest_cons_zero, h.covers, hinput]
  refine ⟨hstart, ?_, h.fails, ?_, ?_, ?_⟩
  · intro place other hother
    cases place with
    | zero =>
      obtain rfl : span = other := by simpa using hother
      rw [hstart, rest_cons, h.covers]
      exact ⟨hbytes, hread⟩
    | succ place => exact h.reads place other (by simpa using hother)
  · intro steps hsteps
    cases steps with
    | zero =>
      rw [hstart]
      rfl
    | succ steps =>
      rw [iterated_succ, hstep, rest_cons]
      exact h.stands steps (Nat.le_of_succ_le_succ hsteps)
  · intro steps hsteps
    rw [items_cons] at hsteps
    cases steps with
    | zero => simp at hsteps
    | succ steps =>
      rw [iterated_succ, hstep]
      exact h.ends steps (Nat.le_of_succ_le_succ hsteps)
  · intro steps
    rw [items_cons]
    cases steps with
    | zero =>
      show state.yielded = _
      rw [yielded, hnext]
      rfl
    | succ steps =>
      rw [iterated_succ, hstep, List.getElem?_cons_succ]
      exact h.yields steps

/-- The iteration follows some cut from anywhere, by induction on the number of bytes left. -/
theorem exists_followedFrom [RecordEquality] (state : Deserializer) : ∃ cut : Cut, cut.FollowedFrom state := by
  induction hlength : state.input.length using Nat.strongRecOn generalizing state with
  | _ length ih =>
    rcases state.next_outcome with
      ⟨hnil, -⟩ | ⟨e, left, hinput, hread, hnext⟩ | ⟨span, rest, hinput, hbytes, hread, hnext⟩
    · exact ⟨_, followedFrom_of_nil hnil⟩
    · exact ⟨_, followedFrom_of_error hinput hread hnext⟩
    · have hshorter : rest.length < length := by
        have hpos := List.length_pos_iff.2 hbytes
        rw [hinput, List.length_append] at hlength
        omega
      obtain ⟨cut, hcut⟩ := ih rest.length hshorter { state with input := rest } rfl
      exact ⟨_, hcut.cons hinput hbytes hread hnext⟩

/-- Spans that are not empty are no more than the bytes they take. -/
theorem length_spans_le {spans : List Span} (h : ∀ span ∈ spans, span.bytes ≠ []) :
    spans.length ≤ (spans.flatMap Span.bytes).length := by
  induction spans with
  | nil => simp
  | cons span spans ih =>
    rw [List.forall_mem_cons] at h
    have hpos := List.length_pos_iff.2 h.1
    have hothers := ih h.2
    simp only [List.flatMap_cons, List.length_append, List.length_cons]
    omega

/-- No more is yielded than there are bytes. -/
theorem FollowedFrom.length_items_le [RecordEquality] {cut : Cut} (h : cut.FollowedFrom state) :
    cut.items.length ≤ state.input.length := by
  have hspans : cut.spans.length ≤ (cut.spans.flatMap Span.bytes).length := by
    apply length_spans_le
    intro span hspan
    obtain ⟨place, hplace⟩ := List.getElem?_of_mem hspan
    exact (h.reads place span hplace).1
  have htail : cut.failure.toList.length ≤ cut.tail.length := by
    unfold tail
    cases hfailure : cut.failure with
    | none => simp
    | some failure =>
      obtain ⟨bytes, e⟩ := failure
      have hpos := List.length_pos_iff.2 (h.fails bytes e hfailure).1
      simp only [Option.toList_some, List.length_singleton, Option.map_some, Option.getD_some]
      omega
  rw [← h.covers]
  simp only [items, rest, List.drop_zero, List.length_append, List.length_map]
  omega

end Cut

/-- Collecting what the steps yield gives all of it, if there are steps enough. -/
theorem drainUpTo_of_yields [RecordEquality] {items : List (Except Error Value)} {bound : Nat}
    (hbound : items.length ≤ bound) (hyields : ∀ steps, (state.iterated steps).yielded = items[steps]?) :
    drainUpTo bound state = (items, state.iterated items.length) := by
  induction bound generalizing state items with
  | zero =>
    obtain rfl : items = [] := List.length_eq_zero_iff.1 (Nat.le_zero.1 hbound)
    rfl
  | succ bound ih =>
    have hfirst : state.next.map Prod.fst = items[0]? := hyields 0
    rw [drainUpTo]
    cases hnext : state.next with
    | none =>
      obtain rfl : items = [] := by simpa [hnext] using hfirst
      rfl
    | some outcome =>
      obtain ⟨item, after⟩ := outcome
      cases items with
      | nil => simp [hnext] at hfirst
      | cons first items =>
        obtain rfl : item = first := by simpa [hnext] using hfirst
        have hstep : state.step .next = after := by rw [step, hnext]
        have hafter : ∀ steps, (after.iterated steps).yielded = items[steps]? := fun steps => by
          have hlater := hyields (steps + 1)
          rwa [iterated_succ, hstep] at hlater
        dsimp only
        rw [ih (Nat.le_of_succ_le_succ hbound) hafter, List.length_cons, iterated_succ, hstep]

/-- Whatever the registry and the bytes, iteration cuts the bytes into spans that are not empty, one for every value it
yields, and yields nothing else but one error at most, for the bytes behind the last span. After that, it yields
nothing, for good. -/
theorem iteration_partitions [RecordEquality] (registry : Registry) (data : List UInt8) :
    ∃ cut : Cut, cut.FollowedFrom (ofBytes registry data) ∧ cut.items.length ≤ data.length ∧
      (ofBytes registry data).drain = (cut.items, ⟨registry, data.length, []⟩) := by
  obtain ⟨cut, hcut⟩ := Cut.exists_followedFrom (ofBytes registry data)
  refine ⟨cut, hcut, hcut.length_items_le, ?_⟩
  have hdrain := drainUpTo_of_yields hcut.length_items_le hcut.yields
  rw [hcut.ends _ (Nat.le_refl _)] at hdrain
  exact hdrain

set_option maxRecDepth 4000 in
-- A number and null are read, and nothing reads what is left.
example : (ofBytes Registry.nodeRegistry [136, 7, 128, 5, 6, 7]).drain.1 =
    [.ok (.atom (.word .long 7)), .ok .null, .error (.unknownMarker 5)] := rfl

end Deserializer

end Bytemark
