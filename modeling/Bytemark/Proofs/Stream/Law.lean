import Bytemark.Proofs.RoundTrip.Law
import Bytemark.Stream.Deserializer
import Bytemark.Stream.Serializer

/-!
# Streams of values

A serializer is given values to append, some of which cannot be written, and is cleared now and then. What it holds in
the end is as if each value that was appended since the last time had been written alone, and the results put one behind
the other: there is nothing between the values, nothing of the values that failed, and no trace of the order in which
failures came.

Since every encoding is read back to its last byte and not beyond, a deserializer finds the same values again, one after
the other, and then the end.
-/

set_option autoImplicit false

namespace Bytemark

section

variable [RecordEquality]

/-- The bytes of a value that is written on its own. -/
def Registry.encode (registry : Registry) (value : Value) : Except Error (List UInt8) :=
  match registry.write value #[] with
  | .ok _ output => .ok output.toList
  | .error e _ => .error e

namespace Serializer

/-- A call on a serializer. -/
inductive Call
  | append (value : Value)
  | clear

/-- A serializer after a call, and the values appended since it was cleared; a failed append adds none. -/
def step (state : Serializer × List Value) : Call → Serializer × List Value
  | .append value =>
    match append value state.1 with
    | .ok _ next => (next, state.2 ++ [value])
    | .error _ next => (next, state.2)
  | .clear => (state.1.clear, [])

/-- A serializer that was empty, after some calls, and the values appended since it was last cleared. -/
def session (registry : Registry) (calls : List Call) : Serializer × List Value :=
  calls.foldl step (empty registry, [])

end Serializer

variable {registry : Registry}

/-- The stand-alone encoding of a value is what is written for it behind any other bytes. -/
theorem Registry.encode_eq_ok_iff {value : Value} {bytes : List UInt8} :
    registry.encode value = .ok bytes ↔ Emits (registry.write value) bytes := by
  unfold encode
  constructor
  · intro h
    split at h
    · rename_i output hwrite
      obtain ⟨bytes', hemits, rfl⟩ := (registry.uniform_writeAs value .any).emits_of_ok hwrite
      have hlist : ((#[] : Output) ++ bytes').toList = bytes' := by simp
      rw [hlist] at h
      obtain rfl := Except.ok.inj h
      exact hemits
    · cases h
  · intro h
    rw [h #[]]
    simp

/-! ## Appending -/

namespace Serializer

/-- A value is appended whole, or the serializer stays as it was. -/
theorem append_eq (value : Value) (serializer : Serializer) :
    (∃ bytes, serializer.registry.encode value = .ok bytes ∧
      append value serializer = .ok () { serializer with output := serializer.output ++ bytes }) ∨
    ∃ e, serializer.registry.encode value = .error e ∧ append value serializer = .error e serializer := by
  obtain ⟨registry, output⟩ := serializer
  obtain ⟨result, bytes, happends⟩ := registry.uniform_writeAs value .any
  have happend : append value ⟨registry, output⟩ = run (registry.write value) ⟨registry, output⟩ := rfl
  rw [happend]
  unfold run Output.guarded
  dsimp only
  cases result with
  | ok _ =>
    refine .inl ⟨bytes, Registry.encode_eq_ok_iff.2 happends, ?_⟩
    rw [Registry.write, happends output]
  | error e =>
    refine .inr ⟨e, ?_, ?_⟩
    · rw [Registry.encode, Registry.write, happends #[]]
    · rw [Registry.write, happends output]
      dsimp only
      rw [Output.truncate_append]

/-- The serializer holds the encodings of the values appended since it was cleared, each as if written on its own. -/
structure Holds (registry : Registry) (state : Serializer × List Value) : Prop where
  same : state.1.registry = registry
  encoded : ∃ encodings, state.2.mapM registry.encode = .ok encodings ∧ state.1.toList = encodings.flatten

/-- An empty serializer holds nothing. -/
theorem holds_empty (registry : Registry) : Holds registry (empty registry, []) := ⟨rfl, [], rfl, rfl⟩

/-- A call keeps the bytes and the values in step. -/
theorem Holds.step {state : Serializer × List Value} (h : Holds registry state) (call : Call) :
    Holds registry (step state call) := by
  obtain ⟨serializer, kept⟩ := state
  obtain ⟨rfl, encodings, hkept, hbytes⟩ := h
  cases call with
  | clear => exact ⟨rfl, [], rfl, rfl⟩
  | append value =>
    unfold Serializer.step
    dsimp only at hkept hbytes ⊢
    rcases append_eq value serializer with ⟨bytes, hencode, happend⟩ | ⟨e, -, happend⟩
    · rw [happend]
      refine ⟨rfl, encodings ++ [bytes], ?_, ?_⟩
      · rw [List.mapM_append, hkept, List.mapM_cons, hencode]
        rfl
      · rw [List.flatten_append, ← hbytes]
        simp [toList]
    · rw [happend]
      exact ⟨rfl, encodings, hkept, hbytes⟩

/-- After any calls, the bytes are those of the values that have been kept. -/
theorem holds_session (registry : Registry) (calls : List Call) : Holds registry (session registry calls) := by
  -- The calls run from any state that holds what it should, not from the empty one alone.
  suffices hfold : ∀ state, Holds registry state → Holds registry (calls.foldl Serializer.step state) from
    hfold _ (holds_empty registry)
  induction calls with
  | nil => exact fun _ h => h
  | cons call calls ih => exact fun state h => ih _ (h.step call)

/-- A value that has been kept was appended by one of the calls. -/
theorem mem_of_mem_session {calls : List Call} {value : Value} (h : value ∈ (session registry calls).2) :
    .append value ∈ calls := by
  suffices hfold : ∀ state : Serializer × List Value, value ∈ (calls.foldl step state).2 →
      value ∈ state.2 ∨ .append value ∈ calls from (hfold _ h).resolve_left List.not_mem_nil
  clear h
  induction calls with
  | nil => exact fun _ h => .inl h
  | cons call calls ih =>
    intro state h
    rcases ih _ h with hstep | hlater
    · cases call with
      | clear => cases hstep
      | append other =>
        unfold step at hstep
        dsimp only at hstep
        split at hstep
        · rcases List.mem_append.1 hstep with hold | hnew
          · exact .inl hold
          · rw [List.mem_singleton.1 hnew]
            exact .inr List.mem_cons_self
        · exact .inl hstep
    · exact .inr (List.mem_cons_of_mem _ hlater)

end Serializer

/-! ## Reading on -/

namespace Deserializer

/-- A step of the iteration reads one value and stands behind its bytes. -/
theorem next_eq {total : Nat} {bytes : List UInt8} {value : Value} (h : Decodes registry.read bytes value)
    (rest : Input) : next ⟨registry, total, bytes ++ rest⟩ = some (.ok value, ⟨registry, total, rest⟩) := by
  have hread := h rest
  have hshorter := registry.shortens_readAs .any hread
  have hnonempty : (bytes ++ rest).isEmpty = false := by
    rw [List.isEmpty_eq_false_iff]
    intro hnil
    rw [hnil] at hshorter
    cases hshorter
  have hrun : read ⟨registry, total, bytes ++ rest⟩ = .ok value ⟨registry, total, rest⟩ := by
    show run registry.read ⟨registry, total, bytes ++ rest⟩ = _
    unfold run Input.guarded
    dsimp only
    rw [hread]
  unfold next isEmpty
  rw [hnonempty, hrun]
  rfl

/-- The iteration over encodings yields what the values come back as, and then stands at the end. -/
theorem drainUpTo_eq (hsound : registry.Sound) {values : List Value}
    (hadmits : ∀ value ∈ values, registry.Admits value) {encodings : List (List UInt8)}
    (hencodings : values.mapM registry.encode = .ok encodings) (total : Nat) {bound : Nat}
    (hbound : encodings.flatten.length ≤ bound) :
    drainUpTo bound ⟨registry, total, encodings.flatten⟩ =
      (values.map fun value => .ok (registry.back value), ⟨registry, total, []⟩) := by
  induction values generalizing encodings bound with
  | nil =>
    obtain rfl := Except.ok.inj hencodings
    cases bound <;> rfl
  | cons value values ih =>
    rw [List.mapM_cons] at hencodings
    obtain ⟨bytes, hencode, hothers⟩ := answer_bind_eq_ok_iff.1 hencodings
    obtain ⟨later, hrest, hpure⟩ := answer_bind_eq_ok_iff.1 hothers
    obtain rfl := Except.ok.inj hpure
    have hread := hsound.decodes_write (hadmits value List.mem_cons_self) (Registry.encode_eq_ok_iff.1 hencode)
    have hshorter := registry.shortens_readAs .any (hread later.flatten)
    rw [List.flatten_cons] at hbound ⊢
    cases bound with
    | zero => omega
    | succ bound =>
      have hlater := ih (fun value hvalue => hadmits value (List.mem_cons_of_mem _ hvalue)) hrest
        (show later.flatten.length ≤ bound by omega)
      rw [drainUpTo, next_eq hread]
      dsimp only
      rw [hlater, List.map_cons]

end Deserializer

/-- Let calls on a serializer append values and clear it, in any order, and some of the appends fail. The serializer
holds the stand-alone encodings of the values appended since it was last cleared, one behind the other; a further append
that fails leaves it as it is. A deserializer of these bytes yields what these values come back as, in their order, and
then nothing, and no byte is left. -/
theorem Serializer.session_law (hreach : ∃ made, Registry.Reachable registry made) (calls : List Serializer.Call)
    (hadmits : ∀ value, .append value ∈ calls → registry.Admits value) :
    let (serializer, kept) := session registry calls
    (∃ encodings, kept.mapM registry.encode = .ok encodings ∧ serializer.toList = encodings.flatten) ∧
    (∀ value e next, append value serializer = .error e next → next = serializer) ∧
    ∃ final, (Deserializer.ofBytes registry serializer.toList).drain =
        (kept.map fun value => .ok (registry.back value), final) ∧
      final.next = none ∧ final.available = 0 := by
  obtain ⟨made, hreach⟩ := hreach
  have hholds := holds_session registry calls
  have hkept : ∀ value ∈ (session registry calls).2, registry.Admits value :=
    fun value hvalue => hadmits value (mem_of_mem_session hvalue)
  generalize session registry calls = state at hholds hkept ⊢
  obtain ⟨serializer, kept⟩ := state
  obtain ⟨hsame, encodings, hencodings, hbytes⟩ := hholds
  refine ⟨⟨encodings, hencodings, hbytes⟩, ?_, ?_⟩
  · intro value e next happend
    rcases append_eq value serializer with ⟨bytes, -, hok⟩ | ⟨e', -, herror⟩
    · rw [hok] at happend
      cases happend
    · rw [herror] at happend
      cases happend
      rfl
  · have hbound : encodings.flatten.length ≤ serializer.toList.length := Nat.le_of_eq (congrArg _ hbytes.symm)
    have hdrain := Deserializer.drainUpTo_eq hreach.sound.1 hkept hencodings serializer.toList.length hbound
    rw [← hbytes] at hdrain
    exact ⟨⟨registry, serializer.toList.length, []⟩, hdrain, rfl, rfl⟩

end

set_option maxRecDepth 2000 in
/-- A number that is cleared away, a record, a list that fails at its second element, and a number. -/
theorem Serializer.session_law_nodes :
    let calls : List Call := [.append (.atom (.word .long 5)), .clear, .append (Registry.node [] .null),
      .append (.sequence .list [.atom (.word .long 1), .atom (.string "x")]), .append (.atom (.word .long 7))]
    let (serializer, kept) := session Registry.nodeRegistry calls
    kept.length = 2 ∧ serializer.toList = [1, 166, 167, 128, 136, 7] ∧
    (∃ encodings, kept.mapM Registry.nodeRegistry.encode = .ok encodings ∧ serializer.toList = encodings.flatten) ∧
    (∀ value e next, append value serializer = .error e next → next = serializer) ∧
    ∃ final, (Deserializer.ofBytes Registry.nodeRegistry serializer.toList).drain =
        (kept.map fun value => .ok (Registry.nodeRegistry.back value), final) ∧
      final.next = none ∧ final.available = 0 := by
  intro calls
  have hadmits : ∀ value, .append value ∈ calls → Registry.nodeRegistry.Admits value := by
    have hfails : Registry.nodeRegistry.Admits (.sequence .list [.atom (.word .long 1), .atom (.string "x")]) :=
      .sequence (List.forall_mem_cons.2 ⟨.atom _, List.forall_mem_singleton.2 (.atom _)⟩)
    have hnode : Registry.nodeRegistry.Admits (Registry.node [] .null) :=
      Registry.admits_node (fun _ hmem => nomatch hmem) .null (.inl rfl)
    intro value hvalue
    simp only [calls, List.mem_cons, Call.append.injEq, reduceCtorEq, List.not_mem_nil, or_false, false_or] at hvalue
    rcases hvalue with rfl | rfl | rfl | rfl
    · exact .atom _
    · exact hnode
    · exact hfails
    · exact .atom _
  exact ⟨rfl, rfl, session_law Registry.reachable_nodeRegistry calls hadmits⟩

end Bytemark
