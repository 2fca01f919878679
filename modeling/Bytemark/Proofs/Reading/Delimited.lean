import Bytemark.Proofs.Reading.Depth
import Bytemark.Record.Layout

/-!
# Readers find the end of a value by themselves

A reader is *delimited* when its answer depends on the bytes it takes and on nothing behind them: the same bytes give
the same answer whatever follows, and when some of them are missing the answer is an underflow, never another error and
never a value. Primitive reads are delimited, and putting delimited readers together gives delimited readers. Looking at
a marker without taking it is not, but it is once a reader that takes at least one byte follows.

So every reader of a value is delimited, whether the bytes are those that a writer would have chosen or not.
-/

set_option autoImplicit false

namespace Bytemark

variable {nested nested' : Element → Read Value} {α β : Type}

/-- The answer depends on the bytes taken alone, and none of them can be spared. -/
structure Delimited (read : Read α) : Prop where
  /-- What is left is the end of the input. -/
  front {input rest : Input} {a : α} (h : read input = .ok a rest) : ∃ front, input = front ++ rest
  /-- Other bytes behind those taken are left in their place. -/
  extend {front rest : Input} {a : α} (h : read (front ++ rest) = .ok a rest) (other : Input) :
    read (front ++ other) = .ok a other
  /-- Without the last of the bytes taken there are too few. -/
  cut {short more rest : Input} {a : α} (h : read (short ++ more ++ rest) = .ok a rest) (hmore : more ≠ []) :
    ∃ needed available left, read short = .error (.underflow needed available) left

namespace Delimited

/-- What takes no byte ends where it starts. -/
theorem pure (a : α) : Delimited (pure a : Read α) where
  front h := by
    cases h
    exact ⟨[], rfl⟩
  extend {front rest b} h other := by
    injection h with ha hrest
    obtain rfl : front = [] := List.append_left_eq_self.1 hrest
    rw [ha]
    rfl
  cut {short more rest b} h hmore := by
    injection h with ha hrest
    have hnil := List.append_left_eq_self.1 hrest
    exact absurd (List.append_eq_nil_iff.1 hnil).2 hmore

/-- What fails at once has no bytes to end. -/
theorem throw (e : Error) : Delimited (throw e : Read α) where
  front h := nomatch h
  extend h := nomatch h
  cut h := nomatch h

/-- A number of bytes ends after as many bytes. -/
theorem bytes (count : Nat) : Delimited (Input.bytes count) where
  front h := ⟨_, (Input.bytes_eq_ok_iff.1 h).1⟩
  extend h other := by
    obtain ⟨heq, hlength⟩ := Input.bytes_eq_ok_iff.1 h
    rw [List.append_cancel_right heq]
    exact Input.bytes_eq_ok_iff.2 ⟨rfl, hlength⟩
  cut {short more rest taken} h hmore := by
    obtain ⟨heq, hlength⟩ := Input.bytes_eq_ok_iff.1 h
    have hpos := List.length_pos_iff.2 hmore
    rw [← List.append_cancel_right heq, List.length_append] at hlength
    exact ⟨_, _, _, Input.bytes_of_lt (by omega)⟩

/-- A marker ends after its byte. -/
theorem marker : Delimited Input.marker where
  front {input rest marker} h := by
    cases input with
    | nil => cases h
    | cons byte tail =>
      cases h
      exact ⟨[byte], rfl⟩
  extend {front rest marker} h other := by
    cases front with
    | nil => exact absurd (shortens_marker h) (Nat.lt_irrefl _)
    | cons byte tail =>
      injection h with hmarker hrest
      obtain rfl : tail = [] := List.append_left_eq_self.1 hrest
      rw [← hmarker]
      rfl
  cut {short more rest marker} h hmore := by
    cases short with
    | nil => exact ⟨1, 0, [], rfl⟩
    | cons byte tail =>
      injection h with hmarker hrest
      have hnil := List.append_left_eq_self.1 hrest
      exact absurd (List.append_eq_nil_iff.1 hnil).2 hmore

/-- Two readers in a row end where the second does. -/
theorem bind {read : Read α} {next : α → Read β} (hread : Delimited read) (hnext : ∀ a, Delimited (next a)) :
    Delimited (read >>= next) where
  front h := by
    obtain ⟨a, mid, hok, hrest⟩ := bind_eq_ok_iff.1 h
    obtain ⟨one, rfl⟩ := hread.front hok
    obtain ⟨two, rfl⟩ := (hnext a).front hrest
    exact ⟨one ++ two, (List.append_assoc ..).symm⟩
  extend h other := by
    obtain ⟨a, mid, hok, hrest⟩ := bind_eq_ok_iff.1 h
    obtain ⟨one, heq⟩ := hread.front hok
    obtain ⟨two, rfl⟩ := (hnext a).front hrest
    rw [← List.append_assoc] at heq
    obtain rfl := List.append_cancel_right heq
    rw [List.append_assoc] at hok ⊢
    exact bind_eq_ok_iff.2 ⟨a, _, hread.extend hok _, (hnext a).extend hrest other⟩
  cut {short more rest b} h hmore := by
    obtain ⟨a, mid, hok, hrest⟩ := bind_eq_ok_iff.1 h
    obtain ⟨one, heq⟩ := hread.front hok
    obtain ⟨two, rfl⟩ := (hnext a).front hrest
    rw [← List.append_assoc] at heq
    have hsplit := List.append_cancel_right heq
    simp only [Bind.bind, EStateM.bind]
    -- The cut falls into what the first reader takes, or into what the second takes.
    rcases List.append_eq_append_iff.1 hsplit with ⟨gap, rfl, rfl⟩ | ⟨gap, rfl, rfl⟩
    · by_cases hgap : gap = []
      · subst hgap
        have hwhole : read (short ++ (two ++ rest)) = .ok a (two ++ rest) := by simpa using hok
        have hall := hread.extend hwhole []
        rw [List.append_nil] at hall
        rw [hall]
        have hstart : next a ([] ++ two ++ rest) = .ok b rest := hrest
        exact (hnext a).cut hstart hmore
      · have hwhole : read (short ++ gap ++ (two ++ rest)) = .ok a (two ++ rest) := by simpa using hok
        obtain ⟨needed, available, left, hcut⟩ := hread.cut hwhole hgap
        rw [hcut]
        exact ⟨needed, available, left, rfl⟩
    · have hwhole : read (one ++ (gap ++ more ++ rest)) = .ok a (gap ++ more ++ rest) := by simpa using hok
      rw [hread.extend hwhole gap]
      exact (hnext a).cut hrest hmore

/-- Looking at the next marker is harmless before a reader that takes at least one byte. -/
theorem peek_bind {next : Marker → Read α} (hnext : ∀ marker, Delimited (next marker))
    (hshortens : ∀ marker, Shortens (next marker)) : Delimited (Input.peek >>= next) where
  front h := by
    obtain ⟨byte, tail, -, hok⟩ := Input.peek_bind_eq_ok_iff.1 h
    exact (hnext _).front hok
  extend {front rest a} h other := by
    obtain ⟨byte, tail, heq, hok⟩ := Input.peek_bind_eq_ok_iff.1 h
    cases front with
    | nil => exact absurd (hshortens _ hok) (Nat.lt_irrefl _)
    | cons first front =>
      cases heq
      exact Input.peek_bind_eq_ok_iff.2 ⟨byte, front ++ other, rfl, (hnext _).extend hok other⟩
  cut {short more rest a} h hmore := by
    obtain ⟨byte, tail, heq, hok⟩ := Input.peek_bind_eq_ok_iff.1 h
    cases short with
    | nil => exact ⟨1, 0, [], rfl⟩
    | cons first short =>
      cases heq
      exact (hnext _).cut hok hmore

/-- A reader with a bound that does not matter once it is large enough is delimited when it is for every fixed bound. -/
theorem of_bounded {read : Read α} {bounded : Nat → Read α} (h : ∀ bound, Delimited (bounded bound))
    (heq : ∀ {bound : Nat} {input : Input}, input.length ≤ bound → read input = bounded bound input) :
    Delimited read where
  front {input rest a} hok := by
    rw [heq (Nat.le_refl input.length)] at hok
    exact (h _).front hok
  extend {front rest a} hok other := by
    rw [heq (Nat.le_max_left _ (front ++ other).length)] at hok
    rw [heq (Nat.le_max_right (front ++ rest).length _)]
    exact (h _).extend hok other
  cut {short more rest a} hok hmore := by
    have hle : short.length ≤ (short ++ more ++ rest).length := by simp
    rw [heq (Nat.le_refl _)] at hok
    rw [heq hle]
    exact (h _).cut hok hmore

/-- Elements end with the mark that closes them, if every element takes a byte. -/
theorem readUntil (last : Marker) {item : Read Value} (hitem : Delimited item) (hshortens : Shortens item) (bound : Nat)
    (done : List Value) : Delimited (readUntil last item bound done) := by
  induction bound generalizing done with
  | zero =>
    exact ⟨fun h => (nomatch h), fun h => (nomatch h), fun h => (nomatch h)⟩
  | succ bound ih =>
    rw [readUntil_succ]
    refine peek_bind (fun marker => ?_) fun marker => ?_
    · split
      · exact Delimited.marker.bind fun _ => .pure _
      · exact hitem.bind fun value => ih (value :: done)
    · split
      · exact shortens_marker.bind fun _ => neverGrows_pure _
      · exact hshortens.bind fun value => (shortens_readUntil last hshortens.neverGrows bound _).neverGrows

end Delimited

/-- Elements take at least one byte each, so any bound on their number that is no less than the number of bytes left
gives the same answer. -/
theorem readUntil_eq (last : Marker) {item : Read Value} (hitem : Shortens item) {bound bound' : Nat}
    {done : List Value} {input : Input} (hle : input.length ≤ bound) (hle' : input.length ≤ bound') :
    readUntil last item bound done input = readUntil last item bound' done input := by
  induction bound generalizing bound' done input with
  | zero =>
    obtain rfl : input = [] := List.length_eq_zero_iff.1 (by omega)
    cases bound' <;> rfl
  | succ bound ih =>
    cases bound' with
    | zero =>
      obtain rfl : input = [] := List.length_eq_zero_iff.1 (by omega)
      rfl
    | succ bound' =>
      rw [readUntil_succ, readUntil_succ]
      cases input with
      | nil => rfl
      | cons byte tail =>
        simp only [bind, EStateM.bind, Input.peek]
        split
        · rfl
        · simp only [EStateM.bind]
          cases hread : item (byte :: tail) with
          | error e mid => rfl
          | ok value mid =>
            have hlt := hitem hread
            exact ih (by omega) (by omega)

/-- A reader finds its end if the readers of nested values find theirs. -/
theorem Alike.delimited_of_nested {read read' : Read α} (halike : Alike nested nested' read read')
    (hnested : ∀ element, Delimited (nested element)) (hshortens : ∀ element, Shortens (nested element)) :
    Delimited read := by
  induction halike with
  | pure a => exact .pure a
  | throw e => exact .throw e
  | bytes count => exact .bytes count
  | marker => exact .marker
  | nested element => exact hnested element
  | bind _ _ first rest => exact first.bind rest
  | delimited last element target =>
    have hitem : Delimited (element.readIn nested target) := by
      refine (hnested element).bind fun value => ?_
      dsimp only
      split
      · exact (Delimited.throw _).bind fun _ => .pure value
      · exact .pure value
    have hitem' := element.shortens_readIn hshortens target
    exact .of_bounded (fun bound => hitem.readUntil last hitem' bound []) fun hle =>
      readUntil_eq last hitem' (Nat.le_refl _) hle

namespace Registry

variable (registry : Registry)

/-- To any depth, a value tells where it ends. -/
theorem delimited_readPart [RecordEquality] (depth : Nat) (element : Element) : Delimited
    (registry.readPart depth element) := by
  induction depth generalizing element with
  | zero => exact ⟨fun h => (nomatch h), fun h => (nomatch h), fun h => (nomatch h)⟩
  | succ depth ih =>
    have hopens (codec : Codec) := codec.opens_read (registry.readPart depth) (registry.readPart depth)
    have hread (codec : Codec) : Delimited (codec.read (registry.readPart depth)) :=
      (hopens codec).alike.delimited_of_nested ih (registry.shortens_readPart depth)
    cases element with
    | any =>
      rw [readPart_succ_any]
      refine .peek_bind (fun marker => ?_) fun marker => ?_
      · cases registry.codecForMarker marker with
        | ok codec => exact hread codec
        | error e => exact .throw e
      · cases registry.codecForMarker marker with
        | ok codec => exact (hopens codec).shortens fun element => (registry.shortens_readPart depth element).neverGrows
        | error e => exact fun _ _ _ h => nomatch h
    | boxed codec => exact hread codec
    | direct codec => exact hread codec

/-- Readers of values are delimited, whatever the registry holds and whatever codec reads the value. -/
theorem delimited_readAs [RecordEquality] (element : Element) : Delimited (registry.readAs element) :=
  .of_bounded (fun depth => registry.delimited_readPart depth element) fun hle =>
    registry.readAs_eq_readPart element hle

/-- Whatever was read depends on the bytes taken and on no others. Inputs that agree on them give the same value and
leave everything else; inputs that end before them are too short, and are refused for no other reason. -/
theorem readAs_local [RecordEquality] (element : Element) {input rest : Input} {value : Value}
    (h : registry.readAs element input = .ok value rest) :
    ∃ taken ≤ input.length, rest = input.drop taken ∧
      (∀ other : Input, other.take taken = input.take taken →
        registry.readAs element other = .ok value (other.drop taken)) ∧
      ∀ fewer < taken, ∃ needed available left,
        registry.readAs element (input.take fewer) = .error (.underflow needed available) left := by
  have hdelimited := registry.delimited_readAs element
  obtain ⟨front, rfl⟩ := hdelimited.front h
  refine ⟨front.length, by simp, by simp, ?_, ?_⟩
  · intro other hother
    rw [List.take_left] at hother
    have hsplit : front ++ other.drop front.length = other := by
      conv => rhs; rw [← List.take_append_drop front.length other, hother]
    have hextend := hdelimited.extend h (other.drop front.length)
    rwa [hsplit] at hextend
  · intro fewer hfewer
    have hshort : (front ++ rest).take fewer = front.take fewer := List.take_append_of_le_length (Nat.le_of_lt hfewer)
    rw [hshort]
    have hall : registry.readAs element (front.take fewer ++ front.drop fewer ++ rest) = .ok value rest := by
      rw [List.take_append_drop]
      exact h
    have hmissing : front.drop fewer ≠ [] := by
      rw [ne_eq, List.drop_eq_nil_iff]
      omega
    exact hdelimited.cut hall hmissing

set_option maxRecDepth 2000 in
/-- A list of one long, in which the size and the long take more bytes than they need, and a byte behind it. -/
theorem readAs_local_wide :
    let longs : Element := .direct (.sequence ⟨-100, 4, by decide, by decide⟩ .list
      (.boxed (.atom ⟨.word .long, ⟨-90, 8, by decide, by decide⟩⟩)))
    let input : Input := [159, 0, 0, 0, 1, 167, 0, 5, 7]
    ∃ taken ≤ input.length, [7] = input.drop taken ∧
      (∀ other : Input, other.take taken = input.take taken →
        empty.readAs longs other = .ok (.sequence .list [.atom (.word .long 5)]) (other.drop taken)) ∧
      ∀ fewer < taken, ∃ needed available left,
        empty.readAs longs (input.take fewer) = .error (.underflow needed available) left :=
  readAs_local empty _ rfl

end Registry

end Bytemark
