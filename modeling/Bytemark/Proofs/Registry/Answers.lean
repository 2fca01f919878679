import Bytemark.Proofs.Comparing.Upholding
import Bytemark.Proofs.Registry.Growth
import Bytemark.Proofs.Registry.Twins
import Bytemark.Registry.Encode

/-!
# Every answer is a fresh one

A program registers codecs, looks types up, makes codecs, and writes and reads values, in any order, and any of this may
fail. Its registry keeps an answer for every type it has found a codec for, and never throws one away. Still each
look-up by type gives the first codec in order that writes the type, as if the list had been searched anew: registration
adds codecs at the end, where they displace none, and a search that finds nothing is not kept.

So a codec that was found stays, a type without one gets it as soon as it is registered, and of two programs that
registered alike none can tell from its registry what the other one looked up or wrote on the way.
-/

set_option autoImplicit false

namespace Bytemark

/-! ## Writing leaves a twin behind -/

/-- Started with a twin of the registry, the encoder does to the output what `write` does, and leaves a twin behind. -/
def Follows {α : Type} (registry : Registry) (encode : Encode α) (write : EStateM Error Output α) : Prop :=
  ∀ other, registry.Twins other → ∀ output, ∃ next, registry.Twins next ∧
    encode (other, output) = match write output with
      | .ok a written => .ok a (next, written)
      | .error e written => .error e (next, written)

namespace Follows

variable {α β : Type} {registry : Registry}

/-- A writer that asks for no codec follows itself. -/
theorem ofWrite (write : Write) : Follows registry (.ofWrite write) write := by
  intro other htwins output
  refine ⟨other, htwins, ?_⟩
  dsimp only [Encode.ofWrite]
  cases write output <;> rfl

/-- What is given without writing leaves the output as it is. -/
theorem pure (a : α) : Follows registry (Pure.pure a) (Pure.pure a) := fun other htwins _ => ⟨other, htwins, rfl⟩

/-- A sequence of encoders follows step by step, each on the twin that the one before has left. -/
theorem bind {encode : Encode α} {write : EStateM Error Output α} {encode' : α → Encode β}
    {write' : α → EStateM Error Output β} (hfirst : Follows registry encode write)
    (hnext : ∀ a, Follows registry (encode' a) (write' a)) :
    Follows registry (encode >>= encode') (write >>= write') := by
  intro other htwins output
  obtain ⟨next, hnexttwins, hencode⟩ := hfirst other htwins output
  simp only [Bind.bind, EStateM.bind, hencode]
  cases write output with
  | ok a written => exact hnext a next hnexttwins written
  | error e written => exact ⟨next, hnexttwins, rfl⟩

/-- A choice follows in both of its branches. -/
theorem ite {condition : Prop} [Decidable condition] {encode encode' : Encode α} {write write' : EStateM Error Output α}
    (h : Follows registry encode write) (h' : Follows registry encode' write') :
    Follows registry (if condition then encode else encode') (if condition then write else write') := by
  by_cases hcondition : condition
  · rw [if_pos hcondition, if_pos hcondition]
    exact h
  · rw [if_neg hcondition, if_neg hcondition]
    exact h'

/-- A run of encoders follows if the encoder of an item does. -/
theorem forM {encode : α → Encode Unit} {write : α → Write} {items : List α}
    (h : ∀ item ∈ items, Follows registry (encode item) (write item)) :
    Follows registry (items.forM encode) (items.forM write) := by
  induction items with
  | nil => exact pure ()
  | cons item items ih =>
    refine bind (h item List.mem_cons_self) fun _ => ih fun item hitem => ?_
    exact h item (List.mem_cons_of_mem _ hitem)

/-- A look-up gives the answer that a twin gives, and keeps it. -/
theorem find (type : ValueType) (element : Element) :
    Follows registry (element.find type) (MonadExcept.ofExcept (element.writer registry type)) := by
  intro other htwins output
  cases element with
  | boxed codec => exact pure codec other htwins output
  | direct codec => exact pure codec other htwins output
  | any =>
    refine ⟨_, htwins.trans (.of_quiet (Registry.quiet_lookup type) htwins.right), ?_⟩
    have hanswer := (Registry.outcome_lookup type other).trans (htwins.same.codecForType type)
    simp only [Element.find, Encode.ofResolve, Element.writer]
    cases hcodec : registry.codecForType type with
    | ok codec =>
      rw [Registry.outcome_eq_ok_iff.1 (hanswer.trans hcodec)]
      rfl
    | error e =>
      rw [Registry.outcome_eq_error_iff.1 (hanswer.trans hcodec)]
      rfl

end Follows

namespace Registry

/-- Elements are encoded one after the other. -/
theorem encodeItems_eq_forM [RecordEquality] (items : List Value) (part : Element) :
    encodeItems items part = items.forM fun item => encodeAs item part := by
  induction items with
  | nil => rfl
  | cons item items ih =>
    rw [encodeItems, ih]
    rfl

/-- Entries are encoded one after the other, each key in front of its value. -/
theorem encodeEntries_eq_forM [RecordEquality] (entries : List (Value × Value)) (key value : Element) :
    encodeEntries entries key value = entries.forM fun entry =>
      encodeAs entry.1 key >>= fun _ => encodeAs entry.2 value := by
  induction entries with
  | nil => rfl
  | cons entry entries ih =>
    rw [encodeEntries, ih]
    exact (bind_assoc ..).symm

/-- A slot is encoded by encoding its value. -/
theorem lookup_slotEncoders [RecordEquality] (slots : List (String × Value)) (name : String) :
    (slotEncoders slots).lookup name = (slots.lookup name).map encodeAs := by
  induction slots with
  | nil => rfl
  | cons slot slots ih =>
    rw [slotEncoders, List.lookup_cons, List.lookup_cons, ih]
    split <;> rfl

/-- Elements follow if each of them does. -/
theorem follows_encodeItems [RecordEquality] {registry : Registry} {items : List Value}
    (h : ∀ item ∈ items, ∀ element, Follows registry (encodeAs item element) (registry.writeAs item element))
    (part : Element) : Follows registry (encodeItems items part) (registry.writeItems items part) := by
  rw [encodeItems_eq_forM, writeItems_eq_forM]
  exact .forM fun item hitem => h item hitem part

/-- A field follows if the slots do. -/
theorem follows_encodeField [RecordEquality] {registry : Registry} {slots : List (String × Value)}
    (h : ∀ slot ∈ slots, ∀ element, Follows registry (encodeAs slot.2 element) (registry.writeAs slot.2 element))
    (self : Codec) (field : Field) :
    Follows registry (field.encode (slotEncoders slots) self) (field.write (registry.slotWriters slots) self) := by
  unfold Field.encode Field.write
  rw [lookup_slotEncoders, lookup_slotWriters]
  cases hslot : slots.lookup field.info.source with
  | none => exact .ofWrite _
  | some value => exact h _ (Value.mem_of_lookup hslot) _

/-- Keeping answers while values are written changes nothing about what is written. -/
theorem follows_encodeAs [RecordEquality] (registry : Registry) (value : Value) (element : Element) :
    Follows registry (encodeAs value element) (registry.writeAs value element) := by
  induction value using Value.induction generalizing element with
  | null =>
    unfold encodeAs writeAs
    exact .ofWrite _
  | atom atom =>
    refine (Follows.find _ element).bind fun codec => ?_
    cases codec <;> exact .ofWrite _
  | variant type index =>
    refine (Follows.find _ element).bind fun codec => ?_
    cases codec with
    | enumeration markers type' variants =>
      refine .ite ?_ (.ofWrite _)
      cases Codec.ordinal? type variants index <;> exact .ofWrite _
    | _ => exact .ofWrite _
  | sequence kind items ih =>
    refine (Follows.find _ element).bind fun codec => ?_
    cases codec with
    | sequence markers kind' part =>
      exact .ite ((Follows.ofWrite _).bind fun _ => follows_encodeItems ih part) (.ofWrite _)
    | collection markers part =>
      refine .ite ((Follows.ofWrite _).bind fun _ => ?_) (.ofWrite _)
      exact (follows_encodeItems ih part).bind fun _ => .ofWrite _
    | _ => exact .ofWrite _
  | map entries ih =>
    refine (Follows.find _ element).bind fun codec => ?_
    cases codec with
    | map markers key value =>
      refine (Follows.ofWrite _).bind fun _ => ?_
      rw [encodeEntries_eq_forM, writeEntries_eq_forM]
      exact .forM fun entry hentry => ((ih entry hentry).1 key).bind fun _ => (ih entry hentry).2 value
    | _ => exact .ofWrite _
  | array type items ih =>
    refine (Follows.find _ element).bind fun codec => ?_
    cases codec with
    | array markers type' part =>
      exact .ite (.ite ((Follows.ofWrite _).bind fun _ => follows_encodeItems ih part) (.ofWrite _)) (.ofWrite _)
    | _ => exact .ofWrite _
  | record type slots ih =>
    refine (Follows.find _ element).bind fun codec => ?_
    cases codec with
    | record markers type' fresh fields =>
      refine .ite ((Follows.ofWrite _).bind fun _ => ?_) (.ofWrite _)
      exact .forM fun field _ => follows_encodeField ih _ field
    | _ => exact .ofWrite _

/-! ## Uses -/

/-- What a program does with its registry. -/
inductive Use
  | call (call : Call)
  /-- Writes a value behind other bytes. -/
  | encode (value : Value) (element : Element) (output : Output)
  /-- Reads a value from some bytes. -/
  | decode (element : Element) (input : Input)
  | nextFree

/-- What a program gets from its registry. -/
inductive Answer
  | codec (codec : Codec)
  | binding (binding : Binding)
  | marker (marker : Marker)
  | written (result : EStateM.Result Error Output Unit)
  | read (result : EStateM.Result Error Input Value)

/-- Makes a call, for its result. -/
def Call.answer : Call → Resolve Answer
  | register codec => return .codec (← Registry.register codec)
  | define plan => return .codec (← plan.define)
  | build plan => return .codec (← plan.build)
  | ofItems marker type => return .codec (← Codec.ofItems marker type)
  | lookup type => return .codec (← Registry.lookup type)
  | lookupKind builtin type => return .codec (← Registry.lookupKind builtin type)
  | bind building kind => return .binding (← kind.bind building)

/-- Uses the registry. A write or a read that fails has a result, too: the error, and the bytes where it failed. -/
def Use.answer [RecordEquality] : Use → Resolve Answer
  | .call made => made.answer
  | encode value element output => fun registry =>
    match encodeAs value element (registry, output) with
    | .ok _ (next, written) => .ok (.written (.ok () written)) next
    | .error e (next, written) => .ok (.written (.error e written)) next
  | decode element input => fun registry => .ok (.read (registry.readAs element input)) registry
  | nextFree => do return .marker (← ofExcept (← get).nextFree)

/-- Whether a use may add a codec. -/
def Use.registers : Use → Bool
  | .call made => made.registers
  | _ => false

/-- The registry after some uses of an empty one; a use that fails is followed by the next. -/
def afterUses [RecordEquality] (uses : List Use) : Registry :=
  uses.foldl (fun registry use => after use.answer registry) empty

/-- What a call answers with does not matter for the registry that it leaves. -/
theorem Call.after_answer (call : Call) (registry : Registry) :
    after call.answer registry = after call.perform registry := by
  have hresult : ∀ {α : Type} (resolve : Resolve α) (f : α → Answer),
      after (resolve >>= fun a => pure (f a)) registry = after (resolve >>= fun _ => pure ()) registry := by
    intro α resolve f
    rw [after_bind, after_bind]
    cases resolve registry <;> rfl
  cases call <;> exact hresult _ _

/-- No call shows which answers have been kept. -/
theorem Call.blind_answer (call : Call) : Blind call.answer := by
  cases call with
  | register codec => exact (blind_register codec).bind fun _ => (Looks.pure _).blind
  | define plan => exact (blind_define plan).bind fun _ => (Looks.pure _).blind
  | build plan => exact (looks_build plan).blind.bind fun _ => (Looks.pure _).blind
  | ofItems marker type => exact (looks_ofItems marker type).blind.bind fun _ => (Looks.pure _).blind
  | lookup type => exact (blind_lookup type).bind fun _ => (Looks.pure _).blind
  | lookupKind builtin type => exact (looks_lookupKind builtin type).blind.bind fun _ => (Looks.pure _).blind
  | bind building kind => exact (looks_bind building kind).blind.bind fun _ => (Looks.pure _).blind

/-- What is written, and that the registry left behind is a twin of the one before. -/
theorem answer_encode [RecordEquality] {registry : Registry} (hc : registry.Consistent) (value : Value)
    (element : Element) (output : Output) : ∃ next, Twins registry next ∧
      (Use.encode value element output).answer registry =
        .ok (.written (registry.writeAs value element output)) next := by
  obtain ⟨next, htwins, hencode⟩ := follows_encodeAs registry value element registry (.refl hc) output
  refine ⟨next, htwins, ?_⟩
  simp only [Use.answer, hencode]
  cases registry.writeAs value element output <;> rfl

/-- The next free marker is told by the table of owners, and the registry stays as it is. -/
theorem answer_nextFree [RecordEquality] (registry : Registry) :
    Use.nextFree.answer registry = match registry.nextFree with
      | .ok marker => .ok (.marker marker) registry
      | .error e => .error e registry := by
  change (MonadExcept.ofExcept registry.nextFree >>= fun marker => pure (Answer.marker marker) :
    EStateM Error Registry Answer) registry = _
  cases registry.nextFree <;> rfl

/-- No use shows which answers have been kept. -/
theorem Use.blind_answer [RecordEquality] (use : Use) : Blind use.answer := by
  cases use with
  | call made => exact made.blind_answer
  | encode value element output =>
    intro registry other htwins
    obtain ⟨next, hnext, hanswer⟩ := answer_encode htwins.left value element output
    obtain ⟨next', hnext', hanswer'⟩ := answer_encode htwins.right value element output
    -- The two registries keep different answers on the way, but write alike and stay twins of what they were.
    have hwrite : other.writeAs value element = registry.writeAs value element :=
      (upholds_writeAs (fun type => .inl (htwins.same.codecForType type)) value element).eq
    unfold outcome
    rw [after_of_ok hanswer, after_of_ok hanswer', hanswer, hanswer', hwrite]
    exact ⟨rfl, (hnext.symm.trans htwins).trans hnext'⟩
  | decode element input =>
    intro registry other htwins
    have howner : ∀ marker, other.codecForMarker marker = registry.codecForMarker marker := by
      intro marker
      rw [codecForMarker, htwins.same.owner, ← codecForMarker]
    have hread : other.readAs element = registry.readAs element :=
      (upholds_readAs (fun marker => .inl (howner marker)) element).eq
    simp only [outcome, after, Use.answer, hread]
    exact ⟨trivial, htwins⟩
  | nextFree =>
    intro registry other htwins
    simp only [outcome, after, answer_nextFree, htwins.same.nextFree]
    cases registry.nextFree <;> exact ⟨rfl, htwins⟩

/-- Every use leaves a consistent registry behind. -/
theorem Use.keeps_answer [RecordEquality] (use : Use) : Keeps use.answer := fun _ hc =>
    (use.blind_answer (.refl hc)).2.left

/-- What registers no codec leaves a twin behind. -/
theorem Use.twins_after [RecordEquality] {use : Use} (h : use.registers = false) {registry : Registry}
    (hc : registry.Consistent) :
    Twins registry (after use.answer registry) := by
  cases use with
  | call made =>
    show Twins registry (after made.answer registry)
    rw [made.after_answer]
    exact .of_quiet (Call.looks_perform h).quiet hc
  | encode value element output =>
    obtain ⟨next, hnext, hanswer⟩ := answer_encode hc value element output
    rw [after_of_ok hanswer]
    exact hnext
  | decode element input => exact .refl hc
  | nextFree =>
    have hsame : after Use.nextFree.answer registry = registry := by
      simp only [after, answer_nextFree]
      cases registry.nextFree <;> rfl
    rw [hsame]
    exact .refl hc

/-- No use takes an owner or an answer away. -/
theorem Use.grows_answer [RecordEquality] (use : Use) : Grows use.answer := by
  intro registry hc
  cases hregisters : use.registers with
  | false => exact (use.twins_after hregisters hc).same.growsInto
  | true =>
    cases use with
    | call made =>
      show registry.GrowsInto (after made.answer registry)
      rw [made.after_answer]
      exact made.grows_perform registry hc
    | _ => cases hregisters

/-- A use that registers a codec puts it behind all others. -/
theorem Use.codecs_after [RecordEquality] {use : Use} (h : use.registers) {registry : Registry} {codec : Codec}
    (hc : registry.Consistent) (hanswer : outcome use.answer registry = .ok (.codec codec)) :
    (after use.answer registry).codecs = registry.codecs ++ [codec] := by
  have hregister : ∀ {registry next : Registry} {codec result : Codec},
      register codec registry = .ok result next → next.codecs = registry.codecs ++ [result] := by
    intro registry next codec result hok
    obtain ⟨-, rfl, rfl⟩ := register_eq_ok_iff.1 hok
    rfl
  have hok := outcome_eq_ok_iff.1 hanswer
  generalize after use.answer registry = last at hok ⊢
  cases use with
  | call made =>
    cases made with
    | register codec =>
      obtain ⟨result, next, hmade, hpure⟩ := bind_eq_ok_iff.1 hok
      cases hpure
      exact hregister hmade
    | define plan =>
      obtain ⟨result, next, hmade, hpure⟩ := bind_eq_ok_iff.1 hok
      cases hpure
      obtain ⟨made, built, hbuild, hlast⟩ := bind_eq_ok_iff.1 hmade
      have hquiet := (looks_build plan).quiet registry hc
      rw [after_of_ok hbuild] at hquiet
      rw [hregister hlast, hquiet.2.2]
    | _ => cases h
  | _ => cases h

/-! ## Histories of uses -/

/-- Whatever the uses were, the registry is consistent after them. -/
theorem consistent_afterUses [RecordEquality] (uses : List Use) : (afterUses uses).Consistent :=
  consistent_foldl Use.keeps_answer uses consistent_empty

/-- What registers no codec can be left out of a history. -/
theorem twins_afterUses_filter [RecordEquality] (uses : List Use) : Twins (afterUses uses)
    (afterUses (uses.filter Use.registers)) := by
  suffices hrun : ∀ registry other, Twins registry other →
      Twins (uses.foldl (fun registry use => after use.answer registry) registry)
        ((uses.filter Use.registers).foldl (fun registry use => after use.answer registry) other) from
    hrun empty empty (.refl consistent_empty)
  induction uses with
  | nil => exact fun _ _ htwins => htwins
  | cons use uses ih =>
    intro registry other htwins
    cases hregisters : use.registers with
    | true =>
      rw [List.filter_cons_of_pos hregisters]
      exact ih _ _ (use.blind_answer htwins).2
    | false =>
      rw [List.filter_cons_of_neg (by simp [hregisters])]
      exact ih _ _ ((use.twins_after hregisters htwins.left).symm.trans htwins)

/-- Let a program use its registry in any way. A look-up by type then gives the first codec in order that writes the
type, and fails if there is none. What it gives, it gives after any further uses, too; and where it fails, it gives the
codec that writes the type as soon as one is registered. Keeping answers changes nothing about what is written. And any
other program that registers the same codecs in the same order gets the same from every use of its registry, whatever
it has looked up, made, written and read before. -/
theorem kept_answers_unobservable [RecordEquality] (uses : List Use) :
    (∀ type, type ≠ .null → outcome (lookup type) (afterUses uses) =
      match (afterUses uses).codecs.find? fun codec => codec.writes type with
      | some codec => .ok codec
      | none => .error (.missingCodec type none)) ∧
    (∀ later type codec, outcome (lookup type) (afterUses uses) = .ok codec →
      outcome (lookup type) (afterUses (uses ++ later)) = .ok codec) ∧
    (∀ use type codec e, outcome (lookup type) (afterUses uses) = .error e → use.registers →
      outcome use.answer (afterUses uses) = .ok (.codec codec) → codec.writes type →
      outcome (lookup type) (afterUses (uses ++ [use])) = .ok codec) ∧
    (∀ value element output, outcome (Use.encode value element output).answer (afterUses uses) =
      .ok (.written ((afterUses uses).writeAs value element output))) ∧
    ∀ others : List Use, uses.filter Use.registers = others.filter Use.registers →
      ∀ use : Use, outcome use.answer (afterUses others) = outcome use.answer (afterUses uses) := by
  have hc := consistent_afterUses uses
  simp only [outcome_lookup]
  refine ⟨fun type hne => ?_, fun later type codec hanswer => ?_,
    fun use type codec e hmissing hregisters hmade hwrites => ?_, fun value element output => ?_,
    fun others hsame use => ?_⟩
  · rw [hc.codecForType_eq, if_neg hne]
    rfl
  · have hgrows := growsInto_foldl Use.keeps_answer Use.grows_answer later hc
    unfold afterUses at hgrows hanswer ⊢
    rw [List.foldl_append]
    exact hgrows.answer hanswer
  · have hne : type ≠ .null := by
      rintro rfl
      cases hmissing
    have hcodecs := use.codecs_after hregisters hc hmade
    have hafter : afterUses (uses ++ [use]) = after use.answer (afterUses uses) := by
      unfold afterUses
      rw [List.foldl_append]
      rfl
    have hnone : (afterUses uses).firstWriter? type = none := by
      cases hfirst : (afterUses uses).firstWriter? type with
      | none => rfl
      | some found =>
        rw [(hc.codecForType_eq_ok_iff hne).2 hfirst] at hmissing
        cases hmissing
    -- None of the old codecs writes the type, so the scan goes on to the new one behind them.
    rw [hafter, (use.keeps_answer _ hc).codecForType_eq_ok_iff hne, firstWriter?, hcodecs, List.find?_append]
    rw [firstWriter?] at hnone
    simp [hnone, hwrites]
  · obtain ⟨next, -, hanswer⟩ := answer_encode hc value element output
    unfold outcome
    rw [hanswer]
  · -- Both programs end at a twin of the registry that the registrations alone lead to.
    have htwins := (twins_afterUses_filter uses).trans (hsame ▸ (twins_afterUses_filter others).symm)
    exact (use.blind_answer htwins).1

end Registry

end Bytemark
