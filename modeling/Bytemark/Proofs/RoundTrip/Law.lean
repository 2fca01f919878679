import Bytemark.Proofs.RoundTrip.Values
import Bytemark.Record.Layout

/-!
# The round trip

What any reachable registry writes for a value, it reads back at the same place, to the byte: the reader takes all that
was written, leaves what stands behind it, and gives `Registry.back` of the value. Where every kind of sequence has a
codec of its own, that is the value itself, as long as nothing in the value is lost by putting it together again.
-/

set_option autoImplicit false

namespace Bytemark.Registry

variable {registry : Registry}

/-- What a sound registry writes for a value is read back, whatever has been written before and whatever follows. -/
theorem Sound.decodes_write [RecordEquality] (hsound : registry.Sound) {value : Value} (hadmits : registry.Admits value)
    {bytes : List UInt8} (h : Emits (registry.write value) bytes) :
    Decodes registry.read bytes (registry.back value) :=
  (encodes_of_emits h).decodes hsound Element.fits_any hadmits

/-- A variant that can be written comes back as one that its type takes for its equal. -/
theorem equal_backAs_variant [RecordEquality] {type : String} {index : UInt16} {element : Element} {bytes : List UInt8}
    (h : Encodes registry (.variant type index) element bytes) :
    (Value.variant type index).equal (registry.backAs (.variant type index) element) := by
  cases h with
  | variant hwriter hordinal =>
    obtain ⟨variant, -, hlisted, -⟩ := getElem?_of_ordinal? hordinal
    have hequal := List.find?_some (p := fun variant => RecordEquality.variants type index variant) hlisted
    simp only [backAs, hwriter, if_pos, hlisted, Option.getD_some, Value.equal, beq_self_eq_true, Bool.true_and]
    exact hequal

/-! ## Values that come back as they were -/

/-- Items stay as they are if none of them changes. -/
theorem map_eq_self {α : Type} {items : List α} {f : α → α} (h : ∀ item ∈ items, f item = item) :
    items.map f = items := by
  conv => rhs; rw [← List.map_id items]
  exact List.map_congr_left h

/-- Where every kind of sequence has its own codec, no coding leads to the codec of collections. -/
theorem Sound.writer_ne_collection (hsound : registry.Sound) (hkinds : registry.KeepsKinds) {element : Element}
    (hfits : element.Fits registry) {type : ValueType} {markers : MarkerRange} {part : Element} :
    element.writer registry type ≠ .ok (.collection markers part) := by
  intro hwriter
  obtain ⟨type', hanswer⟩ := hfits.answer_of_writer hwriter
  rcases hsound.known hanswer with ⟨-, hnull⟩ | ⟨-, hwrites⟩
  · cases hnull
  · rcases of_decide_eq_true hwrites with rfl | rfl | rfl
    all_goals exact hkinds _ _ _ hanswer

/-- Slots are set alike if every field puts the same value in. -/
theorem foldl_setSlot_eq {fields : List Field} {put put' : Field → Value}
    (h : ∀ field ∈ fields, put field = put' field) (slots : List (String × Value)) :
    fields.foldl (fun slots field => setSlot slots field.info.target (put field)) slots =
      fields.foldl (fun slots field => setSlot slots field.info.target (put' field)) slots := by
  induction fields generalizing slots with
  | nil => rfl
  | cons field fields ih =>
    rw [List.foldl_cons, List.foldl_cons, h field List.mem_cons_self]
    exact ih (fun field hfield => h field (List.mem_cons_of_mem _ hfield)) _

/-- A value comes back as it is if nothing in it is merged, left out or changed. -/
theorem Sound.backAs_eq_self [RecordEquality] (hsound : registry.Sound) (hkinds : registry.KeepsKinds) {value : Value}
    {element : Element} (hfits : element.Fits registry) (hadmits : registry.Admits value)
    (hrestores : registry.Restores value) : registry.backAs value element = value := by
  induction hrestores generalizing element with
  | null => rfl
  | atom atom => rfl
  | @variant type index hlisted =>
    unfold backAs
    split
    · rename_i markers type' variants hwriter
      split
      · subst type'
        have hmem := hsound.mem_of_writer hfits hwriter Codec.noConfusion
        cases hfirst : Codec.listed? type variants index with
        | none => rfl
        | some variant => rw [Option.getD_some, hlisted markers variants hmem variant hfirst]
      · rfl
    · rfl
  | @sequence kind items hitems hdistinct ih =>
    unfold backAs
    split
    · rename_i markers kind' part hwriter
      have hpart := hsound.fits_parts hfits hwriter
      have hback : registry.backItems items part = items := by
        rw [backItems_eq_map]
        exact map_eq_self fun item hitem => ih item hitem hpart (hadmits.item item hitem)
      rw [hback, kind.collect_eq_self hdistinct]
    · rename_i hwriter
      exact absurd hwriter (hsound.writer_ne_collection hkinds hfits)
    · rfl
  | @map entries hkeys hvalues hdistinct ihkeys ihvalues =>
    unfold backAs
    split
    · rename_i markers key value hwriter
      obtain ⟨hkey, hvalue⟩ := hsound.fits_parts hfits hwriter
      have hback : registry.backEntries entries key value = entries := by
        rw [backEntries_eq_map]
        refine map_eq_self fun entry hentry => ?_
        have hadmitted := hadmits.entry entry hentry
        rw [ihkeys entry hentry hkey hadmitted.1, ihvalues entry hentry hvalue hadmitted.2]
      rw [hback, hdistinct]
    · rfl
  | @array type items hitems ih =>
    unfold backAs
    split
    · rename_i markers type' part hwriter
      have hpart := hsound.fits_parts hfits hwriter
      have hback : registry.backItems items part = items := by
        rw [backItems_eq_map]
        exact map_eq_self fun item hitem => ih item hitem hpart (hadmits.arrayItem item hitem)
      rw [hback]
    · rfl
  | @record type slots hslots hfields ih =>
    unfold backAs
    split
    · rename_i markers type' fresh fields hwriter
      split
      · subst type'
        -- Every field comes back as what its slot holds, and the record as what its codec makes of these values.
        have hself := hsound.answer_of_record_writer hfits hwriter
        have hparts := hsound.fits_parts hfits hwriter
        have hback : ∀ field ∈ fields, field.back (registry.slotBacks slots) (.record markers type fresh fields) =
            (slots.lookup field.info.source).getD .null := by
          intro field hfield
          obtain ⟨value, hslot, hholds, hvalue⟩ := hadmits.slot hself field hfield
          have hsame := ih _ (Value.mem_of_lookup hslot) (hparts field hfield) hvalue
          rw [back_field, hslot, Option.getD_some, hsame, FieldType.fitted, FieldType.convert_of_holds hholds]
        dsimp only
        rw [foldl_setSlot_eq hback, hfields markers fresh fields hself]
      · rfl
    · rfl

/-- Let a registry be reachable and a value be written with it, behind any bytes. What is appended are some bytes, and
reading from where they begin, whatever follows them, takes exactly these bytes and gives what the value comes back as.
A variant comes back as one that its type takes for its equal. Any value comes back as itself if every kind of sequence
has its own codec and nothing in the value is lost by putting it together again. -/
theorem read_write [RecordEquality] (hreach : ∃ made, Reachable registry made) {value : Value}
    (hadmits : registry.Admits value) {before after : Output} (hwrite : registry.write value before = .ok () after) :
    ∃ bytes : List UInt8, after.toList = before.toList ++ bytes ∧
      (∀ behind : List UInt8, registry.read ((before.toList ++ bytes ++ behind).drop before.size) =
        .ok (registry.back value) behind) ∧
      (∀ type index, value = .variant type index → value.equal (registry.back value)) ∧
      (registry.KeepsKinds → registry.Restores value → registry.back value = value) := by
  obtain ⟨made, hreach⟩ := hreach
  have hsound := hreach.sound.1
  obtain ⟨bytes, hemits, rfl⟩ := (registry.uniform_writeAs value .any).emits_of_ok hwrite
  refine ⟨bytes, by simp, fun behind => ?_, ?_, fun hkinds => ?_⟩
  · rw [List.append_assoc, ← Array.length_toList, List.drop_left]
    exact hsound.decodes_write hadmits hemits behind
  · rintro type index rfl
    exact equal_backAs_variant (encodes_of_emits hemits)
  · exact hsound.backAs_eq_self hkinds Element.fits_any hadmits

/-! ## Records that hold records of their own type

A registry of longs, collections and one type of records. A record of this type holds a queue, which the codec of
collections writes, and the next record or null.
-/

/-- The plan of the records' codec. -/
def nodePlan : Plan where
  type := "node"
  marker := 1
  fresh := some [("items", .sequence .queue []), ("next", .null)]
  entries :=
    [⟨.direct, "items", "items", ⟨.sequence .queue, false⟩⟩, ⟨.direct, "next", "next", ⟨.record "node", true⟩⟩]

/-- The markers of the codecs of longs below. -/
def longMarkers : MarkerRange := ⟨-120, 8, by decide, by decide⟩

/-- The marker of the codecs of records below. -/
def recordMarkers : MarkerRange := ⟨1, 1, Nat.one_pos, by decide⟩

/-- The codec of queues, and of lists and sets. -/
def nodeItems : Codec := .collection ⟨-90, 2, by decide, by decide⟩ .any

/-- The codec that the plan describes. -/
def nodeCodec : Codec :=
  .record recordMarkers "node" [("items", .sequence .queue []), ("next", .null)]
    [.mk ⟨"items", "items", "items", ⟨.sequence .queue, false⟩⟩ (.through (.boxed nodeItems)),
      .mk ⟨"next", "next", "next", ⟨.record "node", true⟩⟩ .self]

/-- How the codecs of longs and of collections are made. -/
def nodeRecipes : List Recipe := [.builtin (.atom (.word .long)) (-120) 0, .builtin .collection (-90) 0]

/-- The registry of longs, collections and records. Making the codec of records has looked the codec of queues up. -/
def nodeRegistry : Registry :=
  after (register nodeCodec) ((ofRecipes nodeRecipes).remember (.sequence .queue) nodeItems)

/-- A record. -/
def node (items : List Value) (next : Value) : Value :=
  .record "node" [("items", .sequence .queue items), ("next", next)]

/-- The plan has two fields, which need no setters of their own. -/
theorem fields_nodePlan : nodePlan.fields = .ok (nodePlan.entries.map fun entry => ⟨entry, none⟩) :=
  Plan.fields_of_sorted rfl rfl (by decide)

set_option maxRecDepth 2000 in
/-- The registry is made by registering codecs that recipes have made. -/
theorem reachable_nodeRegistry : ∃ made, Reachable nodeRegistry made := by
  obtain ⟨made, hrecipes⟩ := reachable_ofRecipes nodeRecipes
  have hbuild : (Recipe.record nodePlan).make (ofRecipes nodeRecipes) =
      .ok nodeCodec ((ofRecipes nodeRecipes).remember (.sequence .queue) nodeItems) := by
    unfold Recipe.make Plan.build
    dsimp only
    rw [fields_nodePlan]
    rfl
  exact ⟨_, (hrecipes.make hbuild).register List.mem_cons_self⟩

set_option maxRecDepth 2000 in
/-- The codec of nodes is the one for their type. -/
theorem codecForType_node : nodeRegistry.codecForType (.record "node") = .ok nodeCodec := rfl

/-- A node is admitted if its elements and the next one are. -/
theorem admits_node {items : List Value} {next : Value} (hitems : ∀ item ∈ items, nodeRegistry.Admits item)
    (hnext : nodeRegistry.Admits next) (htype : next = .null ∨ next.type = .record "node") :
    nodeRegistry.Admits (node items next) := by
  refine .record ?_ ?_
  · exact List.forall_mem_cons.2 ⟨.sequence hitems, List.forall_mem_cons.2 ⟨hnext, fun _ hmem => nomatch hmem⟩⟩
  · intro markers fresh fields hcodec
    rw [codecForType_node] at hcodec
    cases hcodec
    have hfield : FieldType.Holds ⟨.record "node", true⟩ next := htype.imp (fun hnull => ⟨rfl, hnull⟩) .inr
    exact List.forall_mem_cons.2 ⟨⟨_, rfl, .inr (.inr rfl)⟩,
      List.forall_mem_cons.2 ⟨⟨_, rfl, hfield⟩, fun _ hmem => nomatch hmem⟩⟩

set_option maxRecDepth 2000 in
/-- A record with a number in its queue, in front of which is another record, is read back from among other bytes. -/
theorem read_write_node :
    let value := node [.atom (.word .long 5)] (node [.sequence .set [], .null] .null)
    ∃ bytes : List UInt8, ([7, 1, 166, 136, 5, 167, 1, 166, 166, 167, 128, 167, 128] : List UInt8) = [7] ++ bytes ∧
      (∀ behind : List UInt8, nodeRegistry.read (([7] ++ bytes ++ behind).drop 1) =
        .ok (nodeRegistry.back value) behind) ∧
      (∀ type index, value = .variant type index → value.equal (nodeRegistry.back value)) ∧
      (nodeRegistry.KeepsKinds → nodeRegistry.Restores value → nodeRegistry.back value = value) := by
  intro value
  have hinner : nodeRegistry.Admits (node [.sequence .set [], .null] .null) := by
    refine admits_node ?_ .null (.inl rfl)
    exact List.forall_mem_cons.2 ⟨.sequence (fun _ hmem => nomatch hmem), List.forall_mem_singleton.2 .null⟩
  have hadmits : nodeRegistry.Admits value :=
    admits_node (List.forall_mem_singleton.2 (.atom _)) hinner (.inr rfl)
  have hwrite : nodeRegistry.write value #[7] =
      .ok () #[7, 1, 166, 136, 5, 167, 1, 166, 166, 167, 128, 167, 128] := rfl
  exact read_write reachable_nodeRegistry hadmits hwrite

end Bytemark.Registry
