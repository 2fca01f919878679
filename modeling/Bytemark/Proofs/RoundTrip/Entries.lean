import Bytemark.Proofs.RoundTrip.Law
import Bytemark.Proofs.Value.Likeness

/-!
# Entries that come back

A map is read by putting its entries into an empty map, and a set by putting its elements into an empty set. Where two
keys come back equal, one entry takes the place of the other, and no error tells of it. This does happen: the codec of
collections writes sequences of every kind and reads lists, so an empty list and an empty queue come back equal; of two
records that differ in slots which their codec leaves out, the same comes back; and a variant may be written as another
that equals more than it does, where the type's comparison is no equivalence.

`Registry.Retains` says that nothing is lost on the way: as many parts come back at every place inside a value as were
there. It holds as long as the keys of each map, and the elements of each set that comes back as a set, come back apart
from each other. They do if they are *steady*, which rules these three cases out. What user types compare by is left
open throughout.
-/

set_option autoImplicit false

namespace Bytemark

/-- Elements that are apart are collected as they are. -/
theorem SequenceKind.collect_of_apart [RecordEquality] {kind : SequenceKind} {items : List Value}
    (h : kind = .set → Value.Apart items) : kind.collect items = .sequence kind items := by
  cases kind with
  | set => rw [SequenceKind.collect, Value.distinct_of_apart (h rfl)]
  | list => rfl
  | queue => rfl

/-- A list that is put into a field of sequences is collected as one of the field's kind. -/
theorem FieldType.convert_list [RecordEquality] {type : FieldType} {kind : SequenceKind}
    (h : type.kind = .sequence kind) (items : List Value) :
    type.convert (.sequence .list items) = .ok (kind.collect items) := by
  unfold FieldType.convert
  rw [if_neg (by simp [Value.isNull]), h]
  cases kind <;> rfl

namespace Registry

/-- The second value has all parts of the first, each retained at its place. A sequence may have become a list; a record
is a fresh one with values put into it that retain those of its fields. -/
inductive Retains [RecordEquality] (registry : Registry) : Value → Value → Prop
  | null : Retains registry .null .null
  | atom (atom : Atom) : Retains registry (.atom atom) (.atom atom)
  | variant {type : String} {index index' : UInt16}
      (hsame : index' = index ∨ RecordEquality.variants type index index') :
      Retains registry (.variant type index) (.variant type index')
  | sequence {kind kind' : SequenceKind} {items items' : List Value} (hkind : kind' = kind ∨ kind' = .list)
      (hlength : items'.length = items.length) (hitems : ∀ pair ∈ items.zip items', Retains registry pair.1 pair.2) :
      Retains registry (.sequence kind items) (.sequence kind' items')
  | map {entries entries' : List (Value × Value)} (hlength : entries'.length = entries.length)
      (hkeys : ∀ pair ∈ entries.zip entries', Retains registry pair.1.1 pair.2.1)
      (hvalues : ∀ pair ∈ entries.zip entries', Retains registry pair.1.2 pair.2.2) :
      Retains registry (.map entries) (.map entries')
  | array {type : ValueType} {items items' : List Value} (hlength : items'.length = items.length)
      (hitems : ∀ pair ∈ items.zip items', Retains registry pair.1 pair.2) :
      Retains registry (.array type items) (.array type items')
  | record {type : String} {slots fresh : List (String × Value)} {markers : MarkerRange} {fields : List Field}
      (put : Field → Value) (hcodec : registry.codecForType (.record type) = .ok (.record markers type fresh fields))
      (hfields : ∀ field ∈ fields, Retains registry ((slots.lookup field.info.source).getD .null) (put field)) :
      Retains registry (.record type slots)
        (.record type (fields.foldl (fun slots field => setSlot slots field.info.target (put field)) fresh))

/-- The keys of every map inside the value meet the condition, and so do the elements of every set that comes back as a
set. Sets are read as sets by the codec of sets, and made from lists again in fields that hold sets. -/
inductive Keyed (registry : Registry) (condition : List Value → Prop) : Value → Element → Prop
  | null {element : Element} : Keyed registry condition .null element
  | atom {element : Element} (atom : Atom) : Keyed registry condition (.atom atom) element
  | variant {element : Element} (type : String) (index : UInt16) :
      Keyed registry condition (.variant type index) element
  | sized {kind : SequenceKind} {items : List Value} {element part : Element} {markers : MarkerRange}
      (hwriter : element.writer registry (.sequence kind) = .ok (.sequence markers kind part))
      (hitems : ∀ item ∈ items, Keyed registry condition item part) (hset : kind = .set → condition items) :
      Keyed registry condition (.sequence kind items) element
  | delimited {kind : SequenceKind} {items : List Value} {element part : Element} {markers : MarkerRange}
      (hwriter : element.writer registry (.sequence kind) = .ok (.collection markers part))
      (hitems : ∀ item ∈ items, Keyed registry condition item part) :
      Keyed registry condition (.sequence kind items) element
  | map {entries : List (Value × Value)} {element key value : Element} {markers : MarkerRange}
      (hwriter : element.writer registry .map = .ok (.map markers key value))
      (hkeys : ∀ entry ∈ entries, Keyed registry condition entry.1 key)
      (hvalues : ∀ entry ∈ entries, Keyed registry condition entry.2 value)
      (hmap : condition (entries.map Prod.fst)) : Keyed registry condition (.map entries) element
  | array {type : ValueType} {items : List Value} {element part : Element} {markers : MarkerRange}
      (hwriter : element.writer registry (.array type) = .ok (.array markers type part))
      (hitems : ∀ item ∈ items, Keyed registry condition item part) :
      Keyed registry condition (.array type items) element
  | record {type : String} {slots fresh : List (String × Value)} {element : Element} {markers : MarkerRange}
      {fields : List Field} (hwriter : element.writer registry (.record type) = .ok (.record markers type fresh fields))
      (hfields : ∀ field ∈ fields, Keyed registry condition ((slots.lookup field.info.source).getD .null)
        (field.binding.resolve (.record markers type fresh fields)))
      (hsets : ∀ field ∈ fields, ∀ items, field.info.type.kind = .sequence .set →
        slots.lookup field.info.source = some (.sequence .set items) → condition items) :
      Keyed registry condition (.record type slots) element

/-- No set or queue inside the value is written by the codec of collections, sets and maps have no repetitions, every
variant is written as one that compares like it, and every record is what its codec makes of a fresh record by putting
the fields into it. In the fields of records, which their types may compare by anything, and in all of an `exact` value,
variants are written as themselves. -/
inductive Steady [RecordEquality] (registry : Registry) : (exact : Bool) → Value → Element → Prop
  | null {exact : Bool} {element : Element} : Steady registry exact .null element
  | atom {exact : Bool} {element : Element} (atom : Atom) : Steady registry exact (.atom atom) element
  | variant {exact : Bool} {type : String} {index : UInt16} {element : Element} {markers : MarkerRange}
      {variants : List UInt16}
      (hwriter : element.writer registry (.enumeration type) = .ok (.enumeration markers type variants))
      (hlisted : ∀ variant, Codec.listed? type variants index = some variant →
        variant = index ∨ exact = false ∧ (Value.variant type index).ComparesLike (.variant type variant)) :
      Steady registry exact (.variant type index) element
  | sized {exact : Bool} {kind : SequenceKind} {items : List Value} {element part : Element} {markers : MarkerRange}
      (hwriter : element.writer registry (.sequence kind) = .ok (.sequence markers kind part))
      (hitems : ∀ item ∈ items, Steady registry exact item part) (hset : kind = .set → Value.Apart items) :
      Steady registry exact (.sequence kind items) element
  | delimited {exact : Bool} {items : List Value} {element part : Element} {markers : MarkerRange}
      (hwriter : element.writer registry (.sequence .list) = .ok (.collection markers part))
      (hitems : ∀ item ∈ items, Steady registry exact item part) :
      Steady registry exact (.sequence .list items) element
  | map {exact : Bool} {entries : List (Value × Value)} {element key value : Element} {markers : MarkerRange}
      (hwriter : element.writer registry .map = .ok (.map markers key value))
      (hkeys : ∀ entry ∈ entries, Steady registry exact entry.1 key)
      (hvalues : ∀ entry ∈ entries, Steady registry exact entry.2 value)
      (hmap : Value.Apart (entries.map Prod.fst)) : Steady registry exact (.map entries) element
  | array {exact : Bool} {type : ValueType} {items : List Value} {element part : Element} {markers : MarkerRange}
      (hwriter : element.writer registry (.array type) = .ok (.array markers type part))
      (hitems : ∀ item ∈ items, Steady registry exact item part) : Steady registry exact (.array type items) element
  | record {exact : Bool} {type : String} {slots fresh : List (String × Value)} {element : Element}
      {markers : MarkerRange} {fields : List Field}
      (hwriter : element.writer registry (.record type) = .ok (.record markers type fresh fields))
      (hholds : ∀ field ∈ fields, field.info.type.Holds ((slots.lookup field.info.source).getD .null))
      (hfields : ∀ field ∈ fields, Steady registry true ((slots.lookup field.info.source).getD .null)
        (field.binding.resolve (.record markers type fresh fields)))
      (hrestored : fields.foldl (fun slots' field =>
        setSlot slots' field.info.target ((slots.lookup field.info.source).getD .null)) fresh = slots) :
      Steady registry exact (.record type slots) element

variable {registry : Registry} {element : Element} {value : Value}

/-! ## Steady values -/

/-- An exactly steady value comes back as it was. -/
theorem Steady.backAs_eq_self [RecordEquality] {exact : Bool} (h : registry.Steady exact value element)
    (hexact : exact = true) : registry.backAs value element = value := by
  induction h with
  | null => rfl
  | atom atom => rfl
  | @variant _ type index element markers variants hwriter hlisted =>
    simp only [backAs, hwriter, if_pos]
    cases hvariant : Codec.listed? type variants index with
    | none => rfl
    | some variant =>
      rcases hlisted variant hvariant with rfl | ⟨hloose, -⟩
      · rfl
      · cases hloose.symm.trans hexact
  | sized hwriter hitems hset ih =>
    simp only [backAs, hwriter]
    rw [backItems_eq_map, map_eq_self fun item hitem => ih item hitem hexact, SequenceKind.collect_of_apart hset]
  | delimited hwriter hitems ih =>
    simp only [backAs, hwriter]
    rw [backItems_eq_map, map_eq_self fun item hitem => ih item hitem hexact]
  | map hwriter hkeys hvalues hmap ihkeys ihvalues =>
    simp only [backAs, hwriter]
    rw [backEntries_eq_map, map_eq_self fun entry hentry => ?_, Value.distinctEntries_of_apart hmap]
    rw [ihkeys entry hentry hexact, ihvalues entry hentry hexact]
  | array hwriter hitems ih =>
    simp only [backAs, hwriter]
    rw [backItems_eq_map, map_eq_self fun item hitem => ih item hitem hexact]
  | @record _ type slots fresh element markers fields hwriter hholds hfields hrestored ih =>
    have hback : ∀ field ∈ fields, field.back (registry.slotBacks slots) (.record markers type fresh fields) =
        (slots.lookup field.info.source).getD .null := by
      intro field hfield
      rw [back_field, ih field hfield rfl, FieldType.fitted, FieldType.convert_of_holds (hholds field hfield)]
    simp only [backAs, hwriter, if_pos]
    rw [foldl_setSlot_eq hback, hrestored]

/-- A steady value comes back as one that compares like it. -/
theorem Steady.comparesLike [RecordEquality] {exact : Bool} (h : registry.Steady exact value element) :
    value.ComparesLike (registry.backAs value element) := by
  induction h with
  | null => exact .refl _
  | atom atom => exact .refl _
  | @variant _ type index element markers variants hwriter hlisted =>
    simp only [backAs, hwriter, if_pos]
    cases hvariant : Codec.listed? type variants index with
    | none => exact .refl _
    | some variant =>
      rcases hlisted variant hvariant with rfl | ⟨-, hlike⟩
      · exact .refl _
      · exact hlike
  | sized hwriter hitems hset ih =>
    simp only [backAs, hwriter]
    rw [backItems_eq_map, SequenceKind.collect_of_apart fun hkind => Value.apart_map ih (hset hkind)]
    exact Value.comparesLike_sequence _ ih
  | delimited hwriter hitems ih =>
    simp only [backAs, hwriter]
    rw [backItems_eq_map]
    exact Value.comparesLike_sequence _ ih
  | @map _ entries element key value markers hwriter hkeys hvalues hmap ihkeys ihvalues =>
    have hapart : Value.Apart ((entries.map fun entry =>
        (registry.backAs entry.1 key, registry.backAs entry.2 value)).map Prod.fst) := by
      have hkept := Value.apart_map (f := (registry.backAs · key)) (List.forall_mem_map.2 ihkeys) hmap
      rw [List.map_map] at hkept ⊢
      exact hkept
    simp only [backAs, hwriter]
    rw [backEntries_eq_map, Value.distinctEntries_of_apart hapart]
    exact Value.comparesLike_map (f := (registry.backAs · key)) (g := (registry.backAs · value)) ihkeys ihvalues
  | array hwriter hitems ih =>
    simp only [backAs, hwriter]
    rw [backItems_eq_map]
    exact Value.comparesLike_array _ ih
  | @record _ type slots fresh element markers fields hwriter hholds hfields hrestored =>
    -- What a record compares by is its type's affair, so it has to come back as it was.
    have hsteady : registry.Steady true (.record type slots) element := .record hwriter hholds hfields hrestored
    rw [hsteady.backAs_eq_self rfl]
    exact .refl _

/-! ## What comes back retains what was written -/

/-- A weaker condition on the keys holds where a stronger one does. -/
theorem Keyed.mono {condition condition' : List Value → Prop} (h : registry.Keyed condition value element)
    (hcondition : ∀ keys, condition keys → condition' keys) : registry.Keyed condition' value element := by
  induction h with
  | null => exact .null
  | atom atom => exact .atom atom
  | variant type index => exact .variant type index
  | sized hwriter _ hset ih => exact .sized hwriter ih fun hkind => hcondition _ (hset hkind)
  | delimited hwriter _ ih => exact .delimited hwriter ih
  | map hwriter _ _ hmap ihkeys ihvalues => exact .map hwriter ihkeys ihvalues (hcondition _ hmap)
  | array hwriter _ ih => exact .array hwriter ih
  | record hwriter _ hsets ih =>
    exact .record hwriter ih fun field hfield items hkind hslot => hcondition _ (hsets field hfield items hkind hslot)

/-- The keys, or elements, come back apart from each other. -/
def StaysApart [RecordEquality] (registry : Registry) (keys : List Value) : Prop := Value.Apart (keys.map registry.back)

/-- Keys that are apart and steady stay apart. -/
theorem staysApart_of_steady [RecordEquality] {keys : List Value} (hapart : Value.Apart keys)
    (hsteady : ∀ key ∈ keys, registry.Steady false key .any) : registry.StaysApart keys :=
  Value.apart_map (fun key hkey => (hsteady key hkey).comparesLike) hapart

/-- What holds of an item and its image holds of all such pairs. -/
theorem forall_mem_zip_map {α β : Type} {items : List α} {f : α → β} {holds : α × β → Prop}
    (h : ∀ item ∈ items, holds (item, f item)) : ∀ pair ∈ items.zip (items.map f), holds pair := by
  induction items with
  | nil => exact fun _ hmem => nomatch hmem
  | cons item items ih =>
    rw [List.map_cons, List.zip_cons_cons]
    exact List.forall_mem_cons.2 ⟨h item List.mem_cons_self, ih fun item hitem => h item (List.mem_cons_of_mem _ hitem)⟩

/-- Elements of any type come back as the registry brings them back. -/
theorem backItems_any [RecordEquality] (registry : Registry) (items : List Value) :
    registry.backItems items .any = items.map registry.back :=
  registry.backItems_eq_map items .any

/-- A sequence comes back with its kind, or as the list of what its elements come back as. -/
theorem Sound.backAs_sequence_cases [RecordEquality] (hsound : registry.Sound) (hfits : element.Fits registry)
    (kind : SequenceKind) (items : List Value) :
    (registry.backAs (.sequence kind items) element).type = .sequence kind ∨
      registry.backAs (.sequence kind items) element = .sequence .list (items.map registry.back) := by
  unfold backAs
  split
  · exact .inl (kind.type_collect _)
  · rename_i hwriter
    cases hsound.fits (hsound.mem_of_writer hfits hwriter Codec.noConfusion) with
    | collection hcount =>
      right
      rw [backItems_any]
  · exact .inl rfl

/-- What is put into a field retains what came back for it. A set that came back as a list is a set again, with all its
elements if they came back apart. -/
theorem Sound.retains_fitted [RecordEquality] (hsound : registry.Sound) (hfits : element.Fits registry)
    {type : FieldType} (hholds : type.Holds value) (hretains : registry.Retains value (registry.backAs value element))
    (hset : ∀ items, type.kind = .sequence .set → value = .sequence .set items → registry.StaysApart items) :
    registry.Retains value (type.fitted (registry.backAs value element)) := by
  have hkept : type.convert (registry.backAs value element) = .ok (registry.backAs value element) →
      registry.Retains value (type.fitted (registry.backAs value element)) := by
    intro hconvert
    rwa [FieldType.fitted, hconvert]
  rcases hholds with ⟨hoptional, rfl⟩ | hany | htype
  · exact hkept (FieldType.convert_null hoptional)
  · exact hkept (FieldType.convert_of_any hany)
  · rcases registry.type_backAs value element with hsame | ⟨⟨kind, hkind⟩, -⟩
    · exact hkept (FieldType.convert_of_type (hsame.trans htype))
    cases value with
    | sequence kind' items =>
      rcases hsound.backAs_sequence_cases hfits kind' items with hsame | hlist
      · exact hkept (FieldType.convert_of_type (hsame.trans htype))
      have hfield : type.kind = .sequence kind' := by
        cases hfield : type.kind <;> rw [hfield] at htype <;> cases htype
        rfl
      -- The list that came back is made a set again, and here elements could merge.
      have hapart : kind' = .set → Value.Apart (items.map registry.back) := by
        rintro rfl
        exact hset items hfield rfl
      rw [hlist] at hretains ⊢
      rw [FieldType.fitted, FieldType.convert_list hfield, SequenceKind.collect_of_apart hapart]
      cases hretains with
      | sequence _ hlength hitems => exact .sequence (.inl rfl) hlength hitems
    | _ => cases hkind

/-- Nothing is lost of a value if all keys of its maps, and all elements of sets that come back as sets, come back apart
from each other. -/
theorem Sound.retains_backAs [RecordEquality] (hsound : registry.Sound) (hfits : element.Fits registry)
    (hadmits : registry.Admits value) (hkeyed : registry.Keyed registry.StaysApart value element) :
    registry.Retains value (registry.backAs value element) := by
  induction hkeyed with
  | null => exact .null
  | atom atom => exact .atom atom
  | @variant element type index =>
    obtain ⟨index', hback, hsame⟩ := registry.backAs_variant type index element
    rw [hback]
    exact .variant hsame
  | @sized kind items element part markers hwriter hitems hset ih =>
    have hpart := hsound.fits_parts hfits hwriter
    cases hsound.fits (hsound.mem_of_writer hfits hwriter Codec.noConfusion) with
    | sequence hcount =>
      simp only [backAs, hwriter]
      rw [backItems_any, SequenceKind.collect_of_apart hset]
      refine .sequence (.inl rfl) (List.length_map _) (forall_mem_zip_map fun item hitem => ?_)
      exact ih item hitem hpart (hadmits.item item hitem)
  | delimited hwriter hitems ih =>
    have hpart := hsound.fits_parts hfits hwriter
    simp only [backAs, hwriter]
    rw [backItems_eq_map]
    refine .sequence (.inr rfl) (List.length_map _) (forall_mem_zip_map fun item hitem => ?_)
    exact ih item hitem hpart (hadmits.item item hitem)
  | @map entries element key value markers hwriter hkeys hvalues hmap ihkeys ihvalues =>
    obtain ⟨hkey, hvalue⟩ := hsound.fits_parts hfits hwriter
    cases hsound.fits (hsound.mem_of_writer hfits hwriter Codec.noConfusion) with
    | map hcount =>
      have hapart : Value.Apart ((entries.map fun entry =>
          (registry.backAs entry.1 .any, registry.backAs entry.2 .any)).map Prod.fst) := by
        rw [StaysApart, List.map_map] at hmap
        rw [List.map_map]
        exact hmap
      simp only [backAs, hwriter]
      rw [backEntries_eq_map, Value.distinctEntries_of_apart hapart]
      refine .map (List.length_map _) (forall_mem_zip_map fun entry hentry => ?_)
        (forall_mem_zip_map fun entry hentry => ?_)
      · exact ihkeys entry hentry hkey (hadmits.entry entry hentry).1
      · exact ihvalues entry hentry hvalue (hadmits.entry entry hentry).2
  | array hwriter hitems ih =>
    have hpart := hsound.fits_parts hfits hwriter
    simp only [backAs, hwriter]
    rw [backItems_eq_map]
    refine .array (List.length_map _) (forall_mem_zip_map fun item hitem => ?_)
    exact ih item hitem hpart (hadmits.arrayItem item hitem)
  | @record type slots fresh element markers fields hwriter hfields hsets ih =>
    have hself := hsound.answer_of_record_writer hfits hwriter
    have hparts := hsound.fits_parts hfits hwriter
    simp only [backAs, hwriter, if_pos]
    -- The values that are put into the fresh record are those that the fields come back as.
    refine .record _ hself fun field hfield => ?_
    obtain ⟨value, hslot, hholds, hvalue⟩ := hadmits.slot hself field hfield
    have hretains := ih field hfield (hparts field hfield)
    have hsets' := hsets field hfield
    rw [back_field]
    rw [hslot, Option.getD_some] at hretains ⊢
    refine hsound.retains_fitted (hparts field hfield) hholds (hretains hvalue) fun items hkind hset => ?_
    exact hsets' items hkind (by rw [hslot, hset])

/-! ## How many entries come back -/

section Counting

variable {bytes : List UInt8}

/-- A map comes back as the map of what its entries come back as. -/
theorem Sound.back_map [RecordEquality] (hsound : registry.Sound) {entries : List (Value × Value)}
    (h : Encodes registry (.map entries) .any bytes) :
    registry.back (.map entries) =
      .map (Value.distinctEntries (entries.map fun entry => (registry.back entry.1, registry.back entry.2))) := by
  cases h with
  | map hwriter hsize hlength hkeys hvalues =>
    cases hsound.fits (hsound.mem_of_writer Element.fits_any hwriter Codec.noConfusion) with
    | map hcount =>
      simp only [back, backAs, hwriter, backEntries_eq_map]

/-- A set comes back as the list or as the set of what its elements come back as. -/
theorem Sound.back_set [RecordEquality] (hsound : registry.Sound) {items : List Value}
    (h : Encodes registry (.sequence .set items) .any bytes) :
    registry.back (.sequence .set items) = .sequence .list (items.map registry.back) ∨
      registry.back (.sequence .set items) = .sequence .set (Value.distinct (items.map registry.back)) := by
  cases h with
  | sized hwriter hsize hlength hparts =>
    cases hsound.fits (hsound.mem_of_writer Element.fits_any hwriter Codec.noConfusion) with
    | sequence hcount =>
      right
      rw [back]
      simp only [backAs, hwriter, backItems_any, SequenceKind.collect]
  | delimited hwriter hcollects hlength hparts =>
    cases hsound.fits (hsound.mem_of_writer Element.fits_any hwriter Codec.noConfusion) with
    | collection hcount =>
      left
      rw [back]
      simp only [backAs, hwriter, backItems_any]

end Counting

/-- Let a registry be reachable and a value be written with it, behind any bytes. What was appended is read back as what
the value comes back as. Nothing of the value is lost on the way if the keys of each of its maps, and the elements of
each set that comes back as a set, come back apart from each other; and they do if they are apart and steady, as two
steady values come back equal only if they were equal. A map comes back as a map, with as many entries exactly if its
keys come back apart. A set comes back as the list of all its elements, or as a set with as many elements exactly if
they come back apart. -/
theorem read_write_retains [RecordEquality] (hreach : ∃ made, Reachable registry made) (hadmits : registry.Admits value)
    {before after : Output} (hwrite : registry.write value before = .ok () after) :
    ∃ bytes : List UInt8, after.toList = before.toList ++ bytes ∧
      (∀ behind : List UInt8, registry.read ((before.toList ++ bytes ++ behind).drop before.size) =
        .ok (registry.back value) behind) ∧
      (registry.Keyed registry.StaysApart value .any → registry.Retains value (registry.back value)) ∧
      (registry.Keyed (fun keys => Value.Apart keys ∧ ∀ key ∈ keys, registry.Steady false key .any) value .any →
        registry.Retains value (registry.back value)) ∧
      (∀ key key', registry.Steady false key .any → registry.Steady false key' .any →
        (registry.back key).equal (registry.back key') = key.equal key') ∧
      (∀ entries, value = .map entries → ∃ entries', registry.back value = .map entries' ∧
        entries'.length ≤ entries.length ∧
        (entries'.length = entries.length ↔ registry.StaysApart (entries.map Prod.fst))) ∧
      ∀ items, value = .sequence .set items →
        registry.back value = .sequence .list (items.map registry.back) ∨
        ∃ items', registry.back value = .sequence .set items' ∧ items'.length ≤ items.length ∧
          (items'.length = items.length ↔ registry.StaysApart items) := by
  obtain ⟨made, hreach⟩ := hreach
  have hsound := hreach.sound.1
  obtain ⟨bytes, hemits, rfl⟩ := (registry.uniform_writeAs value .any).emits_of_ok hwrite
  have hencodes := encodes_of_emits hemits
  have hretains : registry.Keyed registry.StaysApart value .any → registry.Retains value (registry.back value) :=
    hsound.retains_backAs Element.fits_any hadmits
  refine ⟨bytes, by simp, fun behind => ?_, hretains, fun hkeyed => ?_, fun key key' hkey hkey' => ?_, ?_, ?_⟩
  · rw [List.append_assoc, ← Array.length_toList, List.drop_left]
    exact hsound.decodes_write hadmits hemits behind
  · exact hretains (hkeyed.mono fun keys hkeys => staysApart_of_steady hkeys.1 hkeys.2)
  · exact hkey.comparesLike.equal_eq hkey'.comparesLike
  · rintro entries rfl
    have hkeys : (entries.map fun entry => (registry.back entry.1, registry.back entry.2)).map Prod.fst =
        (entries.map Prod.fst).map registry.back := by
      rw [List.map_map, List.map_map]
      rfl
    have hle :=
      Value.length_distinctEntries_le (entries.map fun entry => (registry.back entry.1, registry.back entry.2))
    have hiff :=
      Value.length_distinctEntries_eq_iff (entries.map fun entry => (registry.back entry.1, registry.back entry.2))
    rw [List.length_map] at hle hiff
    rw [hkeys] at hiff
    exact ⟨_, hsound.back_map hencodes, hle, hiff⟩
  · rintro items rfl
    refine (hsound.back_set hencodes).imp id fun hset => ⟨_, hset, ?_⟩
    have hle := Value.length_distinct_le (items.map registry.back)
    have hiff := Value.length_distinct_eq_iff (items.map registry.back)
    rw [List.length_map] at hle hiff
    exact ⟨hle, hiff⟩

/-! ## Keys that merge

A registry of longs, collections, maps and one type of records, whose codec leaves out one of two slots.
-/

/-- The plan of the records' codec. -/
def pairPlan : Plan where
  type := "pair"
  marker := 1
  fresh := some [("left", .atom (.word .long 0)), ("right", .atom (.word .long 0))]
  entries := [⟨.direct, "left", "left", ⟨.atom (.word .long), false⟩⟩]

/-- The codec of longs. -/
def pairLongs : Codec := .atom ⟨.word .long, longMarkers⟩

/-- The codec that the plan describes. -/
def pairCodec : Codec :=
  .record recordMarkers "pair" [("left", .atom (.word .long 0)), ("right", .atom (.word .long 0))]
    [.mk ⟨"left", "left", "left", ⟨.atom (.word .long), false⟩⟩ (.through (.direct pairLongs))]

/-- How the codecs of longs, of collections and of maps are made. -/
def pairRecipes : List Recipe :=
  [.builtin (.atom (.word .long)) (-120) 0, .builtin .collection (-90) 0, .builtin .map 20 0]

/-- The registry of longs, collections, maps and records. Making the codec of records has looked the codec of longs
up. -/
def pairRegistry : Registry :=
  after (register pairCodec) ((ofRecipes pairRecipes).remember (.atom (.word .long)) pairLongs)

/-- A record. -/
def pair (left right : Word .long) : Value :=
  .record "pair" [("left", .atom (.word .long left)), ("right", .atom (.word .long right))]

/-- The plan has one field, which needs no setter of its own. -/
theorem fields_pairPlan : pairPlan.fields = .ok (pairPlan.entries.map fun entry => ⟨entry, none⟩) :=
  Plan.fields_of_sorted rfl rfl (by decide)

set_option maxRecDepth 2000 in
/-- The registry is made by registering codecs that recipes have made. -/
theorem reachable_pairRegistry : ∃ made, Reachable pairRegistry made := by
  obtain ⟨made, hrecipes⟩ := reachable_ofRecipes pairRecipes
  have hbuild : (Recipe.record pairPlan).make (ofRecipes pairRecipes) =
      .ok pairCodec ((ofRecipes pairRecipes).remember (.atom (.word .long)) pairLongs) := by
    unfold Recipe.make Plan.build
    dsimp only
    rw [fields_pairPlan]
    rfl
  exact ⟨_, (hrecipes.make hbuild).register List.mem_cons_self⟩

set_option maxRecDepth 2000 in
/-- A map whose keys are lists retains its entries, although one of its values is a queue that comes back as a list. -/
theorem read_write_retains_lists :
    let value : Value :=
      .map [(.sequence .list [.atom (.word .long 5)], .sequence .queue [.null]), (.sequence .list [], .null)]
    pairRegistry.Keyed (fun keys => Value.Apart keys ∧ ∀ key ∈ keys, pairRegistry.Steady false key .any) value .any ∧
    ∃ bytes : List UInt8, ([20, 130, 166, 136, 5, 167, 166, 128, 167, 166, 167, 128] : List UInt8) = bytes ∧
      (∀ behind : List UInt8, pairRegistry.read (bytes ++ behind) = .ok (pairRegistry.back value) behind) ∧
      pairRegistry.Retains value (pairRegistry.back value) := by
  intro value
  have hsequence : ∀ kind, Element.any.writer pairRegistry (.sequence kind) =
      .ok (.collection ⟨-90, 2, by decide, by decide⟩ .any) := by
    intro kind
    cases kind <;> rfl
  have hmap : Element.any.writer pairRegistry .map = .ok (.map ⟨20, 4, by decide, by decide⟩ .any .any) := rfl
  have hadmits : pairRegistry.Admits value := by
    refine .map (List.forall_mem_cons.2 ⟨.sequence ?_, ?_⟩) (List.forall_mem_cons.2 ⟨.sequence ?_, ?_⟩)
    · exact List.forall_mem_singleton.2 (.atom _)
    · exact List.forall_mem_singleton.2 (.sequence fun _ hmem => nomatch hmem)
    · exact List.forall_mem_singleton.2 .null
    · exact List.forall_mem_singleton.2 .null
  have hsteady : ∀ key ∈ [Value.sequence .list [.atom (.word .long 5)], .sequence .list []],
      pairRegistry.Steady false key .any := by
    refine List.forall_mem_cons.2 ⟨.delimited (hsequence _) ?_, List.forall_mem_singleton.2 ?_⟩
    · exact List.forall_mem_singleton.2 (.atom _)
    · exact .delimited (hsequence _) fun _ hmem => nomatch hmem
  have hapart : Value.Apart [Value.sequence .list [.atom (.word .long 5)], .sequence .list []] := by
    refine List.pairwise_pair.2 ?_
    decide +kernel
  have hkeyed : pairRegistry.Keyed (fun keys => Value.Apart keys ∧ ∀ key ∈ keys, pairRegistry.Steady false key .any)
      value .any := by
    refine .map hmap (List.forall_mem_cons.2 ⟨.delimited (hsequence _) ?_, ?_⟩)
      (List.forall_mem_cons.2 ⟨.delimited (hsequence _) ?_, ?_⟩) ⟨hapart, hsteady⟩
    · exact List.forall_mem_singleton.2 (.atom _)
    · exact List.forall_mem_singleton.2 (.delimited (hsequence _) fun _ hmem => nomatch hmem)
    · exact List.forall_mem_singleton.2 .null
    · exact List.forall_mem_singleton.2 .null
  have hwrite : pairRegistry.write value #[] =
      .ok () #[20, 130, 166, 136, 5, 167, 166, 128, 167, 166, 167, 128] := rfl
  obtain ⟨bytes, hbytes, hread, -, hretains, -⟩ := read_write_retains reachable_pairRegistry hadmits hwrite
  exact ⟨hkeyed, bytes, hbytes, hread, hretains hkeyed⟩

set_option maxRecDepth 4000 in
/-- An empty list and an empty queue are different keys, and so are two records that differ in the slot which their
codec leaves out. In both cases the map is written, and comes back with one entry instead of two. -/
theorem equal_keys_merge :
    let sequences : Value :=
      .map [(.sequence .list [], .atom (.word .long 1)), (.sequence .queue [], .atom (.word .long 2))]
    let records : Value := .map [(pair 1 1, .atom (.word .long 1)), (pair 1 2, .atom (.word .long 2))]
    (∃ made, Reachable pairRegistry made) ∧
    (Value.sequence .queue []).equal (.sequence .list []) = false ∧
    pairRegistry.write sequences #[] = .ok () #[20, 130, 166, 167, 136, 1, 166, 167, 136, 2] ∧
    pairRegistry.read [20, 130, 166, 167, 136, 1, 166, 167, 136, 2] =
      .ok (.map [(.sequence .list [], .atom (.word .long 2))]) [] ∧
    (pair 1 2).equal (pair 1 1) = false ∧
    pairRegistry.write records #[] = .ok () #[20, 130, 1, 136, 1, 136, 1, 1, 136, 1, 136, 2] ∧
    pairRegistry.read [20, 130, 1, 136, 1, 136, 1, 1, 136, 1, 136, 2] =
      .ok (.map [(pair 1 0, .atom (.word .long 2))]) [] := by
  have hsequences : (Value.sequence .list []).equal (.sequence .list []) := by decide +kernel
  have hrecords : (pair 1 0).equal (pair 1 0) := by decide +kernel
  have hreadSequences : pairRegistry.read [20, 130, 166, 167, 136, 1, 166, 167, 136, 2] =
      .ok (.map (Value.distinctEntries
        [(.sequence .list [], .atom (.word .long 1)), (.sequence .list [], .atom (.word .long 2))])) [] := rfl
  have hreadRecords : pairRegistry.read [20, 130, 1, 136, 1, 136, 1, 1, 136, 1, 136, 2] =
      .ok (.map (Value.distinctEntries
        [(pair 1 0, .atom (.word .long 1)), (pair 1 0, .atom (.word .long 2))])) [] := rfl
  refine ⟨reachable_pairRegistry, by decide +kernel, rfl, ?_, by decide +kernel, rfl, ?_⟩
  · rw [hreadSequences, Value.distinctEntries_pair hsequences]
  · rw [hreadRecords, Value.distinctEntries_pair hrecords]

end Registry

end Bytemark
