import Bytemark.Proofs.Reading.Progress
import Bytemark.Proofs.RoundTrip.Values

/-!
# What was written is read to its end

Not every value that is written comes back: the slot of a record may hold what its field does not take, and then the
reader refuses it. But a reader never stops inside the bytes of a value, and never goes on behind them: where it
succeeds, it leaves just what follows (`Encodes.exhausts`). The proof puts readers together as decoding does, without
asking for the values that are read. Of what decoding needs, only the first bytes of delimited elements are left.
-/

set_option autoImplicit false

namespace Bytemark

variable {α β γ : Type} {bytes front back : List UInt8} {last : Marker}

/-- Whatever follows the bytes, a read that succeeds leaves just that. -/
def Exhausts (read : Read α) (bytes : List UInt8) : Prop :=
  ∀ ⦃rest left : Input⦄ ⦃a : α⦄, read (bytes ++ rest) = .ok a left → left = rest

/-- What reads the bytes as a value takes them to the end. -/
theorem Decodes.exhausts {read : Read α} {a : α} (h : Decodes read bytes a) : Exhausts read bytes := by
  intro rest left b hread
  cases (h rest).symm.trans hread
  rfl

namespace Exhausts

/-- What takes no byte exhausts no bytes. -/
theorem pure (a : α) : Exhausts (pure a) [] := (Decodes.pure a).exhausts

/-- What fails leaves nothing unread that it could have read. -/
theorem throw (e : Error) : Exhausts (throw e : Read α) bytes := fun _ _ _ h => nomatch h

/-- Two readers in a row exhaust the bytes of both. -/
theorem bind {read : Read α} {next : α → Read β} (hread : Exhausts read front)
    (hnext : ∀ a, Exhausts (next a) back) : Exhausts (read >>= next) (front ++ back) := by
  intro rest left b h
  obtain ⟨a, mid, ha, hb⟩ := bind_eq_ok_iff.1 h
  rw [List.append_assoc] at ha
  obtain rfl := hread ha
  exact hnext a hb

/-- A second step that takes no byte leaves it to the first to exhaust the bytes. -/
theorem bind_pure {read : Read α} {next : α → Read β} (hread : Exhausts read bytes)
    (hnext : ∀ a, Exhausts (next a) []) : Exhausts (read >>= next) bytes := by
  have hboth := hread.bind hnext
  rwa [List.append_nil] at hboth

/-- If the first reader reads its bytes as one value, the second has to exhaust the rest for this value alone. -/
theorem decodes_bind {read : Read α} {next : α → Read β} {a : α} (hread : Decodes read front a)
    (hnext : Exhausts (next a) back) : Exhausts (read >>= next) (front ++ back) := by
  intro rest left b h
  obtain ⟨a', mid, ha, hb⟩ := bind_eq_ok_iff.1 h
  rw [List.append_assoc] at ha
  cases (hread _).symm.trans ha
  exact hnext hb

/-- An answer that is given exhausts no bytes. -/
theorem ofExcept (answer : Except Error α) : Exhausts (MonadExcept.ofExcept answer) [] := by
  cases answer with
  | ok a => exact pure a
  | error e => exact throw e

/-- Repeated reads exhaust the bytes of all parts if each read exhausts those of its part. -/
theorem repeated {item : Read α} {parts : List γ} (spell : γ → List UInt8)
    (h : ∀ part ∈ parts, Exhausts item (spell part)) :
    Exhausts (Input.repeated parts.length item) (parts.flatMap spell) := by
  suffices hrun : ∀ done, Exhausts (Input.repeatOnto item parts.length done) (parts.flatMap spell) from hrun []
  induction parts with
  | nil =>
    intro done
    exact pure done.reverse
  | cons part parts ih =>
    intro done
    rw [List.forall_mem_cons] at h
    rw [List.length_cons, List.flatMap_cons, Input.repeatOnto_succ]
    exact h.1.bind fun a => ih h.2 (a :: done)

/-- Elements that do not start with the end marker are all read before it, or the run fails. -/
theorem readDelimited {item : Read α} {parts : List (List UInt8)} {rest left : Input} {items : List α}
    (h : ∀ part ∈ parts, Exhausts item part ∧ ∃ marker tail, part = marker.toByte :: tail ∧ marker ≠ last)
    (hread : readDelimited last item (parts.flatten ++ [last.toByte] ++ rest) = .ok items left) :
    items.length = parts.length ∧ left = rest := by
  suffices hrun : ∀ bound done, readUntil last item bound done (parts.flatten ++ [last.toByte] ++ rest) =
      .ok items left → items.length = done.length + parts.length ∧ left = rest by
    simpa using hrun _ [] hread
  clear hread
  intro bound
  induction bound generalizing parts with
  | zero => exact fun _ hread => nomatch hread
  | succ bound ih =>
    intro done hread
    rw [readUntil_succ] at hread
    cases parts with
    | nil =>
      obtain ⟨byte, tail, hinput, hread⟩ := Input.peek_bind_eq_ok_iff.1 hread
      cases hinput
      rw [if_pos (Marker.ofByte_toByte last)] at hread
      cases hread
      simp
    | cons part parts =>
      rw [List.forall_mem_cons] at h
      obtain ⟨⟨hitem, marker, tail, rfl, hmarker⟩, hitems⟩ := h
      obtain ⟨byte, tail', hinput, hread⟩ := Input.peek_bind_eq_ok_iff.1 hread
      cases hinput
      -- The element's first marker is not the last one of the run, so the loop goes on to the element.
      rw [Marker.ofByte_toByte, if_neg hmarker] at hread
      obtain ⟨a, mid, ha, hrest⟩ := bind_eq_ok_iff.1 hread
      rw [List.flatten_cons, List.append_assoc, List.append_assoc] at ha
      obtain rfl := hitem ha
      rw [← List.append_assoc] at hrest
      obtain ⟨hlength, hleft⟩ := ih hitems (a :: done) hrest
      refine ⟨?_, hleft⟩
      rw [hlength, List.length_cons, List.length_cons]
      omega

/-- A part is exhausted if the reader of nested values exhausts it. -/
theorem readIn {nested : Element → Read Value} {part : Element} (h : Exhausts (nested part) bytes) (target : String) :
    Exhausts (part.readIn nested target) bytes := by
  refine h.bind_pure fun value => ?_
  dsimp only
  split
  · exact (throw _).bind_pure fun _ => pure _
  · exact pure value

/-- The content is exhausted behind its opening marker. -/
theorem opening {range : MarkerRange} (hbase : range.base ≠ Marker.null) {target : String} {content : Read Value}
    (h : Exhausts content bytes) : Exhausts (range.opening target content) (range.base.toByte :: bytes) := by
  refine decodes_bind (Decodes.marker range.base) ?_
  simpa [if_neg hbase] using h

/-- What is counted is exhausted behind its size. -/
theorem counted {range : MarkerRange} (hbase : range.base ≠ Marker.null) (hcount : range.count = Size.markers)
    {size : Nat} (payload : Nat → Read α) (h : Emits (Size.write range.base size) front)
    (hpayload : Exhausts (payload size) back) (target : String) :
    Exhausts (Size.counted range.base target payload) (front ++ back) := by
  obtain ⟨-, hread⟩ := Size.decodes_read hbase hcount h target
  exact decodes_bind hread (hpayload.bind_pure fun a => pure (some a))

/-- A field takes what is read for it, or fails. -/
theorem field [RecordEquality] {nested : Element → Read Value} {self : Codec} {field : Field}
    (h : Exhausts (nested (field.binding.resolve self)) bytes) : Exhausts (field.read nested self) bytes := by
  unfold Field.read
  dsimp only
  split
  · rename_i codec hdirect
    rw [hdirect] at h
    refine h.bind_pure fun value => ?_
    split
    · exact (throw _).bind_pure fun _ => pure _
    · exact pure value
  · exact h.bind_pure fun value => ofExcept _

/-- The fields of a record are exhausted one after the other. -/
theorem fields {read : Field → Read Value} {fields : List Field} {parts : List (List UInt8)}
    (hlength : parts.length = fields.length) (h : ∀ pair ∈ fields.zip parts, Exhausts (read pair.1) pair.2)
    (slots : List (String × Value)) :
    Exhausts (fields.foldlM (fun slots field => do return setSlot slots field.info.target (← read field)) slots)
      parts.flatten := by
  induction fields generalizing parts slots with
  | nil =>
    obtain rfl := List.length_eq_zero_iff.1 hlength
    exact pure slots
  | cons field fields ih =>
    cases parts with
    | nil => cases hlength
    | cons part parts =>
      rw [List.zip_cons_cons, List.forall_mem_cons] at h
      rw [List.foldlM_cons]
      exact (h.1.bind_pure fun value => pure _).bind fun slots => ih (Nat.succ.inj hlength) h.2 slots

end Exhausts

/-- What holds of all parts beside their items holds of all parts. -/
theorem forall_mem_of_zip {items : List α} {parts : List β} {P : β → Prop} (hlength : parts.length = items.length)
    (h : ∀ pair ∈ items.zip parts, P pair.2) : ∀ part ∈ parts, P part := by
  have hparts : (items.zip parts).map Prod.snd = parts := List.map_snd_zip (Nat.le_of_eq hlength)
  intro part hpart
  rw [← hparts] at hpart
  obtain ⟨pair, hpair, rfl⟩ := List.mem_map.1 hpart
  exact h pair hpair

/-! ## The codecs -/

namespace Codec

variable {nested : Element → Read Value} {markers : MarkerRange} {part : Element} {parts : List (List UInt8)}
  {size : List UInt8}

/-- A codec of sequences exhausts its parts behind their size. -/
theorem exhausts_sequence [RecordEquality] {kind : SequenceKind} (hbase : markers.base ≠ Marker.null)
    (hcount : markers.count = Size.markers) (hsize : Emits (Size.write markers.base parts.length) size)
    (hparts : ∀ bytes ∈ parts, Exhausts (nested part) bytes) :
    Exhausts ((Codec.sequence markers kind part).read nested) (size ++ parts.flatten) := by
  have hrun := Exhausts.repeated id fun bytes hbytes => (hparts bytes hbytes).readIn kind.name
  rw [List.flatMap_id] at hrun
  have hcounted := Exhausts.counted hbase hcount (fun count => Input.repeated count (part.readIn nested kind.name))
    hsize hrun kind.name
  exact hcounted.bind_pure fun items => .pure _

/-- A collection is read with as many elements as were written, or not at all. -/
theorem length_of_read_collection [RecordEquality] (hbase : markers.base ≠ Marker.null)
    (hparts : ∀ bytes ∈ parts, Exhausts (nested part) bytes ∧
      ∃ marker tail, bytes = marker.toByte :: tail ∧ marker ≠ markers.markerAt 1) {rest left : Input} {value : Value}
    (h : (Codec.collection markers part).read nested
      (markers.base.toByte :: (parts.flatten ++ [(markers.markerAt 1).toByte]) ++ rest) = .ok value left) :
    ∃ items, value = .sequence .list items ∧ items.length = parts.length ∧ left = rest := by
  have hrun := (MarkerRange.opening_base hbase "collection" _ _).symm.trans h
  obtain ⟨items, mid, hitems, hpure⟩ := bind_eq_ok_iff.1 hrun
  cases hpure
  exact ⟨items, rfl, Exhausts.readDelimited (fun bytes hbytes => (hparts bytes hbytes).imp_left (·.readIn _)) hitems⟩

/-- A codec of maps exhausts its keys and values behind their size. -/
theorem exhausts_map [RecordEquality] {key value : Element} {parts : List (List UInt8 × List UInt8)}
    (hbase : markers.base ≠ Marker.null) (hcount : markers.count = Size.markers)
    (hsize : Emits (Size.write markers.base parts.length) size)
    (hkeys : ∀ bytes ∈ parts, Exhausts (nested key) bytes.1)
    (hvalues : ∀ bytes ∈ parts, Exhausts (nested value) bytes.2) :
    Exhausts ((Codec.map markers key value).read nested) (size ++ parts.flatMap fun part => part.1 ++ part.2) := by
  have hrun := Exhausts.repeated (fun part : List UInt8 × List UInt8 => part.1 ++ part.2) fun bytes hbytes =>
    ((hkeys bytes hbytes).readIn "map key").bind fun key =>
      ((hvalues bytes hbytes).readIn "map value").bind_pure fun value => .pure (key, value)
  exact (Exhausts.counted hbase hcount (fun count => Input.repeated count _) hsize hrun "map").bind_pure
    fun entries => .pure _

/-- A codec of arrays exhausts its items behind the raw count. -/
theorem exhausts_array [RecordEquality] {type : ValueType} (hbase : markers.base ≠ Marker.null)
    (hmax : parts.length ≤ Size.max) (hparts : ∀ bytes ∈ parts, Exhausts (nested part) bytes) :
    Exhausts ((Codec.array markers type part).read nested)
      (markers.base.toByte :: (BigEndian.encode 4 parts.length ++ parts.flatten)) := by
  have hsize : Decodes (Input.signed 4) (BigEndian.encode 4 parts.length) parts.length := by
    unfold Size.max at hmax
    exact Decodes.signed (by omega) (by omega)
  have hrun := Exhausts.repeated id hparts
  rw [List.flatMap_id] at hrun
  refine .opening hbase (.decodes_bind hsize ?_)
  rw [if_neg (by omega), Int.toNat_natCast]
  exact hrun.bind_pure fun items => .pure _

/-- A codec of records exhausts its fields behind the marker. -/
theorem exhausts_record [RecordEquality] {name : String} {fresh : List (String × Value)} {fields : List Field}
    (hbase : markers.base ≠ Marker.null) (hlength : parts.length = fields.length)
    (hparts : ∀ pair ∈ fields.zip parts,
      Exhausts (nested (pair.1.binding.resolve (.record markers name fresh fields))) pair.2) :
    Exhausts ((Codec.record markers name fresh fields).read nested) (markers.base.toByte :: parts.flatten) := by
  have hfields := Exhausts.fields hlength (fun pair hpair => .field (hparts pair hpair)) fresh
  exact .opening hbase (hfields.bind_pure fun slots => .pure _)

end Codec

/-! ## A value -/

/-- The registry exhausts the bytes that the codec for them exhausts. -/
theorem Registry.Sound.exhausts_readAs [RecordEquality] {registry : Registry} (hsound : registry.Sound)
    {element : Element} {type : ValueType} {codec : Codec} (hwriter : element.writer registry type = .ok codec)
    (hmem : codec ∈ registry.codecs) (hstart : StartsIn codec.markers bytes)
    (hread : Exhausts (codec.read registry.readAs) bytes) : Exhausts (registry.readAs element) bytes := by
  intro rest left value h
  rw [registry.readAs_eq] at h
  obtain ⟨found, mid, hselect, hvalue⟩ := bind_eq_ok_iff.1 h
  cases (hsound.select_eq hwriter hmem hstart rest).symm.trans hselect
  exact hread hvalue

/-- Where a reader succeeds on what was written for a value, it takes just that. -/
theorem Encodes.exhausts [RecordEquality] {registry : Registry} (hsound : registry.Sound) {value : Value}
    {element : Element} (h : Encodes registry value element bytes) (hfits : element.Fits registry) :
    Exhausts (registry.readAs element) bytes := by
  induction h with
  | null => exact (hsound.decodes_null hfits).exhausts
  | atom hwriter hbytes => exact (hsound.decodes_atom hfits hwriter hbytes).exhausts
  | variant hwriter hordinal => exact (hsound.decodes_variant hfits hwriter hordinal).exhausts
  | sized hwriter hsize hlength hparts ih =>
    have hmem := hsound.mem_of_writer hfits hwriter Codec.noConfusion
    rw [← hlength] at hsize
    cases hsound.legal hmem with
    | sequence hbase hcount =>
      refine hsound.exhausts_readAs hwriter hmem (.of_size hbase hcount hsize _) ?_
      refine Codec.exhausts_sequence hbase hcount hsize (forall_mem_of_zip hlength fun pair hpair => ?_)
      exact ih pair hpair (hsound.fits_parts hfits hwriter)
  | @delimited kind items element part markers parts hwriter hcollects hlength hparts ih =>
    have hmem := hsound.mem_of_writer hfits hwriter Codec.noConfusion
    have hpart : part.Fits registry := hsound.fits_parts hfits hwriter
    cases hsound.legal hmem with
    | collection hbase hcount =>
      refine hsound.exhausts_readAs hwriter hmem (.base _ _) ?_
      intro rest left value hread
      have hitems : ∀ bytes ∈ parts, Exhausts (registry.readAs part) bytes ∧
          ∃ marker tail, bytes = marker.toByte :: tail ∧ marker ≠ markers.markerAt 1 :=
        forall_mem_of_zip hlength fun pair hpair =>
          ⟨ih pair hpair hpart, (hparts pair hpair).start_ne_last hsound hpart hmem hcount⟩
      obtain ⟨_, -, -, hleft⟩ := Codec.length_of_read_collection hbase hitems hread
      exact hleft
  | map hwriter hsize hlength hkeys hvalues ihkeys ihvalues =>
    have hmem := hsound.mem_of_writer hfits hwriter Codec.noConfusion
    obtain ⟨hkey, hvalue⟩ := hsound.fits_parts hfits hwriter
    rw [← hlength] at hsize
    cases hsound.legal hmem with
    | map hbase hcount =>
      refine hsound.exhausts_readAs hwriter hmem (.of_size hbase hcount hsize _) ?_
      exact Codec.exhausts_map hbase hcount hsize
        (forall_mem_of_zip hlength fun pair hpair => ihkeys pair hpair hkey)
        (forall_mem_of_zip hlength fun pair hpair => ihvalues pair hpair hvalue)
  | array hwriter hmax hlength hparts ih =>
    have hmem := hsound.mem_of_writer hfits hwriter Codec.noConfusion
    rw [← hlength] at hmax ⊢
    refine hsound.exhausts_readAs hwriter hmem (.base _ _) ?_
    refine Codec.exhausts_array (hsound.base_ne_null hmem) hmax (forall_mem_of_zip hlength fun pair hpair => ?_)
    exact ih pair hpair (hsound.fits_parts hfits hwriter)
  | record hwriter hlength hparts ih =>
    have hmem := hsound.mem_of_writer hfits hwriter Codec.noConfusion
    have hfields := hsound.fits_parts hfits hwriter
    refine hsound.exhausts_readAs hwriter hmem (.base _ _) ?_
    refine Codec.exhausts_record (hsound.base_ne_null hmem) hlength fun pair hpair => ?_
    exact ih pair hpair (hfields pair.1 (List.of_mem_zip hpair).1)

end Bytemark
