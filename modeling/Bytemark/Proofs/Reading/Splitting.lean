import Bytemark.Proofs.Reading.Delimited
import Bytemark.Proofs.Reading.Progress

/-!
# Readers split their input into pieces

What a reader takes from its input is the bytes of a piece, and what it gives is the piece's result: `Splits`. A reader
that runs another one again and again takes the bytes of several pieces, one behind the other, and gives their results
in the same order. So whatever is read by counting items, or up to a marker, can be told item by item.

Readers of nested values are only known to split inputs that are shorter than the whole; hence the bound.
-/

set_option autoImplicit false

namespace Bytemark

/-- Bytes that were read as a value. -/
structure Span where
  bytes : List UInt8
  value : Value

variable {α β ω ω' : Type} {bound : Nat} {P : ω → Prop} {bytes : ω → List UInt8} {result : ω → α}

/-- From an input below the bound, the reader takes the bytes of a piece that satisfies `P`, and gives its result. -/
def Splits (bound : Nat) (P : ω → Prop) (bytes : ω → List UInt8) (result : ω → α) (read : Read α) : Prop :=
  ∀ ⦃input rest : Input⦄ ⦃a : α⦄, input.length < bound → read input = .ok a rest →
    ∃ piece, P piece ∧ input = bytes piece ++ rest ∧ result piece = a

namespace Splits

/-- Repeated reads split into as many pieces as there are items. -/
theorem repeated {item : Read α} (h : Splits bound P bytes result item) (count : Nat) :
    Splits bound (fun pieces => (∀ piece ∈ pieces, P piece) ∧ pieces.length = count)
      (fun pieces : List ω => pieces.flatMap bytes) (fun pieces => pieces.map result) (Input.repeated count item) := by
  suffices hrun : ∀ done, Splits bound (fun pieces => (∀ piece ∈ pieces, P piece) ∧ pieces.length = count)
      (fun pieces : List ω => pieces.flatMap bytes) (fun pieces => done.reverse ++ pieces.map result)
      (Input.repeatOnto item count done) from hrun []
  induction count with
  | zero =>
    intro done input rest items _ hok
    cases hok
    exact ⟨[], by simp, rfl, by simp⟩
  | succ count ih =>
    intro done input rest items hbound hok
    rw [Input.repeatOnto_succ] at hok
    obtain ⟨a, mid, hitem, hothers⟩ := bind_eq_ok_iff.1 hok
    obtain ⟨piece, hpiece, rfl, rfl⟩ := h hbound hitem
    rw [List.length_append] at hbound
    obtain ⟨pieces, ⟨hpieces, hlength⟩, rfl, hresult⟩ := ih _ (by omega) hothers
    refine ⟨piece :: pieces, ⟨List.forall_mem_cons.2 ⟨hpiece, hpieces⟩, by simp [hlength]⟩, by simp, ?_⟩
    simpa using hresult

/-- Items up to a marker are pieces, and the marker stands behind them. -/
theorem readDelimited {item : Read α} (h : Splits bound P bytes result item) (last : Marker) :
    Splits bound (fun pieces => ∀ piece ∈ pieces, P piece)
      (fun pieces : List ω => pieces.flatMap bytes ++ [last.toByte]) (fun pieces => pieces.map result)
      (readDelimited last item) := by
  suffices hrun : ∀ limit done, Splits bound (fun pieces => ∀ piece ∈ pieces, P piece)
      (fun pieces : List ω => pieces.flatMap bytes ++ [last.toByte]) (fun pieces => done.reverse ++ pieces.map result)
      (readUntil last item limit done) from fun input _ _ hbound hok => hrun input.length [] hbound hok
  intro limit
  induction limit with
  | zero => exact fun _ _ _ _ _ hok => nomatch hok
  | succ limit ih =>
    intro done input rest items hbound hok
    rw [readUntil_succ] at hok
    obtain ⟨byte, tail, rfl, hnext⟩ := Input.peek_bind_eq_ok_iff.1 hok
    split at hnext
    · rename_i hlast
      cases hnext
      exact ⟨[], by simp, by simp [← hlast, Marker.toByte_ofByte], by simp⟩
    · obtain ⟨a, mid, hitem, hothers⟩ := bind_eq_ok_iff.1 hnext
      obtain ⟨piece, hpiece, heq, rfl⟩ := h hbound hitem
      rw [heq, List.length_append] at hbound
      obtain ⟨pieces, hpieces, rfl, hresult⟩ := ih _ (by omega) hothers
      refine ⟨piece :: pieces, List.forall_mem_cons.2 ⟨hpiece, hpieces⟩, by simp [heq], ?_⟩
      simpa using hresult

/-- Two readers, one behind the other, take a piece each. -/
theorem pair {P' : ω' → Prop} {bytes' : ω' → List UInt8} {result' : ω' → β} {first : Read α} {second : Read β}
    (h : Splits bound P bytes result first) (h' : Splits bound P' bytes' result' second) :
    Splits bound (fun pieces : ω × ω' => P pieces.1 ∧ P' pieces.2) (fun pieces => bytes pieces.1 ++ bytes' pieces.2)
      (fun pieces => (result pieces.1, result' pieces.2)) (do
        let a ← first
        let b ← second
        return (a, b)) := by
  intro input rest answer hbound hok
  obtain ⟨a, mid, hfirst, hothers⟩ := bind_eq_ok_iff.1 hok
  obtain ⟨b, last, hsecond, hpure⟩ := bind_eq_ok_iff.1 hothers
  cases hpure
  obtain ⟨piece, hpiece, rfl, rfl⟩ := h hbound hfirst
  rw [List.length_append] at hbound
  obtain ⟨piece', hpiece', rfl, rfl⟩ := h' (by omega) hsecond
  exact ⟨(piece, piece'), ⟨hpiece, hpiece'⟩, by simp, rfl⟩

/-- A part splits as nested values do. -/
theorem readIn {nested : Element → Read Value} {part : Element} {result : ω → Value}
    (h : Splits bound P bytes result (nested part)) (target : String) :
    Splits bound P bytes result (part.readIn nested target) := by
  intro input rest value hbound hok
  obtain ⟨found, mid, hfound, hpure⟩ := bind_eq_ok_iff.1 hok
  obtain ⟨piece, hpiece, rfl, rfl⟩ := h hbound hfound
  dsimp only at hpure
  split at hpure
  · cases hpure
  · cases hpure
    exact ⟨piece, hpiece, rfl, rfl⟩

end Splits

/-! ## Headers -/

/-- The bytes that are taken can be read alone. -/
theorem Delimited.exists_taken {read : Read α} (h : Delimited read) {input rest : Input} {a : α}
    (hok : read input = .ok a rest) : ∃ taken, input = taken ++ rest ∧ read taken = .ok a [] := by
  obtain ⟨taken, rfl⟩ := h.front hok
  have halone := h.extend hok []
  rw [List.append_nil] at halone
  exact ⟨taken, rfl, halone⟩

/-- A run of markers opens null, or what stands behind its first marker. -/
theorem MarkerRange.cases_of_opening {markers : MarkerRange} {target : String} {content : Read Value}
    {input rest : Input} {value : Value} (h : markers.opening target content input = .ok value rest) :
    value = .null ∨ ∃ tail, input = markers.base.toByte :: tail ∧ content tail = .ok value rest := by
  obtain ⟨marker, tail, hmarker, hrest⟩ := bind_eq_ok_iff.1 h
  cases input with
  | nil => cases hmarker
  | cons byte input =>
    cases hmarker
    dsimp only at hrest
    split at hrest
    · cases hrest
      exact .inl rfl
    split at hrest
    · cases hrest
    · rename_i hbase
      rw [not_not] at hbase
      rw [← hbase, Marker.toByte_ofByte]
      exact .inr ⟨tail, rfl, hrest⟩

/-- A size tells where it ends. -/
theorem Size.delimited_read (base : Marker) (target : String) : Delimited (Size.read base target) := by
  refine Delimited.marker.bind fun marker => ?_
  split
  · exact .pure none
  · refine Delimited.bind ?_ fun _ => .pure _
    unfold readPayload
    dsimp only
    split
    · refine Delimited.bind ((Delimited.bytes _).bind fun _ => .pure _) fun distance => ?_
      split
      · exact (Delimited.throw _).bind fun _ => .pure _
      · exact .pure _
    · exact .throw _

/-- A size that announces a payload has bytes of its own in front of it. -/
theorem Size.exists_header {payload : Nat → Read α} {base : Marker} {target : String} {input rest : Input} {a : α}
    (h : Size.counted base target payload input = .ok (some a) rest) :
    ∃ size header tail, input = header ++ tail ∧ Size.read base target header = .ok (some size) [] ∧
      tail.length < input.length ∧ payload size tail = .ok a rest := by
  obtain ⟨answer, tail, hsize, hpayload⟩ := bind_eq_ok_iff.1 h
  cases answer with
  | none => cases hpayload
  | some size =>
    obtain ⟨_, _, ha, hpure⟩ := bind_eq_ok_iff.1 hpayload
    cases hpure
    have hshorter := Size.shortens_read base target hsize
    obtain ⟨header, rfl, halone⟩ := (Size.delimited_read base target).exists_taken hsize
    exact ⟨size, header, tail, rfl, halone, hshorter, ha⟩

end Bytemark
