import SpectrumAnalyzer.Lib.Writer
import SpectrumAnalyzer.Telemetry.Wire

/-!
# The room an encoder needs

`telemetry_encode_spectrum_chunk` as it stores through its output pointer: every store of
the source is a store into the memory behind the pointer, which does not end at the
capacity.  The list of bytes in `EncodeResult` is what these stores leave there, so a call
stays within the buffer when that list does, whether it fails or not.

## Main definitions

* `appendEscapedAt`, `telemetryEncodeSpectrumChunkAt` — the encoder over the memory.
* `telemetryEncodeSpectrumChunkAt_eq` — it writes the bytes of the list model.
* `frameLength` — the bytes of a packet on the wire.
* `encoder_capacity` — a call succeeds exactly when they fit.
-/

namespace SpectrumAnalyzer

open Framing

/-! ## The encoder over the memory -/

/-- `append_escaped`, with the stores. -/
def appendEscapedAt (byte : UInt8) (out : PointerWriter UInt8) (capacity : ℕ) :
    Bool × PointerWriter UInt8 :=
  if byte = telemetrySof ∨ byte = telemetryEsc then
    if out.position + 2 > capacity then (false, out)
    else (true, (out.put telemetryEsc).put (byte ^^^ 0x20))
  else if out.position + 1 > capacity then (false, out)
  else (true, out.put byte)

/-- The loop over the raw bytes, with the stores. -/
def appendAllEscapedAt (capacity : ℕ) :
    List UInt8 → PointerWriter UInt8 → Bool × PointerWriter UInt8
  | [], out => (true, out)
  | byte :: rest, out =>
      match appendEscapedAt byte out capacity with
      | (true, out') => appendAllEscapedAt capacity rest out'
      | (false, out') => (false, out')

/-- `telemetry_encode_spectrum_chunk`: the size returned, and the memory behind `output`. -/
def telemetryEncodeSpectrumChunkAt (sequence : UInt16) (result : SpectrumResult)
    (channel chunkIndex : UInt8) (output : ℕ → UInt8) (outputCapacity : ℕ) : ℕ × (ℕ → UInt8) :=
  if hchannel : channel.toNat < 2 then
    if hchunk : chunkIndex.toNat < 4 then
      let raw := rawSpectrumChunk sequence result ⟨channel.toNat, hchannel⟩
        ⟨chunkIndex.toNat, hchunk⟩
      if outputCapacity < 2 then (0, output)
      else
        let start : PointerWriter UInt8 := ⟨output, 0⟩
        match appendAllEscapedAt (outputCapacity - 1) raw.toList (start.put telemetrySof) with
        | (false, out) => (0, out.memory)
        | (true, out) =>
            if out.position ≥ outputCapacity then (0, out.memory)
            else
              let out := out.put telemetrySof
              (out.position, out.memory)
    else (0, output)
  else (0, output)

section Refinement
variable (memory : ℕ → UInt8)

theorem appendEscapedAt_ofList (byte : UInt8) (out : List UInt8) (capacity : ℕ) :
    appendEscapedAt byte (.ofList memory out) capacity =
      (appendEscaped byte out capacity).map id (.ofList memory) := by
  rw [appendEscapedAt, appendEscaped]
  by_cases hs : byte = telemetrySof ∨ byte = telemetryEsc
  · rw [if_pos hs, if_pos hs, PointerWriter.position_ofList]
    by_cases hroom : out.length + 2 > capacity
    · rw [if_pos hroom, if_pos hroom]
      rfl
    · rw [if_neg hroom, if_neg hroom, PointerWriter.put_ofList, PointerWriter.put_ofList,
        List.append_assoc]
      rfl
  · rw [if_neg hs, if_neg hs, PointerWriter.position_ofList]
    by_cases hroom : out.length + 1 > capacity
    · rw [if_pos hroom, if_pos hroom]
      rfl
    · rw [if_neg hroom, if_neg hroom, PointerWriter.put_ofList]
      rfl

theorem appendAllEscapedAt_ofList (capacity : ℕ) (bytes out : List UInt8) :
    appendAllEscapedAt capacity bytes (.ofList memory out) =
      (appendAllEscaped capacity bytes out).map id (.ofList memory) := by
  induction bytes generalizing out with
  | nil => rfl
  | cons byte rest ih =>
      rw [appendAllEscapedAt, appendAllEscaped, appendEscapedAt_ofList]
      obtain ⟨fits, out'⟩ := appendEscaped byte out capacity
      cases fits with
      | false => rfl
      | true => exact ih out'

/-- **The stores of a call** leave the bytes of the list model at the start of the memory. -/
theorem telemetryEncodeSpectrumChunkAt_eq (sequence : UInt16) (result : SpectrumResult)
    (channel chunkIndex : UInt8) (capacity : ℕ) :
    telemetryEncodeSpectrumChunkAt sequence result channel chunkIndex memory capacity =
      ((telemetryEncodeSpectrumChunk sequence result channel chunkIndex capacity).size,
        (PointerWriter.ofList memory (telemetryEncodeSpectrumChunk sequence result channel
          chunkIndex capacity).output).memory) := by
  rw [telemetryEncodeSpectrumChunkAt, telemetryEncodeSpectrumChunk]
  by_cases h : channel.toNat < 2 ∧ chunkIndex.toNat < 4
  · rw [dif_pos h, dif_pos h.1, dif_pos h.2]
    generalize hbytes :
      (rawSpectrumChunk sequence result ⟨channel.toNat, h.1⟩ ⟨chunkIndex.toNat, h.2⟩).toList = bytes
    simp only [hbytes]
    by_cases hcapacity : capacity < 2
    · rw [if_pos hcapacity, if_pos hcapacity]
      rfl
    · rw [if_neg hcapacity, if_neg hcapacity, ← PointerWriter.ofList_nil, PointerWriter.put_ofList,
        List.nil_append, appendAllEscapedAt_ofList]
      obtain ⟨fits, out⟩ := appendAllEscaped (capacity - 1) bytes [telemetrySof]
      cases fits with
      | false => rfl
      | true =>
          dsimp only [Prod.map, id_eq]
          rw [PointerWriter.position_ofList]
          split
          · rfl
          · rw [PointerWriter.put_ofList, PointerWriter.position_ofList, List.length_append]
            rfl
  · rw [dif_neg h]
    by_cases hchannel : channel.toNat < 2
    · rw [dif_pos hchannel, dif_neg fun hchunk => h ⟨hchannel, hchunk⟩]
      rfl
    · rw [dif_neg hchannel]
      rfl

end Refinement

/-! ## Room -/

/-- A byte is appended only where there is room for it. -/
theorem length_appendEscaped_le {byte : UInt8} {out : List UInt8} {capacity : ℕ}
    (h : out.length ≤ capacity) : (appendEscaped byte out capacity).2.length ≤ capacity := by
  rw [appendEscaped]
  split
  · split
    · exact h
    · rw [List.length_append, List.length_cons, List.length_singleton]
      omega
  · split
    · exact h
    · rw [List.length_append, List.length_singleton]
      omega

theorem length_appendAllEscaped_le {bytes out : List UInt8} {capacity : ℕ}
    (h : out.length ≤ capacity) : (appendAllEscaped capacity bytes out).2.length ≤ capacity := by
  induction bytes generalizing out with
  | nil => exact h
  | cons byte rest ih =>
      have hbyte := @length_appendEscaped_le byte _ _ h
      rw [appendAllEscaped]
      generalize appendEscaped byte out capacity = appended at hbyte ⊢
      obtain ⟨fits, out'⟩ := appended
      cases fits with
      | false => exact hbyte
      | true => exact ih hbyte

theorem appendEscaped_eq_false {byte : UInt8} {out : List UInt8} {capacity : ℕ}
    (h : capacity < out.length + (telemetryCode.stuffSymbol byte).length) :
    (appendEscaped byte out capacity).1 = false := by
  rw [appendEscaped]
  by_cases hs : byte = telemetrySof ∨ byte = telemetryEsc
  · rw [telemetryCode.stuffSymbol_of_special hs] at h
    simp only [List.length_cons, List.length_nil] at h
    rw [if_pos hs, if_pos (by omega)]
  · rw [telemetryCode.stuffSymbol_of_not_special hs] at h
    simp only [List.length_cons, List.length_nil] at h
    rw [if_neg hs, if_pos (by omega)]

/-- Without room for the escaped form, the escaping loop stops. -/
theorem appendAllEscaped_eq_false {bytes out : List UInt8} {capacity : ℕ}
    (hout : out.length ≤ capacity)
    (h : capacity < out.length + (telemetryCode.stuff bytes).length) :
    (appendAllEscaped capacity bytes out).1 = false := by
  induction bytes generalizing out with
  | nil => exact absurd h (by simpa using hout)
  | cons byte rest ih =>
      rw [Code.stuff_cons, List.length_append] at h
      rw [appendAllEscaped]
      by_cases hroom : out.length + (telemetryCode.stuffSymbol byte).length ≤ capacity
      · rw [appendEscaped_eq hroom]
        exact ih (by rwa [List.length_append]) (by rw [List.length_append]; omega)
      · have hfalse := appendEscaped_eq_false (Nat.lt_of_not_le hroom)
        generalize appendEscaped byte out capacity = appended at hfalse ⊢
        obtain ⟨fits, out'⟩ := appended
        cases hfalse
        rfl

/-- The bytes on the wire of a raw packet: two delimiters, and one more byte for each that
must be escaped. -/
def frameLength (raw : Vector UInt8 236) : ℕ :=
  238 + raw.toList.countP fun byte => byte = 0x7D ∨ byte = 0x7E

theorem frameLength_eq (raw : Vector UInt8 236) :
    frameLength raw = (telemetryCode.stuff raw.toList).length + 2 := by
  have hcount : raw.toList.countP (fun byte => decide (byte = 0x7D ∨ byte = 0x7E)) =
      raw.toList.countP fun byte => decide (telemetryCode.Special byte) :=
    List.countP_congr fun byte _ => by
      simp only [decide_eq_true_eq]
      exact or_comm
  rw [frameLength, Code.length_stuff, Vector.length_toList, hcount]
  omega

/-- The longest frame has every byte escaped. -/
theorem frameLength_le (raw : Vector UInt8 236) : frameLength raw ≤ telemetryMaxFrame := by
  have hcount := List.countP_le_length (l := raw.toList)
    (p := fun byte => decide (byte = 0x7D ∨ byte = 0x7E))
  rw [Vector.length_toList] at hcount
  rw [frameLength, telemetryMaxFrame]
  omega

section Capacity
variable (sequence : UInt16) (result : SpectrumResult) (channel chunkIndex : UInt8) (capacity : ℕ)

/-- No call writes more than the capacity. -/
theorem length_output_le :
    (telemetryEncodeSpectrumChunk sequence result channel chunkIndex capacity).output.length ≤
      capacity := by
  rw [telemetryEncodeSpectrumChunk]
  by_cases h : channel.toNat < 2 ∧ chunkIndex.toNat < 4
  · rw [dif_pos h]
    generalize hbytes :
      (rawSpectrumChunk sequence result ⟨channel.toNat, h.1⟩ ⟨chunkIndex.toNat, h.2⟩).toList = bytes
    simp only [hbytes]
    by_cases hcapacity : capacity < 2
    · rw [if_pos hcapacity]
      exact Nat.zero_le capacity
    · rw [if_neg hcapacity]
      have hout : (appendAllEscaped (capacity - 1) bytes [telemetrySof]).2.length ≤ capacity - 1 :=
        length_appendAllEscaped_le (by rw [List.length_singleton]; omega)
      generalize appendAllEscaped (capacity - 1) bytes [telemetrySof] = appended at hout ⊢
      obtain ⟨fits, out⟩ := appended
      cases fits with
      | false => exact hout.trans (Nat.sub_le capacity 1)
      | true =>
          dsimp only at hout ⊢
          rw [if_neg (by omega), List.length_append, List.length_singleton]
          omega
  · rw [dif_neg h]
    exact Nat.zero_le capacity

variable {channel chunkIndex capacity}

/-- A valid call that does not fit fails. -/
theorem size_eq_zero_of_lt (hch : channel.toNat < 2) (hci : chunkIndex.toNat < 4)
    (h : capacity < frameLength (rawSpectrumChunk sequence result ⟨channel.toNat, hch⟩
      ⟨chunkIndex.toNat, hci⟩)) :
    (telemetryEncodeSpectrumChunk sequence result channel chunkIndex capacity).size = 0 := by
  rw [frameLength_eq] at h
  rw [telemetryEncodeSpectrumChunk, dif_pos ⟨hch, hci⟩]
  generalize hbytes : (rawSpectrumChunk sequence result ⟨channel.toNat, hch⟩
    ⟨chunkIndex.toNat, hci⟩).toList = bytes at h
  simp only [hbytes]
  by_cases hcapacity : capacity < 2
  · rw [if_pos hcapacity]
  · rw [if_neg hcapacity]
    have hfalse : (appendAllEscaped (capacity - 1) bytes [telemetrySof]).1 = false :=
      appendAllEscaped_eq_false (by rw [List.length_singleton]; omega)
        (by rw [List.length_singleton]; omega)
    generalize appendAllEscaped (capacity - 1) bytes [telemetrySof] = appended at hfalse ⊢
    obtain ⟨fits, out⟩ := appended
    cases hfalse
    rfl

/-- A valid call that fits writes the frame. -/
theorem encode_of_frameLength_le (hch : channel.toNat < 2) (hci : chunkIndex.toNat < 4)
    (h : frameLength (rawSpectrumChunk sequence result ⟨channel.toNat, hch⟩
      ⟨chunkIndex.toNat, hci⟩) ≤ capacity) :
    ∃ body, telemetrySof ∉ body ∧
      frameLength (rawSpectrumChunk sequence result ⟨channel.toNat, hch⟩
        ⟨chunkIndex.toNat, hci⟩) = body.length + 2 ∧
      telemetryEncodeSpectrumChunk sequence result channel chunkIndex capacity =
        ⟨body.length + 2, telemetrySof :: body ++ [telemetrySof]⟩ := by
  rw [frameLength_eq] at h ⊢
  exact ⟨_, telemetryCode.sof_notMem_stuff _, rfl,
    telemetryEncodeSpectrumChunk_eq hch hci rfl h⟩

variable (channel chunkIndex capacity) in
/-- A call succeeds exactly when its arguments are valid and the frame fits. -/
theorem size_ne_zero_iff :
    (telemetryEncodeSpectrumChunk sequence result channel chunkIndex capacity).size ≠ 0 ↔
      ∃ (hch : channel.toNat < 2) (hci : chunkIndex.toNat < 4),
        frameLength (rawSpectrumChunk sequence result ⟨channel.toNat, hch⟩
          ⟨chunkIndex.toNat, hci⟩) ≤ capacity := by
  constructor
  · intro hsize
    by_cases h : channel.toNat < 2 ∧ chunkIndex.toNat < 4
    · refine ⟨h.1, h.2, Nat.le_of_not_lt fun hlt => hsize ?_⟩
      exact size_eq_zero_of_lt sequence result h.1 h.2 hlt
    · rw [telemetryEncodeSpectrumChunk, dif_neg h] at hsize
      exact absurd rfl hsize
  · intro h
    obtain ⟨hch, hci, hroom⟩ := h
    obtain ⟨body, -, -, hencode⟩ := encode_of_frameLength_le sequence result hch hci hroom
    rw [hencode]
    exact Nat.succ_ne_zero _

end Capacity

/-- A list between delimiters, as the memory shows it. -/
theorem delimited_memory (output : ℕ → UInt8) {body : List UInt8} (hbody : telemetrySof ∉ body) :
    (PointerWriter.ofList output (telemetrySof :: body ++ [telemetrySof])).memory 0 = telemetrySof ∧
      (PointerWriter.ofList output (telemetrySof :: body ++ [telemetrySof])).memory
        (body.length + 1) =
        telemetrySof ∧
      ∀ i, 0 < i → i < body.length + 1 →
        (PointerWriter.ofList output (telemetrySof :: body ++ [telemetrySof])).memory i ≠
          telemetrySof := by
  refine ⟨rfl, ?_, ?_⟩
  · rw [PointerWriter.memory_ofList_of_lt _ (by simp)]
    simp
  · intro i hpos hlt
    obtain ⟨k, rfl⟩ := Nat.exists_eq_add_of_le' hpos
    have hk : k < body.length := by omega
    rw [PointerWriter.memory_ofList_of_lt _ (by simp; omega)]
    intro heq
    simp only [List.cons_append, List.getElem_cons_succ, List.getElem_append_left hk] at heq
    exact hbody (heq ▸ List.getElem_mem hk)

/-- **Encoder capacity.**  A call leaves the memory from the capacity on as it was.  It
succeeds exactly when its arguments are valid and the frame fits; then it returns the length
of the frame, which has a delimiter at both ends and none in between.  Every frame fits into
`TELEMETRY_MAX_FRAME` bytes. -/
theorem encoder_capacity (sequence : UInt16) (result : SpectrumResult)
    (channel chunkIndex : UInt8) (output : ℕ → UInt8) (capacity : ℕ) :
    let call := telemetryEncodeSpectrumChunkAt sequence result channel chunkIndex output capacity
    (∀ i, capacity ≤ i → call.2 i = output i) ∧
      (call.1 ≠ 0 ↔ ∃ (hch : channel.toNat < 2) (hci : chunkIndex.toNat < 4),
        frameLength (rawSpectrumChunk sequence result ⟨channel.toNat, hch⟩
          ⟨chunkIndex.toNat, hci⟩) ≤ capacity) ∧
      (∀ (hch : channel.toNat < 2) (hci : chunkIndex.toNat < 4) (length : ℕ),
        frameLength (rawSpectrumChunk sequence result ⟨channel.toNat, hch⟩
          ⟨chunkIndex.toNat, hci⟩) = length →
        length ≤ telemetryMaxFrame ∧
          (call.1 ≠ 0 → call.1 = length ∧ call.2 0 = telemetrySof ∧
            call.2 (length - 1) = telemetrySof ∧
            ∀ i, 0 < i → i < length - 1 → call.2 i ≠ telemetrySof)) ∧
      (channel.toNat < 2 → chunkIndex.toNat < 4 → capacity = telemetryMaxFrame → call.1 ≠ 0) := by
  intro call
  have hcall : call = _ :=
    telemetryEncodeSpectrumChunkAt_eq output sequence result channel chunkIndex capacity
  have hsize : call.1 =
      (telemetryEncodeSpectrumChunk sequence result channel chunkIndex capacity).size :=
    congrArg Prod.fst hcall
  have hsuccess := size_ne_zero_iff sequence result channel chunkIndex capacity
  rw [← hsize] at hsuccess
  refine ⟨?_, hsuccess, ?_, ?_⟩
  · intro i hi
    have hlength := length_output_le sequence result channel chunkIndex capacity
    rw [hcall]
    exact PointerWriter.memory_ofList_of_le output (hlength.trans hi)
  · rintro hch hci _ rfl
    refine ⟨frameLength_le _, ?_⟩
    intro hne
    obtain ⟨_, _, hroom⟩ := hsuccess.mp hne
    obtain ⟨body, hbody, hlength, hencode⟩ :=
      encode_of_frameLength_le sequence result hch hci hroom
    rw [hcall, hlength, hencode]
    exact ⟨rfl, delimited_memory output hbody⟩
  · intro hch hci hcapacity
    exact hsuccess.mpr ⟨hch, hci, (frameLength_le _).trans hcapacity.ge⟩

end SpectrumAnalyzer
