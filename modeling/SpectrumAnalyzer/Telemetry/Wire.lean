import SpectrumAnalyzer.Lib.Framing
import SpectrumAnalyzer.Telemetry.Encoder
import SpectrumAnalyzer.Telemetry.Layout

/-!
# The bytes of a packet

The encoder's escaping loop writes the escaped form of a delimiter code.  With room in
the buffer a call therefore succeeds, and `Packet.wire_eq` gives the bytes it writes in
closed form.  `exists_packet` goes the other way: a well-formed chunk is carried by the
packet of some call.

## Main definitions

* `telemetryCode` — delimiter `7E`, escape `7D`, mask `20`.
* `Packet` — the arguments of a call that the encoder does not refuse.
-/

namespace SpectrumAnalyzer

open Framing

/-- The byte code of the protocol. -/
def telemetryCode : Code UInt8 where
  sof := telemetrySof
  esc := telemetryEsc
  mask := fun x => x ^^^ 0x20
  mask_mask := fun x => by rw [UInt8.xor_assoc]; simp
  sof_ne_esc := by decide
  mask_sof_ne := by decide
  mask_esc_ne := by decide

/-- The test with which both decoders refuse the byte behind an escape. -/
theorem not_masked_iff {b : UInt8} :
    ¬ telemetryCode.Masked b ↔ b ≠ telemetrySof ^^^ 0x20 ∧ b ≠ telemetryEsc ^^^ 0x20 := not_or

/-! ## The encoder -/

theorem appendEscaped_eq {byte : UInt8} {out : List UInt8} {capacity : ℕ}
    (h : out.length + (telemetryCode.stuffSymbol byte).length ≤ capacity) :
    appendEscaped byte out capacity = (true, out ++ telemetryCode.stuffSymbol byte) := by
  rw [appendEscaped]
  by_cases hs : byte = telemetrySof ∨ byte = telemetryEsc
  · rw [telemetryCode.stuffSymbol_of_special hs] at h ⊢
    simp only [List.length_cons, List.length_nil] at h
    rw [if_pos hs, if_neg (by omega)]
    rfl
  · rw [telemetryCode.stuffSymbol_of_not_special hs] at h ⊢
    simp only [List.length_cons, List.length_nil] at h
    rw [if_neg hs, if_neg (by omega)]

/-- With room for the escaped form, the escaping loop writes all of it. -/
theorem appendAllEscaped_eq {capacity : ℕ} {bytes out : List UInt8}
    (h : out.length + (telemetryCode.stuff bytes).length ≤ capacity) :
    appendAllEscaped capacity bytes out = (true, out ++ telemetryCode.stuff bytes) := by
  induction bytes generalizing out with
  | nil => simp [appendAllEscaped]
  | cons x xs ih =>
      rw [Code.stuff_cons, List.length_append] at h
      rw [appendAllEscaped, appendEscaped_eq (by omega)]
      simp only
      rw [ih (by rw [List.length_append]; omega), Code.stuff_cons, List.append_assoc]

/-- With room for the escaped packet and both delimiters, the encoder writes them. -/
theorem telemetryEncodeSpectrumChunk_eq {sequence : UInt16} {result : SpectrumResult}
    {channel chunkIndex : UInt8} {capacity : ℕ} (hch : channel.toNat < 2)
    (hci : chunkIndex.toNat < 4) {bytes : List UInt8}
    (hbytes : (rawSpectrumChunk sequence result ⟨channel.toNat, hch⟩
      ⟨chunkIndex.toNat, hci⟩).toList = bytes)
    (hroom : (telemetryCode.stuff bytes).length + 2 ≤ capacity) :
    telemetryEncodeSpectrumChunk sequence result channel chunkIndex capacity =
      ⟨(telemetryCode.stuff bytes).length + 2,
        telemetrySof :: telemetryCode.stuff bytes ++ [telemetrySof]⟩ := by
  have hloop : appendAllEscaped (capacity - 1) bytes [telemetrySof] =
      (true, [telemetrySof] ++ telemetryCode.stuff bytes) := by
    refine appendAllEscaped_eq ?_
    rw [List.length_singleton]
    omega
  rw [telemetryEncodeSpectrumChunk]
  rw [dif_pos ⟨hch, hci⟩]
  simp only [hbytes]
  rw [if_neg (by omega), hloop]
  simp only
  rw [if_neg (by rw [List.length_append, List.length_singleton]; omega)]
  simp

/-- A sequence number further on, counted from the next. -/
theorem sequence_add_succ (sequence : UInt16) (n : ℕ) :
    sequence + UInt16.ofNat (n + 1) = sequence + 1 + UInt16.ofNat n := by
  rw [UInt16.ofNat_add, UInt16.add_assoc, UInt16.add_comm (UInt16.ofNat n)]
  rfl

/-- The arguments of a call that the encoder does not refuse. -/
structure Packet where
  sequence : UInt16
  result : SpectrumResult
  channel : UInt8
  chunkIndex : UInt8
  channel_lt : channel.toNat < 2
  chunkIndex_lt : chunkIndex.toNat < 4

namespace Packet

/-- The call, into a buffer of `TELEMETRY_MAX_FRAME` bytes. -/
def encode (p : Packet) : EncodeResult :=
  telemetryEncodeSpectrumChunk p.sequence p.result p.channel p.chunkIndex telemetryMaxFrame

/-- The bytes put on the wire. -/
def wire (p : Packet) : List UInt8 := p.encode.output

/-- The packet before escaping. -/
def raw (p : Packet) : Vector UInt8 236 :=
  rawSpectrumChunk p.sequence p.result ⟨p.channel.toNat, p.channel_lt⟩
    ⟨p.chunkIndex.toNat, p.chunkIndex_lt⟩

/-- The chunk the packet carries. -/
def chunk (p : Packet) : SpectrumChunk :=
  chunkOf p.sequence p.result ⟨p.channel.toNat, p.channel_lt⟩
    ⟨p.chunkIndex.toNat, p.chunkIndex_lt⟩

theorem toList_raw (p : Packet) : p.raw.toList = layout p.chunk :=
  toList_rawSpectrumChunk _ _ _ _

theorem decodeBody_raw (p : Packet) : decodeBody p.raw 236 = .ok p.chunk :=
  decodeBody_rawSpectrumChunk _ _ _ _

theorem length_stuff_le (bytes : List UInt8) :
    (telemetryCode.stuff bytes).length ≤ 2 * bytes.length := by
  rw [Code.length_stuff]
  have := List.countP_le_length (p := fun x => decide (telemetryCode.Special x)) (l := bytes)
  omega

/-- The encoder succeeds, and writes the escaped packet between two delimiters. -/
theorem encode_eq (p : Packet) :
    p.encode = ⟨(telemetryCode.stuff p.raw.toList).length + 2,
      telemetrySof :: telemetryCode.stuff p.raw.toList ++ [telemetrySof]⟩ := by
  have hroom := length_stuff_le p.raw.toList
  rw [Vector.length_toList] at hroom
  exact telemetryEncodeSpectrumChunk_eq p.channel_lt p.chunkIndex_lt rfl
    (by rw [telemetryMaxFrame]; omega)

theorem wire_eq (p : Packet) :
    p.wire = telemetrySof :: telemetryCode.stuff p.raw.toList ++ [telemetrySof] := by
  rw [wire, encode_eq]

theorem size_encode (p : Packet) : p.encode.size = p.wire.length := by
  rw [wire, encode_eq]
  simp

end Packet

/-- Every well-formed chunk is carried by the packet of some call of the encoder. -/
theorem exists_packet {c : SpectrumChunk} (hc : c.WellFormed) : ∃ p : Packet, p.chunk = c := by
  refine ⟨⟨c.sequence, sourceOf c, c.channel, c.chunkIndex, hc.channel_lt, hc.chunkIndex_lt⟩, ?_⟩
  exact chunkOf_sourceOf hc

end SpectrumAnalyzer
