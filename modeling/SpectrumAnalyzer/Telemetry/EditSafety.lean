import SpectrumAnalyzer.Lib.Edit
import SpectrumAnalyzer.Lib.ShiftRegister
import SpectrumAnalyzer.Telemetry.RoundTrip

/-!
# One damaged byte on the wire

A packet with one wire byte substituted, inserted or deleted, followed by a good packet.
The library leaves one possibility for a wrong chunk: a body that differs from the sent
one in a single byte.  The CRC excludes it, since it is a cyclic redundancy register
whose polynomial has a constant term.

## Main definitions

* `crc16Polynomial` — the polynomial of `crc16_ccitt_false`.
* `edit_safety` — no edit of one byte yields a chunk that was not sent.
-/

namespace SpectrumAnalyzer

open Framing TelemetryDecoder Bytes

/-! ## The CRC as a register -/

/-- The polynomial of `crc16_ccitt_false`. -/
def crc16Polynomial : BitVec 16 := 0x1021#16

theorem toBitVec_crc16Bit (crc : UInt16) :
    (crc16Bit crc).toBitVec = ShiftRegister.shift crc16Polynomial crc.toBitVec := by
  have hbit : crc &&& 0x8000 ≠ 0 ↔ crc.toBitVec.msb = true := by
    rw [Ne, ← UInt16.toBitVec_inj, UInt16.toBitVec_and, BitVec.msb_eq_getLsbD_last]
    change ¬ crc.toBitVec &&& BitVec.twoPow 16 15 = 0#16 ↔ crc.toBitVec.getLsbD 15 = true
    rw [BitVec.and_twoPow]
    split <;> simp_all
  simp only [crc16Bit, ShiftRegister.shift]
  simp only [hbit]
  split
  · rw [UInt16.toBitVec_xor, UInt16.toBitVec_shiftLeft]
    rfl
  · rfl

theorem toBitVec_crc16Byte (crc : UInt16) (byte : UInt8) :
    (crc16Byte crc byte).toBitVec =
      ShiftRegister.absorb crc16Polynomial crc.toBitVec byte.toBitVec := by
  have hiter : ∀ n : ℕ, ∀ c : UInt16, (crc16Bit^[n] c).toBitVec =
      (ShiftRegister.shift crc16Polynomial)^[n] c.toBitVec := by
    intro n
    induction n with
    | zero => exact fun _ => rfl
    | succ n ih =>
        intro c
        rw [Function.iterate_succ_apply, Function.iterate_succ_apply, ih, toBitVec_crc16Bit]
  rw [crc16Byte, hiter]
  rfl

theorem toBitVec_crc16CcittFalse (data : List UInt8) :
    (crc16CcittFalse data).toBitVec =
      ShiftRegister.run crc16Polynomial 0xFFFF#16 (data.map UInt8.toBitVec) := by
  have hfold : ∀ c : UInt16, (data.foldl crc16Byte c).toBitVec =
      ShiftRegister.run crc16Polynomial c.toBitVec (data.map UInt8.toBitVec) := by
    induction data with
    | nil => exact fun _ => rfl
    | cons b bs ih =>
        intro c
        rw [List.foldl_cons, ih, toBitVec_crc16Byte]
        rfl
  exact hfold 0xFFFF

/-- The CRC sees a change of one byte. -/
theorem crc16CcittFalse_single {front back : List UInt8} {x y : UInt8}
    (h : crc16CcittFalse (front ++ x :: back) = crc16CcittFalse (front ++ y :: back)) :
    x = y := by
  have h := congrArg UInt16.toBitVec h
  rw [toBitVec_crc16CcittFalse, toBitVec_crc16CcittFalse] at h
  simp only [List.map_append, List.map_cons] at h
  exact UInt8.eq_of_toBitVec_eq (ShiftRegister.run_single crc16Polynomial (by decide) (by decide)
    (by decide) _ _ _ _ _ h)

/-- Packets of chunks that agree in all bytes but one agree in all bytes. -/
theorem layout_eq_of_single {c c' : SpectrumChunk} {front back : List UInt8} {x y : UInt8}
    (hc : layout c = front ++ x :: back) (hc' : layout c' = front ++ y :: back) :
    layout c = layout c' := by
  have htake : ∀ c, (layout c).take 234 = coveredLayout c := by
    intro c
    rw [layout, ← length_coveredLayout c, List.take_left]
  have hdrop : ∀ c, (layout c).drop 234 = le16 (crc16CcittFalse (coveredLayout c)) := by
    intro c
    rw [layout, ← length_coveredLayout c, List.drop_left]
  by_cases hpos : front.length < 234
  · -- The byte is covered by the CRC, and the stored CRCs agree.
    obtain ⟨n, hn⟩ := Nat.exists_eq_add_of_lt hpos
    have hcov : ∀ c z, layout c = front ++ z :: back →
        coveredLayout c = front ++ z :: back.take n := by
      intro c z h
      rw [← htake, h, hn, List.take_append, List.take_of_length_le (by omega),
        show front.length + n + 1 - front.length = n + 1 by omega, List.take_succ_cons]
    have hcrc : crc16CcittFalse (coveredLayout c) = crc16CcittFalse (coveredLayout c') := by
      apply le16_injective
      rw [← hdrop, ← hdrop, hc, hc', hn]
      simp [List.drop_append, Nat.add_assoc]
    rw [hcov c x hc, hcov c' y hc'] at hcrc
    rw [hc, hc', crc16CcittFalse_single hcrc]
  · -- The byte belongs to the stored CRC, so the covered bytes agree.
    have hcov : coveredLayout c = coveredLayout c' := by
      rw [← htake, ← htake, hc, hc', List.take_append_of_le_length (by omega),
        List.take_append_of_le_length (by omega)]
    rw [layout, layout, hcov]

/-- A chunk whose packet differs from a sent one in one byte at most is the sent one. -/
theorem eq_of_gap_layout {c c' : SpectrumChunk} (hc : c.WellFormed) (hc' : c'.WellFormed)
    (h : Gap (layout c) (layout c')) : c = c' := by
  have heq : layout c = layout c' := by
    rcases h.eq_or_single (by rw [length_layout, length_layout]) with h | ⟨_, _, _, _, h, h'⟩
    · exact h
    · exact layout_eq_of_single h h'
  have hcheck := checkBody_eq_some_iff.mpr ⟨hc, rfl⟩
  rw [heq, checkBody_eq_some_iff.mpr ⟨hc', rfl⟩, Option.some_inj] at hcheck
  exact hcheck.symm

/-! ## The damaged stream -/

/-- A chunk accepted from a piece of a damaged packet is the chunk of the packet. -/
theorem accept_edited {p : Packet} {w piece : List UInt8} (hw : Edit p.wire w)
    (hpiece : piece ∈ Cut.pieces telemetryCode.sof w) {c : SpectrumChunk}
    (h : accept telemetryCode checkBody piece = some c) : c = p.chunk := by
  obtain ⟨body, rfl, hbody⟩ := (accept_eq_some_iff (Cut.sof_notMem_pieces _ _ _ hpiece)).mp h
  obtain ⟨hc, hlayout⟩ := checkBody_eq_some_iff.mp hbody
  rw [hlayout] at hpiece
  rw [p.wire_eq] at hw
  have hgap := gap_of_edited_frame telemetryCode hw hpiece (by rw [length_layout]; simp)
  rw [p.toList_raw] at hgap
  exact (eq_of_gap_layout (wellFormed_chunkOf _ _ _ _) hc hgap).symm

/-- **Safety under the edit of one byte.**  A packet with one wire byte substituted,
inserted or deleted, followed by a good packet: no chunk is returned other than the two
that were sent, and the good packet is returned by its last byte. -/
theorem edit_safety {d : TelemetryDecoder} (hd : d.Idle) (p f : Packet) {w : List UInt8}
    (hw : Edit p.wire w) :
    (∀ c, .frame c ∈ Machine.outputs telemetryDecoderFeed d (w ++ f.wire) →
        c = p.chunk ∨ c = f.chunk) ∧
      (Machine.outputs telemetryDecoderFeed d (w ++ f.wire)).getLast? =
        some (.frame f.chunk) := by
  constructor
  · intro c hc
    rw [← mem_yields_feed, yields_feed hd] at hc
    obtain ⟨piece, hpiece, haccept⟩ := List.mem_filterMap.mp hc
    have hbody : Cut.of telemetrySof (telemetryCode.stuff f.raw.toList) =
        ⟨[], telemetryCode.stuff f.raw.toList⟩ :=
      Cut.of_notMem _ (telemetryCode.sof_notMem_stuff _)
    rw [f.wire_eq, List.cons_append, Cut.of_append_sof, Cut.of_snoc_sof, hbody,
      List.nil_append] at hpiece
    have hpieces :
        piece ∈ Cut.pieces telemetrySof w ∨ piece = telemetryCode.stuff f.raw.toList := by
      simpa [Cut.pieces, or_assoc] using hpiece
    rcases hpieces with hp | hp
    · exact .inl (accept_edited hw hp haccept)
    · rw [hp, accept_stuff, checkBody_raw] at haccept
      exact .inr (Option.some.inj haccept).symm
  · obtain ⟨hout, -⟩ := outputs_tail_wire (feed_sof (wellFormed_final hd w)).1 f
    rw [f.wire_cons_tail, Machine.outputs_append, Machine.outputs_cons, hout,
      ← List.cons_append, ← List.append_assoc, List.getLast?_concat]

/-- A packet that loses its first escape, so that the escaped byte is taken as it is. -/
theorem edit_safety_lost_escape :
    escapedPacket.wire[5]? = some telemetryEsc ∧
      (∀ c, .frame c ∈ Machine.outputs telemetryDecoderFeed telemetryDecoderInit
          (escapedPacket.wire.eraseIdx 5 ++ zeroPacket.wire) →
          c = escapedPacket.chunk ∨ c = zeroPacket.chunk) ∧
        (Machine.outputs telemetryDecoderFeed telemetryDecoderInit
          (escapedPacket.wire.eraseIdx 5 ++ zeroPacket.wire)).getLast? =
          some (.frame zeroPacket.chunk) := by
  obtain ⟨hlt, -⟩ := List.getElem?_eq_some_iff.mp escapedPacket_escape
  exact ⟨escapedPacket_escape, edit_safety idle_init escapedPacket zeroPacket (.eraseIdx hlt)⟩

end SpectrumAnalyzer
