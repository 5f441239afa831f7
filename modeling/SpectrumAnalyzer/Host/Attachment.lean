import SpectrumAnalyzer.Host.EndToEnd
import SpectrumAnalyzer.Host.Records

/-!
# A decoder that joins late

The tools open the port while the board is sending: they drop what they receive up to the
first delimiter and decode from there until they stop, in the middle of a packet as a rule.
Between two packets of the stream there are two delimiters, so it does not matter which of
the two came first.  What is decoded is exactly what was completed in between, and neither
the packet at the beginning nor the one at the end is held against the stream.

## Main definitions

* `completedBy` — the packets that are complete after some bytes.
* `received_late` — the chunks that a late decoder delivers.
* `quiet_late` — its counters.
-/

namespace SpectrumAnalyzer.Host

open Framing

/-- The packets that are complete after `n` bytes. -/
def completedBy : ℕ → List Packet → List Packet
  | _, [] => []
  | n, p :: ps => if p.wire.length ≤ n then p :: completedBy (n - p.wire.length) ps else []

theorem completedBy_prefix (n : ℕ) (packets : List Packet) : completedBy n packets <+: packets := by
  induction packets generalizing n with
  | nil => simp [completedBy]
  | cons p ps ih =>
      rw [completedBy]
      split
      · exact List.prefix_cons_inj p |>.mpr (ih _)
      · exact List.nil_prefix

/-- What is complete stays so. -/
theorem completedBy_mono {m n : ℕ} (h : m ≤ n) (packets : List Packet) :
    completedBy m packets <+: completedBy n packets := by
  induction packets generalizing m n with
  | nil => simp [completedBy]
  | cons p ps ih =>
      rw [completedBy, completedBy]
      split
      · next hm =>
          rw [if_pos (hm.trans h)]
          exact List.prefix_cons_inj p |>.mpr (ih (Nat.sub_le_sub_right h _))
      · exact List.nil_prefix

/-! ## What is delivered -/

/-- A packet that breaks off delivers nothing. -/
theorem received_broken (p : Packet) {n : ℕ} (hn : n < p.wire.length) :
    receivedChunks (p.wire.take n) = [] := by
  have hsof := telemetryCode.sof_notMem_stuff p.raw.toList
  rw [p.wire_eq] at hn ⊢
  rw [List.length_append, List.length_cons, List.length_singleton] at hn
  rw [← yields_received, FrameDecoder.yields_feed FrameDecoder.idle_init]
  cases n with
  | zero => simp
  | succ n =>
      have hbody : telemetrySof ∉ (telemetryCode.stuff p.raw.toList).take n :=
        fun h => hsof (List.mem_of_mem_take h)
      have htake : (telemetrySof :: telemetryCode.stuff p.raw.toList ++ [telemetrySof]).take
          (n + 1) = [] ++ telemetrySof :: (telemetryCode.stuff p.raw.toList).take n := by
        rw [List.cons_append, List.take_succ_cons, List.take_append_of_le_length (by omega)]
        rfl
      rw [htake, Cut.of_append_sof, Cut.of_notMem telemetrySof hbody]
      simp [accept_empty]

/-- A packet and what follows. -/
theorem received_wire (p : Packet) (bytes : List UInt8) :
    receivedChunks (p.wire ++ bytes) = hostChunk p :: receivedChunks bytes := by
  have hbody := Cut.of_notMem telemetrySof (telemetryCode.sof_notMem_stuff p.raw.toList)
  have hsplit : p.wire ++ bytes = [] ++ telemetrySof ::
      (telemetryCode.stuff p.raw.toList ++ telemetrySof :: bytes) := by
    rw [p.wire_eq]
    simp
  rw [← yields_received, ← yields_received, FrameDecoder.yields_feed FrameDecoder.idle_init,
    FrameDecoder.yields_feed FrameDecoder.idle_init, hsplit, Cut.of_append_sof,
    Cut.of_append_sof, hbody]
  simp [accept_empty, accept_body]

/-- The first bytes of a stream deliver the packets that they complete. -/
theorem received_take (n : ℕ) (packets : List Packet) :
    receivedChunks ((packets.flatMap Packet.wire).take n) =
      (completedBy n packets).map hostChunk := by
  induction packets generalizing n with
  | nil => simp [completedBy, ← yields_received]
  | cons p ps ih =>
      rw [List.flatMap_cons, List.take_append, completedBy]
      by_cases hn : p.wire.length ≤ n
      · rw [List.take_of_length_le hn, received_wire, ih, if_pos hn, List.map_cons]
      · have hzero : n - p.wire.length = 0 := by omega
        rw [hzero, List.take_zero, List.append_nil, received_broken p (by omega), if_neg hn,
          List.map_nil]

/-- A delimiter starts the decoder afresh. -/
theorem received_append_sof (missed heard : List UInt8) :
    receivedChunks (missed ++ telemetrySof :: heard) =
      receivedChunks (missed ++ [telemetrySof]) ++ receivedChunks heard := by
  simp only [← yields_received, FrameDecoder.yields_feed FrameDecoder.idle_init]
  rw [Cut.of_append_sof, Cut.of_append_sof]
  simp [List.filterMap_append, List.filterMap_cons]
  split <;> simp

/-! ## What is counted -/

theorem numbered_of_append {sequence : UInt16} {ps qs : List Packet}
    (h : Numbered sequence (ps ++ qs)) :
    Numbered sequence ps ∧ Numbered (sequence + UInt16.ofNat ps.length) qs := by
  induction ps generalizing sequence with
  | nil => simpa [Numbered] using h
  | cons p ps ih =>
      obtain ⟨hps, hqs⟩ := ih h.2
      refine ⟨⟨h.1, hps⟩, ?_⟩
      rwa [List.length_cons, sequence_add_succ]

/-- Every piece of a stream of packets passes. -/
theorem closedFault_wires (packets : List Packet) :
    ∀ piece ∈ (Cut.of telemetrySof (packets.flatMap Packet.wire)).closed,
      hostPolicy.closedFault (telemetryCode.scan piece) = none := by
  intro piece hpiece
  rw [cut_wires] at hpiece
  obtain ⟨p, -, hp⟩ := List.mem_flatMap.mp hpiece
  rcases List.mem_cons.mp hp with hp | hp
  · rw [hp, closedFault_empty]
  · rw [List.mem_singleton.mp hp, closedFault_body]

theorem errors_eq_zero {bytes : List UInt8}
    (hnone : ∀ k, hostPolicy.faultCount telemetryCode bytes k = 0) :
    (FrameDecoder.after bytes).errors = 0 := by
  have hfault := (FrameDecoder.fault_after bytes).2.2.1
  have hsum := FrameDecoder.summed_after bytes
  have hoverlong := (hfault .overlong).trans (hnone .overlong)
  have hescape := (hfault .escape).trans (hnone .escape)
  have hcrc := (hfault (.refused .crc)).trans (hnone (.refused .crc))
  have hformat := (hfault (.refused .format)).trans (hnone (.refused .format))
  simp only [FrameDecoder.Summed, FrameDecoder.fault] at *
  omega

section Late
variable {packets : List Packet} {missed heard later : List UInt8}
  (hsplit : packets.flatMap Packet.wire = missed ++ telemetrySof :: (heard ++ later))
include hsplit

/-- **What a late decoder delivers**: the packets that are completed while it listens. -/
theorem received_late : ∃ before seen, before = completedBy (missed.length + 1) packets ∧
    before ++ seen = completedBy (missed.length + 1 + heard.length) packets ∧
    receivedChunks heard = seen.map hostChunk := by
  have hbefore : (packets.flatMap Packet.wire).take (missed.length + 1) =
      missed ++ [telemetrySof] := by
    have hassoc : missed ++ telemetrySof :: (heard ++ later) =
        (missed ++ [telemetrySof]) ++ (heard ++ later) := by simp
    rw [hsplit, hassoc, List.take_left' (by simp)]
  have hboth : (packets.flatMap Packet.wire).take (missed.length + 1 + heard.length) =
      missed ++ telemetrySof :: heard := by
    have hassoc : missed ++ telemetrySof :: (heard ++ later) =
        (missed ++ telemetrySof :: heard) ++ later := by simp
    rw [hsplit, hassoc, List.take_left' (by simp; omega)]
  obtain ⟨seen, hseen⟩ := completedBy_mono
    (Nat.le_add_right (missed.length + 1) heard.length) packets
  refine ⟨_, seen, rfl, hseen, ?_⟩
  have hreceived := received_take (missed.length + 1 + heard.length) packets
  rw [hboth, received_append_sof, ← hbefore, received_take, ← hseen, List.map_append] at hreceived
  exact List.append_cancel_left hreceived

/-- No fault is charged to what is heard, the last packet included. -/
theorem faultCount_late (k : Fault BodyFault) :
    hostPolicy.faultCount telemetryCode heard k = 0 := by
  have hpieces := closedFault_wires packets
  have hrest := congrArg Cut.rest (cut_wires packets)
  rw [hsplit, Cut.of_append_sof] at hpieces hrest
  have hwhole : hostPolicy.faultCount telemetryCode (heard ++ later) k = 0 := by
    have hopen : (Cut.of telemetryCode.sof (heard ++ later)).rest = [] := hrest
    rw [Policy.faultCount, hopen, Policy.openFault_scan_nil, if_neg (by simp), Nat.add_zero,
      List.countP_eq_zero]
    intro piece hpiece
    have hpass := hpieces piece (List.mem_append_right _ (List.mem_cons_of_mem _ hpiece))
    simp [hpass]
  exact Nat.le_zero.mp (hwhole ▸ hostPolicy.faultCount_le_append telemetryCode heard later k)

/-- **The counters of a late decoder** stay at zero. -/
theorem quiet_late {sequence : UInt16} (hnumbered : Numbered sequence packets) :
    (FrameDecoder.after heard).errors = 0 ∧ (FrameDecoder.after heard).lost = 0 ∧
      (FrameDecoder.after heard).duplicates = 0 ∧
      (FrameDecoder.after heard).outOfOrder = 0 := by
  obtain ⟨before, seen, -, hseen, hreceived⟩ := received_late hsplit
  obtain ⟨behind, hpackets⟩ :=
    completedBy_prefix (missed.length + 1 + heard.length) packets
  rw [← hseen] at hpackets
  rw [← hpackets] at hnumbered
  have hwindow := (numbered_of_append (numbered_of_append hnumbered).1).2
  have hinit : Quiet FrameDecoder.init.account (sequence + UInt16.ofNat before.length) :=
    ⟨rfl, rfl, rfl, by simp [FrameDecoder.account, FrameDecoder.init]⟩
  have hquiet := hinit.foldl hwindow
  rw [← hreceived, ← yields_received, ← FrameDecoder.account_after] at hquiet
  exact ⟨errors_eq_zero (faultCount_late hsplit), hquiet.lost, hquiet.duplicates,
    hquiet.outOfOrder⟩

end Late

end SpectrumAnalyzer.Host
