import SpectrumAnalyzer.Host.Agreement
import SpectrumAnalyzer.Telemetry.RoundTrip

/-!
# The host on a stream of whole packets

What the host decoder makes of packets that arrive whole, one behind the other: it
delivers the chunk of each, refuses nothing, and when they are numbered without gaps its
sequence account stays quiet, across the wrap of the sequence number as elsewhere.

## Main definitions

* `Numbered` — packets numbered without gaps from a first sequence number.
* `Quiet` — nothing lost, duplicated or out of order, and the number expected next.
* `quiet_after` — the host decoder after a numbered stream.
-/

namespace SpectrumAnalyzer.Host

open Framing

/-- The chunk of a packet, as the host reads it. -/
def hostChunk (p : Packet) : SpectrumChunk := ofFirmware p.chunk

theorem decoded_hostChunk (p : Packet) : Decoded (hostChunk p) := by
  have hreads := reads_decodeRaw p.raw 236 le_rfl
  rw [p.decodeBody_raw] at hreads
  refine ⟨p.raw.toList.take 236, ?_⟩
  generalize decodeRaw (p.raw.toList.take 236) = r at hreads ⊢
  cases hreads
  rfl

/-- The delimiters of a stream of packets close each body, and an empty piece before it. -/
theorem cut_wires (packets : List Packet) :
    Cut.of telemetrySof (packets.flatMap Packet.wire) =
      ⟨packets.flatMap fun p => [[], telemetryCode.stuff p.raw.toList], []⟩ := by
  induction packets with
  | nil => rfl
  | cons p ps ih =>
      have hbody := Cut.of_notMem telemetrySof (telemetryCode.sof_notMem_stuff p.raw.toList)
      have hsplit : (p :: ps).flatMap Packet.wire =
          [] ++ telemetrySof ::
            (telemetryCode.stuff p.raw.toList ++ telemetrySof :: ps.flatMap Packet.wire) := by
        rw [List.flatMap_cons, p.wire_eq]
        simp
      rw [hsplit, Cut.of_append_sof, Cut.of_append_sof, hbody, ih, Cut.of_nil, List.flatMap_cons]
      simp only [List.nil_append, List.cons_append]

/-! ## Delivery -/

theorem accept_body (p : Packet) :
    accept telemetryCode hostCheck (telemetryCode.stuff p.raw.toList) = some (hostChunk p) := by
  rw [accept_stuff, hostCheck, checkBody_raw]
  rfl

theorem accept_empty : accept telemetryCode hostCheck [] = none := by
  simp [accept, Code.scan, hostCheck, checkBody_nil]

/-- Every packet is delivered, in order. -/
theorem yields_wires (packets : List Packet) :
    Machine.yields FrameDecoder.feedByte FeedOutcome.chunk? FrameDecoder.init
      (packets.flatMap Packet.wire) = packets.map hostChunk := by
  rw [FrameDecoder.yields_feed FrameDecoder.idle_init, cut_wires]
  dsimp only
  induction packets with
  | nil => rfl
  | cons p ps ih =>
      rw [List.flatMap_cons, List.filterMap_append, ih, List.filterMap_cons_none accept_empty,
        List.filterMap_cons_some (accept_body p)]
      rfl

/-! ## Faults -/

theorem judgeBody_raw (p : Packet) : judgeBody p.raw.toList = none := by
  have hne : p.raw.toList ≠ [] := by
    intro h
    have := congrArg List.length h
    simp at this
  rw [judgeBody, if_neg hne, decodeBytes_toList, p.decodeBody_raw]
  rfl

theorem closedFault_body (p : Packet) :
    hostPolicy.closedFault (telemetryCode.scan (telemetryCode.stuff p.raw.toList)) = none := by
  have hkeeps : hostPolicy.keeps p.raw.toList := host_keeps_of_length (by simp)
  have hjudge : hostPolicy.judge = judgeBody := rfl
  rw [telemetryCode.scan_stuff, Policy.closedFault, if_pos hkeeps, hjudge, judgeBody_raw,
    Option.map_none]

theorem closedFault_empty : hostPolicy.closedFault (telemetryCode.scan []) = none := by
  have hscan : telemetryCode.scan [] = .body [] := rfl
  have hjudge : hostPolicy.judge = judgeBody := rfl
  rw [hscan, Policy.closedFault, if_pos hostPolicy.keeps_nil, hjudge, judgeBody_nil,
    Option.map_none]

/-- No fault is counted on a stream of packets. -/
theorem faultCount_wires (packets : List Packet) (k : Fault BodyFault) :
    hostPolicy.faultCount telemetryCode (packets.flatMap Packet.wire) k = 0 := by
  have hcut : Cut.of telemetryCode.sof (packets.flatMap Packet.wire) = _ := cut_wires packets
  rw [Policy.faultCount, hcut, Policy.openFault_scan_nil, if_neg (by simp), Nat.add_zero,
    List.countP_eq_zero]
  intro piece hpiece
  obtain ⟨p, -, hp⟩ := List.mem_flatMap.mp hpiece
  rcases List.mem_cons.mp hp with hp | hp
  · simp [hp, closedFault_empty]
  · rw [List.mem_singleton.mp hp, closedFault_body]
    simp

theorem errors_wires (packets : List Packet) :
    (FrameDecoder.after (packets.flatMap Packet.wire)).errors = 0 := by
  have hfault := (FrameDecoder.fault_after (packets.flatMap Packet.wire)).2.2.1
  have hnone : ∀ k, (FrameDecoder.after (packets.flatMap Packet.wire)).fault k = 0 :=
    fun k => (hfault k).trans (faultCount_wires packets k)
  have hsum := FrameDecoder.summed_after (packets.flatMap Packet.wire)
  have hoverlong := hnone .overlong
  have hescape := hnone .escape
  have hcrc := hnone (.refused .crc)
  have hformat := hnone (.refused .format)
  simp only [FrameDecoder.Summed, FrameDecoder.fault] at *
  omega

/-! ## Sequence numbers -/

/-- Packets numbered without gaps. -/
def Numbered : UInt16 → List Packet → Prop
  | _, [] => True
  | sequence, p :: ps => p.sequence = sequence ∧ Numbered (sequence + 1) ps

theorem numbered_append {sequence : UInt16} {ps qs : List Packet} (hps : Numbered sequence ps)
    (hqs : Numbered (sequence + UInt16.ofNat ps.length) qs) : Numbered sequence (ps ++ qs) := by
  induction ps generalizing sequence with
  | nil => simpa using hqs
  | cons p ps ih =>
      refine ⟨hps.1, ih hps.2 ?_⟩
      rwa [List.length_cons, sequence_add_succ] at hqs

/-- Nothing lost, duplicated or out of order so far, and `next` is expected. -/
structure Quiet (a : HostAccount) (next : UInt16) : Prop where
  lost : a.lost = 0
  duplicates : a.duplicates = 0
  outOfOrder : a.outOfOrder = 0
  expects : ∀ last, a.lastSequence = some last → (last + 1) % 0x10000 = next.toNat

/-- The expected packet keeps the account quiet. -/
theorem Quiet.count {a : HostAccount} {next : UInt16} (h : Quiet a next) :
    Quiet (a.count next.toNat) (next + 1) := by
  have hnext : ∀ last, some next.toNat = some last → (last + 1) % 0x10000 = (next + 1).toNat := by
    rintro last ⟨⟩
    rw [UInt16.toNat_add]
    rfl
  rw [HostAccount.count]
  cases hlast : a.lastSequence with
  | none => exact ⟨h.lost, h.duplicates, h.outOfOrder, hnext⟩
  | some last =>
      have hdelta : (((next.toNat : ℤ) - last) % 0x10000).toNat = 1 := by
        have := h.expects last hlast
        omega
      simp only [hdelta, Nat.one_ne_zero, if_false, Nat.one_lt_ofNat, if_true, Nat.sub_self,
        Nat.add_zero]
      exact ⟨h.lost, h.duplicates, h.outOfOrder, hnext⟩

theorem Quiet.foldl {a : HostAccount} {next : UInt16} (h : Quiet a next) {packets : List Packet}
    (hn : Numbered next packets) :
    Quiet ((packets.map hostChunk).foldl (fun a c => a.count c.sequence) a)
      (next + UInt16.ofNat packets.length) := by
  induction packets generalizing a next with
  | nil => simpa using h
  | cons p ps ih =>
      have hseq : (hostChunk p).sequence = next.toNat := congrArg UInt16.toNat hn.1
      rw [List.map_cons, List.foldl_cons, hseq, List.length_cons, sequence_add_succ]
      exact ih h.count hn.2

/-- **The host on a numbered stream.**  Whole packets numbered without gaps leave every
error counter at zero. -/
theorem quiet_after {packets : List Packet} {sequence : UInt16}
    (hn : Numbered sequence packets) :
    (FrameDecoder.after (packets.flatMap Packet.wire)).errors = 0 ∧
      (FrameDecoder.after (packets.flatMap Packet.wire)).lost = 0 ∧
      (FrameDecoder.after (packets.flatMap Packet.wire)).duplicates = 0 ∧
      (FrameDecoder.after (packets.flatMap Packet.wire)).outOfOrder = 0 := by
  have hinit : Quiet FrameDecoder.init.account sequence := ⟨rfl, rfl, rfl, fun _ h => nomatch h⟩
  have hquiet := hinit.foldl hn
  rw [← yields_wires, ← FrameDecoder.account_after] at hquiet
  exact ⟨errors_wires packets, hquiet.lost, hquiet.duplicates, hquiet.outOfOrder⟩

end SpectrumAnalyzer.Host
