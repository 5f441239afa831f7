import SpectrumAnalyzer.Telemetry.Receiver

/-!
# Round trip and canonical form

What the encoder sends the decoder returns, from any history, byte for byte and without
a counted fault; and what the decoder accepts the encoder sends.

The first needs the exact result of every byte, which the receiver laws do not give:
`outputs_wire` follows a packet through the decoder.  The second is the library's
description of accepted pieces, with the accepted bodies described by their layout.

## Main definitions

* `Carries` — what a chunk must say about the packet it came from.
-/

namespace SpectrumAnalyzer

open Framing TelemetryDecoder

/-! ## Counted faults -/

theorem faults_storeByte {d : TelemetryDecoder} {b : UInt8} (h : (storeByte d b).2 ≠ .error) :
    (storeByte d b).1.stats = d.stats := by
  simp only [storeByte] at h ⊢
  split at h
  · exact absurd rfl h
  · next hroom => rw [dif_neg hroom]

theorem faults_feedSof {d : TelemetryDecoder} (h : (feedSof d).2 ≠ .error) :
    (feedSof d).1.stats.faults = d.stats.faults := by
  by_cases hesc : d.escaped = true
  · simp [feedSof, hesc] at h
  by_cases hdrop : d.dropping = true
  · simp [feedSof, hesc, hdrop] at h
  by_cases hlen : d.length = 0
  · simp [feedSof, hesc, hdrop, hlen]
  rw [feedSof_body (by simpa using hesc) (by simpa using hdrop) hlen] at h ⊢
  cases hdec : decodeBody d.body d.length with
  | badCrc => simp [hdec] at h
  | badFormat => simp [hdec] at h
  | ok chunk => exact faults_countSequence _ _

/-- A fault is counted only by a byte that returns ERROR. -/
theorem faults_feed {d : TelemetryDecoder} {b : UInt8}
    (h : (telemetryDecoderFeed d b).2 ≠ .error) :
    (telemetryDecoderFeed d b).1.stats.faults = d.stats.faults := by
  by_cases hb : b = telemetrySof
  · subst hb
    rw [feed_sof_eq] at h ⊢
    exact faults_feedSof h
  by_cases hdrop : d.dropping = true
  · rw [feed_dropping hb hdrop]
  have hdrop : d.dropping = false := by simpa using hdrop
  by_cases hesc : d.escaped = true
  · by_cases hm : telemetryCode.Masked b
    · rw [feed_pair hdrop hesc hm] at h ⊢
      rw [faults_storeByte h]
    · rw [feed_bad_pair hb hdrop hesc hm] at h
      exact absurd rfl h
  have hesc : d.escaped = false := by simpa using hesc
  by_cases he : b = telemetryEsc
  · rw [he, feed_escape hdrop hesc]
  · have hp : ¬ telemetryCode.Special b := not_or.mpr ⟨hb, he⟩
    rw [feed_plain hdrop hesc hp] at h ⊢
    rw [faults_storeByte h]

/-- A run without ERROR counts no fault. -/
theorem faults_run {d : TelemetryDecoder} {bytes : List UInt8}
    (h : ∀ r ∈ Machine.outputs telemetryDecoderFeed d bytes, r ≠ .error) :
    (Machine.final telemetryDecoderFeed d bytes).stats.faults = d.stats.faults := by
  induction bytes generalizing d with
  | nil => rfl
  | cons b bs ih =>
      rw [Machine.outputs_cons] at h
      rw [Machine.final_cons, ih fun r hr => h r (List.mem_cons_of_mem _ hr),
        faults_feed (h _ List.mem_cons_self)]

/-! ## A packet through the decoder -/

/-- The decoder is inside a frame and holds `bytes`. -/
structure Holds (d : TelemetryDecoder) (bytes : List UInt8) : Prop where
  escaped : d.escaped = false
  dropping : d.dropping = false
  length : d.length = bytes.length
  held : d.held = bytes

theorem Idle.holds {d : TelemetryDecoder} (h : d.Idle) : Holds d [] :=
  ⟨h.2.1, h.2.2, h.1, by simp [TelemetryDecoder.held, h.1]⟩

theorem storeByte_holds {d : TelemetryDecoder} {bytes : List UInt8} (h : Holds d bytes)
    (hroom : bytes.length < 236) (b : UInt8) :
    (storeByte d b).2 = .none ∧ Holds (storeByte d b).1 (bytes ++ [b]) := by
  have hlen : ¬ d.length ≥ 236 := by rw [h.length]; omega
  rw [storeByte]
  rw [dif_neg hlen]
  refine ⟨rfl, h.escaped, h.dropping, by simp [h.length], ?_⟩
  have hheld := h.held
  simp only [TelemetryDecoder.held] at hheld ⊢
  rw [Bytes.take_set, hheld]

/-- One escaped byte of a body is stored and answered with NONE. -/
theorem outputs_stuffSymbol {d : TelemetryDecoder} {bytes : List UInt8} (h : Holds d bytes)
    (hroom : bytes.length < 236) (b : UInt8) :
    Machine.outputs telemetryDecoderFeed d (telemetryCode.stuffSymbol b) =
        List.replicate (telemetryCode.stuffSymbol b).length .none ∧
      Holds (Machine.final telemetryDecoderFeed d (telemetryCode.stuffSymbol b))
        (bytes ++ [b]) := by
  by_cases hs : telemetryCode.Special b
  · have h' : Holds { d with escaped := false } bytes := ⟨rfl, h.dropping, h.length, h.held⟩
    have hmask : (b ^^^ 0x20) ^^^ 0x20 = b := telemetryCode.mask_mask b
    have hstore := storeByte_holds h' hroom b
    have hesc := feed_escape h.dropping h.escaped
    have hpair := feed_pair (d := { d with escaped := true }) h.dropping rfl
      (telemetryCode.masked_mask hs)
    rw [telemetryCode.stuffSymbol_of_special hs]
    change telemetryDecoderFeed d telemetryCode.esc = _ at hesc
    change telemetryDecoderFeed { d with escaped := true } (telemetryCode.mask b) =
      storeByte { d with escaped := false } ((b ^^^ 0x20) ^^^ 0x20) at hpair
    rw [hmask] at hpair
    simp only [Machine.outputs_cons, Machine.outputs_nil, Machine.final_cons, Machine.final_nil,
      hesc, hpair]
    exact ⟨by rw [hstore.1]; rfl, hstore.2⟩
  · have hstore := storeByte_holds h hroom b
    rw [telemetryCode.stuffSymbol_of_not_special hs]
    simp only [Machine.outputs_cons, Machine.outputs_nil, Machine.final_cons, Machine.final_nil,
      feed_plain h.dropping h.escaped hs]
    exact ⟨by rw [hstore.1]; rfl, hstore.2⟩

/-- A whole escaped body is stored and answered with NONE throughout. -/
theorem outputs_stuff {d : TelemetryDecoder} {bytes : List UInt8} (h : Holds d bytes)
    (body : List UInt8) (hroom : bytes.length + body.length ≤ 236) :
    Machine.outputs telemetryDecoderFeed d (telemetryCode.stuff body) =
        List.replicate (telemetryCode.stuff body).length .none ∧
      Holds (Machine.final telemetryDecoderFeed d (telemetryCode.stuff body))
        (bytes ++ body) := by
  induction body generalizing d bytes with
  | nil => simpa using h
  | cons b bs ih =>
      rw [List.length_cons] at hroom
      obtain ⟨hout, hhold⟩ := outputs_stuffSymbol h (by omega) b
      obtain ⟨hout', hhold'⟩ := ih hhold (by rw [List.length_append, List.length_singleton]; omega)
      rw [Code.stuff_cons, Machine.outputs_append, Machine.final_append, hout, hout',
        List.length_append, List.replicate_append_replicate]
      refine ⟨rfl, ?_⟩
      rw [List.append_assoc] at hhold'
      exact hhold'

theorem Packet.wire_cons_tail (p : Packet) : p.wire = telemetrySof :: p.wire.tail := by
  rw [p.wire_eq, List.cons_append, List.tail_cons]

theorem Packet.length_wire (p : Packet) :
    p.wire.length = (telemetryCode.stuff p.raw.toList).length + 2 := by
  rw [p.wire_eq]
  simp

/-- The body of a packet and its closing delimiter: NONE up to the delimiter, FRAME at it. -/
theorem outputs_tail_wire {d : TelemetryDecoder} (h : d.Idle) (p : Packet) :
    Machine.outputs telemetryDecoderFeed d p.wire.tail =
        List.replicate (p.wire.length - 2) .none ++ [.frame p.chunk] ∧
      (Machine.final telemetryDecoderFeed d p.wire.tail).Idle := by
  obtain ⟨hout, hhold⟩ := outputs_stuff (Idle.holds h) p.raw.toList (by simp)
  have htail : p.wire.tail = telemetryCode.stuff p.raw.toList ++ [telemetrySof] := by
    rw [p.wire_eq, List.cons_append, List.tail_cons]
  rw [htail, p.length_wire, Nat.add_sub_cancel, Machine.outputs_append, Machine.final_append, hout]
  generalize Machine.final telemetryDecoderFeed d (telemetryCode.stuff p.raw.toList) = e at hhold ⊢
  have hlen : e.length = 236 := by simpa using hhold.length
  have hbody : e.body = p.raw := by
    apply Vector.toList_inj.mp
    have hheld := hhold.held
    rwa [TelemetryDecoder.held, hlen, List.take_of_length_le (by simp), List.nil_append] at hheld
  have hsof : telemetryDecoderFeed e telemetrySof =
      (countFrame (countSequence { e with length := 0 } p.chunk.sequence), .frame p.chunk) := by
    rw [feed_sof_eq, feedSof_body hhold.escaped hhold.dropping (by rw [hlen]; decide), hlen,
      hbody, p.decodeBody_raw]
  have hidle : ({ e with length := 0 } : TelemetryDecoder).Idle :=
    ⟨rfl, hhold.escaped, hhold.dropping⟩
  rw [Machine.outputs_cons, Machine.outputs_nil, Machine.final_cons, Machine.final_nil, hsof]
  exact ⟨rfl, idle_countSequence hidle _⟩

/-- The opening delimiter of a packet is answered with NONE by an idle decoder. -/
theorem feed_sof_idle {d : TelemetryDecoder} (h : d.Idle) :
    telemetryDecoderFeed d telemetrySof = (d, .none) := by
  rw [feed_sof_eq]
  simp [feedSof, h.1, h.2.1, h.2.2]

/-- A packet fed to an idle decoder: its opening delimiter changes nothing. -/
theorem run_wire_idle {d : TelemetryDecoder} (h : d.Idle) (p : Packet) :
    Machine.outputs telemetryDecoderFeed d p.wire =
        .none :: Machine.outputs telemetryDecoderFeed d p.wire.tail ∧
      Machine.final telemetryDecoderFeed d p.wire =
        Machine.final telemetryDecoderFeed d p.wire.tail := by
  constructor
  · conv_lhs => rw [p.wire_cons_tail, Machine.outputs_cons, feed_sof_idle h]
  · conv_lhs => rw [p.wire_cons_tail, Machine.final_cons, feed_sof_idle h]

/-- The results of a packet fed to an idle decoder. -/
theorem outputs_wire {d : TelemetryDecoder} (h : d.Idle) (p : Packet) :
    Machine.outputs telemetryDecoderFeed d p.wire =
        List.replicate (p.wire.length - 1) .none ++ [.frame p.chunk] ∧
      (Machine.final telemetryDecoderFeed d p.wire).Idle := by
  obtain ⟨hout, hidle⟩ := outputs_tail_wire h p
  have hlen : p.wire.length - 1 = p.wire.length - 2 + 1 := by
    rw [p.length_wire]
    omega
  rw [(run_wire_idle h p).1, (run_wire_idle h p).2, hout, hlen, List.replicate_succ]
  exact ⟨rfl, hidle⟩

/-- The results of a list of packets fed to an idle decoder. -/
theorem outputs_wires {d : TelemetryDecoder} (h : d.Idle) (packets : List Packet) :
    Machine.outputs telemetryDecoderFeed d (packets.flatMap Packet.wire) =
      packets.flatMap fun p =>
        List.replicate (p.wire.length - 1) .none ++ [.frame p.chunk] := by
  induction packets generalizing d with
  | nil => rfl
  | cons p ps ih =>
      obtain ⟨hout, hidle⟩ := outputs_wire h p
      rw [List.flatMap_cons, List.flatMap_cons, Machine.outputs_append, hout, ih hidle]

/-- The chunks returned from a stream of packets. -/
theorem yields_feed_wires (packets : List Packet) :
    Machine.yields telemetryDecoderFeed TelemetryDecodeResult.chunk? telemetryDecoderInit
      (packets.flatMap Packet.wire) = packets.map Packet.chunk := by
  rw [Machine.yields, outputs_wires idle_init]
  induction packets with
  | nil => rfl
  | cons p ps ih =>
      rw [List.flatMap_cons, List.filterMap_append, ih, List.map_cons]
      simp [TelemetryDecodeResult.chunk?]

/-! ## Streams of packets -/

namespace Packet

/-- The channel of the result that the packet reports. -/
def source (p : Packet) : ChannelSpectrum := p.result.channel.get ⟨p.channel.toNat, p.channel_lt⟩

/-- The `i`-th bin of the packet's chunk of the spectrum. -/
def magnitude (p : Packet) (i : Fin 128) : UInt16 :=
  have := p.chunkIndex_lt
  p.source.magnitudeQ15[128 * p.chunkIndex.toNat + i.val]

/-- The `i`-th preview sample of the packet's chunk. -/
def preview (p : Packet) (i : Fin 32) : Int16 :=
  have := p.chunkIndex_lt
  p.source.previewQ15[32 * p.chunkIndex.toNat + i.val]

end Packet

/-- What a chunk must say about the packet it came from, field by field. -/
structure Carries (p : Packet) (c : SpectrumChunk) : Prop where
  sequence : c.sequence = p.sequence
  timestampUs : c.timestampUs = p.result.timestampUs
  status : c.status = p.result.status
  channel : c.channel = p.channel
  chunkIndex : c.chunkIndex = p.chunkIndex
  chunkCount : c.chunkCount = 4
  sampleRateHz : c.sampleRateHz = p.result.sampleRateHz
  binStart : c.binStart.toNat = 128 * p.chunkIndex.toNat
  binCount : c.binCount = 128
  rmsQ15 : c.rmsQ15 = p.source.rmsQ15
  peakQ15 : c.peakQ15 = p.source.peakQ15
  dominantMillihz : c.dominantMillihz = p.source.dominantMillihz
  processingUs : c.processingUs = p.result.processingUs
  droppedBlocks : c.droppedBlocks = p.result.droppedBlocks
  magnitudeU8 : ∀ i, c.magnitudeU8[i].toNat = min 255 (((p.magnitude i).toNat + 64) / 128)
  previewQ15 : ∀ i, c.previewQ15[i] = p.preview i

theorem carries_chunk (p : Packet) : Carries p p.chunk where
  sequence := rfl
  timestampUs := rfl
  status := rfl
  channel := by simp [Packet.chunk, chunkOf]
  chunkIndex := by simp [Packet.chunk, chunkOf]
  chunkCount := rfl
  sampleRateHz := rfl
  binStart := by
    have := p.chunkIndex_lt
    simp [Packet.chunk, chunkOf]
    omega
  binCount := rfl
  rmsQ15 := rfl
  peakQ15 := rfl
  dominantMillihz := rfl
  processingUs := rfl
  droppedBlocks := rfl
  magnitudeU8 := by
    intro i
    rw [← toNat_compressMagnitude]
    simp [Packet.chunk, chunkOf, Packet.magnitude, Packet.source, Nat.mul_comm]
  previewQ15 := by
    intro i
    simp [Packet.chunk, chunkOf, Packet.preview, Packet.source, Nat.mul_comm]

/-- What the decoder returns for a packet, byte by byte. -/
def packetResults (p : Packet) : List TelemetryDecodeResult :=
  List.replicate (p.wire.length - 1) .none ++ [.frame p.chunk]

/-- The results of a stream of packets after its first byte, from any reachable state. -/
theorem outputs_stream {d : TelemetryDecoder} (hd : d.WellFormed) (p : Packet)
    (ps : List Packet) :
    (Machine.outputs telemetryDecoderFeed (telemetryDecoderFeed d telemetrySof).1
      (p.wire.tail ++ ps.flatMap Packet.wire)) =
        ((p :: ps).flatMap packetResults).tail := by
  obtain ⟨hout, hidle⟩ := outputs_tail_wire (feed_sof hd).1 p
  have hlen : p.wire.length - 1 = p.wire.length - 2 + 1 := by
    rw [p.length_wire]
    omega
  rw [Machine.outputs_append, hout, outputs_wires hidle, List.flatMap_cons, packetResults, hlen,
    List.replicate_succ]
  rfl

/-- **Stream round trip from any history.**  Whatever bytes the decoder has seen, a
stream of packets is returned chunk by chunk: after its first byte every packet gives
NONE up to its closing delimiter and FRAME at it, and no fault is counted. -/
theorem stream_round_trip (history : List UInt8) (packets : List Packet)
    (hne : packets ≠ []) :
    (∀ p ∈ packets, p.encode.size = p.wire.length ∧ Carries p p.chunk ∧
        ∃ inner, telemetrySof ∉ inner ∧ p.wire = telemetrySof :: inner ++ [telemetrySof]) ∧
      (Machine.outputs telemetryDecoderFeed (decoderAfter history)
        (packets.flatMap Packet.wire)).tail = (packets.flatMap packetResults).tail ∧
      ∀ n, 1 ≤ n →
        (decoderAfter (history ++ (packets.flatMap Packet.wire).take n)).stats.faults =
          (decoderAfter (history ++ (packets.flatMap Packet.wire).take 1)).stats.faults := by
  have hd := wellFormed_decoderAfter history
  obtain ⟨p, ps, rfl⟩ := List.exists_cons_of_ne_nil hne
  have hstream : (p :: ps).flatMap Packet.wire =
      telemetrySof :: (p.wire.tail ++ ps.flatMap Packet.wire) := by
    rw [List.flatMap_cons, ← List.cons_append, ← p.wire_cons_tail]
  have hresults := outputs_stream hd p ps
  refine ⟨?_, ?_, ?_⟩
  · intro q _
    exact ⟨q.size_encode, carries_chunk q, telemetryCode.stuff q.raw.toList,
      telemetryCode.sof_notMem_stuff _, q.wire_eq⟩
  · rw [hstream, Machine.outputs_cons, List.tail_cons, hresults]
  · intro n hn
    obtain ⟨m, rfl⟩ := Nat.exists_eq_add_of_le' hn
    rw [hstream, List.take_succ_cons, List.take_succ_cons, List.take_zero]
    simp only [decoderAfter, Machine.final_append, Machine.final_cons, Machine.final_nil]
    apply faults_run
    intro r hr
    rw [Machine.outputs_take] at hr
    have hmem := List.mem_of_mem_take hr
    change r ∈ Machine.outputs telemetryDecoderFeed
      (telemetryDecoderFeed (decoderAfter history) telemetrySof).1 _ at hmem
    rw [hresults] at hmem
    have hmem := List.mem_of_mem_tail hmem
    simp only [packetResults, List.mem_flatMap, List.mem_append, List.mem_replicate,
      List.mem_singleton] at hmem
    obtain ⟨q, -, ⟨-, rfl⟩ | rfl⟩ := hmem <;> simp

/-- A packet of an empty result. -/
def zeroPacket : Packet := ⟨0, .zero, 0, 0, by decide, by decide⟩

/-- A packet whose sequence number consists of the two reserved bytes. -/
def escapedPacket : Packet := ⟨0x7D7E, .zero, 1, 3, by decide, by decide⟩

/-- The first of its escapes on the wire. -/
theorem escapedPacket_escape : escapedPacket.wire[5]? = some telemetryEsc := by
  rw [Packet.wire_eq, Packet.toList_raw]
  rfl

/-- The decoder is left behind an escape, and two packets follow. -/
theorem stream_round_trip_escaped :
    (∀ p ∈ [zeroPacket, escapedPacket], p.encode.size = p.wire.length ∧ Carries p p.chunk ∧
        ∃ inner, telemetrySof ∉ inner ∧ p.wire = telemetrySof :: inner ++ [telemetrySof]) ∧
      (Machine.outputs telemetryDecoderFeed (decoderAfter [telemetryEsc])
          (zeroPacket.wire ++ escapedPacket.wire)).tail =
        (packetResults zeroPacket ++ packetResults escapedPacket).tail ∧
      ∀ n, 1 ≤ n →
        (decoderAfter
            (telemetryEsc :: (zeroPacket.wire ++ escapedPacket.wire).take n)).stats.faults =
          (decoderAfter
            (telemetryEsc :: (zeroPacket.wire ++ escapedPacket.wire).take 1)).stats.faults := by
  simpa using stream_round_trip [telemetryEsc] [zeroPacket, escapedPacket] (List.cons_ne_nil _ _)

/-! ## The accepted strings -/

/-- What an idle decoder answers to the delimiter after a delimiter-free string: FRAME
exactly when the string spells the layout of a well-formed chunk. -/
theorem closing_result_iff {d : TelemetryDecoder} (hd : d.Idle) {s : List UInt8}
    (hs : telemetrySof ∉ s) {c : SpectrumChunk} :
    (Machine.outputs telemetryDecoderFeed d (s ++ [telemetrySof])).getLast? = some (.frame c) ↔
      c.WellFormed ∧ s = telemetryCode.stuff (layout c) := by
  have hcheck : ∀ body c, checkBody body = some c → body.length = 236 :=
    fun _ _ h => length_of_checkBody h
  obtain ⟨hinv, hrep, -⟩ := telemetryDeframer.run_spec hcheck (Idle.fresh hd) s
  rw [Cut.of_notMem telemetryCode.sof hs] at hrep
  have hclose : (telemetryDecoderFeed (Machine.final telemetryDecoderFeed d s)
      telemetrySof).2.chunk? = accept telemetryCode checkBody s :=
    (feed_sof hinv).2.trans (close_eq_accept hcheck hrep)
  rw [Machine.outputs_snoc, List.getLast?_concat, Option.some_inj,
    ← TelemetryDecodeResult.chunk?_eq_some_iff, hclose, accept_eq_some_iff hs]
  simp only [checkBody_eq_some_iff]
  constructor
  · rintro ⟨body, hbody, hc, hl⟩
    exact ⟨hc, hl ▸ hbody⟩
  · rintro ⟨hc, hl⟩
    exact ⟨layout c, hl, hc, rfl⟩

/-- **The decoder accepts exactly the encoder's image.**  From an idle decoder, a
delimiter-free string followed by a delimiter gives FRAME if and only if some call of
the encoder writes it between two delimiters, and it is the only string that gives its
chunk. -/
theorem accepts_iff_encoded {d : TelemetryDecoder} (hd : d.Idle) {s : List UInt8}
    (hs : telemetrySof ∉ s) :
    ((∃ c, (Machine.outputs telemetryDecoderFeed d (s ++ [telemetrySof])).getLast? =
        some (.frame c)) ↔
      ∃ p : Packet, p.encode = ⟨s.length + 2, telemetrySof :: s ++ [telemetrySof]⟩) ∧
    ∀ (d' : TelemetryDecoder) (s' : List UInt8) (c : SpectrumChunk), d'.Idle →
      telemetrySof ∉ s' →
      (Machine.outputs telemetryDecoderFeed d (s ++ [telemetrySof])).getLast? =
        some (.frame c) →
      (Machine.outputs telemetryDecoderFeed d' (s' ++ [telemetrySof])).getLast? =
        some (.frame c) → s = s' := by
  refine ⟨?_, ?_⟩
  · simp only [closing_result_iff hd hs]
    constructor
    · rintro ⟨c, hc, hl⟩
      obtain ⟨p, hp⟩ := exists_packet hc
      exact ⟨p, by rw [p.encode_eq, p.toList_raw, hp, hl]⟩
    · rintro ⟨p, hp⟩
      rw [p.encode_eq, p.toList_raw] at hp
      have hout := congrArg EncodeResult.output hp
      simp only [List.cons_append, List.cons.injEq, true_and] at hout
      exact ⟨p.chunk, wellFormed_chunkOf _ _ _ _, (List.append_cancel_right hout).symm⟩
  · intro d' s' c hd' hs' h h'
    rw [((closing_result_iff hd hs).mp h).2, ((closing_result_iff hd' hs').mp h').2]

theorem accepts_iff_encoded_zero :
    ∃ c, (Machine.outputs telemetryDecoderFeed telemetryDecoderInit
      (telemetryCode.stuff zeroPacket.raw.toList ++ [telemetrySof])).getLast? =
        some (.frame c) :=
  (accepts_iff_encoded idle_init (telemetryCode.sof_notMem_stuff _)).1.mpr
    ⟨zeroPacket, zeroPacket.encode_eq⟩

end SpectrumAnalyzer
