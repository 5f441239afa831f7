import SpectrumAnalyzer.Telemetry.RoundTrip

/-!
# Sequence accounting of the firmware decoder

Frames, losses, duplicates and late arrivals are counted from the sequence numbers of
the frames that are returned, and from nothing else in the stream.

## Main definitions

* `SequenceAccount` — the part of the decoder that counts frames.
* `SequenceAccount.count` — one accepted frame.
* `account_decoderAfter` — the account after a stream.
* `bad_frame_isolated` — a refused piece leaves no trace in chunks or account.
-/

namespace SpectrumAnalyzer

/-- The fields of the decoder that count frames and compare sequence numbers. -/
structure SequenceAccount where
  haveSequence : Bool
  lastSequence : UInt16
  framesOk : UInt32
  sequenceLost : UInt32
  sequenceDuplicates : UInt32
  sequenceOutOfOrder : UInt32
  deriving DecidableEq, Repr

/-- The account of a decoder. -/
def TelemetryDecoder.account (d : TelemetryDecoder) : SequenceAccount :=
  ⟨d.haveSequence, d.lastSequence, d.stats.framesOk, d.stats.sequenceLost,
    d.stats.sequenceDuplicates, d.stats.sequenceOutOfOrder⟩

/-- One accepted frame. -/
def SequenceAccount.count (a : SequenceAccount) (sequence : UInt16) : SequenceAccount :=
  let a := { a with framesOk := a.framesOk + 1 }
  let delta : UInt16 := sequence - a.lastSequence
  if a.haveSequence = false then { a with haveSequence := true, lastSequence := sequence }
  else if delta = 0 then { a with sequenceDuplicates := a.sequenceDuplicates + 1 }
  else if delta < 0x8000 then
    { a with
      lastSequence := sequence
      sequenceLost := a.sequenceLost + (delta - 1).toUInt32 }
  else { a with sequenceOutOfOrder := a.sequenceOutOfOrder + 1 }

theorem account_countSequence (d : TelemetryDecoder) (sequence : UInt16) :
    (countFrame (countSequence d sequence)).account = d.account.count sequence := by
  simp only [countSequence, SequenceAccount.count, TelemetryDecoder.account, countFrame]
  by_cases hhave : d.haveSequence = true
  · simp only [hhave, if_true, Bool.true_eq_false, if_false]
    split
    · rfl
    · split <;> rfl
  · simp only [hhave]
    rfl

theorem account_storeByte (d : TelemetryDecoder) (b : UInt8) :
    (storeByte d b).1.account = d.account ∧ (storeByte d b).2.chunk? = none := by
  rw [storeByte]
  split <;> exact ⟨rfl, rfl⟩

theorem account_feedSof (d : TelemetryDecoder) :
    (feedSof d).1.account =
      (feedSof d).2.chunk?.elim d.account fun c => d.account.count c.sequence := by
  by_cases hesc : d.escaped = true
  · simp [feedSof, hesc, TelemetryDecodeResult.chunk?, TelemetryDecoder.account]
  by_cases hdrop : d.dropping = true
  · simp [feedSof, hesc, hdrop, TelemetryDecodeResult.chunk?, TelemetryDecoder.account]
  by_cases hlen : d.length = 0
  · simp [feedSof, hesc, hdrop, hlen, TelemetryDecodeResult.chunk?]
  rw [feedSof_body (by simpa using hesc) (by simpa using hdrop) hlen]
  cases decodeBody d.body d.length with
  | badCrc => rfl
  | badFormat => rfl
  | ok chunk => exact account_countSequence _ _

/-- One byte: the account moves with the frame that is returned. -/
theorem account_feed (d : TelemetryDecoder) (b : UInt8) :
    (telemetryDecoderFeed d b).1.account =
      (telemetryDecoderFeed d b).2.chunk?.elim d.account fun c => d.account.count c.sequence := by
  by_cases hb : b = telemetrySof
  · rw [hb, feed_sof_eq]
    exact account_feedSof d
  rw [telemetryDecoderFeed]
  rw [if_neg hb]
  split
  · rfl
  split
  · split
    · rfl
    · obtain ⟨haccount, hchunk⟩ := account_storeByte { d with escaped := false } (b ^^^ 0x20)
      rw [haccount, hchunk]
      rfl
  split
  · rfl
  · obtain ⟨haccount, hchunk⟩ := account_storeByte d b
    rw [haccount, hchunk]
    rfl

/-- **The account of a stream.**  It is the account of the chunks that were returned. -/
theorem account_decoderAfter (bytes : List UInt8) :
    (decoderAfter bytes).account =
      (Machine.yields telemetryDecoderFeed TelemetryDecodeResult.chunk? telemetryDecoderInit
        bytes).foldl (fun a c => a.count c.sequence) telemetryDecoderInit.account :=
  Machine.observe_final telemetryDecoderFeed TelemetryDecodeResult.chunk?
    TelemetryDecoder.account (fun a c => a.count c.sequence) account_feed _ _

/-! ## Isolation of bad frames -/

/-- A delimiter leaves the decoder idle, whatever came before it. -/
theorem idle_decoderAfter_snoc (history : List UInt8) :
    (decoderAfter (history ++ [telemetrySof])).Idle := by
  have hsof := (feed_sof (wellFormed_decoderAfter history)).1
  rw [decoderAfter, Machine.final_snoc]
  exact hsof

/-- So does a stream that is empty or ends in a delimiter. -/
theorem idle_decoderAfter {a : List UInt8} (h : a = [] ∨ ∃ front, a = front ++ [telemetrySof]) :
    (decoderAfter a).Idle := by
  rcases h with rfl | ⟨front, rfl⟩
  · exact idle_init
  · exact idle_decoderAfter_snoc front

/-- What is returned behind such a stream does not depend on it. -/
theorem yields_append_idle {a : List UInt8} (ha : (decoderAfter a).Idle) (b : List UInt8) :
    Machine.yields telemetryDecoderFeed TelemetryDecodeResult.chunk? telemetryDecoderInit
        (a ++ b) =
      Machine.yields telemetryDecoderFeed TelemetryDecodeResult.chunk? telemetryDecoderInit a ++
        Machine.yields telemetryDecoderFeed TelemetryDecodeResult.chunk? telemetryDecoderInit
          b := by
  have hb : Machine.yields telemetryDecoderFeed TelemetryDecodeResult.chunk? (decoderAfter a) b =
      Machine.yields telemetryDecoderFeed TelemetryDecodeResult.chunk? telemetryDecoderInit b := by
    rw [yields_feed ha, yields_feed idle_init]
  rw [Machine.yields_append, ← hb]
  rfl

/-- **A bad frame does not reach its neighbours.**  A piece of stream that ends in a
delimiter and returns no chunk can be taken out: the chunks and the account stay. -/
theorem bad_frame_isolated {a g : List UInt8} (ha : a = [] ∨ ∃ front, a = front ++ [telemetrySof])
    (hg : ∃ front, g = front ++ [telemetrySof])
    (hbad : ∀ c, .frame c ∉ Machine.outputs telemetryDecoderFeed (decoderAfter a) g)
    (b : List UInt8) :
    Machine.yields telemetryDecoderFeed TelemetryDecodeResult.chunk? telemetryDecoderInit
          (a ++ g ++ b) =
        Machine.yields telemetryDecoderFeed TelemetryDecodeResult.chunk? telemetryDecoderInit
          (a ++ b) ∧
      (decoderAfter (a ++ g ++ b)).account = (decoderAfter (a ++ b)).account := by
  have hidle := idle_decoderAfter ha
  have hnone : Machine.yields telemetryDecoderFeed TelemetryDecodeResult.chunk?
      telemetryDecoderInit g = [] := by
    apply List.eq_nil_iff_forall_not_mem.mpr
    intro c hc
    rw [yields_feed idle_init, ← yields_feed hidle, mem_yields_feed] at hc
    exact hbad c hc
  have hidle' : (decoderAfter (a ++ g)).Idle := by
    obtain ⟨front, rfl⟩ := hg
    exact idle_decoderAfter (.inr ⟨a ++ front, (List.append_assoc _ _ _).symm⟩)
  have hyields : Machine.yields telemetryDecoderFeed TelemetryDecodeResult.chunk?
      telemetryDecoderInit (a ++ g ++ b) = Machine.yields telemetryDecoderFeed
        TelemetryDecodeResult.chunk? telemetryDecoderInit (a ++ b) := by
    rw [yields_append_idle hidle', yields_append_idle hidle, yields_append_idle hidle, hnone,
      List.append_nil]
  constructor
  · exact hyields
  · rw [account_decoderAfter, account_decoderAfter, hyields]

/-- A body of one byte between two packets is refused, and the packets are returned. -/
theorem bad_frame_isolated_short :
    Machine.yields telemetryDecoderFeed TelemetryDecodeResult.chunk? telemetryDecoderInit
          (escapedPacket.wire ++ [0, telemetrySof] ++ zeroPacket.wire) =
        [escapedPacket.chunk, zeroPacket.chunk] ∧
      (decoderAfter (escapedPacket.wire ++ [0, telemetrySof] ++ zeroPacket.wire)).account =
        (decoderAfter (escapedPacket.wire ++ zeroPacket.wire)).account := by
  have ha : escapedPacket.wire = [] ∨ ∃ front, escapedPacket.wire = front ++ [telemetrySof] :=
    .inr ⟨_, escapedPacket.wire_eq⟩
  have hg : ∃ front, [0, telemetrySof] = front ++ [telemetrySof] := ⟨[0], rfl⟩
  have hbad : ∀ c, .frame c ∉ Machine.outputs telemetryDecoderFeed
      (decoderAfter escapedPacket.wire) [0, telemetrySof] := by
    intro c hc
    rw [← mem_yields_feed, yields_feed (idle_decoderAfter ha), ← yields_feed idle_init,
      mem_yields_feed] at hc
    have hout : Machine.outputs telemetryDecoderFeed telemetryDecoderInit [0, telemetrySof] =
        [.none, .error] := by decide
    simp [hout] at hc
  obtain ⟨hyields, haccount⟩ := bad_frame_isolated ha hg hbad zeroPacket.wire
  refine ⟨?_, haccount⟩
  rw [hyields]
  simpa using yields_feed_wires [escapedPacket, zeroPacket]

end SpectrumAnalyzer
