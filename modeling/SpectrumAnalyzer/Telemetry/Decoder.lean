import SpectrumAnalyzer.Lib.Machine
import SpectrumAnalyzer.Telemetry.RawPacket

/-!
# The firmware telemetry decoder

`telemetry_decoder_feed`, one byte at a time.  The decoder writes the caller's chunk
exactly when it returns FRAME, so the chunk is carried by that result.  The counters are
32-bit and wrap.  Null arguments, which the source answers with an error, have no
counterpart here.

## Main definitions

* `telemetryDecoderFeed` — one byte.
* `telemetryDecoderInit` — the zeroed decoder.
* `TelemetryDecoder.held` — the bytes of the body received so far.
-/

namespace SpectrumAnalyzer

/-- `telemetry_decoder_stats_t`. -/
structure TelemetryDecoderStats where
  framesOk : UInt32
  crcErrors : UInt32
  formatErrors : UInt32
  overflowErrors : UInt32
  escapeErrors : UInt32
  resyncEvents : UInt32
  sequenceLost : UInt32
  sequenceDuplicates : UInt32
  sequenceOutOfOrder : UInt32
  deriving DecidableEq, Repr

/-- `telemetry_decoder_t`. -/
structure TelemetryDecoder where
  body : Vector UInt8 236
  length : ℕ
  lastSequence : UInt16
  escaped : Bool
  dropping : Bool
  haveSequence : Bool
  stats : TelemetryDecoderStats
  deriving DecidableEq

/-- `telemetry_decode_result_t`. -/
inductive TelemetryDecodeResult where
  | none
  | frame (chunk : SpectrumChunk)
  | error
  deriving DecidableEq

/-- `telemetry_decoder_init`. -/
def telemetryDecoderInit : TelemetryDecoder :=
  ⟨.replicate 236 0, 0, 0, false, false, false, ⟨0, 0, 0, 0, 0, 0, 0, 0, 0⟩⟩

/-- The sequence accounting of an accepted frame. -/
def countSequence (decoder : TelemetryDecoder) (sequence : UInt16) : TelemetryDecoder :=
  let stats := decoder.stats
  if decoder.haveSequence then
    let delta : UInt16 := sequence - decoder.lastSequence
    if delta = 0 then
      { decoder with stats := { stats with sequenceDuplicates := stats.sequenceDuplicates + 1 } }
    else if delta < 0x8000 then
      { decoder with
        stats := { stats with sequenceLost := stats.sequenceLost + (delta - 1).toUInt32 }
        lastSequence := sequence }
    else
      { decoder with stats := { stats with sequenceOutOfOrder := stats.sequenceOutOfOrder + 1 } }
  else { decoder with lastSequence := sequence, haveSequence := true }

/-- What follows a rejected body: one error counter and one resynchronisation. -/
def countRejected (decoder : TelemetryDecoder) (crc : Bool) : TelemetryDecoder :=
  let stats := decoder.stats
  { decoder with stats :=
    if crc then { stats with
      crcErrors := stats.crcErrors + 1, resyncEvents := stats.resyncEvents + 1 }
    else { stats with
      formatErrors := stats.formatErrors + 1, resyncEvents := stats.resyncEvents + 1 } }

def countFrame (decoder : TelemetryDecoder) : TelemetryDecoder :=
  { decoder with stats := { decoder.stats with framesOk := decoder.stats.framesOk + 1 } }

/-- The branch of `telemetry_decoder_feed` for a delimiter. -/
def feedSof (decoder : TelemetryDecoder) : TelemetryDecoder × TelemetryDecodeResult :=
  let stats := decoder.stats
  if decoder.escaped then
    ({ decoder with
        stats := { stats with
          escapeErrors := stats.escapeErrors + 1, resyncEvents := stats.resyncEvents + 1 }
        escaped := false
        length := 0 }, .error)
  else if decoder.dropping then
    ({ decoder with
        stats := { stats with resyncEvents := stats.resyncEvents + 1 }
        dropping := false
        length := 0 }, .error)
  else if decoder.length = 0 then (decoder, .none)
  else
    let decoder' := { decoder with length := 0 }
    match decodeBody decoder.body decoder.length with
    | .badCrc => (countRejected decoder' true, .error)
    | .badFormat => (countRejected decoder' false, .error)
    | .ok chunk => (countFrame (countSequence decoder' chunk.sequence), .frame chunk)

/-- The end of `telemetry_decoder_feed`: one more byte of the body, if it fits. -/
def storeByte (decoder : TelemetryDecoder) (byte : UInt8) :
    TelemetryDecoder × TelemetryDecodeResult :=
  if h : decoder.length ≥ 236 then
    let stats := decoder.stats
    ({ decoder with
        stats := { stats with overflowErrors := stats.overflowErrors + 1 }
        dropping := true
        length := 0 }, .error)
  else
    ({ decoder with
        body := decoder.body.set decoder.length byte
        length := decoder.length + 1 }, .none)

/-- `telemetry_decoder_feed`. -/
def telemetryDecoderFeed (decoder : TelemetryDecoder) (byte : UInt8) :
    TelemetryDecoder × TelemetryDecodeResult :=
  if byte = telemetrySof then feedSof decoder
  else if decoder.dropping then (decoder, .none)
  else if decoder.escaped then
    if byte ≠ telemetrySof ^^^ 0x20 ∧ byte ≠ telemetryEsc ^^^ 0x20 then
      let stats := decoder.stats
      ({ decoder with
          stats := { stats with escapeErrors := stats.escapeErrors + 1 }
          dropping := true
          escaped := false
          length := 0 }, .error)
    else storeByte { decoder with escaped := false } (byte ^^^ 0x20)
  else if byte = telemetryEsc then ({ decoder with escaped := true }, .none)
  else storeByte decoder byte

/-- The chunk handed to the caller, if any. -/
def TelemetryDecodeResult.chunk? : TelemetryDecodeResult → Option SpectrumChunk
  | .frame chunk => some chunk
  | _ => Option.none

namespace TelemetryDecoder

/-- The bytes of the body received so far. -/
def held (decoder : TelemetryDecoder) : List UInt8 := decoder.body.toList.take decoder.length

/-- Waiting for the first byte of a frame. -/
def Idle (decoder : TelemetryDecoder) : Prop :=
  decoder.length = 0 ∧ decoder.escaped = false ∧ decoder.dropping = false

instance (decoder : TelemetryDecoder) : Decidable decoder.Idle :=
  inferInstanceAs (Decidable (_ ∧ _))

end TelemetryDecoder

end SpectrumAnalyzer
