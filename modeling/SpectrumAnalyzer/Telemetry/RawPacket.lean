import Mathlib.Logic.Function.Iterate
import SpectrumAnalyzer.Types

/-!
# The raw telemetry packet

The 236 bytes of a packet before escaping, as the encoder writes them and as
`decode_body` reads them, with the little-endian stores and loads and the CRC that both
use.  The offsets of the writer and of the reader are those of the source, and neither
is derived from the other.

## Main definitions

* `crc16CcittFalse` — the CRC over a list of bytes.
* `rawSpectrumChunk` — the packet, field by field.
* `decodeBody` — the checks and the field reads on a complete body.
-/

namespace SpectrumAnalyzer

/-! ## Wire constants -/

def telemetryProtocolVersion : UInt8 := 2
def telemetryTypeSpectrum : UInt8 := 1
def telemetrySof : UInt8 := 0x7E
def telemetryEsc : UInt8 := 0x7D
def telemetrySpectrumPayloadLen : UInt16 := 228
def telemetryMaxFrame : ℕ := 474
def analyzerBinsPerChunk : UInt16 := 128
def analyzerChunksPerChannel : UInt8 := 4

/-! ## Little-endian access -/

section Words
variable {n : ℕ}

def putU16 (p : Vector UInt8 n) (i : ℕ) (value : UInt16) (h : i + 2 ≤ n := by decide) :
    Vector UInt8 n :=
  (p.set i value.toUInt8).set (i + 1) (value >>> 8).toUInt8

def putU32 (p : Vector UInt8 n) (i : ℕ) (value : UInt32) (h : i + 4 ≤ n := by decide) :
    Vector UInt8 n :=
  (((p.set i value.toUInt8).set (i + 1) (value >>> 8).toUInt8).set (i + 2)
    (value >>> 16).toUInt8).set (i + 3) (value >>> 24).toUInt8

def getU16 (p : Vector UInt8 n) (i : ℕ) (h : i + 2 ≤ n := by decide) : UInt16 :=
  p[i].toUInt16 ||| (p[i + 1].toUInt16 <<< 8)

def getU32 (p : Vector UInt8 n) (i : ℕ) (h : i + 4 ≤ n := by decide) : UInt32 :=
  p[i].toUInt32 ||| (p[i + 1].toUInt32 <<< 8) ||| (p[i + 2].toUInt32 <<< 16) |||
    (p[i + 3].toUInt32 <<< 24)

end Words

/-! ## The CRC -/

/-- One turn of the inner loop. -/
def crc16Bit (crc : UInt16) : UInt16 :=
  if crc &&& 0x8000 ≠ 0 then (crc <<< 1) ^^^ 0x1021 else crc <<< 1

/-- One turn of the outer loop. -/
def crc16Byte (crc : UInt16) (byte : UInt8) : UInt16 :=
  crc16Bit^[8] (crc ^^^ (byte.toUInt16 <<< 8))

def crc16CcittFalse (data : List UInt8) : UInt16 := data.foldl crc16Byte 0xFFFF

/-! ## The writer -/

/-- A 16-bit magnitude in one byte, rounded and saturated. -/
def compressMagnitude (magnitude : UInt16) : UInt8 :=
  let compressed : UInt16 := ((magnitude.toUInt32 + 64) >>> 7).toUInt16
  if compressed > 255 then 255 else compressed.toUInt8

/-- Offsets 0 to 41. -/
def putHeader (raw : Vector UInt8 236) (sequence : UInt16) (result : SpectrumResult)
    (channel : Fin 2) (chunkIndex : Fin 4) : Vector UInt8 236 :=
  let source := result.channel.get channel
  let binStart : UInt16 := UInt16.ofNat (chunkIndex * 128)
  let raw := raw.set 0 telemetryProtocolVersion
  let raw := raw.set 1 telemetryTypeSpectrum
  let raw := putU16 raw 2 telemetrySpectrumPayloadLen
  let raw := putU16 raw 4 sequence
  let raw := putU32 raw 6 result.timestampUs
  let raw := putU32 raw 10 result.status
  let raw := raw.set 14 (UInt8.ofNat channel)
  let raw := raw.set 15 (UInt8.ofNat chunkIndex)
  let raw := raw.set 16 analyzerChunksPerChannel
  let raw := raw.set 17 0
  let raw := putU32 raw 18 result.sampleRateHz
  let raw := putU16 raw 22 binStart
  let raw := putU16 raw 24 analyzerBinsPerChunk
  let raw := putU16 raw 26 source.rmsQ15
  let raw := putU16 raw 28 source.peakQ15
  let raw := putU32 raw 30 source.dominantMillihz
  let raw := putU32 raw 34 result.processingUs
  putU32 raw 38 result.droppedBlocks

/-- Offsets 42 to 169: one byte per bin of the chunk. -/
def putMagnitudes (raw : Vector UInt8 236) (source : ChannelSpectrum) (chunkIndex : Fin 4) :
    Vector UInt8 236 :=
  Nat.fold 128 (fun i _ raw =>
    raw.set (42 + i) (compressMagnitude source.magnitudeQ15[chunkIndex * 128 + i])) raw

/-- Offsets 170 to 233: the preview samples of the chunk, two bytes each. -/
def putPreview (raw : Vector UInt8 236) (source : ChannelSpectrum) (chunkIndex : Fin 4) :
    Vector UInt8 236 :=
  Nat.fold 32 (fun i hi raw =>
    putU16 raw (170 + i * 2) source.previewQ15[chunkIndex * 32 + i].toUInt16 (by omega)) raw

/-- The packet before escaping.  The buffer is uninitialised in the source; every byte
of it is written. -/
def rawSpectrumChunk (sequence : UInt16) (result : SpectrumResult) (channel : Fin 2)
    (chunkIndex : Fin 4) : Vector UInt8 236 :=
  let source := result.channel.get channel
  let raw := putHeader (.replicate 236 0) sequence result channel chunkIndex
  let raw := putMagnitudes raw source chunkIndex
  let raw := putPreview raw source chunkIndex
  putU16 raw 234 (crc16CcittFalse (raw.toList.take 234))

/-! ## The reader -/

/-- `spectrum_chunk_t`. -/
structure SpectrumChunk where
  sequence : UInt16
  timestampUs : UInt32
  status : UInt32
  channel : UInt8
  chunkIndex : UInt8
  chunkCount : UInt8
  sampleRateHz : UInt32
  binStart : UInt16
  binCount : UInt16
  rmsQ15 : UInt16
  peakQ15 : UInt16
  dominantMillihz : UInt32
  processingUs : UInt32
  droppedBlocks : UInt32
  magnitudeU8 : Vector UInt8 128
  previewQ15 : Vector Int16 32
  deriving DecidableEq

/-- `raw_result_t`, with the chunk that a good body is decoded into. -/
inductive RawResult where
  | ok (chunk : SpectrumChunk)
  | badCrc
  | badFormat
  deriving DecidableEq

/-- The header checks of `decode_body`, after length and CRC. -/
def headerValid (body : Vector UInt8 236) : Prop :=
  ¬ (body[0] ≠ telemetryProtocolVersion ∨ body[1] ≠ telemetryTypeSpectrum ∨
    getU16 body 2 ≠ telemetrySpectrumPayloadLen ∨ body[14] ≥ 2 ∨
    body[15] ≥ analyzerChunksPerChannel ∨ body[16] ≠ analyzerChunksPerChannel ∨ body[17] ≠ 0 ∨
    getU16 body 24 ≠ analyzerBinsPerChunk ∨
    getU16 body 22 ≠ body[15].toUInt16 * analyzerBinsPerChunk)

instance (body : Vector UInt8 236) : Decidable (headerValid body) :=
  inferInstanceAs (Decidable (¬ _))

/-- The field reads of `decode_body`. -/
def readChunk (body : Vector UInt8 236) : SpectrumChunk where
  sequence := getU16 body 4
  timestampUs := getU32 body 6
  status := getU32 body 10
  channel := body[14]
  chunkIndex := body[15]
  chunkCount := body[16]
  sampleRateHz := getU32 body 18
  binStart := getU16 body 22
  binCount := getU16 body 24
  rmsQ15 := getU16 body 26
  peakQ15 := getU16 body 28
  dominantMillihz := getU32 body 30
  processingUs := getU32 body 34
  droppedBlocks := getU32 body 38
  magnitudeU8 := .ofFn fun i => body[42 + i.val]
  previewQ15 := .ofFn fun i => (getU16 body (170 + i.val * 2) (by omega)).toInt16

/-- `decode_body`. -/
def decodeBody (body : Vector UInt8 236) (length : ℕ) : RawResult :=
  if length ≠ 236 then .badFormat
  else if crc16CcittFalse (body.toList.take 234) ≠ getU16 body 234 then .badCrc
  else if headerValid body then .ok (readChunk body)
  else .badFormat

/-- The CRC check of `decode_body`. -/
def crcMatches (body : Vector UInt8 236) : Prop :=
  crc16CcittFalse (body.toList.take 234) = getU16 body 234

theorem decodeBody_eq_badCrc_iff (body : Vector UInt8 236) :
    decodeBody body 236 = .badCrc ↔ ¬ crcMatches body := by
  simp only [decodeBody, crcMatches]
  split
  · next h => exact absurd rfl h
  · split
    · next h => exact iff_of_true rfl h
    · next h =>
        refine iff_of_false ?_ h
        split <;> exact nofun

end SpectrumAnalyzer
