import Mathlib.Data.Nat.Notation

/-!
# Shared data types of the firmware

The records the acquisition, DSP and telemetry code pass to each other, with the fixed
array lengths and integer widths of the source.  A pointer into the DMA buffer is the
index of the word it points at.

## Main definitions

* `AdcDmaBlock` — the descriptor of one completed half-buffer.
* `ChannelSpectrum`, `SpectrumResult` — one analysed block.
* `statusAdcRunning` and the other status bits.
-/

namespace SpectrumAnalyzer

def analyzerFftSize : ℕ := 1024

theorem get_eq_getElem {α : Type*} {n : ℕ} (v : Vector α n) (i : Fin n) : v.get i = v[i.val] := rfl

/-- `adc_dma_block_t`: `packedSamples` is an index into the DMA words. -/
structure AdcDmaBlock where
  packedSamples : ℕ
  timestampUs : UInt32
  generation : UInt32
  frames : UInt16
  deriving DecidableEq, Repr

/-- `channel_spectrum_t`: 512 bins and 128 preview samples. -/
structure ChannelSpectrum where
  magnitudeQ15 : Vector UInt16 512
  previewQ15 : Vector Int16 128
  rmsQ15 : UInt16
  peakQ15 : UInt16
  clippedSamples : UInt16
  dominantMillihz : UInt32
  deriving DecidableEq

/-- `spectrum_result_t`: both channels of one block. -/
structure SpectrumResult where
  timestampUs : UInt32
  generation : UInt32
  sampleRateHz : UInt32
  processingUs : UInt32
  droppedBlocks : UInt32
  status : UInt32
  channel : Vector ChannelSpectrum 2
  deriving DecidableEq

/-- A channel as `memset` leaves it. -/
def ChannelSpectrum.zero : ChannelSpectrum :=
  ⟨.replicate 512 0, .replicate 128 0, 0, 0, 0, 0⟩

/-- A result as `memset` leaves it. -/
def SpectrumResult.zero : SpectrumResult := ⟨0, 0, 0, 0, 0, 0, .replicate 2 .zero⟩

/-! ## The status word -/

def statusAdcRunning : UInt32 := (1 : UInt32) <<< 0
def statusSignalValid : UInt32 := (1 : UInt32) <<< 1
def statusAdcOverrun : UInt32 := (1 : UInt32) <<< 2
def statusBlockGap : UInt32 := (1 : UInt32) <<< 3
def statusDspDeadline : UInt32 := (1 : UInt32) <<< 4
def statusUartBackpressure : UInt32 := (1 : UInt32) <<< 5
def statusNumericFault : UInt32 := (1 : UInt32) <<< 6
def statusWatchdogReset : UInt32 := (1 : UInt32) <<< 7
def statusFrameDropped : UInt32 := (1 : UInt32) <<< 8
def statusTestSignal : UInt32 := (1 : UInt32) <<< 9
def statusDmaStale : UInt32 := (1 : UInt32) <<< 10
def statusSignalWeak : UInt32 := (1 : UInt32) <<< 11
def statusAdcClipping : UInt32 := (1 : UInt32) <<< 12
def statusSignalFrozen : UInt32 := (1 : UInt32) <<< 13
def statusFaultInjected : UInt32 := (1 : UInt32) <<< 14

end SpectrumAnalyzer
