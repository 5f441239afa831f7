import SpectrumAnalyzer.Firmware.Health

/-!
# One block through the DSP task

What `dsp_task` computes from a block: `unpack_dual_adc` and the assembly of the result.
`unpack_dual_adc` reads the DMA words twice, once for the means and once for the samples,
and the two readings are separate arguments here.  The FFT is a parameter: what it
returns depends on the samples and the sample rate alone.

## Main definitions

* `unpackDualAdc` — samples and clipping of one channel.
* `analyzeBlock` — the result of a block, before the status word is completed.
-/

namespace SpectrumAnalyzer

def adcSampleRateHz : UInt32 := 100000
def dspDeadlineUs : UInt32 := 9000

/-- The conversion of one channel in a packed word. -/
def adcSample (channel : Fin 2) (packed : UInt32) : UInt16 :=
  if channel.val = 0 then (packed &&& 0x0FFF).toUInt16 else ((packed >>> 16) &&& 0x0FFF).toUInt16

/-- The sum that the first pass takes. -/
def adcSum (channel : Fin 2) (words : Vector UInt32 1024) : UInt32 :=
  words.toList.foldl (fun sum packed => sum + (adcSample channel packed).toUInt32) 0

/-- The clipped samples that the first pass counts. -/
def adcClipped (channel : Fin 2) (words : Vector UInt32 1024) : UInt16 :=
  words.toList.foldl (fun clipped packed =>
    if adcSample channel packed ≤ 4 ∨ adcSample channel packed ≥ 4091 then clipped + 1
    else clipped) 0

/-- The mean, rounded. -/
def adcMean (channel : Fin 2) (words : Vector UInt32 1024) : Int32 :=
  ((adcSum channel words + 1024 / 2) / 1024).toInt32

/-- One channel of `unpack_dual_adc`. -/
structure Unpacked where
  channelSamples : Vector Int16 1024
  clippedSamples : UInt16
  deriving DecidableEq

/-- `unpack_dual_adc`, from the words of its two passes. -/
def unpackDualAdc (first second : Vector UInt32 1024) (channel : Fin 2) : Unpacked where
  channelSamples := second.map fun packed =>
    (((adcSample channel packed).toUInt32.toInt32 - adcMean channel first) <<< 4).toInt16
  clippedSamples := adcClipped channel first

section Analyze
variable (spectrumAnalyzeQ15 : Vector Int16 1024 → UInt32 → Bool × ChannelSpectrum)

/-- One turn of the loop over the channels. -/
def analyzeChannel (unpacked : Unpacked) : Bool × ChannelSpectrum :=
  let analyzed := spectrumAnalyzeQ15 unpacked.channelSamples adcSampleRateHz
  (analyzed.1, { analyzed.2 with
    clippedSamples := unpacked.clippedSamples
    previewQ15 := .ofFn fun i : Fin 128 => unpacked.channelSamples[i.val * (1024 / 128)] })

/-- The result of a block, with processing time and overruns still zero. -/
def analyzeBlock (block : AdcDmaBlock) (first second : Vector UInt32 1024) : SpectrumResult :=
  let analyzed : Vector (Bool × ChannelSpectrum) 2 := .ofFn fun channel =>
    analyzeChannel spectrumAnalyzeQ15 (unpackDualAdc first second channel)
  { timestampUs := block.timestampUs
    generation := block.generation
    sampleRateHz := adcSampleRateHz
    processingUs := 0
    droppedBlocks := 0
    status := if analyzed.all Prod.fst then 0 else statusNumericFault
    channel := analyzed.map Prod.snd }

end Analyze

end SpectrumAnalyzer
