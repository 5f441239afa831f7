import SpectrumAnalyzer.Lib.Flags
import SpectrumAnalyzer.Types

/-!
# The health monitor

`health_monitor.c`: continuity of the acquired blocks, and plausibility of a result.
Null pointers do not arise in the model.

## Main definitions

* `AcquisitionHealth`, `acquisitionHealthCheck` — the monitor of the acquisition task.
* `spectrumHealthCheck` — the flags that a result earns by itself.
-/

namespace SpectrumAnalyzer

def signalMinRmsQ15 : UInt16 := 128
def signalClipQ15 : UInt16 := 32700
def signalMinSpanQ15 : Int32 := 32

/-- `acquisition_health_t`. -/
structure AcquisitionHealth where
  lastGeneration : UInt32
  lastTimestampUs : UInt32
  droppedBlocks : UInt32
  timingFaults : UInt32
  initialized : UInt8
  deriving DecidableEq, Repr

/-- `acquisition_health_init`. -/
def acquisitionHealthInit : AcquisitionHealth := ⟨0, 0, 0, 0, 0⟩

/-- The generation check, with the status so far. -/
def checkGeneration (monitor : AcquisitionHealth) (block : AdcDmaBlock) (status : UInt32) :
    UInt32 × AcquisitionHealth :=
  let generationDelta := block.generation - monitor.lastGeneration
  if generationDelta ≠ 1 then
    (status ||| statusBlockGap, { monitor with
      droppedBlocks := monitor.droppedBlocks +
        if generationDelta > 1 then generationDelta - 1 else 1 })
  else (status, monitor)

/-- The timing check, with the status so far. -/
def checkTiming (monitor : AcquisitionHealth) (block : AdcDmaBlock) (expectedPeriodUs : UInt32)
    (status : UInt32) : UInt32 × AcquisitionHealth :=
  let elapsed := block.timestampUs - monitor.lastTimestampUs
  let tolerance := expectedPeriodUs / 20 + 1
  if elapsed + tolerance < expectedPeriodUs ∨ elapsed > expectedPeriodUs + tolerance then
    (status ||| statusBlockGap, { monitor with timingFaults := monitor.timingFaults + 1 })
  else (status, monitor)

/-- `acquisition_health_check`. -/
def acquisitionHealthCheck (monitor : AcquisitionHealth) (block : AdcDmaBlock)
    (expectedPeriodUs : UInt32) : UInt32 × AcquisitionHealth :=
  if block.frames.toNat ≠ analyzerFftSize then (statusNumericFault, monitor)
  else
    let checked :=
      if monitor.initialized ≠ 0 then
        let (status, monitor) := checkGeneration monitor block statusAdcRunning
        checkTiming monitor block expectedPeriodUs status
      else (statusAdcRunning, monitor)
    (checked.1, { checked.2 with
      initialized := 1
      lastGeneration := block.generation
      lastTimestampUs := block.timestampUs })

/-- A failed check of a channel raises its flag, and the signal is not valid. -/
def failIf (fault : Prop) [Decidable fault] (flag : UInt32) (s : UInt32 × Bool) : UInt32 × Bool :=
  if fault then (s.1 ||| flag, false) else s

/-- The least of the preview samples. -/
def ChannelSpectrum.minimum (c : ChannelSpectrum) : Int16 :=
  (c.previewQ15.toList.drop 1).foldl (fun minimum sample =>
    if sample < minimum then sample else minimum) c.previewQ15[0]

/-- The greatest of the preview samples. -/
def ChannelSpectrum.maximum (c : ChannelSpectrum) : Int16 :=
  (c.previewQ15.toList.drop 1).foldl (fun maximum sample =>
    if sample > maximum then sample else maximum) c.previewQ15[0]

/-- One turn of the loop over the channels: the status and whether the signal is valid. -/
def checkChannel (sampleRateHz : UInt32) (s : UInt32 × Bool) (c : ChannelSpectrum) :
    UInt32 × Bool :=
  let s := failIf (c.dominantMillihz > sampleRateHz / 2 * 1000) statusNumericFault s
  let s := failIf (c.rmsQ15 < signalMinRmsQ15) statusSignalWeak s
  let s := failIf (c.clippedSamples ≠ 0 ∨ c.peakQ15 ≥ signalClipQ15) statusAdcClipping s
  failIf (c.maximum.toInt32 - c.minimum.toInt32 < signalMinSpanQ15) statusSignalFrozen s

/-- `spectrum_health_check`. -/
def spectrumHealthCheck (result : SpectrumResult) (deadlineUs : UInt32) : UInt32 :=
  if result.sampleRateHz = 0 then statusNumericFault
  else
    let late := if result.processingUs > deadlineUs then statusDspDeadline else 0
    let (status, signalValid) := result.channel.toList.foldl (checkChannel result.sampleRateHz)
      (late, true)
    if signalValid then status ||| statusSignalValid else status

/-! ## Continuity -/

theorem any_checkTiming {mask status : UInt32} (h : Flags.Any mask status)
    (monitor : AcquisitionHealth) (block : AdcDmaBlock) (expectedPeriodUs : UInt32) :
    Flags.Any mask (checkTiming monitor block expectedPeriodUs status).1 := by
  unfold checkTiming
  dsimp only
  split
  · exact h.or_left _
  · exact h

theorem any_checkGeneration {monitor : AcquisitionHealth} {block : AdcDmaBlock}
    (h : block.generation - monitor.lastGeneration ≠ 1) (status : UInt32) :
    Flags.Any statusBlockGap (checkGeneration monitor block status).1 := by
  have hgap : Flags.Any statusBlockGap statusBlockGap := by decide
  rw [checkGeneration, if_pos h]
  exact hgap.or_right _

section Continuity
variable (monitor : AcquisitionHealth) {block : AdcDmaBlock}

/-- The monitor remembers a block of the right size. -/
theorem acquisitionHealthCheck_remembers (hframes : block.frames.toNat = analyzerFftSize)
    (expectedPeriodUs : UInt32) :
    (acquisitionHealthCheck monitor block expectedPeriodUs).2.lastGeneration = block.generation ∧
      (acquisitionHealthCheck monitor block expectedPeriodUs).2.initialized = 1 := by
  rw [acquisitionHealthCheck]
  rw [if_neg (by simpa using hframes)]
  exact ⟨rfl, rfl⟩

/-- It flags a gap unless the generation is the next one. -/
theorem acquisitionHealthCheck_gap (hframes : block.frames.toNat = analyzerFftSize)
    (expectedPeriodUs : UInt32) (hinit : monitor.initialized ≠ 0)
    (hdelta : block.generation - monitor.lastGeneration ≠ 1) :
    Flags.Any statusBlockGap (acquisitionHealthCheck monitor block expectedPeriodUs).1 := by
  rw [acquisitionHealthCheck]
  rw [if_neg (by simpa using hframes)]
  dsimp only
  rw [if_pos hinit]
  exact any_checkTiming (any_checkGeneration hdelta _) _ _ _

end Continuity

end SpectrumAnalyzer
