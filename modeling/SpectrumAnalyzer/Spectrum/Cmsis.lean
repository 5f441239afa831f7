import SpectrumAnalyzer.Spectrum.Portable

/-!
# The CMSIS spectrum backend

`spectrum_cmsis.c`, with the functions of CMSIS-DSP as parameters.  The levels and the
saturated magnitudes are integers of the widths of the source; from the interpolation on it
computes in `float`, which is again an ordered field with exact operations.

The static arrays of the file are overwritten before they are read, except for the window,
which every initialisation fills with the same values; it is kept with the workspace.

## Main definitions

* `ArmMath` — the functions of CMSIS-DSP.
* `Cmsis.spectrumAnalyzeQ15` — the analysis of a block.
-/

namespace SpectrumAnalyzer

/-- The functions of CMSIS-DSP that the backend calls, and `PI`.  `armRfftInitQ15` tells
whether the initialisation for 1024 points returns `ARM_MATH_SUCCESS`. -/
structure ArmMath (K : Type*) where
  pi : K
  armCosF32 : K → K
  armRfftInitQ15 : Bool
  armMultQ15 : Vector Int16 1024 → Vector Int16 1024 → Vector Int16 1024
  armRfftQ15 : Vector Int16 1024 → Vector Int16 2048
  armCmplxMagQ15 : Vector Int16 2048 → Vector Int16 512

namespace Cmsis

/-- `spectrum_workspace_t`, with `window_q15`. -/
structure SpectrumWorkspace where
  windowQ15 : Vector Int16 1024
  initialized : Bool

/-- What the loop over the samples measures. -/
structure Levels where
  squareSum : Int64
  peak : UInt16

/-- One turn of the loop over the samples. -/
def Levels.add (levels : Levels) (sample : Int16) : Levels :=
  let value := sample.toInt32
  let absolute := (if value < 0 then -value else value).toUInt32.toUInt16
  { peak := if absolute > levels.peak then absolute else levels.peak
    squareSum := levels.squareSum + value.toInt64 * value.toInt64 }

/-- The magnitude of a bin, corrected for the format and the window, and saturated. -/
def correctedMagnitude (magnitude : Int16) : UInt16 :=
  let corrected := magnitude.toUInt16.toUInt32 * 8
  if corrected > 32767 then 32767 else corrected.toUInt16

/-- `result->magnitude_q15`. -/
def magnitudes (raw : Vector Int16 512) : Vector UInt16 512 := raw.map correctedMagnitude

/-- `largest_bin`; the comparison is one of promoted integers. -/
def peakBin (raw : Vector Int16 512) : ℕ := largestBin ((magnitudes raw).map UInt16.toNat)

section Analyze
variable {K : Type*} [Field K] [LinearOrder K] [FloorRing K]

/-- The magnitudes as the interpolation reads them. -/
def floatMagnitudes (raw : Vector Int16 512) : Vector K 512 :=
  (magnitudes raw).map fun magnitude => (magnitude.toNat : K)

variable (K) in
/-- `dominant_millihz`. -/
def dominantMillihz (raw : Vector Int16 512) (sampleRateHz : UInt32) : UInt32 :=
  UInt32.ofInt (lround (interpolatedBin (0.5 : K) (floatMagnitudes raw) (peakBin raw) *
    sampleRateHz.toNat * 1000.0 / analyzerFftSize))

variable (arm : ArmMath K)

/-- `spectrum_workspace_init`. -/
def spectrumWorkspaceInit : SpectrumWorkspace where
  windowQ15 := .ofFn fun i => Int16.ofInt (lround
    ((0.5 - 0.5 * arm.armCosF32 (2.0 * arm.pi * i.val / (analyzerFftSize - 1 : ℕ))) * 32767.0))
  initialized := arm.armRfftInitQ15

/-- `spectrum_analyze_q15`: the value returned, the workspace and the result. -/
def spectrumAnalyzeQ15 (libm : Libm K) (workspace : SpectrumWorkspace)
    (samples : Vector Int16 1024) (sampleRateHz : UInt32) (result : ChannelSpectrum) :
    Bool × SpectrumWorkspace × ChannelSpectrum :=
  if sampleRateHz = 0 then (false, workspace, result)
  else
    let workspace := if workspace.initialized then workspace else spectrumWorkspaceInit arm
    if ¬ workspace.initialized then (false, workspace, result)
    else
      let levels := samples.toList.foldl Levels.add ⟨0, 0⟩
      let windowedQ15 := arm.armMultQ15 samples workspace.windowQ15
      let raw := arm.armCmplxMagQ15 (arm.armRfftQ15 windowedQ15)
      (true, workspace,
        { magnitudeQ15 := magnitudes raw
          previewQ15 := .replicate 128 0
          rmsQ15 := UInt16.ofInt (lround (libm.sqrtf
            ((levels.squareSum.toInt : K) / analyzerFftSize)))
          peakQ15 := if levels.peak > 32767 then 32767 else levels.peak
          clippedSamples := 0
          dominantMillihz := dominantMillihz K raw sampleRateHz })

end Analyze

end Cmsis

end SpectrumAnalyzer
