import SpectrumAnalyzer.Lib.Rounding
import SpectrumAnalyzer.Types

/-!
# The portable spectrum backend

`core/spectrum.c`, over an ordered field that stands for `float` and `double`: sums,
products, quotients and comparisons are exact, `lroundf` is `lround`, and the other
functions of `math.h` are parameters.  Null pointers do not arise in the model, and an array
access behind the end, which the source never makes, has no effect.

Both backends search the peak and interpolate around it with the same code, apart from the
type of the magnitudes and the smallest denominator; it is stated once, with these as
arguments.

## Main definitions

* `bitReverse`, `fftInPlace` — the transform.
* `largestBin`, `interpolatedBin` — the peak, and its position between the bins.
* `Portable.spectrumAnalyzeQ15` — the analysis of a block.
-/

namespace SpectrumAnalyzer

/-- The functions of `math.h` that the analysis calls, and `PI_F`. -/
structure Libm (K : Type*) where
  pi : K
  cosf : K → K
  sinf : K → K
  sqrtf : K → K
  hypotf : K → K → K
  isfinite : K → Bool

/-- The arrays `real` and `imag` that the transform works on. -/
structure ComplexArrays (α : Type*) where
  real : Vector α 1024
  imag : Vector α 1024

@[simp] theorem cast_analyzerFftSize {K : Type*} [Field K] : (analyzerFftSize : K) = 1024 :=
  Nat.cast_ofNat

theorem thousand {K : Type*} [Field K] [CharZero K] : (1000.0 : K) = 1000 := by norm_num

theorem fullScale {K : Type*} [Field K] [CharZero K] : (32768.0 : K) = 32768 := by norm_num

/-! ## The permutation -/

/-- The `while` loop of `bit_reverse` and the assignment behind it: the next value of `j`. -/
def reversedCounter (j bit : ℕ) : ℕ :=
  if j &&& bit ≠ 0 then reversedCounter (j ^^^ bit) (bit >>> 1) else j ^^^ bit
termination_by bit
decreasing_by
  rename_i h
  have hbit : bit ≠ 0 := by
    rintro rfl
    exact h (Nat.and_zero j)
  rw [Nat.shiftRight_one]
  omega

/-- What the loop of `bit_reverse` changes. -/
structure Reversal (α : Type*) where
  j : ℕ
  arrays : ComplexArrays α

section Reverse
variable {α : Type*}

/-- One turn of the loop of `bit_reverse`. -/
def bitReverseStep (s : Reversal α) (i : ℕ) : Reversal α :=
  let j := reversedCounter s.j (1024 >>> 1)
  if i < j then ⟨j, s.arrays.real.swapIfInBounds i j, s.arrays.imag.swapIfInBounds i j⟩
  else { s with j := j }

/-- `bit_reverse`: `i` runs from 1 to 1023.  The precision report has the same loop, over
lists of integers. -/
def bitReverse (arrays : ComplexArrays α) : ComplexArrays α :=
  ((List.range' 1 1023).foldl bitReverseStep ⟨0, arrays⟩).arrays

end Reverse

/-! ## The transform -/

section Transform
variable {K : Type*} [Field K]

/-- The two assignments to `real` and the two to `imag` of the innermost loop. -/
def butterfly (wr wi : K) (even odd : ℕ) (a : ComplexArrays K) : ComplexArrays K :=
  let tr := wr * a.real.getD odd 0 - wi * a.imag.getD odd 0
  let ti := wr * a.imag.getD odd 0 + wi * a.real.getD odd 0
  let real := a.real.setIfInBounds odd (a.real.getD even 0 - tr)
  let imag := a.imag.setIfInBounds odd (a.imag.getD even 0 - ti)
  { real := real.setIfInBounds even (real.getD even 0 + tr)
    imag := imag.setIfInBounds even (imag.getD even 0 + ti) }

/-- What the loop over the offsets changes. -/
structure Twiddled (K : Type*) where
  arrays : ComplexArrays K
  wr : K
  wi : K

/-- One turn of the loop over the offsets. -/
def offsetStep (stepR stepI : K) (half base : ℕ) (s : Twiddled K) (offset : ℕ) : Twiddled K where
  arrays := butterfly s.wr s.wi (base + offset) (base + offset + half) s.arrays
  wr := s.wr * stepR - s.wi * stepI
  wi := s.wr * stepI + s.wi * stepR

/-- One turn of the loop over the bases. -/
def baseStep (stepR stepI : K) (half : ℕ) (a : ComplexArrays K) (base : ℕ) : ComplexArrays K :=
  ((List.range half).foldl (offsetStep stepR stepI half base) ⟨a, 1, 0⟩).arrays

variable (libm : Libm K)

/-- One turn of the loop over the lengths: `base` takes the multiples of `length` below
1024. -/
def lengthStep (a : ComplexArrays K) (length : ℕ) : ComplexArrays K :=
  let angle := -2.0 * libm.pi / length
  (List.range' 0 (1024 / length) length).foldl
    (baseStep (libm.cosf angle) (libm.sinf angle) (length >>> 1)) a

/-- `fft_in_place`: `length` takes the powers of two from 2 to 1024. -/
def fftInPlace (a : ComplexArrays K) : ComplexArrays K :=
  ((List.range 10).map (2 <<< ·)).foldl (lengthStep libm) (bitReverse a)

end Transform

/-! ## The peak -/

/-- The variables of the search for the largest bin. -/
structure PeakSearch (α : Type*) where
  largest : α
  largestBin : ℕ

section Search
variable {α : Type*} [Zero α] [LT α] [DecidableLT α]

/-- One turn of the search. -/
def PeakSearch.next (magnitudes : Vector α 512) (s : PeakSearch α) (bin : Fin 512) : PeakSearch α :=
  if 0 < bin.val ∧ magnitudes.get bin > s.largest then ⟨magnitudes.get bin, bin⟩ else s

/-- `largest_bin` after the loop over the bins. -/
def largestBin (magnitudes : Vector α 512) : ℕ :=
  ((List.finRange 512).foldl (PeakSearch.next magnitudes) ⟨0, 1⟩).largestBin

end Search

section Interpolate
variable {K : Type*} [Field K] [LinearOrder K]

/-- `delta`, which is zero when the denominator is too small. -/
def interpolationDelta (epsilon left center right : K) : K :=
  let denominator := left - 2.0 * center + right
  if |denominator| > epsilon then
    let delta := 0.5 * (left - right) / denominator
    let delta := if delta < -0.5 then -0.5 else delta
    if delta > 0.5 then 0.5 else delta
  else 0

/-- `interpolated_bin`. -/
def interpolatedBin (epsilon : K) (magnitudes : Vector K 512) (largestBin : ℕ) : K :=
  if h : 0 < largestBin ∧ largestBin + 1 < 512 then
    largestBin + interpolationDelta epsilon (magnitudes[largestBin - 1]) (magnitudes[largestBin])
      (magnitudes[largestBin + 1])
  else largestBin

end Interpolate

/-! ## The analysis -/

namespace Portable

/-- `spectrum_workspace_t`. -/
structure SpectrumWorkspace (K : Type*) where
  real : Vector K 1024
  imag : Vector K 1024
  window : Vector K 1024
  initialized : Bool

section Window
variable {K : Type*} [Field K] (libm : Libm K)

/-- `spectrum_workspace_init`. -/
def spectrumWorkspaceInit : SpectrumWorkspace K where
  real := .replicate 1024 0
  imag := .replicate 1024 0
  window := .ofFn fun i => 0.5 - 0.5 * libm.cosf (2.0 * libm.pi * i.val / (analyzerFftSize - 1 : ℕ))
  initialized := true

end Window

section Analyze
variable {K : Type*} [Field K] [LinearOrder K]

/-- What the loop over the samples measures. -/
structure Levels (K : Type*) where
  squareSum : K
  peak : K

/-- One turn of the loop over the samples. -/
def Levels.add (levels : Levels K) (normalized : K) : Levels K where
  peak := if |normalized| > levels.peak then |normalized| else levels.peak
  squareSum := levels.squareSum + normalized * normalized

/-- The amplitude of a bin, from the absolute value of the transform there. -/
def amplitude (bin : ℕ) (raw : K) : K :=
  if bin = 0 then raw * 2.0 / analyzerFftSize else raw * 4.0 / analyzerFftSize

/-- `magnitudes`. -/
def amplitudes (raw : Vector K 512) : Vector K 512 :=
  .ofFn fun bin => amplitude bin.val (raw.get bin)

/-- `frequency_hz`. -/
def frequencyHz (raw : Vector K 512) (sampleRateHz : UInt32) : K :=
  interpolatedBin 1e-12 (amplitudes raw) (largestBin (amplitudes raw)) * sampleRateHz.toNat /
    analyzerFftSize

variable [FloorRing K]

/-- `dominant_millihz`. -/
def dominantMillihz (raw : Vector K 512) (sampleRateHz : UInt32) : UInt32 :=
  UInt32.ofInt (lround (frequencyHz raw sampleRateHz * 1000.0))

variable (libm : Libm K)

/-- `clamp_q15`. -/
def clampQ15 (value : K) : UInt16 :=
  if ¬ libm.isfinite value ∨ value ≤ 0 then 0
  else if value ≥ 0.999969482421875 then 32767
  else UInt16.ofInt (lround (value * 32768.0))

/-- `spectrum_analyze_q15`: the value returned, the workspace and the result. -/
def spectrumAnalyzeQ15 (workspace : SpectrumWorkspace K) (samples : Vector Int16 1024)
    (sampleRateHz : UInt32) (result : ChannelSpectrum) :
    Bool × SpectrumWorkspace K × ChannelSpectrum :=
  if sampleRateHz = 0 then (false, workspace, result)
  else
    let workspace := if workspace.initialized then workspace else spectrumWorkspaceInit libm
    let normalized : Vector K 1024 := samples.map fun sample => (sample.toInt : K) / 32768.0
    let levels := normalized.toList.foldl Levels.add ⟨0, 0⟩
    let spectrum := fftInPlace libm
      ⟨.zipWith (· * ·) normalized workspace.window, .replicate 1024 0⟩
    let raw : Vector K 512 := .ofFn fun bin => libm.hypotf spectrum.real[bin] spectrum.imag[bin]
    (libm.isfinite (frequencyHz raw sampleRateHz),
      { workspace with
        real := spectrum.real
        imag := spectrum.imag },
      { magnitudeQ15 := (amplitudes raw).map (clampQ15 libm)
        previewQ15 := .replicate 128 0
        rmsQ15 := clampQ15 libm (libm.sqrtf (levels.squareSum / analyzerFftSize))
        peakQ15 := clampQ15 libm levels.peak
        clippedSamples := 0
        dominantMillihz := dominantMillihz raw sampleRateHz })

end Analyze

end Portable

end SpectrumAnalyzer
