import Mathlib.Algebra.BigOperators.Field
import SpectrumAnalyzer.Spectrum.Levels

/-!
# What the portable analysis displays

The whole of `spectrum_analyze_q15` with exact arithmetic: the bins that it stores are the
rounded amplitudes of the discrete Fourier transform of the windowed samples.  `dsp_task`
hands the same workspace to every call; what earlier calls have left in it has no influence.

## Main definitions

* `hann`, `windowedDft`, `amplitudeQ15` — the spectrum of a block.
* `SpectrumWorkspace.Usable` — the window is in place, or will be put there.
* `magnitudes_eq_amplitudes` — the bins of a result.
-/

namespace SpectrumAnalyzer

open Complex

/-- The window over a block. -/
noncomputable def hann (n : ℕ) : ℝ :=
  Real.sin (Real.pi * n / (analyzerFftSize - 1 : ℕ)) ^ 2

/-- The discrete Fourier transform of the windowed samples. -/
noncomputable def windowedDft (samples : Vector Int16 1024) (k : ℕ) : ℂ :=
  ∑ n : Fin 1024, (((samples.get n).toInt * hann n : ℝ) : ℂ) * root 10 ^ (n.val * k)

/-- The amplitude of a bin: the window halves it, and only half of it has a positive
frequency unless the bin is the first. -/
noncomputable def amplitudeQ15 (samples : Vector Int16 1024) (bin : ℕ) : ℝ :=
  (if bin = 0 then 2 else 4 : ℕ) / (analyzerFftSize : ℕ) * ‖windowedDft samples bin‖

theorem amplitudeQ15_nonneg (samples : Vector Int16 1024) (bin : ℕ) :
    0 ≤ amplitudeQ15 samples bin := by
  exact mul_nonneg (by positivity) (norm_nonneg _)

namespace Portable

/-- The window is that of `spectrum_workspace_init` if the workspace says so. -/
def SpectrumWorkspace.Usable (workspace : SpectrumWorkspace ℝ) : Prop :=
  workspace.initialized = true → workspace.window = (spectrumWorkspaceInit exactLibm).window

/-- The window behind the first lines of the analysis. -/
theorem SpectrumWorkspace.Usable.window {workspace : SpectrumWorkspace ℝ} (h : workspace.Usable) :
    (if workspace.initialized then workspace else spectrumWorkspaceInit exactLibm).window =
      (spectrumWorkspaceInit exactLibm).window := by
  split
  · next hinit => exact h hinit
  · rfl

section Analysis
variable {workspace : SpectrumWorkspace ℝ} (hworkspace : workspace.Usable)
  (samples : Vector Int16 1024) (sampleRateHz : UInt32) (result : ChannelSpectrum)
include hworkspace

/-- A call leaves a usable workspace behind. -/
theorem usable_spectrumAnalyzeQ15 :
    (spectrumAnalyzeQ15 exactLibm workspace samples sampleRateHz result).2.1.Usable := by
  by_cases hrate : sampleRateHz = 0
  · simp only [spectrumAnalyzeQ15, if_pos hrate]
    exact hworkspace
  · simp only [spectrumAnalyzeQ15, if_neg hrate, SpectrumWorkspace.Usable]
    exact fun _ => hworkspace.window

end Analysis

/-- The coefficients of the window. -/
theorem get_window (n : Fin 1024) :
    (spectrumWorkspaceInit exactLibm).window.get n = hann n := by
  have hlast : ((analyzerFftSize - 1 : ℕ) : ℝ) = 1023 := by norm_num [analyzerFftSize]
  have hdouble : 2 * Real.pi * (n.val : ℝ) / 1023 = 2 * (Real.pi * n / 1023) := by ring
  rw [spectrumWorkspaceInit, get_eq_getElem, Vector.getElem_ofFn, hlast, hann, hlast,
    Real.sin_sq_eq_half_sub, ← hdouble]
  simp only [exactLibm]
  norm_num
  ring

/-- The arrays behind the transform. -/
noncomputable def transformed (samples : Vector Int16 1024) : ComplexArrays ℝ :=
  fftInPlace exactLibm
    ⟨.zipWith (· * ·) (samples.map fun sample => (sample.toInt : ℝ) / 32768.0)
      (spectrumWorkspaceInit exactLibm).window, .replicate 1024 0⟩

theorem transformed_eq (samples : Vector Int16 1024) (k : Fin 1024) :
    (⟨(transformed samples).real.get k, (transformed samples).imag.get k⟩ : ℂ) =
      windowedDft samples k / 32768 := by
  have hpoint : ∀ (b : ComplexArrays ℝ) (i : Fin 1024),
      (⟨b.real.get i, b.imag.get i⟩ : ℂ) = b.value i := by
    intro b i
    simp [ComplexArrays.value, getD_eq_getElem?, get_eq_getElem]
  rw [hpoint, transformed, value_fftInPlace, Radix2.transform_eq_dft root_sq root_half
    (fun _ hq => value_bitReverse _ hq) k.isLt, Radix2.dft, Finset.sum_range, windowedDft,
    Finset.sum_div]
  refine Finset.sum_congr rfl ?_
  intro n _
  rw [← hpoint]
  have hreal : (Vector.zipWith (· * ·) (samples.map fun sample => (sample.toInt : ℝ) / 32768.0)
      (spectrumWorkspaceInit exactLibm).window).get n =
      (samples.get n).toInt * hann n / 32768 := by
    have hcoefficient := get_window n
    rw [get_eq_getElem] at hcoefficient
    rw [get_eq_getElem, Vector.getElem_zipWith, Vector.getElem_map, hcoefficient, fullScale]
    simp only [get_eq_getElem]
    ring
  have himag : (Vector.replicate 1024 (0 : ℝ)).get n = 0 := by
    rw [get_eq_getElem, Vector.getElem_replicate]
  rw [hreal, himag]
  have hvalue : (⟨(samples.get n).toInt * hann n / 32768, 0⟩ : ℂ) =
      (((samples.get n).toInt * hann n : ℝ) : ℂ) / 32768 := by
    apply Complex.ext
    · simp
    · simp
  rw [hvalue]
  ring

/-- The amplitude of a bin of the transform. -/
theorem amplitude_transformed (samples : Vector Int16 1024) (k : Fin 1024) :
    amplitude k.val (exactLibm.hypotf ((transformed samples).real.get k)
      ((transformed samples).imag.get k)) = amplitudeQ15 samples k / 32768 := by
  have hnorm := congrArg norm (transformed_eq samples k)
  have hscale : ‖(32768 : ℂ)‖ = 32768 := by norm_num
  rw [norm_div, hscale, Complex.norm_def, Complex.normSq_mk, ← sq, ← sq] at hnorm
  have hlength : exactLibm.hypotf ((transformed samples).real.get k)
      ((transformed samples).imag.get k) = ‖windowedDft samples k‖ / 32768 := hnorm
  rw [hlength, amplitude, amplitudeQ15, cast_analyzerFftSize]
  split
  · norm_num
    ring
  · norm_num
    ring

/-- One bin of a result. -/
theorem magnitudes_bin {workspace : SpectrumWorkspace ℝ} (hworkspace : workspace.Usable)
    (samples : Vector Int16 1024) {sampleRateHz : UInt32} (hrate : sampleRateHz ≠ 0)
    (result : ChannelSpectrum) (bin : Fin 512) :
    (((spectrumAnalyzeQ15 exactLibm workspace samples sampleRateHz result).2.2.magnitudeQ15.get
      bin).toNat : ℤ) = min 32767 (lround (amplitudeQ15 samples bin)) := by
  have hmagnitudes : (spectrumAnalyzeQ15 exactLibm workspace samples sampleRateHz
      result).2.2.magnitudeQ15 = (amplitudes (.ofFn fun bin : Fin 512 => exactLibm.hypotf
        (transformed samples).real[bin.val] (transformed samples).imag[bin.val])).map
          (clampQ15 exactLibm) := by
    simp only [spectrumAnalyzeQ15, if_neg hrate, hworkspace.window, transformed]
    rfl
  have hk : bin.val < 1024 := by omega
  have hamplitude := amplitude_transformed samples ⟨bin.val, hk⟩
  rw [hmagnitudes, ← toNat_clampQ15 (amplitudeQ15_nonneg samples bin), ← hamplitude]
  simp only [get_eq_getElem, amplitudes, Vector.getElem_map, Vector.getElem_ofFn]

/-- A run of calls on one workspace. -/
noncomputable def analyses (workspace : SpectrumWorkspace ℝ) (sampleRateHz : UInt32) :
    List (Vector Int16 1024) → List ChannelSpectrum
  | [] => []
  | samples :: rest =>
      let analyzed := spectrumAnalyzeQ15 exactLibm workspace samples sampleRateHz .zero
      analyzed.2.2 :: analyses analyzed.2.1 sampleRateHz rest

/-- **The bins of the results.**  In a run of calls on one workspace the bins of each result
are the amplitudes of the discrete Fourier transform of its own samples under the window,
rounded to the nearest and saturated, whatever the calls before have left behind. -/
theorem magnitudes_eq_amplitudes {workspace : SpectrumWorkspace ℝ} (hworkspace : workspace.Usable)
    {sampleRateHz : UInt32} (hrate : sampleRateHz ≠ 0) (blocks : List (Vector Int16 1024)) :
    List.Forall₂ (fun samples analyzed => ∀ bin : Fin 512,
      ((analyzed.magnitudeQ15.get bin).toNat : ℤ) =
        min 32767 (lround (amplitudeQ15 samples bin)))
      blocks (analyses workspace sampleRateHz blocks) := by
  induction blocks generalizing workspace with
  | nil => exact .nil
  | cons samples rest ih =>
      exact .cons (magnitudes_bin hworkspace samples hrate .zero)
        (ih (usable_spectrumAnalyzeQ15 hworkspace samples sampleRateHz .zero))

/-- Silence and a square wave, on a workspace that is not initialized yet. -/
theorem magnitudes_eq_amplitudes_squareWave :
    List.Forall₂ (fun samples analyzed => ∀ bin : Fin 512,
      ((analyzed.magnitudeQ15.get bin).toNat : ℤ) =
        min 32767 (lround (amplitudeQ15 samples bin)))
      [.replicate 1024 0, squareSamples] (analyses
        { spectrumWorkspaceInit exactLibm with initialized := false, window := .replicate 1024 0 }
        100000 [.replicate 1024 0, squareSamples]) :=
  magnitudes_eq_amplitudes (by simp [SpectrumWorkspace.Usable]) (by decide) _

end Portable

end SpectrumAnalyzer
