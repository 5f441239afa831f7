import Mathlib.Data.Rat.Floor
import Mathlib.Tactic.Positivity
import Mathlib.Tactic.Ring
import SpectrumAnalyzer.Firmware.Quality
import SpectrumAnalyzer.Spectrum.Levels

/-!
# The dominant frequency

Both backends search the bins but the first for the largest magnitude, and move from there
by at most half a bin, as the parabola through the neighbours says.  Whatever the magnitudes
are, the frequency that `spectrum_analyze_q15` stores stays below half the sample rate, so
the Nyquist check of `spectrum_health_check` never fails on it.

## Main definitions

* `IsPeak` — the lowest bin with the largest magnitude.
* `IsNear` — a position that an interpolation may yield.
* `isPeak_largestBin`, `isNear_interpolatedBin` — the search and the interpolation.
* `IsDominant` — the rounded frequency of such a position.
* `Stored` — the frequencies that calls of `spectrum_analyze_q15` store.
* `dominant_below_nyquist` — both backends, and the check of the result.
-/

namespace SpectrumAnalyzer

/-! ## The search -/

section Search
variable {α : Type*} [Zero α] [LinearOrder α]

/-- The lowest bin with the largest magnitude, not counting the first. -/
structure IsPeak (magnitudes : Vector α 512) (bin : Fin 512) : Prop where
  pos : 0 < bin.val
  greatest : ∀ j : Fin 512, 0 < j.val → magnitudes.get j ≤ magnitudes.get bin
  lowest : ∀ j : Fin 512, 0 < j.val → j < bin → magnitudes.get j < magnitudes.get bin

/-- What the search knows after some bins, in ascending order. -/
structure PeakSearch.Sound (magnitudes : Vector α 512) (bins : List (Fin 512))
    (s : PeakSearch α) : Prop where
  bound : ∀ j ∈ bins, 0 < j.val → magnitudes.get j ≤ s.largest
  found : s = ⟨0, 1⟩ ∨ ∃ bin ∈ bins, 0 < bin.val ∧ s = ⟨magnitudes.get bin, bin⟩ ∧
    ∀ j ∈ bins, 0 < j.val → j < bin → magnitudes.get j < magnitudes.get bin

variable {magnitudes : Vector α 512}

/-- **One turn** of the search. -/
theorem PeakSearch.Sound.next {bins : List (Fin 512)} {s : PeakSearch α}
    (h : s.Sound magnitudes bins) {bin : Fin 512} (hbin : ∀ j ∈ bins, j < bin) :
    (s.next magnitudes bin).Sound magnitudes (bins ++ [bin]) := by
  rw [PeakSearch.next]
  split
  · next hlarger =>
      constructor
      · intro j hj hpos
        rcases List.mem_append.mp hj with hj | hj
        · exact (h.bound j hj hpos).trans hlarger.2.le
        · rw [List.mem_singleton.mp hj]
      · refine .inr ⟨bin, by simp, hlarger.1, rfl, ?_⟩
        intro j hj hpos hlt
        rcases List.mem_append.mp hj with hj | hj
        · exact (h.bound j hj hpos).trans_lt hlarger.2
        · exact absurd (List.mem_singleton.mp hj) hlt.ne
  · next hsmaller =>
      constructor
      · intro j hj hpos
        rcases List.mem_append.mp hj with hj | hj
        · exact h.bound j hj hpos
        · rw [List.mem_singleton.mp hj] at hpos ⊢
          exact not_lt.mp fun hlt => hsmaller ⟨hpos, hlt⟩
      · refine h.found.imp_right ?_
        rintro ⟨p, hp, hpos, hs, hlowest⟩
        refine ⟨p, List.mem_append_left _ hp, hpos, hs, ?_⟩
        intro j hj hjpos hlt
        rcases List.mem_append.mp hj with hj | hj
        · exact hlowest j hj hjpos hlt
        · -- the new bin is above the peak
          rw [List.mem_singleton.mp hj] at hlt
          exact absurd (hbin p hp) hlt.not_gt

/-- **The whole search** finds the peak. -/
theorem isPeak_largestBin (h0 : ∀ j : Fin 512, 0 ≤ magnitudes.get j) :
    ∃ bin : Fin 512, largestBin magnitudes = bin ∧ IsPeak magnitudes bin := by
  have hsound : ∀ bins : List (Fin 512), bins.Pairwise (· < ·) →
      (bins.foldl (PeakSearch.next magnitudes) ⟨0, 1⟩).Sound magnitudes bins := by
    intro bins hbins
    induction bins using List.reverseRecOn with
    | nil => exact ⟨by simp, .inl rfl⟩
    | append_singleton bins bin ih =>
        rw [List.pairwise_append] at hbins
        rw [List.foldl_append]
        exact (ih hbins.1).next fun j hj => hbins.2.2 j hj bin (by simp)
  obtain ⟨hbound, hfound⟩ := hsound (List.finRange 512) (List.pairwise_lt_finRange 512)
  rw [largestBin]
  generalize (List.finRange 512).foldl (PeakSearch.next magnitudes) ⟨0, 1⟩ = s at hbound hfound ⊢
  rcases hfound with rfl | ⟨bin, -, hpos, rfl, hlowest⟩
  · -- all magnitudes are zero
    have hzero : ∀ j : Fin 512, 0 < j.val → magnitudes.get j = 0 :=
      fun j hj => le_antisymm (hbound j (List.mem_finRange j) hj) (h0 j)
    refine ⟨⟨1, by decide⟩, rfl, Nat.one_pos, ?_, ?_⟩
    · intro j hj
      rw [hzero j hj]
      exact h0 _
    · intro j hj hlt
      exact absurd hlt (Nat.not_lt.mpr hj)
  · refine ⟨bin, rfl, hpos, fun j hj => hbound j (List.mem_finRange j) hj, ?_⟩
    exact fun j hj hlt => hlowest j (List.mem_finRange j) hj hlt

omit [Zero α] in
/-- Strictly monotone maps keep the peak. -/
theorem IsPeak.map {β : Type*} [LinearOrder β] {f : α → β} (hf : StrictMono f) {bin : Fin 512}
    (h : IsPeak magnitudes bin) : IsPeak (magnitudes.map f) bin where
  pos := h.pos
  greatest j hj := by
    simpa [get_eq_getElem] using hf.monotone (h.greatest j hj)
  lowest j hj hlt := by
    simpa [get_eq_getElem] using hf (h.lowest j hj hlt)

end Search

/-! ## The interpolation -/

section Interpolation
variable {K : Type*} [Field K] [LinearOrder K] [IsStrictOrderedRing K]

/-- The interpolation moves by at most half a bin. -/
theorem abs_interpolationDelta_le (epsilon left center right : K) :
    |interpolationDelta epsilon left center right| ≤ 1 / 2 := by
  have hhalf : (0.5 : K) = 1 / 2 := by norm_num
  simp only [interpolationDelta, hhalf, abs_le]
  split
  · generalize 1 / 2 * (left - right) / (left - 2 * center + right) = delta
    split
    · split <;> constructor <;> linarith
    · split <;> constructor <;> linarith
  · constructor <;> norm_num

/-- Below a peak it moves toward the larger neighbour, or not at all. -/
theorem interpolationDelta_toward {epsilon left center right : K} (hleft : left ≤ center)
    (hright : right ≤ center) :
    (0 < interpolationDelta epsilon left center right → left < right) ∧
      (interpolationDelta epsilon left center right < 0 → right < left) := by
  have hhalf : (0.5 : K) = 1 / 2 := by norm_num
  have htwo : (2.0 : K) = 2 := by norm_num
  have hdenominator : left - 2 * center + right ≤ 0 := by linarith
  have hup : 0 < 1 / 2 * (left - right) / (left - 2 * center + right) → left < right := by
    intro h
    by_contra hle
    have hnumerator : 0 ≤ 1 / 2 * (left - right) := by linarith
    exact h.not_ge (div_nonpos_of_nonneg_of_nonpos hnumerator hdenominator)
  have hdown : 1 / 2 * (left - right) / (left - 2 * center + right) < 0 → right < left := by
    intro h
    by_contra hle
    have hnumerator : 1 / 2 * (left - right) ≤ 0 := by linarith
    exact h.not_ge (div_nonneg_of_nonpos hnumerator hdenominator)
  simp only [interpolationDelta, hhalf, htwo]
  split
  · generalize 1 / 2 * (left - right) / (left - 2 * center + right) = delta at hup hdown ⊢
    by_cases hlow : delta < -(1 / 2)
    · rw [if_pos hlow, if_neg (by linarith)]
      exact ⟨fun h => by linarith, fun _ => hdown (by linarith)⟩
    · rw [if_neg hlow]
      by_cases hhigh : delta > 1 / 2
      · rw [if_pos hhigh]
        exact ⟨fun _ => hup (by linarith), fun h => by linarith⟩
      · rw [if_neg hhigh]
        exact ⟨hup, hdown⟩
  · exact ⟨fun h => absurd h (lt_irrefl 0), fun h => absurd h (lt_irrefl 0)⟩

/-- A position that the interpolation may yield for a peak. -/
structure IsNear (magnitudes : Vector K 512) (bin : Fin 512) (position : K) : Prop where
  near : |position - bin.val| ≤ 1 / 2
  low : 1 / 2 ≤ position
  high : position ≤ 511
  toward : ∀ left right : Fin 512, left.val + 1 = bin.val → right.val = bin.val + 1 →
    magnitudes.get left ≤ magnitudes.get bin → magnitudes.get right ≤ magnitudes.get bin →
      (bin.val < position → magnitudes.get left < magnitudes.get right) ∧
        (position < bin.val → magnitudes.get right < magnitudes.get left)

/-- **The interpolation** around any bin but the first. -/
theorem isNear_interpolatedBin (epsilon : K) (magnitudes : Vector K 512) {bin : Fin 512}
    (hpos : 0 < bin.val) : IsNear magnitudes bin (interpolatedBin epsilon magnitudes bin) := by
  have hone : (1 : K) ≤ bin.val := by exact_mod_cast hpos
  have hlast : (bin.val : K) ≤ 511 := by exact_mod_cast Nat.le_of_lt_succ bin.isLt
  rw [interpolatedBin]
  split
  · next h =>
      have hdelta := abs_interpolationDelta_le epsilon magnitudes[bin.val - 1] magnitudes[bin.val]
        magnitudes[bin.val + 1]
      have hinner : (bin.val : K) ≤ 510 := by
        exact_mod_cast (show bin.val ≤ 510 by omega)
      obtain ⟨hlow, hhigh⟩ := abs_le.mp hdelta
      refine ⟨?_, by linarith, by linarith, ?_⟩
      · rwa [add_sub_cancel_left]
      · intro left right hleft hright hl hr
        have hbefore : left.val = bin.val - 1 := by omega
        simp only [get_eq_getElem, hbefore, hright] at hl hr ⊢
        rw [lt_add_iff_pos_right, add_lt_iff_neg_left]
        exact interpolationDelta_toward hl hr
  · next h =>
      refine ⟨?_, by linarith, hlast, ?_⟩
      · rw [sub_self, abs_zero]
        norm_num
      · intro left right hleft hright
        exact absurd ⟨hpos, by omega⟩ h

end Interpolation

/-! ## The frequency -/

section Frequency
variable {K : Type*} [Field K] [LinearOrder K] [IsStrictOrderedRing K] [FloorRing K]
  {sampleRateHz : UInt32}

/-- The frequency that belongs to the peak of the magnitudes, rounded to a millihertz. -/
structure IsDominant (epsilon : K) (magnitudes : Vector K 512)
    (sampleRateHz dominantMillihz : UInt32) (bin : Fin 512) : Prop where
  peak : IsPeak magnitudes bin
  near : IsNear magnitudes bin (interpolatedBin epsilon magnitudes bin)
  rounded : (dominantMillihz.toNat : ℤ) =
    lround (interpolatedBin epsilon magnitudes bin * sampleRateHz.toNat * 1000 / 1024)

section Bounds
variable (heven : sampleRateHz.toNat % 2 = 0)
include heven

/-- No position up to the last bin gives a frequency above half the sample rate. -/
theorem lround_frequency_le {position : K} (hlow : 0 ≤ position) (hhigh : position ≤ 511) :
    lround (position * sampleRateHz.toNat * 1000 / 1024) ≤
      ((sampleRateHz.toNat / 2 * 1000 : ℕ) : ℤ) := by
  refine lround_le (by positivity) ?_
  obtain ⟨n, hn⟩ : ∃ n, sampleRateHz.toNat = 2 * n := ⟨sampleRateHz.toNat / 2, by omega⟩
  have hproduct : position * n ≤ 511 * n := mul_le_mul_of_nonneg_right hhigh n.cast_nonneg
  have hn0 : (0 : K) ≤ n := n.cast_nonneg
  rw [hn, Nat.mul_div_cancel_left n Nat.two_pos, div_le_iff₀ (by norm_num)]
  push_cast
  linarith

variable (hrate : sampleRateHz.toNat ≤ 4000000)
include hrate

/-- What is stored for a peak. -/
theorem isDominant_ofInt {epsilon : K} {magnitudes : Vector K 512} {bin : Fin 512}
    (hpeak : IsPeak magnitudes bin) :
    IsDominant epsilon magnitudes sampleRateHz
      (UInt32.ofInt
        (lround (interpolatedBin epsilon magnitudes bin * sampleRateHz.toNat * 1000 / 1024)))
      bin where
  peak := hpeak
  near := isNear_interpolatedBin epsilon magnitudes hpeak.pos
  rounded := by
    have hnear := isNear_interpolatedBin epsilon magnitudes hpeak.pos
    have hlow : 0 ≤ interpolatedBin epsilon magnitudes bin := by linarith [hnear.low]
    have hround := lround_frequency_le heven hlow hnear.high
    have hround0 : 0 ≤ lround
        (interpolatedBin epsilon magnitudes bin * sampleRateHz.toNat * 1000 / 1024) :=
      lround_nonneg (by positivity)
    rw [UInt32.ofInt, UInt32.toNat_ofNat']
    omega

/-- It passes the Nyquist check. -/
theorem IsDominant.le_nyquist {epsilon : K} {magnitudes : Vector K 512} {bin : Fin 512}
    {dominantMillihz : UInt32}
    (h : IsDominant epsilon magnitudes sampleRateHz dominantMillihz bin) :
    dominantMillihz ≤ sampleRateHz / 2 * 1000 := by
  have hbound : (sampleRateHz / 2 * 1000).toNat = sampleRateHz.toNat / 2 * 1000 := by
    rw [UInt32.toNat_mul, UInt32.toNat_div]
    simp only [UInt32.reduceToNat]
    omega
  have hlow : 0 ≤ interpolatedBin epsilon magnitudes bin := by linarith [h.near.low]
  have hround := lround_frequency_le heven hlow h.near.high
  rw [← h.rounded] at hround
  rw [UInt32.le_iff_toNat_le, hbound]
  omega

/-- **The portable backend** finds the peak, and stores its frequency. -/
theorem Portable.isDominant {raw : Vector K 512} (hraw : ∀ i : Fin 512, 0 ≤ raw.get i) :
    ∃ bin : Fin 512, largestBin (amplitudes raw) = bin ∧
      IsDominant 1e-12 (amplitudes raw) sampleRateHz (dominantMillihz raw sampleRateHz) bin := by
  have hamplitudes : ∀ i : Fin 512, 0 ≤ (amplitudes raw).get i := by
    intro i
    have hi := hraw i
    simp only [amplitudes, get_eq_getElem, Vector.getElem_ofFn, amplitude] at hi ⊢
    split <;> positivity
  obtain ⟨bin, hbin, hpeak⟩ := isPeak_largestBin hamplitudes
  refine ⟨bin, hbin, ?_⟩
  have hfrequency : frequencyHz raw sampleRateHz * 1000.0 =
      interpolatedBin 1e-12 (amplitudes raw) bin * sampleRateHz.toNat * 1000 / 1024 := by
    rw [frequencyHz, hbin, cast_analyzerFftSize, thousand]
    ring
  rw [dominantMillihz, hfrequency]
  exact isDominant_ofInt heven hrate hpeak

/-- **The CMSIS backend** as well. -/
theorem Cmsis.isDominant (raw : Vector Int16 512) :
    ∃ bin : Fin 512, peakBin raw = bin ∧
      IsDominant (0.5 : K) (floatMagnitudes raw) sampleRateHz (dominantMillihz K raw sampleRateHz)
        bin := by
  have hzero : ∀ j : Fin 512, 0 ≤ ((magnitudes raw).map UInt16.toNat).get j :=
    fun _ => Nat.zero_le _
  obtain ⟨bin, hbin, hpeak⟩ := isPeak_largestBin hzero
  have hfloat : IsPeak (floatMagnitudes raw : Vector K 512) bin := by
    have hmap : (floatMagnitudes raw : Vector K 512) =
        ((magnitudes raw).map UInt16.toNat).map Nat.cast := by
      rw [Vector.map_map]
      rfl
    rw [hmap]
    exact hpeak.map Nat.strictMono_cast
  refine ⟨bin, hbin, ?_⟩
  rw [dominantMillihz, peakBin, hbin, cast_analyzerFftSize, thousand]
  exact isDominant_ofInt heven hrate hfloat

end Bounds

/-! ## The analyses -/

/-- The magnitudes of the transform that a workspace holds. -/
def Portable.rawBins (libm : Libm K) (workspace : SpectrumWorkspace K) : Vector K 512 :=
  .ofFn fun bin : Fin 512 => libm.hypotf (workspace.real.get (bin.castLE (by decide)))
    (workspace.imag.get (bin.castLE (by decide)))

/-- The magnitudes that CMSIS-DSP delivers for a block. -/
def Cmsis.rawBins (arm : ArmMath K) (samples windowQ15 : Vector Int16 1024) : Vector Int16 512 :=
  arm.armCmplxMagQ15 (arm.armRfftQ15 (arm.armMultQ15 samples windowQ15))

section Analyses
variable (hzero : sampleRateHz ≠ 0) (samples : Vector Int16 1024) (before : ChannelSpectrum)
include hzero

omit [IsStrictOrderedRing K] in
/-- What the portable backend stores of the transform it leaves in the workspace. -/
theorem Portable.stored (libm : Libm K) (workspace : SpectrumWorkspace K) :
    let analyzed := spectrumAnalyzeQ15 libm workspace samples sampleRateHz before
    let raw := rawBins libm analyzed.2.1
    analyzed.2.2.magnitudeQ15 = (amplitudes raw).map (clampQ15 libm) ∧
      analyzed.2.2.dominantMillihz = dominantMillihz raw sampleRateHz := by
  simp only [spectrumAnalyzeQ15, if_neg hzero, rawBins, get_eq_getElem, Fin.val_castLE,
    Fin.getElem_fin, and_self]

omit [IsStrictOrderedRing K] in
/-- What the CMSIS backend stores, with a workspace that is initialized or can be. -/
theorem Cmsis.stored (arm : ArmMath K) (libm : Libm K) {workspace : SpectrumWorkspace}
    (hready : workspace.initialized = true ∨ arm.armRfftInitQ15 = true) :
    let analyzed := spectrumAnalyzeQ15 arm libm workspace samples sampleRateHz before
    let raw := rawBins arm samples analyzed.2.1.windowQ15
    analyzed.1 = true ∧ analyzed.2.2.magnitudeQ15 = magnitudes raw ∧
      analyzed.2.2.dominantMillihz = dominantMillihz K raw sampleRateHz := by
  have hinitialized : (if workspace.initialized then workspace
      else spectrumWorkspaceInit arm).initialized = true := by
    split
    · assumption
    · next h => exact hready.resolve_left h
  simp only [spectrumAnalyzeQ15, if_neg hzero, hinitialized, not_true_eq_false, if_false]
  exact ⟨trivial, rfl, rfl⟩

end Analyses

section Calls
variable (heven : sampleRateHz.toNat % 2 = 0) (hrate : sampleRateHz.toNat ≤ 4000000)
  (hzero : sampleRateHz ≠ 0) (samples : Vector Int16 1024) (before : ChannelSpectrum)
include heven hrate hzero

/-- The frequency of a block that the portable backend analysed. -/
theorem Portable.isDominant_stored {libm : Libm K} (hhypot : ∀ x y, 0 ≤ libm.hypotf x y)
    (workspace : SpectrumWorkspace K) :
    let analyzed := spectrumAnalyzeQ15 libm workspace samples sampleRateHz before
    ∃ bin, IsDominant 1e-12 (amplitudes (rawBins libm analyzed.2.1)) sampleRateHz
      analyzed.2.2.dominantMillihz bin := by
  intro analyzed
  obtain ⟨-, hdominant⟩ := stored hzero samples before libm workspace
  have hraw : ∀ i : Fin 512, 0 ≤ (rawBins libm analyzed.2.1).get i := by
    simp [rawBins, get_eq_getElem, hhypot]
  obtain ⟨bin, -, h⟩ := isDominant heven hrate hraw
  exact ⟨bin, hdominant ▸ h⟩

/-- The frequency of a block that the CMSIS backend analysed. -/
theorem Cmsis.isDominant_stored {arm : ArmMath K} (libm : Libm K) {workspace : SpectrumWorkspace}
    (hready : workspace.initialized = true ∨ arm.armRfftInitQ15 = true) :
    let analyzed := spectrumAnalyzeQ15 arm libm workspace samples sampleRateHz before
    ∃ bin, IsDominant (0.5 : K) (floatMagnitudes (rawBins arm samples analyzed.2.1.windowQ15))
      sampleRateHz analyzed.2.2.dominantMillihz bin := by
  intro analyzed
  obtain ⟨-, -, hdominant⟩ := stored hzero samples before arm libm hready
  obtain ⟨bin, -, h⟩ := isDominant (K := K) heven hrate
    (rawBins arm samples analyzed.2.1.windowQ15)
  exact ⟨bin, hdominant ▸ h⟩

end Calls

omit [Field K] [LinearOrder K] [IsStrictOrderedRing K] [FloorRing K] in
/-- A frequency up to half the sample rate passes the check of the result. -/
theorem not_any_numericFault {result : SpectrumResult} (hzero : result.sampleRateHz ≠ 0)
    (h : ∀ c ∈ result.channel.toList, c.dominantMillihz ≤ result.sampleRateHz / 2 * 1000)
    (deadlineUs : UInt32) :
    ¬ Flags.Any statusNumericFault (spectrumHealthCheck result deadlineUs) := by
  have hdeadline : ¬ Flags.Any statusNumericFault statusDspDeadline := by decide
  have hvalid : ¬ Flags.Any statusNumericFault statusSignalValid := by decide
  have hweak : ¬ Flags.Any statusNumericFault statusSignalWeak := by decide
  have hclipping : ¬ Flags.Any statusNumericFault statusAdcClipping := by decide
  have hfrozen : ¬ Flags.Any statusNumericFault statusSignalFrozen := by decide
  rw [any_spectrumHealthCheck hzero]
  rintro (⟨-, hflag⟩ | ⟨c, hc, hraises⟩ | ⟨-, hflag⟩)
  · exact hdeadline hflag
  · rw [raises_iff] at hraises
    rcases hraises with ⟨hlt, -⟩ | ⟨-, hflag⟩ | ⟨-, hflag⟩ | ⟨-, hflag⟩
    · exact UInt32.not_lt.mpr (h c hc) hlt
    · exact hweak hflag
    · exact hclipping hflag
    · exact hfrozen hflag
  · exact hvalid hflag

end Frequency

section Stored
variable (K : Type*) [Field K] [LinearOrder K] [FloorRing K]

/-- The frequencies that calls of `spectrum_analyze_q15` store, in either backend. -/
inductive Stored (sampleRateHz : UInt32) : UInt32 → Prop
  | portable (libm : Libm K) (hhypot : ∀ x y, 0 ≤ libm.hypotf x y)
      (workspace : Portable.SpectrumWorkspace K) (samples : Vector Int16 1024)
      (before : ChannelSpectrum) :
      Stored sampleRateHz (Portable.spectrumAnalyzeQ15 libm workspace samples sampleRateHz
        before).2.2.dominantMillihz
  | cmsis (arm : ArmMath K) (libm : Libm K) (workspace : Cmsis.SpectrumWorkspace)
      (hready : workspace.initialized = true ∨ arm.armRfftInitQ15 = true)
      (samples : Vector Int16 1024) (before : ChannelSpectrum) :
      Stored sampleRateHz (Cmsis.spectrumAnalyzeQ15 arm libm workspace samples sampleRateHz
        before).2.2.dominantMillihz

variable {K}

theorem Stored.le_nyquist [IsStrictOrderedRing K] {sampleRateHz : UInt32}
    (heven : sampleRateHz.toNat % 2 = 0) (hrate : sampleRateHz.toNat ≤ 4000000)
    (hzero : sampleRateHz ≠ 0) {dominantMillihz : UInt32}
    (h : Stored K sampleRateHz dominantMillihz) : dominantMillihz ≤ sampleRateHz / 2 * 1000 := by
  cases h with
  | portable libm hhypot workspace samples before =>
      obtain ⟨bin, h⟩ :=
        Portable.isDominant_stored heven hrate hzero samples before hhypot workspace
      exact h.le_nyquist heven hrate
  | cmsis arm libm workspace hready samples before =>
      obtain ⟨bin, h⟩ := Cmsis.isDominant_stored heven hrate hzero samples before libm hready
      exact h.le_nyquist heven hrate

end Stored

/-- **The dominant frequency** is plausible at every even sample rate up to 4 MHz.  Whatever
magnitudes the transform delivers, both backends select the lowest of the largest bins, and
what `spectrum_analyze_q15` stores is the rounded frequency of a position near it; a result
whose channels they analysed has no numeric fault. -/
theorem dominant_below_nyquist {K : Type*} [Field K] [LinearOrder K] [IsStrictOrderedRing K]
    [FloorRing K] {sampleRateHz : UInt32} (heven : sampleRateHz.toNat % 2 = 0)
    (hlow : 2 ≤ sampleRateHz.toNat) (hhigh : sampleRateHz.toNat ≤ 4000000) :
    -- for any magnitudes
    (∀ raw : Vector K 512, (∀ i : Fin 512, 0 ≤ raw.get i) →
      ∃ bin : Fin 512, largestBin (Portable.amplitudes raw) = bin ∧
        IsDominant 1e-12 (Portable.amplitudes raw) sampleRateHz
          (Portable.dominantMillihz raw sampleRateHz) bin) ∧
      (∀ raw : Vector Int16 512, ∃ bin : Fin 512, Cmsis.peakBin raw = bin ∧
        IsDominant (0.5 : K) (Cmsis.floatMagnitudes raw) sampleRateHz
          (Cmsis.dominantMillihz K raw sampleRateHz) bin) ∧
      -- for any call
      (∀ (libm : Libm K) (workspace : Portable.SpectrumWorkspace K)
        (samples : Vector Int16 1024) (before : ChannelSpectrum),
        (∀ x y, 0 ≤ libm.hypotf x y) →
        let analyzed := Portable.spectrumAnalyzeQ15 libm workspace samples sampleRateHz before
        let amplitudes := Portable.amplitudes (Portable.rawBins libm analyzed.2.1)
        analyzed.2.2.magnitudeQ15 = amplitudes.map (Portable.clampQ15 libm) ∧
          ∃ bin, IsDominant 1e-12 amplitudes sampleRateHz analyzed.2.2.dominantMillihz bin) ∧
      (∀ (arm : ArmMath K) (libm : Libm K) (workspace : Cmsis.SpectrumWorkspace)
        (samples : Vector Int16 1024) (before : ChannelSpectrum),
        workspace.initialized = true ∨ arm.armRfftInitQ15 = true →
        let analyzed := Cmsis.spectrumAnalyzeQ15 arm libm workspace samples sampleRateHz before
        let raw := Cmsis.rawBins arm samples analyzed.2.1.windowQ15
        analyzed.1 = true ∧ analyzed.2.2.magnitudeQ15 = Cmsis.magnitudes raw ∧
          ∃ bin, IsDominant (0.5 : K) (Cmsis.floatMagnitudes raw) sampleRateHz
            analyzed.2.2.dominantMillihz bin) ∧
      -- for any result
      (∀ (result : SpectrumResult) (deadlineUs : UInt32), result.sampleRateHz = sampleRateHz →
        (∀ c ∈ result.channel.toList, Stored K sampleRateHz c.dominantMillihz ∨
          (∃ raw : Vector K 512, (∀ i : Fin 512, 0 ≤ raw.get i) ∧
            c.dominantMillihz = Portable.dominantMillihz raw sampleRateHz) ∨
          ∃ raw, c.dominantMillihz = Cmsis.dominantMillihz K raw sampleRateHz) →
        ¬ Flags.Any statusNumericFault (spectrumHealthCheck result deadlineUs)) := by
  have hzero : sampleRateHz ≠ 0 := by
    rintro rfl
    exact absurd hlow (by decide)
  refine ⟨?_, ?_, ?_, ?_, ?_⟩
  · intro raw hraw
    exact Portable.isDominant heven hhigh hraw
  · intro raw
    exact Cmsis.isDominant heven hhigh raw
  · intro libm workspace samples before hhypot analyzed amplitudes
    exact ⟨(Portable.stored hzero samples before libm workspace).1,
      Portable.isDominant_stored heven hhigh hzero samples before hhypot workspace⟩
  · intro arm libm workspace samples before hready analyzed raw
    obtain ⟨hdone, hmagnitudes, -⟩ := Cmsis.stored hzero samples before arm libm hready
    exact ⟨hdone, hmagnitudes,
      Cmsis.isDominant_stored heven hhigh hzero samples before libm hready⟩
  · intro result deadlineUs hrate hchannels
    refine not_any_numericFault (hrate ▸ hzero) ?_ deadlineUs
    intro c hc
    rw [hrate]
    rcases hchannels c hc with hstored | ⟨raw, hraw, hdominant⟩ | ⟨raw, hdominant⟩
    · exact hstored.le_nyquist heven hhigh hzero
    · obtain ⟨bin, -, h⟩ := Portable.isDominant heven hhigh hraw
      exact hdominant ▸ h.le_nyquist heven hhigh
    · obtain ⟨bin, -, h⟩ := Cmsis.isDominant (K := K) heven hhigh raw
      exact hdominant ▸ h.le_nyquist heven hhigh

/-- The square wave, analysed by both backends at the sample rate of the firmware. -/
theorem dominant_below_nyquist_squareWave :
    let portable := Portable.spectrumAnalyzeQ15 exactLibm
      (Portable.spectrumWorkspaceInit exactLibm) squareSamples 100000 .zero
    let cmsis := Cmsis.spectrumAnalyzeQ15 squareArm exactLibm
      (Cmsis.spectrumWorkspaceInit squareArm) squareSamples 100000 .zero
    (∃ bin, IsDominant 1e-12
      (Portable.amplitudes (Portable.rawBins exactLibm portable.2.1)) 100000
      portable.2.2.dominantMillihz bin) ∧
      (∃ bin, IsDominant (0.5 : ℝ) (Cmsis.floatMagnitudes
        (Cmsis.rawBins squareArm squareSamples cmsis.2.1.windowQ15)) 100000
        cmsis.2.2.dominantMillihz bin) ∧
      ¬ Flags.Any statusNumericFault (spectrumHealthCheck
        { SpectrumResult.zero with
          sampleRateHz := 100000
          channel := #v[portable.2.2, cmsis.2.2] } 9000) := by
  have hrate : (100000 : UInt32).toNat = 100000 := rfl
  have hhypot : ∀ x y, 0 ≤ exactLibm.hypotf x y := fun x y => Real.sqrt_nonneg _
  have heven : (100000 : UInt32).toNat % 2 = 0 := by rw [hrate]
  obtain ⟨-, -, hportable, hcmsis, hhealthy⟩ := dominant_below_nyquist (K := ℝ) heven
    (by rw [hrate]; norm_num) (by rw [hrate]; norm_num)
  intro portable cmsis
  refine ⟨(hportable _ _ _ _ hhypot).2, (hcmsis _ _ _ _ _ (.inr rfl)).2.2, ?_⟩
  refine hhealthy _ 9000 rfl ?_
  intro c hc
  have hpair : c ∈ [portable.2.2, cmsis.2.2] := hc
  rcases List.mem_pair.mp hpair with rfl | rfl
  · exact .inl (.portable exactLibm hhypot _ _ _)
  · exact .inl (.cmsis squareArm exactLibm _ (.inr rfl) _ _)

end SpectrumAnalyzer
