import SpectrumAnalyzer.Spectrum.Cmsis
import SpectrumAnalyzer.Spectrum.Transform

/-!
# The levels of a block

Both backends measure the same two numbers, the greatest absolute value and the square root
of the mean square.  Both saturate the first.  The second is saturated by the portable
backend only: the CMSIS backend reports 32768 for a block close enough to negative full
scale, where the portable one reports 32767.

## Main definitions

* `squares`, `greatest` — what the loop over the samples sums up and keeps.
* `LevelsAgree` — two results report the same levels, within 15 bits.
* `levelsAgree_iff` — the blocks of which this is true.
-/

namespace SpectrumAnalyzer

/-! ## What the loops measure -/

/-- The sum of the squares. -/
def squares (samples : List Int16) : ℤ := (samples.map fun sample => sample.toInt ^ 2).sum

/-- The greatest absolute value. -/
def greatest (samples : List Int16) : ℕ :=
  samples.foldl (fun peak sample => max peak sample.toInt.natAbs) 0

theorem squares_append_singleton (samples : List Int16) (sample : Int16) :
    squares (samples ++ [sample]) = squares samples + sample.toInt ^ 2 := by
  simp [squares]

theorem greatest_append_singleton (samples : List Int16) (sample : Int16) :
    greatest (samples ++ [sample]) = max (greatest samples) sample.toInt.natAbs := by
  simp [greatest]

theorem natAbs_toInt_le (sample : Int16) : sample.toInt.natAbs ≤ 32768 := by
  have hlow := sample.le_toInt
  have hhigh := sample.toInt_lt
  omega

theorem sq_toInt_le (sample : Int16) : sample.toInt ^ 2 ≤ 2 ^ 30 := by
  rw [← Int.natAbs_sq]
  have hsq := Nat.pow_le_pow_left (natAbs_toInt_le sample) 2
  exact_mod_cast hsq

theorem squares_nonneg (samples : List Int16) : 0 ≤ squares samples := by
  apply List.sum_nonneg
  intro x hx
  obtain ⟨sample, -, rfl⟩ := List.mem_map.mp hx
  exact sq_nonneg _

theorem squares_le (samples : List Int16) : squares samples ≤ 2 ^ 30 * samples.length := by
  induction samples using List.reverseRecOn with
  | nil => exact le_rfl
  | append_singleton samples sample ih =>
      have hsq := sq_toInt_le sample
      rw [squares_append_singleton, List.length_append, List.length_singleton]
      push_cast
      linarith

/-! ## The portable loop -/

/-- **The portable loop** divides everything by full scale. -/
theorem Portable.foldl_add (samples : List Int16) :
    ((samples.map fun sample => (sample.toInt : ℝ) / 32768).foldl Levels.add ⟨0, 0⟩) =
      ⟨squares samples / 32768 ^ 2, greatest samples / 32768⟩ := by
  induction samples using List.reverseRecOn with
  | nil => simp [squares, greatest]
  | append_singleton samples sample ih =>
      have habs : |(sample.toInt : ℝ) / 32768| = sample.toInt.natAbs / 32768 := by
        rw [abs_div, abs_of_pos (by norm_num : (0 : ℝ) < 32768), Nat.cast_natAbs, Int.cast_abs]
      have hlarger : (greatest samples : ℝ) / 32768 < sample.toInt.natAbs / 32768 ↔
          greatest samples < sample.toInt.natAbs := by
        rw [div_lt_div_iff_of_pos_right (by norm_num), Nat.cast_lt]
      rw [List.map_append, List.foldl_append, ih, squares_append_singleton,
        greatest_append_singleton]
      simp only [List.map_cons, List.map_nil, List.foldl_cons, List.foldl_nil, Levels.add, habs,
        gt_iff_lt, hlarger]
      congr 1
      · push_cast
        ring
      · split
        · next h => rw [max_eq_right h.le]
        · next h => rw [max_eq_left (not_lt.mp h)]

/-! ## The CMSIS loop -/

/-- The absolute value, in 16 bits without sign. -/
theorem Cmsis.toNat_absolute (sample : Int16) :
    (if sample.toInt32 < 0 then -sample.toInt32 else sample.toInt32).toUInt32.toUInt16.toNat =
      sample.toInt.natAbs := by
  have hlow := sample.le_toInt
  have hhigh := sample.toInt_lt
  have hword : ∀ value : Int32, 0 ≤ value.toInt → value.toInt ≤ 32768 →
      value.toUInt32.toUInt16.toNat = value.toInt.natAbs := by
    intro value h0 h1
    have hword : value.toUInt32.toNat = value.toInt.toNat :=
      Int32.toNat_toUInt32_of_le (Int32.le_iff_toInt_le.mpr h0)
    rw [UInt32.toNat_toUInt16, hword]
    omega
  split
  · next h =>
      rw [Int32.lt_iff_toInt_lt, Int16.toInt_toInt32, Int32.toInt_zero] at h
      have hneg : (-sample.toInt32).toInt = -sample.toInt := by
        rw [Int32.toInt_neg, Int16.toInt_toInt32]
        exact Int.bmod_eq_of_le (by omega) (by omega)
      rw [hword _ (by omega) (by omega), hneg, Int.natAbs_neg]
  · next h =>
      rw [Int32.lt_iff_toInt_lt, Int16.toInt_toInt32, Int32.toInt_zero] at h
      rw [hword _ (by rw [Int16.toInt_toInt32]; omega) (by rw [Int16.toInt_toInt32]; omega),
        Int16.toInt_toInt32]

/-- **The CMSIS loop** is exact: 64 bits hold the sum of far more squares. -/
theorem Cmsis.foldl_add {samples : List Int16} (h : samples.length ≤ 1024) :
    (samples.foldl Levels.add ⟨0, 0⟩).squareSum.toInt = squares samples ∧
      (samples.foldl Levels.add ⟨0, 0⟩).peak.toNat = greatest samples := by
  induction samples using List.reverseRecOn with
  | nil => exact ⟨rfl, rfl⟩
  | append_singleton samples sample ih =>
      rw [List.length_append, List.length_singleton] at h
      obtain ⟨hsum, hpeak⟩ := ih (by omega)
      rw [List.foldl_append, List.foldl_cons, List.foldl_nil]
      generalize samples.foldl Levels.add ⟨0, 0⟩ = levels at hsum hpeak ⊢
      have hsquare :
          (sample.toInt32.toInt64 * sample.toInt32.toInt64).toInt = sample.toInt ^ 2 := by
        have hsq := sq_toInt_le sample
        have hnonneg := sq_nonneg sample.toInt
        rw [Int64.toInt_mul, Int32.toInt_toInt64, Int16.toInt_toInt32, ← sq]
        exact Int.bmod_eq_of_le (by omega) (by omega)
      constructor
      · have hle := squares_le (samples ++ [sample])
        have hnonneg := squares_nonneg (samples ++ [sample])
        rw [List.length_append, List.length_singleton] at hle
        rw [Levels.add, Int64.toInt_add, hsum, hsquare, ← squares_append_singleton]
        exact Int.bmod_eq_of_le (by omega) (by omega)
      · rw [greatest_append_singleton, ← hpeak, ← toNat_absolute, Levels.add]
        dsimp only
        generalize (if sample.toInt32 < 0 then -sample.toInt32
          else sample.toInt32).toUInt32.toUInt16 = absolute
        split
        · next hlarger => rw [max_eq_right (UInt16.lt_iff_toNat_lt.mp hlarger).le]
        · next hsmaller =>
            rw [max_eq_left (not_lt.mp fun hlt => hsmaller (UInt16.lt_iff_toNat_lt.mpr hlt))]

/-! ## Saturation -/

theorem toNat_ofInt {x : ℤ} (h0 : 0 ≤ x) (h : x < 2 ^ 16) : ((UInt16.ofInt x).toNat : ℤ) = x := by
  rw [UInt16.ofInt, UInt16.toNat_ofNat']
  omega

/-- The portable backend saturates what it rounds. -/
theorem toNat_clampQ15 {level : ℝ} (h : 0 ≤ level) :
    ((Portable.clampQ15 exactLibm (level / 32768)).toNat : ℤ) = min 32767 (lround level) := by
  have hzero : level / 32768 ≤ 0 ↔ level ≤ 0 := by
    rw [div_le_iff₀ (by norm_num), zero_mul]
  have hfull : level / 32768 ≥ 0.999969482421875 ↔ 32767 ≤ level := by
    rw [ge_iff_le, le_div_iff₀ (by norm_num)]
    norm_num
  have hfinite : exactLibm.isfinite (level / 32768) = true := rfl
  simp only [Portable.clampQ15, hfinite, not_true_eq_false, false_or, hzero, hfull]
  split
  · next hle =>
      have hround : lround (0 : ℝ) = 0 := by exact_mod_cast lround_natCast (K := ℝ) 0
      rw [le_antisymm hle h, hround]
      rfl
  · split
    · next hge =>
        have hround : 32767 ≤ lround level := le_lround h (by exact_mod_cast hge)
        rw [min_eq_left hround]
        rfl
    · next hlt =>
        have hround : lround level ≤ 32767 := lround_le h (by exact_mod_cast (not_le.mp hlt).le)
        rw [fullScale, div_mul_cancel₀ level (by norm_num), min_eq_right hround]
        exact toNat_ofInt (lround_nonneg h) (by omega)

/-- The level that both backends report as `rms_q15`, before it is rounded. -/
noncomputable def rootMeanSquare (samples : Vector Int16 1024) : ℝ :=
  √(squares samples.toList / 1024)

theorem rootMeanSquare_nonneg (samples : Vector Int16 1024) : 0 ≤ rootMeanSquare samples :=
  Real.sqrt_nonneg _

theorem rootMeanSquare_le (samples : Vector Int16 1024) : rootMeanSquare samples ≤ 32768 := by
  have hle := squares_le samples.toList
  rw [Vector.length_toList] at hle
  have hcast : (squares samples.toList : ℝ) ≤ 2 ^ 30 * 1024 := by exact_mod_cast hle
  rw [rootMeanSquare, Real.sqrt_le_iff]
  constructor
  · norm_num
  · rw [div_le_iff₀ (by norm_num)]
    linarith

/-- **Fifteen bits** hold the rounded level below this sum of squares. -/
theorem lround_rootMeanSquare_le_iff (samples : Vector Int16 1024) :
    lround (rootMeanSquare samples) ≤ 32767 ↔
      4 * squares samples.toList < 1024 * 65535 ^ 2 := by
  have hhalf : ((32767 : ℤ) : ℝ) + 1 / 2 = 65535 / 2 := by norm_num
  rw [lround_le_iff (rootMeanSquare_nonneg samples), hhalf, rootMeanSquare,
    Real.sqrt_lt' (by norm_num), div_lt_iff₀ (by norm_num), ← Int.cast_lt (R := ℝ)]
  push_cast
  constructor
  · intro h
    linarith
  · intro h
    linarith

/-! ## The two results -/

section Results
variable {sampleRateHz : UInt32} (hrate : sampleRateHz ≠ 0) (samples : Vector Int16 1024)
  (result : ChannelSpectrum)
include hrate

/-- **The portable backend** saturates both levels. -/
theorem Portable.levels (workspace : SpectrumWorkspace ℝ) :
    let portable := (spectrumAnalyzeQ15 exactLibm workspace samples sampleRateHz result).2.2
    (portable.rmsQ15.toNat : ℤ) = min 32767 (lround (rootMeanSquare samples)) ∧
      portable.peakQ15.toNat = min 32767 (greatest samples.toList) := by
  have hrms : √((squares samples.toList : ℝ) / 32768 ^ 2 / 1024) =
      rootMeanSquare samples / 32768 := by
    rw [div_right_comm, Real.sqrt_div' _ (by norm_num), Real.sqrt_sq (by norm_num), rootMeanSquare]
  intro portable
  simp only [portable, spectrumAnalyzeQ15, if_neg hrate, Vector.toList_map, fullScale, foldl_add,
    cast_analyzerFftSize]
  constructor
  · have hround := toNat_clampQ15 (rootMeanSquare_nonneg samples)
    rwa [← hrms] at hround
  · have hnonneg : (0 : ℝ) ≤ greatest samples.toList := Nat.cast_nonneg _
    have hpeak := toNat_clampQ15 hnonneg
    rw [lround_natCast] at hpeak
    exact_mod_cast hpeak

/-- **The CMSIS backend** saturates the peak only. -/
theorem Cmsis.levels {arm : ArmMath ℝ} (hinit : arm.armRfftInitQ15 = true)
    (workspace : SpectrumWorkspace) :
    let cmsis := (spectrumAnalyzeQ15 arm exactLibm workspace samples sampleRateHz result).2.2
    (cmsis.rmsQ15.toNat : ℤ) = lround (rootMeanSquare samples) ∧
      cmsis.peakQ15.toNat = min 32767 (greatest samples.toList) := by
  have hready : (if workspace.initialized then workspace
      else spectrumWorkspaceInit arm).initialized = true := by
    split
    · assumption
    · exact hinit
  obtain ⟨hsum, hpeak⟩ := @foldl_add samples.toList (by rw [Vector.length_toList])
  intro cmsis
  simp only [cmsis, spectrumAnalyzeQ15, if_neg hrate, hready, not_true_eq_false, if_false, hsum,
    cast_analyzerFftSize]
  constructor
  · have hle : lround (rootMeanSquare samples) ≤ 32768 :=
      lround_le (rootMeanSquare_nonneg samples) (rootMeanSquare_le samples)
    exact toNat_ofInt (lround_nonneg (rootMeanSquare_nonneg samples)) (hle.trans_lt (by norm_num))
  · have hfull : (32767 : UInt16).toNat = 32767 := rfl
    rw [← hpeak]
    split
    · next h =>
        have hlt := UInt16.lt_iff_toNat_lt.mp h
        rw [hfull] at hlt ⊢
        exact (min_eq_left hlt.le).symm
    · next h =>
        have hle := UInt16.le_iff_toNat_le.mp (UInt16.not_lt.mp h)
        exact (min_eq_right hle).symm

end Results

/-- Two results report the same levels, and both within 15 bits. -/
structure LevelsAgree (portable cmsis : ChannelSpectrum) : Prop where
  rms : portable.rmsQ15 = cmsis.rmsQ15
  peak : portable.peakQ15 = cmsis.peakQ15
  rms_le : cmsis.rmsQ15 ≤ 32767
  peak_le : cmsis.peakQ15 ≤ 32767

/-- **The backends agree**, the conversion of the sum of squares to `float`, the division and
the square root read exactly, on the blocks whose mean square is below the square of 32767.5
and on no others: from there on the CMSIS backend needs a sixteenth bit. -/
theorem levelsAgree_iff {arm : ArmMath ℝ} (hinit : arm.armRfftInitQ15 = true)
    {sampleRateHz : UInt32} (hrate : sampleRateHz ≠ 0) (samples : Vector Int16 1024)
    (own : Portable.SpectrumWorkspace ℝ) (workspace : Cmsis.SpectrumWorkspace)
    (before before' : ChannelSpectrum) :
    LevelsAgree (Portable.spectrumAnalyzeQ15 exactLibm own samples sampleRateHz before).2.2
        (Cmsis.spectrumAnalyzeQ15 arm exactLibm workspace samples sampleRateHz before').2.2 ↔
      4 * squares samples.toList < 1024 * 65535 ^ 2 := by
  obtain ⟨hrms, hpeak⟩ := Portable.levels hrate samples before own
  obtain ⟨hrms', hpeak'⟩ := Cmsis.levels hrate samples before' hinit workspace
  rw [← lround_rootMeanSquare_le_iff, ← hrms']
  constructor
  · intro h
    exact_mod_cast UInt16.le_iff_toNat_le.mp h.rms_le
  · intro hle
    refine ⟨?_, ?_, ?_, ?_⟩
    · rw [← hrms', min_eq_right hle] at hrms
      exact UInt16.toNat_inj.mp (by exact_mod_cast hrms)
    · exact UInt16.toNat_inj.mp (hpeak.trans hpeak'.symm)
    · exact UInt16.le_iff_toNat_le.mpr (by exact_mod_cast hle)
    · exact UInt16.le_iff_toNat_le.mpr (hpeak'.le.trans (min_le_left _ _))

/-- A block at negative full scale: the CMSIS backend reports 32768. -/
theorem levels_differ_at_full_scale :
    ¬ ∃ (arm : ArmMath ℝ) (own : Portable.SpectrumWorkspace ℝ)
      (workspace : Cmsis.SpectrumWorkspace) (before : ChannelSpectrum),
      arm.armRfftInitQ15 = true ∧ LevelsAgree
        (Portable.spectrumAnalyzeQ15 exactLibm own (.replicate 1024 (-32768)) 100000 before).2.2
        (Cmsis.spectrumAnalyzeQ15 arm exactLibm workspace (.replicate 1024 (-32768)) 100000
          before).2.2 := by
  rintro ⟨arm, own, workspace, before, hinit, h⟩
  have hrate : (100000 : UInt32) ≠ 0 := by decide
  have hsquares : squares (Vector.replicate 1024 (-32768 : Int16)).toList = 1024 * 32768 ^ 2 := by
    rw [Vector.toList_replicate, squares, List.map_replicate, List.sum_replicate]
    rfl
  have hle : lround (rootMeanSquare (.replicate 1024 (-32768))) ≤ 32767 := by
    rw [← (Cmsis.levels hrate _ before hinit workspace).1]
    exact_mod_cast UInt16.le_iff_toNat_le.mp h.rms_le
  rw [lround_rootMeanSquare_le_iff, hsquares] at hle
  exact absurd hle (by norm_num)

/-- A square wave with eight samples to a period. -/
def squareSamples : Vector Int16 1024 := .ofFn fun i => if i.val % 8 < 4 then 8000 else -8000

/-- The bins of the square wave behind the window, in the format of CMSIS-DSP. -/
def squareBin (bin : ℕ) : Int16 :=
  if bin = 128 then 1306 else if bin = 127 ∨ bin = 129 then 653
  else if bin = 384 then 541 else if bin = 383 ∨ bin = 385 then 270 else 0

/-- CMSIS-DSP as it behaves on the square wave, its phase apart. -/
noncomputable def squareArm : ArmMath ℝ where
  pi := Real.pi
  armCosF32 := Real.cos
  armRfftInitQ15 := true
  armMultQ15 := Vector.zipWith fun x y => Int16.ofInt (x.toInt * y.toInt / 2 ^ 15)
  armRfftQ15 := fun _ => .ofFn fun i =>
    if i.val % 2 = 0 then squareBin (min (i.val / 2) (1024 - i.val / 2)) else 0
  armCmplxMagQ15 := fun spectrum => .ofFn fun bin => spectrum.getD (2 * bin.val) 0

/-- The square wave in both backends. -/
theorem levelsAgree_squareWave :
    LevelsAgree
      (Portable.spectrumAnalyzeQ15 exactLibm (Portable.spectrumWorkspaceInit exactLibm)
        squareSamples 100000 ChannelSpectrum.zero).2.2
      (Cmsis.spectrumAnalyzeQ15 squareArm exactLibm (Cmsis.spectrumWorkspaceInit squareArm)
        squareSamples 100000 ChannelSpectrum.zero).2.2 := by
  have hsquares : squares squareSamples.toList = 1024 * 8000 ^ 2 := by
    have hmap : squareSamples.toList.map (fun sample => sample.toInt ^ 2) =
        List.replicate 1024 (8000 ^ 2) := by
      rw [List.eq_replicate_iff]
      constructor
      · simp
      · simp only [squareSamples, Vector.toList_ofFn, List.map_ofFn, List.forall_mem_ofFn_iff]
        intro i
        rw [Function.comp_apply]
        split <;> rfl
    rw [squares, hmap, List.sum_replicate]
    rfl
  rw [levelsAgree_iff rfl (by decide), hsquares]
  norm_num

end SpectrumAnalyzer
