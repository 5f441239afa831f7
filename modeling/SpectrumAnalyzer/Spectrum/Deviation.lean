import SpectrumAnalyzer.Spectrum.PrecisionReport

/-!
# What fixed-point arithmetic costs

The precision report compares the transform on 16-bit integers with that of numpy for a dozen
sine waves; here the difference is bounded for every block.  The transform that the integers
follow never leaves their range, so a saturation takes no value further from it.  Twiddle,
products and halving therefore add the same small error in each stage, and the errors from
before are averaged.

## Main definitions

* `Fits`, `point` — a pair of integers in the range, and as a complex number.
* `Tracks` — the error of a pair behind a stage.
* `carries_stageQ15` — a stage adds to it.
* `deviation_le` — the deviation of every bin, of the peak and of the level.
-/

namespace SpectrumAnalyzer.PrecisionReport

open Complex

/-! ## Integers -/

/-- The range of a `q15_t`. -/
def Fits (value : ℤ) : Prop := -32768 ≤ value ∧ value ≤ 32767

theorem abs_le_of_fits {value : ℤ} (h : Fits value) : |value| ≤ 32768 := by
  obtain ⟨hlow, hhigh⟩ := h
  exact abs_le.mpr ⟨hlow, by omega⟩

theorem fits_saturateQ15 (value : ℤ) : Fits (saturateQ15 value) := by
  rw [saturateQ15, Fits]
  omega

theorem saturateQ15_of_fits {value : ℤ} (h : Fits value) : saturateQ15 value = value := by
  obtain ⟨hlow, hhigh⟩ := h
  rw [saturateQ15]
  omega

/-- Saturation moves no value away from a number inside the range. -/
theorem abs_sub_saturateQ15_le {p : ℝ} (hp : |p| ≤ 32767) (value : ℤ) :
    |p - saturateQ15 value| ≤ |p - value| := by
  obtain ⟨hlow, hhigh⟩ := abs_le.mp hp
  rcases lt_or_ge value (-32768) with hbelow | hge
  · have hvalue : (value : ℝ) ≤ -32768 := by exact_mod_cast hbelow.le
    have hsat : saturateQ15 value = -32768 := by
      rw [saturateQ15]
      omega
    rw [hsat, Int.cast_neg, Int.cast_ofNat, abs_of_nonneg (by linarith),
      abs_of_nonneg (by linarith)]
    linarith
  · rcases lt_or_ge 32767 value with habove | hle
    · have hvalue : (32767 : ℝ) ≤ value := by exact_mod_cast habove.le
      have hsat : saturateQ15 value = 32767 := by
        rw [saturateQ15]
        omega
      rw [hsat, Int.cast_ofNat, abs_of_nonpos (by linarith), abs_of_nonpos (by linarith)]
      linarith
    · rw [saturateQ15_of_fits ⟨hge, hle⟩]

/-- What a halving drops. -/
theorem abs_half_sub_shiftRight_le (value : ℤ) :
    |(value : ℝ) / 2 - (value >>> (1 : ℕ) : ℤ)| ≤ 1 / 2 := by
  have hshift : value >>> (1 : ℕ) = value / 2 := by simp [Int.shiftRight_eq_div_pow]
  have hlow : ((2 * (value >>> (1 : ℕ)) : ℤ) : ℝ) ≤ value := Int.cast_le.mpr (by omega)
  have hhigh : (value : ℝ) ≤ (2 * (value >>> (1 : ℕ)) + 1 : ℤ) := Int.cast_le.mpr (by omega)
  push_cast at hlow hhigh
  rw [abs_le]
  constructor
  · linarith
  · linarith

section Multiply
variable {left right : ℤ} (h : |left * right| ≤ 32767 * 32768)
include h

/-- Products of this size are not saturated. -/
theorem multiplyQ15_eq : multiplyQ15 left right = (left * right) >>> (15 : ℕ) := by
  obtain ⟨hlow, hhigh⟩ := abs_le.mp h
  have hshift : (left * right) >>> (15 : ℕ) = left * right / 32768 := by
    simp [Int.shiftRight_eq_div_pow]
  exact saturateQ15_of_fits ⟨by omega, by omega⟩

/-- What a product drops. -/
theorem abs_mul_sub_multiplyQ15_le :
    |(left * right : ℝ) / 32768 - multiplyQ15 left right| ≤ 1 := by
  have hshift : (left * right) >>> (15 : ℕ) = left * right / 32768 := by
    simp [Int.shiftRight_eq_div_pow]
  have hlow : ((32768 * ((left * right) >>> (15 : ℕ)) : ℤ) : ℝ) ≤ (left * right : ℤ) :=
    Int.cast_le.mpr (by omega)
  have hhigh : ((left * right : ℤ) : ℝ) ≤ (32768 * ((left * right) >>> (15 : ℕ)) + 32768 : ℤ) :=
    Int.cast_le.mpr (by omega)
  push_cast at hlow hhigh
  rw [multiplyQ15_eq h, abs_le]
  constructor
  · linarith
  · linarith

end Multiply

theorem abs_mul_le_of_fits {left right : ℤ} (hleft : |left| ≤ 32767) (hright : |right| ≤ 32768) :
    |left * right| ≤ 32767 * 32768 := by
  rw [abs_mul]
  exact mul_le_mul hleft hright (abs_nonneg _) (by decide)

/-- Rounding stays within a bound that is an integer. -/
theorem abs_roundHalfEven_le {x : ℝ} {n : ℤ} (h : |x| ≤ n) : |roundHalfEven x| ≤ n := by
  have hround := abs_sub_roundHalfEven x
  have hcast : ((|roundHalfEven x| : ℤ) : ℝ) < (n + 1 : ℤ) := by
    have hsub : |(roundHalfEven x : ℝ)| ≤ |x| + |x - roundHalfEven x| := by
      rw [abs_sub_comm]
      simpa using abs_add_le x (roundHalfEven x - x)
    push_cast
    linarith
  exact Int.lt_add_one_iff.mp (Int.cast_lt.mp hcast)

/-! ## Points of the plane -/

/-- A pair of integers, as a complex number. -/
def point (x : ℤ × ℤ) : ℂ := ⟨x.1, x.2⟩

@[simp] theorem point_re (x : ℤ × ℤ) : (point x).re = x.1 := rfl

@[simp] theorem point_im (x : ℤ × ℤ) : (point x).im = x.2 := rfl

theorem point_add (x y : ℤ × ℤ) : point (x + y) = point x + point y := by
  apply Complex.ext
  · simp
  · simp

theorem point_neg (x : ℤ × ℤ) : point (-x) = -point x := by
  apply Complex.ext
  · simp
  · simp

theorem norm_le_of_parts {z : ℂ} {c : ℝ} (hre : |z.re| ≤ c) (him : |z.im| ≤ c) : ‖z‖ ≤ √2 * c :=
  (Complex.norm_le_sqrt_two_mul_max z).trans
    (mul_le_mul_of_nonneg_left (max_le hre him) (Real.sqrt_nonneg 2))

theorem norm_le_norm_of_parts {z w : ℂ} (hre : |z.re| ≤ |w.re|) (him : |z.im| ≤ |w.im|) :
    ‖z‖ ≤ ‖w‖ := by
  rw [Complex.norm_eq_sqrt_sq_add_sq, Complex.norm_eq_sqrt_sq_add_sq]
  exact Real.sqrt_le_sqrt (add_le_add (sq_le_sq.mpr hre) (sq_le_sq.mpr him))

theorem norm_point_le {y : ℤ × ℤ} (h₁ : Fits y.1) (h₂ : Fits y.2) : ‖point y‖ ≤ √2 * 32768 := by
  refine norm_le_of_parts ?_ ?_
  · rw [point_re]
    exact_mod_cast abs_le_of_fits h₁
  · rw [point_im]
    exact_mod_cast abs_le_of_fits h₂

/-- Half of a sum, as it is stored, against a number inside the range. -/
theorem norm_sub_halfQ15_le {p : ℂ} (hp : ‖p‖ ≤ 32767) (v : ℤ × ℤ) :
    ‖p - point (halfQ15 v)‖ ≤ ‖p - point v / 2‖ + √2 * (1 / 2) := by
  let u := (v.1 >>> (1 : ℕ), v.2 >>> (1 : ℕ))
  have hsaturate : ‖p - point (halfQ15 v)‖ ≤ ‖p - point u‖ := by
    refine norm_le_norm_of_parts ?_ ?_
    · exact abs_sub_saturateQ15_le ((abs_re_le_norm p).trans hp) _
    · exact abs_sub_saturateQ15_le ((abs_im_le_norm p).trans hp) _
  have hhalf : ‖point v / 2 - point u‖ ≤ √2 * (1 / 2) := by
    refine norm_le_of_parts ?_ ?_
    · simpa using abs_half_sub_shiftRight_le v.1
    · simpa using abs_half_sub_shiftRight_le v.2
  calc ‖p - point (halfQ15 v)‖
      ≤ ‖p - point u‖ := hsaturate
    _ = ‖(p - point v / 2) + (point v / 2 - point u)‖ := by rw [sub_add_sub_cancel]
    _ ≤ ‖p - point v / 2‖ + √2 * (1 / 2) := (norm_add_le _ _).trans (by linarith)

/-! ## The twiddles -/

theorem root_pow (s o : ℕ) :
    root s ^ o = ⟨Real.cos (-2.0 * Real.pi * o / (2 ^ s : ℕ)),
      Real.sin (-2.0 * Real.pi * o / (2 ^ s : ℕ))⟩ := by
  have htwo : (-2.0 : ℝ) = -2 := by norm_num
  have hangle : (o : ℂ) * (-2 * Real.pi * I / 2 ^ s) =
      ((-2.0 * Real.pi * o / (2 ^ s : ℕ) : ℝ) : ℂ) * I := by
    rw [htwo]
    push_cast
    ring
  rw [root, ← exp_nat_mul, hangle]
  apply Complex.ext
  · rw [exp_ofReal_mul_I_re]
  · rw [exp_ofReal_mul_I_im]

theorem norm_root_pow (s o : ℕ) : ‖root s ^ o‖ = 1 := by
  rw [root_pow, Complex.norm_def, normSq_mk, ← sq, ← sq, Real.cos_sq_add_sin_sq, Real.sqrt_one]

/-- What rounding does to a twiddle. -/
theorem norm_twiddleQ15_sub_le (s o : ℕ) :
    ‖32767 * root s ^ o - point (twiddleQ15 exactLibm (2 ^ s) o)‖ ≤ √2 * (1 / 2) := by
  have hscale : (32767.0 : ℝ) = 32767 := by norm_num
  rw [root_pow]
  refine norm_le_of_parts ?_ ?_
  · have hround := abs_sub_roundHalfEven
      (Real.cos (-2.0 * Real.pi * o / (2 ^ s : ℕ)) * 32767.0)
    simpa [twiddleQ15, exactLibm, hscale, mul_comm] using hround
  · have hround := abs_sub_roundHalfEven
      (Real.sin (-2.0 * Real.pi * o / (2 ^ s : ℕ)) * 32767.0)
    simpa [twiddleQ15, exactLibm, hscale, mul_comm] using hround

theorem twiddleQ15_le (length o : ℕ) :
    |(twiddleQ15 exactLibm length o).1| ≤ 32767 ∧ |(twiddleQ15 exactLibm length o).2| ≤ 32767 := by
  have hscale : ∀ x : ℝ, |x| ≤ 1 → |x * 32767.0| ≤ (32767 : ℤ) := by
    intro x hx
    have hfactor : |(32767.0 : ℝ)| = 32767 := by norm_num
    rw [abs_mul, hfactor, Int.cast_ofNat]
    linarith
  constructor
  · exact abs_roundHalfEven_le (hscale _ (Real.abs_cos_le_one _))
  · exact abs_roundHalfEven_le (hscale _ (Real.abs_sin_le_one _))

/-- A product, as it is computed. -/
theorem norm_mul_sub_productQ15_le {w y : ℤ × ℤ} (hw : |w.1| ≤ 32767 ∧ |w.2| ≤ 32767)
    (hy : Fits y.1 ∧ Fits y.2) :
    ‖point w * point y / 32768 - point (productQ15 w y)‖ ≤ √2 * 2 := by
  have hpart : ∀ {l r : ℤ}, |l| ≤ 32767 → Fits r →
      |(l * r : ℝ) / 32768 - multiplyQ15 l r| ≤ 1 := fun hl hr =>
    abs_mul_sub_multiplyQ15_le (abs_mul_le_of_fits hl (abs_le_of_fits hr))
  have h₁₁ := abs_le.mp (hpart hw.1 hy.1)
  have h₂₂ := abs_le.mp (hpart hw.2 hy.2)
  have h₁₂ := abs_le.mp (hpart hw.1 hy.2)
  have h₂₁ := abs_le.mp (hpart hw.2 hy.1)
  refine norm_le_of_parts ?_ ?_
  · simp only [sub_re, div_ofNat_re, mul_re, point_re, point_im, productQ15, Int.cast_sub]
    rw [abs_le]
    constructor
    · linarith
    · linarith
  · simp only [sub_im, div_ofNat_im, mul_im, point_re, point_im, productQ15, Int.cast_add]
    rw [abs_le]
    constructor
    · linarith
    · linarith

/-- A product with the rounded twiddle. -/
theorem norm_root_mul_sub_productQ15_le (s o : ℕ) {y : ℤ × ℤ} (hy : Fits y.1 ∧ Fits y.2) :
    ‖root s ^ o * point y - point (productQ15 (twiddleQ15 exactLibm (2 ^ s) o) y)‖ ≤
      1 + √2 * 3 := by
  have hproduct := norm_mul_sub_productQ15_le (twiddleQ15_le (2 ^ s) o) hy
  have htwiddle := norm_twiddleQ15_sub_le s o
  have hroot := norm_root_pow s o
  have hpoint := norm_point_le hy.1 hy.2
  generalize twiddleQ15 exactLibm (2 ^ s) o = w at hproduct htwiddle ⊢
  have hsplit : root s ^ o * point y - point (productQ15 w y) =
      (root s ^ o + (32767 * root s ^ o - point w)) * (point y / 32768) +
        (point w * point y / 32768 - point (productQ15 w y)) := by ring
  have hscaled : ‖point y / 32768‖ ≤ √2 := by
    rw [norm_div, Complex.norm_ofNat, div_le_iff₀ (by norm_num)]
    exact hpoint
  have hsqrt : √2 * √2 = 2 := Real.mul_self_sqrt (by norm_num)
  calc ‖root s ^ o * point y - point (productQ15 w y)‖
      ≤ ‖root s ^ o + (32767 * root s ^ o - point w)‖ * ‖point y / 32768‖ + √2 * 2 := by
        rw [hsplit, ← norm_mul]
        exact (norm_add_le _ _).trans (by linarith)
    _ ≤ (1 + √2 * (1 / 2)) * √2 + √2 * 2 := by
        have hfactor := (norm_add_le (root s ^ o) (32767 * root s ^ o - point w)).trans
          (add_le_add hroot.le htwiddle)
        have hmul := mul_le_mul hfactor hscaled (norm_nonneg _) (by positivity)
        linarith
    _ = 1 + √2 * 3 := by linear_combination hsqrt / 2

/-! ## One stage -/

/-- How close a pair is behind the first `s` stages: each of them halves. -/
structure Tracks (s : ℕ) (x : ℤ × ℤ) (z : ℂ) : Prop where
  fits : Fits x.1 ∧ Fits x.2
  bounded : ‖z‖ ≤ 2 ^ s * 32767
  close : ‖z / 2 ^ s - point x‖ ≤ 3 / 2 + 10 / 3 * s

/-- One item of a butterfly. -/
theorem Tracks.half {s : ℕ} {x t : ℤ × ℤ} {z u : ℂ} (h : Tracks s x z) (hu : ‖u‖ ≤ 2 ^ s * 32767)
    (ht : ‖u / 2 ^ s - point t‖ ≤ 3 / 2 + 10 / 3 * s + (1 + √2 * 3)) :
    Tracks (s + 1) (halfQ15 (x + t)) (z + u) where
  fits := ⟨fits_saturateQ15 _, fits_saturateQ15 _⟩
  bounded := by
    rw [pow_succ]
    exact (norm_add_le z u).trans (by linarith [h.bounded])
  close := by
    have hsum : (z + u) / 2 ^ (s + 1) - point (x + t) / 2 =
        ((z / 2 ^ s - point x) + (u / 2 ^ s - point t)) / 2 := by
      rw [point_add, pow_succ]
      field_simp
      ring
    have hinside : ‖(z + u) / 2 ^ (s + 1)‖ ≤ 32767 := by
      rw [norm_div, norm_pow, Complex.norm_ofNat, div_le_iff₀ (by positivity), pow_succ]
      exact (norm_add_le z u).trans (by linarith [h.bounded])
    have hmean : ‖(z + u) / 2 ^ (s + 1) - point (x + t) / 2‖ ≤
        3 / 2 + 10 / 3 * s + (1 + √2 * 3) / 2 := by
      rw [hsum, norm_div, Complex.norm_ofNat, div_le_iff₀ two_pos]
      exact (norm_add_le _ _).trans (by linarith [h.close])
    have hsqrt : √2 ≤ 17 / 12 := (Real.sqrt_le_left (by norm_num)).mpr (by norm_num)
    push_cast
    linarith [norm_sub_halfQ15_le hinside (x + t)]

/-- **A stage** of the transform on integers follows that of the exact transform. -/
theorem carries_stageQ15 (s : ℕ) :
    Radix2.Carries (Tracks s) (Tracks (s + 1)) (2 ^ s) (stageQ15 exactLibm s)
      (Radix2.exactPair (root (s + 1))) := by
  intro o _ x y z u hx hy
  have hroot := norm_root_pow (s + 1) o
  have hproduct := norm_root_mul_sub_productQ15_le (s + 1) o hy.fits
  have hbounded : ‖root (s + 1) ^ o * u‖ ≤ 2 ^ s * 32767 := by
    rw [norm_mul, hroot, one_mul]
    exact hy.bounded
  have hclose : ‖root (s + 1) ^ o * u / 2 ^ s -
      point (productQ15 (twiddleQ15 exactLibm (2 ^ (s + 1)) o) y)‖ ≤
        3 / 2 + 10 / 3 * s + (1 + √2 * 3) := by
    have hsplit : root (s + 1) ^ o * u / 2 ^ s -
        point (productQ15 (twiddleQ15 exactLibm (2 ^ (s + 1)) o) y) =
          root (s + 1) ^ o * (u / 2 ^ s - point y) + (root (s + 1) ^ o * point y -
            point (productQ15 (twiddleQ15 exactLibm (2 ^ (s + 1)) o) y)) := by ring
    rw [hsplit]
    refine (norm_add_le _ _).trans (add_le_add ?_ hproduct)
    rw [norm_mul, hroot, one_mul]
    exact hy.close
  constructor
  · exact hx.half hbounded hclose
  · rw [stageQ15, mixQ15, Radix2.exactPair, sub_eq_add_neg, sub_eq_add_neg]
    refine hx.half (by rwa [norm_neg]) ?_
    rwa [point_neg, neg_div, ← neg_sub', norm_neg]

/-! ## The transform -/

theorem hann_mem (n : ℕ) : 0 ≤ hann n ∧ hann n ≤ 1 := ⟨sq_nonneg _, Real.sin_sq_le_one _⟩

theorem hanning_eq (n : ℕ) :
    0.5 - 0.5 * Real.cos (2.0 * Real.pi * n / (analyzerFftSize - 1 : ℕ)) = hann n := by
  have hdouble : 2.0 * Real.pi * n / (analyzerFftSize - 1 : ℕ) =
      2 * (Real.pi * n / (analyzerFftSize - 1 : ℕ)) := by
    norm_num
    ring
  rw [hann, Real.sin_sq_eq_half_sub, ← hdouble]
  norm_num
  ring

/-- The window, as it is stored. -/
theorem windowQ15_spec (n : ℕ) :
    |hann n * 32767 - windowQ15 exactLibm n| ≤ 1 / 2 ∧ |windowQ15 exactLibm n| ≤ 32767 := by
  have hscale : (32767.0 : ℝ) = 32767 := by norm_num
  have hwindow : windowQ15 exactLibm n = roundHalfEven (hann n * 32767) := by
    rw [← hanning_eq, ← hscale]
    rfl
  obtain ⟨hlow, hhigh⟩ := hann_mem n
  rw [hwindow]
  refine ⟨abs_sub_roundHalfEven _, abs_roundHalfEven_le ?_⟩
  rw [abs_of_nonneg (by positivity), Int.cast_ofNat]
  linarith

theorem fits_toInt (sample : Int16) : Fits sample.toInt := by
  have hlow := Int16.le_toInt sample
  have hhigh := Int16.toInt_lt sample
  exact ⟨by omega, by omega⟩

/-- The exact transform of the report's input: `0x7FFF` stands for one. -/
noncomputable def exactInput (samples : Vector Int16 1024) (n : ℕ) : ℂ :=
  ((32767.0 / 32768.0 * ((samples.getD n 0).toInt * hann n) : ℝ) : ℂ)

/-- A sample under the window. -/
theorem abs_toInt_mul_hann_le (sample : Int16) (n : ℕ) : |sample.toInt * hann n| ≤ 32768 := by
  have hsample : |(sample.toInt : ℝ)| ≤ 32768 := by
    exact_mod_cast abs_le_of_fits (fits_toInt sample)
  obtain ⟨hlow, hhigh⟩ := hann_mem n
  have hproduct : |(sample.toInt : ℝ)| * hann n ≤ 32768 * 1 :=
    mul_le_mul hsample hhigh hlow (by norm_num)
  rw [abs_mul, abs_of_nonneg hlow]
  linarith

/-- … as the integers have it. -/
theorem abs_windowed_sub_multiplyQ15_le {sample : ℤ} (h : |sample| ≤ 32768) (n : ℕ) :
    |32767 / 32768 * (sample * hann n) - multiplyQ15 sample (windowQ15 exactLibm n)| ≤ 3 / 2 := by
  obtain ⟨hwindow, hrange⟩ := windowQ15_spec n
  generalize windowQ15 exactLibm n = w at hwindow hrange ⊢
  have hsize : |sample * w| ≤ 32767 * 32768 := by
    rw [mul_comm]
    exact abs_mul_le_of_fits hrange h
  have hdropped := abs_mul_sub_multiplyQ15_le hsize
  have hcoefficient : |(sample : ℝ) / 32768 * (hann n * 32767 - w)| ≤ 1 * (1 / 2) := by
    have hpart : |(sample : ℝ) / 32768| ≤ 1 := by
      have hcast : |(sample : ℝ)| ≤ 32768 := by exact_mod_cast h
      rw [abs_div, Nat.abs_ofNat, div_le_one (by norm_num)]
      exact hcast
    rw [abs_mul]
    exact mul_le_mul hpart hwindow (abs_nonneg _) zero_le_one
  have hsplit : 32767 / 32768 * (sample * hann n) - (multiplyQ15 sample w : ℝ) =
      (sample : ℝ) / 32768 * (hann n * 32767 - w) +
        (sample * w / 32768 - multiplyQ15 sample w) := by ring
  rw [hsplit]
  exact (abs_add_le _ _).trans (by linarith)

/-- The input of the first stage. -/
theorem tracks_windowedQ15 (samples : Vector Int16 1024) {n : ℕ} (hn : n < 1024) :
    Tracks 0 (windowedQ15 exactLibm (samples.map Int16.toInt) n, 0) (exactInput samples n) where
  fits := ⟨fits_saturateQ15 _, by simp [Fits]⟩
  bounded := by
    have hsample := abs_toInt_mul_hann_le (samples.getD n 0) n
    have hscale : |(32767.0 / 32768.0 : ℝ)| = 32767 / 32768 := by norm_num
    rw [exactInput, norm_real, Real.norm_eq_abs, abs_mul, hscale]
    linarith
  close := by
    have hsample : (samples.map Int16.toInt).getD n 0 = (samples.getD n 0).toInt := by
      simp [getD_eq_getElem?, hn]
    have hscale : (32767.0 / 32768.0 : ℝ) = 32767 / 32768 := by norm_num
    have hreal : ∀ (x : ℝ) (m : ℤ), ‖(x : ℂ) / 2 ^ 0 - point (m, 0)‖ = |x - m| := by
      intro x m
      rw [pow_zero, div_one, ← Real.norm_eq_abs, ← norm_real]
      congr 1
      apply Complex.ext
      · simp
      · simp
    rw [windowedQ15, hsample, exactInput, hscale, hreal, Nat.cast_zero, mul_zero, add_zero]
    exact abs_windowed_sub_multiplyQ15_le (abs_le_of_fits (fits_toInt _)) n

theorem dft_exactInput (samples : Vector Int16 1024) (k : ℕ) :
    Radix2.dft (root 10) 1024 (exactInput samples) k =
      32767 / 32768 * windowedDft samples k := by
  have hscale : (32767.0 / 32768.0 : ℝ) = 32767 / 32768 := by norm_num
  rw [Radix2.dft, Finset.sum_range, windowedDft, Finset.mul_sum]
  refine Finset.sum_congr rfl ?_
  intro n _
  have hsample : samples.getD n 0 = samples.get n := by
    simp [getD_eq_getElem?, get_eq_getElem]
  rw [exactInput, hsample, hscale]
  push_cast
  ring

theorem norm_windowedDft_le (samples : Vector Int16 1024) (k : ℕ) :
    ‖windowedDft samples k‖ ≤ 1024 * 32768 := by
  have hterm : ∀ n ∈ (Finset.univ : Finset (Fin 1024)),
      ‖(((samples.get n).toInt * hann n : ℝ) : ℂ) * root 10 ^ (n.val * k)‖ ≤ 32768 := by
    intro n _
    rw [norm_mul, norm_root_pow, norm_real, Real.norm_eq_abs, mul_one]
    exact abs_toInt_mul_hann_le _ n
  calc ‖windowedDft samples k‖
      ≤ Finset.card (Finset.univ : Finset (Fin 1024)) • (32768 : ℝ) :=
        (norm_sum_le _ _).trans (Finset.sum_le_card_nsmul _ _ _ hterm)
    _ = 1024 * 32768 := by
        rw [Finset.card_univ, Fintype.card_fin, nsmul_eq_mul]
        norm_num

/-- **A bin** of the transform on integers. -/
theorem norm_windowedDft_sub_le (samples : Vector Int16 1024) {k : ℕ} (hk : k < 1024) :
    ‖windowedDft samples k / 1024 -
      point (pairs (fftQ15 exactLibm (samples.map Int16.toInt)) k)‖ ≤ 36 := by
  have hexact : Radix2.transformWith (fun s => Radix2.exactPair (root (s + 1))) 10
      (fun p => exactInput samples (bitReversal 10 p)) k =
        32767 / 32768 * windowedDft samples k := by
    rw [← dft_exactInput, ← Radix2.transform_eq_transformWith]
    exact Radix2.transform_eq_dft root_sq root_half (fun _ _ => rfl) hk
  have htracks : Tracks 10 (pairs (fftQ15 exactLibm (samples.map Int16.toInt)) k)
      (32767 / 32768 * windowedDft samples k) := by
    rw [pairs_fftQ15 exactLibm _ hk, ← hexact]
    exact Radix2.carried_transform (R := Tracks) (fun s _ => carries_stageQ15 s)
      (fun p _ => tracks_windowedQ15 samples (bitReversal_lt 10 p)) k hk
  have hone : ‖windowedDft samples k / (1024 * 32768)‖ ≤ 1 := by
    rw [norm_div, norm_mul, Complex.norm_ofNat, Complex.norm_ofNat, div_le_one (by norm_num)]
    exact norm_windowedDft_le samples k
  generalize pairs (fftQ15 exactLibm (samples.map Int16.toInt)) k = x at htracks ⊢
  have hsplit : windowedDft samples k / 1024 - point x =
      (32767 / 32768 * windowedDft samples k / 2 ^ 10 - point x) +
        windowedDft samples k / (1024 * 32768) := by ring
  rw [hsplit]
  exact (norm_add_le _ _).trans ((add_le_add htracks.close hone).trans (by norm_num))

/-! ## The report -/

/-- A bin of numpy. -/
theorem get_floatMagnitudes {np : Numpy} (h : np.Documented) (samples : Vector Int16 1024)
    (k : Fin 512) :
    (floatMagnitudes np samples).get k = 4 / 32768 * ‖windowedDft samples k / 1024‖ := by
  have hfour : (4.0 : ℝ) = 4 := by norm_num
  have htwo : (-2.0 : ℂ) = -2 := by norm_num
  have hpower : ∀ n : ℕ, exp (-2.0 * Real.pi * I * n * k.val / (analyzerFftSize : ℕ)) =
      root 10 ^ (n * k.val) := by
    intro n
    rw [root, ← exp_nat_mul, htwo]
    congr 1
    push_cast
    rw [cast_analyzerFftSize]
    ring
  have hsample : ∀ n : Fin 1024,
      (Vector.zipWith (· * ·) (normalized samples) np.hanning).get n =
        (samples.get n).toInt * hann n / 32768 := by
    intro n
    have hcoefficient := (h.hanning n).trans (hanning_eq n)
    rw [get_eq_getElem] at hcoefficient
    rw [get_eq_getElem, Vector.getElem_zipWith, hcoefficient, normalized, Vector.getElem_map,
      fullScale, get_eq_getElem]
    ring
  have hsum : (np.rfft (.zipWith (· * ·) (normalized samples) np.hanning)).get k.castSucc =
      windowedDft samples k / 32768 := by
    rw [h.rfft, windowedDft, Finset.sum_div]
    refine Finset.sum_congr rfl ?_
    intro n _
    rw [hsample, Fin.val_castSucc, hpower]
    push_cast
    ring
  rw [floatMagnitudes, get_eq_getElem, Vector.getElem_ofFn, Fin.eta, h.abs, hsum, hfour,
    cast_analyzerFftSize, norm_div, norm_div, Complex.norm_ofNat, Complex.norm_ofNat]
  ring

/-- A bin of the transform on integers. -/
theorem get_q15Fft (samples : Vector ℤ 1024) (k : Fin 512) :
    (q15Fft exactLibm samples).1.get k =
      4 / 32768 * ‖point (pairs (fftQ15 exactLibm samples) k)‖ := by
  have hfour : (4.0 : ℝ) = 4 := by norm_num
  rw [q15Fft, get_eq_getElem, Vector.getElem_ofFn, fullScale, hfour,
    Complex.norm_eq_sqrt_sq_add_sq]
  simp only [exactLibm, pairs, point_re, point_im]
  ring

theorem abs_bin_sub_le {np : Numpy} (h : np.Documented) (samples : Vector Int16 1024)
    (k : Fin 512) :
    |(q15Fft exactLibm (samples.map Int16.toInt)).1.get k - (floatMagnitudes np samples).get k| ≤
      144 / 32768 := by
  have hbin := norm_windowedDft_sub_le samples (k := k.val) (by omega)
  have hnorm := (abs_norm_sub_norm_le _ _).trans hbin
  have hscale : |(4 / 32768 : ℝ)| = 4 / 32768 := by norm_num
  rw [get_floatMagnitudes h, get_q15Fft, ← mul_sub, abs_mul, abs_sub_comm, hscale]
  linarith

theorem abs_foldl_max_sub_le {c : ℝ} {xs ys : List ℝ} (h : List.Forall₂ (|· - ·| ≤ c) xs ys)
    {x y : ℝ} (hxy : |x - y| ≤ c) : |xs.foldl max x - ys.foldl max y| ≤ c := by
  induction h generalizing x y with
  | nil => exact hxy
  | cons hhead _ ih => exact ih ((abs_max_sub_max_le_max _ _ _ _).trans (max_le hxy hhead))

/-- Bins that are close have their maxima close. -/
theorem abs_maxOf_sub_le {c : ℝ} {xs ys : Vector ℝ 512} (h : ∀ k, |xs.get k - ys.get k| ≤ c) :
    |maxOf xs - maxOf ys| ≤ c := by
  refine abs_foldl_max_sub_le ?_ (h 0)
  rw [List.forall₂_iff_get]
  refine ⟨by simp, fun i hi _ => ?_⟩
  rw [Vector.length_toList] at hi
  simpa [get_eq_getElem] using h ⟨i, hi⟩

theorem sum_squares (samples : List Int16) :
    ((samples.map fun sample => (sample.toInt / 32768 : ℝ) * (sample.toInt / 32768)).sum =
      ((samples.map fun sample => sample.toInt * sample.toInt).sum : ℤ) / 32768 ^ 2) := by
  induction samples with
  | nil => simp
  | cons sample samples ih =>
      rw [List.map_cons, List.sum_cons, ih, List.map_cons, List.sum_cons]
      push_cast
      ring

/-- `np.sqrt` is the square root. -/
theorem Numpy.Documented.sqrt_eq {np : Numpy} (h : np.Documented) {x : ℝ} (hx : 0 ≤ x) :
    np.sqrt x = √x := by
  obtain ⟨hnonneg, hsquare⟩ := h.sqrt x hx
  exact ((Real.sqrt_eq_iff_mul_self_eq hx hnonneg).mpr hsquare.symm).symm

/-- The level is the same. -/
theorem q15Fft_rms {np : Numpy} (h : np.Documented) (samples : Vector Int16 1024) :
    (q15Fft exactLibm (samples.map Int16.toInt)).2 = floatRms np samples := by
  have hproducts : (Vector.zipWith (· * ·) (normalized samples) (normalized samples)).toList =
      samples.toList.map fun sample => (sample.toInt / 32768 : ℝ) * (sample.toInt / 32768) := by
    rw [normalized, fullScale]
    apply List.ext_getElem
    · simp
    · simp
  have hq15 : ((samples.map Int16.toInt).toList.map fun sample => sample * sample) =
      samples.toList.map fun sample => sample.toInt * sample.toInt := by
    simp [Vector.toList_map, Function.comp_def]
  have hnonneg : (0 : ℝ) ≤
      ((samples.toList.map fun sample => sample.toInt * sample.toInt).sum : ℤ) := by
    refine Int.cast_nonneg (List.sum_nonneg ?_)
    intro square hsquare
    obtain ⟨sample, -, rfl⟩ := List.mem_map.mp hsquare
    exact mul_self_nonneg _
  rw [floatRms, h.mean, hproducts, sum_squares, cast_analyzerFftSize,
    h.sqrt_eq (by positivity), q15Fft, hq15, fullScale, cast_analyzerFftSize]
  have hscale : ∀ x : ℝ, √(x / 32768 ^ 2) = √x / 32768 := by
    intro x
    rw [Real.sqrt_div' x (by positivity), Real.sqrt_sq (by norm_num)]
  simp only [exactLibm]
  rw [div_right_comm, hscale]

/-- **The deviation.**  For every block of samples the bins of the transform on integers differ
from those of numpy by at most 144 steps of the 16-bit range, and so do the peaks that the report
compares; the levels are equal.  Here `math` and numpy calculate without rounding. -/
theorem deviation_le {np : Numpy} (h : np.Documented) (samples : Vector Int16 1024) :
    (∀ k, |(q15Fft exactLibm (samples.map Int16.toInt)).1.get k -
      (floatMagnitudes np samples).get k| ≤ 144 / 32768) ∧
    |maxOf (q15Fft exactLibm (samples.map Int16.toInt)).1 - maxOf (floatMagnitudes np samples)| ≤
      144 / 32768 ∧
    (q15Fft exactLibm (samples.map Int16.toInt)).2 = floatRms np samples :=
  ⟨abs_bin_sub_le h samples, abs_maxOf_sub_le (abs_bin_sub_le h samples), q15Fft_rms h samples⟩

/-- The functions of numpy, as documented. -/
noncomputable def exactNumpy : Numpy where
  hanning := .ofFn fun n : Fin 1024 =>
    0.5 - 0.5 * Real.cos (2.0 * Real.pi * n.val / (analyzerFftSize - 1 : ℕ))
  rfft x := .ofFn fun k : Fin 513 => ∑ n : Fin 1024, (x.get n : ℂ) *
    exp (-2.0 * Real.pi * I * n.val * k.val / (analyzerFftSize : ℕ))
  abs x := x.map fun z => ‖z‖
  mean x := x.toList.sum / (analyzerFftSize : ℕ)
  sqrt x := √x

theorem documented_exactNumpy : exactNumpy.Documented where
  hanning n := by rw [exactNumpy, get_eq_getElem, Vector.getElem_ofFn, Fin.eta]
  rfft x k := by rw [exactNumpy, get_eq_getElem, Vector.getElem_ofFn, Fin.eta]
  abs x k := by rw [exactNumpy, get_eq_getElem, Vector.getElem_map, get_eq_getElem]
  mean _ := rfl
  sqrt x hx := ⟨Real.sqrt_nonneg x, Real.mul_self_sqrt hx⟩

/-- A block of constant samples. -/
theorem deviation_le_constant :
    (∀ k, |(q15Fft exactLibm ((Vector.replicate 1024 (16384 : Int16)).map Int16.toInt)).1.get k -
      (floatMagnitudes exactNumpy (Vector.replicate 1024 16384)).get k| ≤ 144 / 32768) ∧
    |maxOf (q15Fft exactLibm ((Vector.replicate 1024 (16384 : Int16)).map Int16.toInt)).1 -
      maxOf (floatMagnitudes exactNumpy (Vector.replicate 1024 16384))| ≤ 144 / 32768 ∧
    (q15Fft exactLibm ((Vector.replicate 1024 (16384 : Int16)).map Int16.toInt)).2 =
      floatRms exactNumpy (Vector.replicate 1024 16384) :=
  deviation_le documented_exactNumpy _

end SpectrumAnalyzer.PrecisionReport
