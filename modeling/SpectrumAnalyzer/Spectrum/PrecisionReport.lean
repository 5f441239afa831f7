import SpectrumAnalyzer.Lib.Butterflies
import SpectrumAnalyzer.Spectrum.Amplitudes

/-!
# The precision report

`tools/fft_precision_report.py` estimates what fixed-point arithmetic costs: `q15_fft` is a
radix-2 transform on 16-bit integers, with rounded window and twiddles, truncated products
and one bit dropped in every stage, and `compare` holds it against the transform of numpy, for
a dozen sine waves.  The loops of `q15_fft` are those of the radix-2 transform; only the
butterfly is another.

## Main definitions

* `multiplyQ15`, `butterflyQ15`, `fftQ15`, `q15Fft` — the transform on integers.
* `Numpy`, `floatMagnitudes` — the transform it is compared with.
* `mixQ15` — the butterfly, on two pairs of integers.
* `pairs_fftQ15` — the loops, for that butterfly.
-/

namespace SpectrumAnalyzer.PrecisionReport

/-- `saturate_q15`. -/
def saturateQ15 (value : ℤ) : ℤ := max (-32768) (min 32767 value)

/-- `multiply_q15`. -/
def multiplyQ15 (left right : ℤ) : ℤ := saturateQ15 ((left * right) >>> (15 : ℕ))

/-- The assignments of the innermost loop, for the twiddle `wr`, `wi`. -/
def butterflyQ15 (w : ℤ × ℤ) (even odd : ℕ) (a : ComplexArrays ℤ) : ComplexArrays ℤ :=
  let tr := multiplyQ15 w.1 (a.real.getD odd 0) - multiplyQ15 w.2 (a.imag.getD odd 0)
  let ti := multiplyQ15 w.1 (a.imag.getD odd 0) + multiplyQ15 w.2 (a.real.getD odd 0)
  let evenReal := a.real.getD even 0
  let evenImag := a.imag.getD even 0
  let real := a.real.setIfInBounds even (saturateQ15 ((evenReal + tr) >>> (1 : ℕ)))
  let imag := a.imag.setIfInBounds even (saturateQ15 ((evenImag + ti) >>> (1 : ℕ)))
  { real := real.setIfInBounds odd (saturateQ15 ((evenReal - tr) >>> (1 : ℕ)))
    imag := imag.setIfInBounds odd (saturateQ15 ((evenImag - ti) >>> (1 : ℕ))) }

section Transform
variable {K : Type*} [Field K] [LinearOrder K] [FloorRing K] (libm : Libm K)

/-- An item of `window`. -/
def windowQ15 (index : ℕ) : ℤ :=
  roundHalfEven ((0.5 - 0.5 * libm.cosf (2.0 * libm.pi * index / (analyzerFftSize - 1 : ℕ))) *
    32767.0)

/-- `wr` and `wi`. -/
def twiddleQ15 (length offset : ℕ) : ℤ × ℤ :=
  let angle := -2.0 * libm.pi * offset / length
  (roundHalfEven (libm.cosf angle * 32767.0), roundHalfEven (libm.sinf angle * 32767.0))

/-- One turn of the loop over the bases. -/
def baseStepQ15 (length : ℕ) (a : ComplexArrays ℤ) (base : ℕ) : ComplexArrays ℤ :=
  (List.range (length / 2)).foldl (fun a offset => butterflyQ15 (twiddleQ15 libm length offset)
    (base + offset) (base + offset + length / 2) a) a

/-- One turn of the loop over the lengths. -/
def lengthStepQ15 (a : ComplexArrays ℤ) (length : ℕ) : ComplexArrays ℤ :=
  (List.range' 0 (1024 / length) length).foldl (baseStepQ15 libm length) a

/-- `real` and `imag` behind the loops of `q15_fft`. -/
def fftQ15 (samples : Vector ℤ 1024) : ComplexArrays ℤ :=
  ((List.range 10).map (2 <<< ·)).foldl (lengthStepQ15 libm) (bitReverse
    ⟨.ofFn fun index : Fin 1024 => multiplyQ15 (samples.get index) (windowQ15 libm index),
      .replicate 1024 0⟩)

/-- `q15_fft`: the magnitudes, and the level. -/
def q15Fft (samples : Vector ℤ 1024) : Vector K 512 × K :=
  let a := fftQ15 libm samples
  (.ofFn fun index : Fin 512 =>
      4.0 * libm.hypotf (a.real.getD index 0 : ℤ) (a.imag.getD index 0 : ℤ) / 32768.0,
    libm.sqrtf (((samples.toList.map fun sample => sample * sample).sum : ℤ) /
      (analyzerFftSize : ℕ)) / 32768.0)

end Transform

/-- `max` of a list of magnitudes. -/
def maxOf {K : Type*} [LinearOrder K] (magnitudes : Vector K 512) : K :=
  magnitudes.toList.foldl max (magnitudes.get 0)

/-! ## The transform it is compared with -/

/-- What `compare` calls of numpy: `np.hanning(FFT_SIZE)`, `np.fft.rfft` of a block, `np.abs`
of a spectrum, `np.mean` of a block, and `np.sqrt`. -/
structure Numpy where
  hanning : Vector ℝ 1024
  rfft : Vector ℝ 1024 → Vector ℂ 513
  abs : Vector ℂ 513 → Vector ℝ 513
  mean : Vector ℝ 1024 → ℝ
  sqrt : ℝ → ℝ

/-- What the documentation of numpy says of these. -/
structure Numpy.Documented (np : Numpy) : Prop where
  hanning : ∀ n : Fin 1024, np.hanning.get n =
    0.5 - 0.5 * Real.cos (2.0 * Real.pi * n.val / (analyzerFftSize - 1 : ℕ))
  rfft : ∀ x (k : Fin 513), (np.rfft x).get k = ∑ n : Fin 1024, (x.get n : ℂ) *
    Complex.exp (-2.0 * Real.pi * Complex.I * n.val * k.val / (analyzerFftSize : ℕ))
  abs : ∀ x (k : Fin 513), (np.abs x).get k = ‖x.get k‖
  mean : ∀ x, np.mean x = x.toList.sum / (analyzerFftSize : ℕ)
  sqrt : ∀ x, 0 ≤ x → 0 ≤ np.sqrt x ∧ np.sqrt x * np.sqrt x = x

/-- `normalized` of `compare`. -/
noncomputable def normalized (samples : Vector Int16 1024) : Vector ℝ 1024 :=
  samples.map fun sample => (sample.toInt : ℝ) / 32768.0

/-- `float_magnitudes` of `compare`. -/
noncomputable def floatMagnitudes (np : Numpy) (samples : Vector Int16 1024) : Vector ℝ 512 :=
  .ofFn fun k : Fin 512 => 4.0 / (analyzerFftSize : ℕ) *
    (np.abs (np.rfft (.zipWith (· * ·) (normalized samples) np.hanning))).get k.castSucc

/-- `float_rms` of `compare`. -/
noncomputable def floatRms (np : Numpy) (samples : Vector Int16 1024) : ℝ :=
  np.sqrt (np.mean (.zipWith (· * ·) (normalized samples) (normalized samples)))

/-! ## The loops -/

/-- What both arrays hold at an index. -/
def pairs (a : ComplexArrays ℤ) (i : ℕ) : ℤ × ℤ :=
  (a.real.getD i 0, a.imag.getD i 0)

/-- `tr` and `ti`. -/
def productQ15 (w y : ℤ × ℤ) : ℤ × ℤ :=
  (multiplyQ15 w.1 y.1 - multiplyQ15 w.2 y.2, multiplyQ15 w.1 y.2 + multiplyQ15 w.2 y.1)

/-- Half of a sum, as it is stored. -/
def halfQ15 (v : ℤ × ℤ) : ℤ × ℤ := (saturateQ15 (v.1 >>> (1 : ℕ)), saturateQ15 (v.2 >>> (1 : ℕ)))

/-- The butterfly, on two pairs. -/
def mixQ15 (w x y : ℤ × ℤ) : (ℤ × ℤ) × (ℤ × ℤ) :=
  (halfQ15 (x + productQ15 w y), halfQ15 (x - productQ15 w y))

theorem pairs_butterflyQ15 (w : ℤ × ℤ) {even odd : ℕ} (he : even < 1024) (ho : odd < 1024)
    (hne : even ≠ odd) (a : ComplexArrays ℤ) :
    pairs (butterflyQ15 w even odd a) = Radix2.pair (mixQ15 w) even odd (pairs a) := by
  funext p
  simp only [pairs, butterflyQ15, getD_setIfInBounds he, getD_setIfInBounds ho,
    Radix2.pair, mixQ15, halfQ15, productQ15, Function.update_apply]
  by_cases hpe : p = even
  · simp [hpe, hne]
  · by_cases hpo : p = odd
    · simp [hpo, hne.symm]
    · simp [hpe, hpo]

section Loops
variable {K : Type*} [Field K] [LinearOrder K] [FloorRing K] (libm : Libm K)

/-- The butterflies of a stage. -/
def stageQ15 (s o : ℕ) : ℤ × ℤ → ℤ × ℤ → (ℤ × ℤ) × (ℤ × ℤ) :=
  mixQ15 (twiddleQ15 libm (2 ^ (s + 1)) o)

/-- The loop over the offsets: a block. -/
theorem pairs_foldl_butterflyQ15 (s : ℕ) {half base k : ℕ} (hk : k ≤ half)
    (hbase : base + 2 * half ≤ 1024) (a : ComplexArrays ℤ) :
    pairs ((List.range k).foldl (fun a offset => butterflyQ15
      (twiddleQ15 libm (2 ^ (s + 1)) offset) (base + offset) (base + offset + half) a) a) =
        Radix2.blockWith (stageQ15 libm s) half base k (pairs a) := by
  induction k with
  | zero => rfl
  | succ k ih =>
      rw [List.range_succ, List.foldl_append, Radix2.blockWith_succ, ← ih (by omega)]
      exact pairs_butterflyQ15 _ (by omega) (by omega) (by omega) _

/-- The loop over the bases: the blocks of a stage. -/
theorem pairs_foldl_baseStepQ15 (s : ℕ) {blocks : ℕ} (hblocks : 2 ^ (s + 1) * blocks ≤ 1024)
    (a : ComplexArrays ℤ) :
    pairs ((List.range' 0 blocks (2 ^ (s + 1))).foldl (baseStepQ15 libm (2 ^ (s + 1))) a) =
      Radix2.stageWith (stageQ15 libm s) (2 ^ s) blocks (pairs a) := by
  have hlength : 2 * 2 ^ s = 2 ^ (s + 1) := (pow_succ' 2 s).symm
  have hhalf : 2 ^ (s + 1) / 2 = 2 ^ s := by omega
  induction blocks with
  | zero => rfl
  | succ b ih =>
      rw [Nat.mul_succ] at hblocks
      rw [List.range'_concat, List.foldl_append, Radix2.stageWith_succ, ← ih (by omega),
        Nat.zero_add, hlength, Nat.mul_comm b]
      simp only [List.foldl_cons, List.foldl_nil, baseStepQ15, hhalf]
      exact pairs_foldl_butterflyQ15 libm s le_rfl (by omega) _

/-- One length is one stage. -/
theorem pairs_lengthStepQ15 {s : ℕ} (hs : s < 10) (a : ComplexArrays ℤ) :
    pairs (lengthStepQ15 libm a (2 <<< s)) =
      Radix2.stageWith (stageQ15 libm s) (2 ^ s) (2 ^ (9 - s)) (pairs a) := by
  have hlength : 2 <<< s = 2 ^ (s + 1) := by rw [Nat.shiftLeft_eq, pow_succ']
  have hsize : 2 ^ (s + 1) * 2 ^ (9 - s) = 1024 := by
    rw [← pow_add, show s + 1 + (9 - s) = 10 by omega]
    rfl
  have hblocks : 1024 / 2 ^ (s + 1) = 2 ^ (9 - s) := by
    rw [← hsize, Nat.mul_div_cancel_left _ (Nat.two_pow_pos _)]
  rw [lengthStepQ15, hlength, hblocks]
  exact pairs_foldl_baseStepQ15 libm s hsize.le a

theorem pairs_foldl_lengthStepQ15 (a : ComplexArrays ℤ) {s : ℕ} (hs : s ≤ 10) :
    pairs (((List.range s).map (2 <<< ·)).foldl (lengthStepQ15 libm) a) =
      (List.range s).foldl
        (fun a s => Radix2.stageWith (stageQ15 libm s) (2 ^ s) (2 ^ (10 - 1 - s)) a) (pairs a) := by
  induction s with
  | zero => rfl
  | succ s ih =>
      rw [List.range_succ, List.map_append, List.foldl_append, List.foldl_append, ← ih (by omega)]
      exact pairs_lengthStepQ15 libm hs _

/-- A sample under the window. -/
def windowedQ15 (samples : Vector ℤ 1024) (i : ℕ) : ℤ :=
  multiplyQ15 (samples.getD i 0) (windowQ15 libm i)

/-- **The loops** are those of the radix-2 transform. -/
theorem pairs_fftQ15 (samples : Vector ℤ 1024) {k : ℕ} (hk : k < 1024) :
    pairs (fftQ15 libm samples) k = Radix2.transformWith (stageQ15 libm) 10
      (fun p => (windowedQ15 libm samples (bitReversal 10 p), 0)) k := by
  have hinput : ∀ p < 1024, pairs (bitReverse ⟨.ofFn fun index : Fin 1024 =>
      multiplyQ15 (samples.get index) (windowQ15 libm index), .replicate 1024 0⟩) p =
        (windowedQ15 libm samples (bitReversal 10 p), 0) := by
    intro p hp
    obtain ⟨hreal, himag⟩ := bitReverse_apply (⟨.ofFn fun index : Fin 1024 =>
      multiplyQ15 (samples.get index) (windowQ15 libm index), .replicate 1024 0⟩ :
        ComplexArrays ℤ) hp
    have hlt : bitReversal 10 p < 1024 := bitReversal_lt 10 p
    rw [pairs, getD_eq_getElem?, getD_eq_getElem?, hreal, himag, windowedQ15,
      getD_eq_getElem?]
    simp [hlt, get_eq_getElem]
  rw [fftQ15, pairs_foldl_lengthStepQ15 libm _ le_rfl]
  -- only the items in front of the end are reached
  refine Radix2.carried_transform (R := fun _ => Eq) (fun s _ o _ x y x' y' hx hy => ?_) hinput k hk
  rw [hx, hy]
  exact ⟨rfl, rfl⟩

end Loops

end SpectrumAnalyzer.PrecisionReport
