import Mathlib.Analysis.SpecialFunctions.Complex.Circle
import SpectrumAnalyzer.Lib.Radix2
import SpectrumAnalyzer.Spectrum.Permutation

/-!
# The transform computes the discrete Fourier transform

With exact real arithmetic the arrays `real` and `imag` are one array of complex numbers.
The innermost assignments are then a butterfly, the running twiddle is a power of the root
of unity of the current length, and the three loops are those of the radix-2 transform.

## Main definitions

* `exactLibm` — the functions of `math.h` without rounding.
* `ComplexArrays.value` — the complex array.
* `value_lengthStep` — one length is one stage.
* `fftInPlace_eq_dft` — the arrays after the call.
-/

namespace SpectrumAnalyzer

open Complex

/-- The functions of `math.h` without rounding. -/
noncomputable def exactLibm : Libm ℝ where
  pi := Real.pi
  cosf := Real.cos
  sinf := Real.sin
  sqrtf := Real.sqrt
  hypotf := fun x y => Real.sqrt (x ^ 2 + y ^ 2)
  isfinite := fun _ => true

/-- The complex array; zero behind the end. -/
noncomputable def ComplexArrays.value (a : ComplexArrays ℝ) (i : ℕ) : ℂ :=
  ⟨a.real.getD i 0, a.imag.getD i 0⟩

/-- The root of unity for blocks of `2 ^ s` items. -/
noncomputable def root (s : ℕ) : ℂ := exp (-2 * Real.pi * I / 2 ^ s)

/-! ## The innermost loop -/

theorem getD_eq_getElem? {α : Type*} {n i : ℕ} (v : Vector α n) (d : α) :
    v.getD i d = v[i]?.getD d := by
  simp [Vector.getD, Array.getD_eq_getD_getElem?]

theorem getD_setIfInBounds {α : Type*} {n i : ℕ} (hi : i < n) (v : Vector α n) (x d : α) (p : ℕ) :
    (v.setIfInBounds i x).getD p d = if p = i then x else v.getD p d := by
  rw [getD_eq_getElem?, Vector.getElem?_setIfInBounds]
  by_cases h : p = i
  · simp [h, hi]
  · simp [h, Ne.symm h, getD_eq_getElem?]

/-- The innermost assignments are a butterfly. -/
theorem value_butterfly (wr wi : ℝ) {even odd : ℕ} (he : even < 1024) (ho : odd < 1024)
    (hne : even ≠ odd) (a : ComplexArrays ℝ) :
    (butterfly wr wi even odd a).value = Radix2.butterfly ⟨wr, wi⟩ even odd a.value := by
  funext p
  simp only [ComplexArrays.value, butterfly, getD_setIfInBounds he, getD_setIfInBounds ho,
    if_neg hne, Radix2.butterfly, Function.update_apply]
  by_cases hpe : p = even
  · simp only [hpe, if_true]
    apply Complex.ext
    · simp
    · simp
  · by_cases hpo : p = odd
    · simp only [hpo, if_true, if_neg hne.symm]
      apply Complex.ext
      · simp
      · simp
    · simp only [if_neg hpe, if_neg hpo]

/-- The root of unity, as the sine and the cosine of the angle that the source takes. -/
theorem root_succ_eq (s : ℕ) :
    root (s + 1) = ⟨Real.cos (-2 * Real.pi / (2 ^ (s + 1) : ℕ)),
      Real.sin (-2 * Real.pi / (2 ^ (s + 1) : ℕ))⟩ := by
  have hangle : -2 * Real.pi * I / 2 ^ (s + 1) =
      ((-2 * Real.pi / (2 ^ (s + 1) : ℕ) : ℝ) : ℂ) * I := by
    push_cast
    ring
  rw [root, hangle]
  apply Complex.ext
  · rw [exp_ofReal_mul_I_re]
  · rw [exp_ofReal_mul_I_im]

theorem root_sq (s : ℕ) : root (s + 1) ^ 2 = root s := by
  rw [root, root, ← exp_nat_mul]
  congr 1
  push_cast
  rw [pow_succ]
  field_simp

theorem root_half (s : ℕ) : root (s + 1) ^ 2 ^ s = -1 := by
  have hturn : ((2 ^ s : ℕ) : ℂ) * (-2 * Real.pi * I / 2 ^ (s + 1)) = -(Real.pi * I) := by
    push_cast
    rw [pow_succ]
    field_simp
  rw [root, ← exp_nat_mul, hturn, exp_neg, exp_pi_mul_I, inv_neg, inv_one]

/-- The loop over the offsets: a block, and the power of the twiddle. -/
theorem foldl_offsetStep (w : ℂ) {half base k : ℕ} (hk : k ≤ half) (hbase : base + 2 * half ≤ 1024)
    (a : ComplexArrays ℝ) :
    let s := (List.range k).foldl (offsetStep w.re w.im half base) ⟨a, 1, 0⟩
    s.arrays.value = Radix2.block w half base k a.value ∧ (⟨s.wr, s.wi⟩ : ℂ) = w ^ k := by
  induction k with
  | zero => exact ⟨rfl, (pow_zero w).symm⟩
  | succ k ih =>
      obtain ⟨harrays, htwiddle⟩ := ih (by omega)
      rw [List.range_succ, List.foldl_append, List.foldl_cons, List.foldl_nil]
      generalize (List.range k).foldl (offsetStep w.re w.im half base) ⟨a, 1, 0⟩ = s
        at harrays htwiddle ⊢
      constructor
      · rw [Radix2.block_succ, ← harrays, ← htwiddle]
        exact value_butterfly _ _ (by omega) (by omega) (by omega) _
      · rw [pow_succ, ← htwiddle]
        apply Complex.ext
        · simp [offsetStep]
        · simp [offsetStep]

/-- The loop over the bases: the blocks of a stage. -/
theorem foldl_baseStep (w : ℂ) {half blocks : ℕ} (hblocks : 2 * half * blocks ≤ 1024)
    (a : ComplexArrays ℝ) :
    ((List.range' 0 blocks (2 * half)).foldl (baseStep w.re w.im half) a).value =
      Radix2.stage w half blocks a.value := by
  induction blocks with
  | zero => rfl
  | succ b ih =>
      rw [Nat.mul_succ] at hblocks
      rw [List.range'_concat, List.foldl_append, Radix2.stage_succ, ← ih (by omega), Nat.zero_add,
        Nat.mul_comm b]
      exact (foldl_offsetStep w le_rfl hblocks _).1

/-- **One length** is one stage. -/
theorem value_lengthStep {s : ℕ} (hs : s < 10) (a : ComplexArrays ℝ) :
    (lengthStep exactLibm a (2 <<< s)).value =
      Radix2.stage (root (s + 1)) (2 ^ s) (2 ^ (9 - s)) a.value := by
  have hlength : 2 <<< s = 2 ^ (s + 1) := by rw [Nat.shiftLeft_eq, pow_succ']
  have hhalf : 2 ^ (s + 1) >>> 1 = 2 ^ s := by
    rw [Nat.shiftRight_one, pow_succ, Nat.mul_div_cancel _ Nat.two_pos]
  have hsize : 2 ^ (s + 1) * 2 ^ (9 - s) = 1024 := by
    rw [← pow_add, show s + 1 + (9 - s) = 10 by omega]
    rfl
  have hblocks : 1024 / 2 ^ (s + 1) = 2 ^ (9 - s) := by
    rw [← hsize, Nat.mul_div_cancel_left _ (Nat.two_pow_pos _)]
  have htwo : (-2.0 : ℝ) = -2 := by norm_num
  rw [lengthStep, hlength, hhalf, hblocks, root_succ_eq]
  simp only [htwo]
  rw [pow_succ'] at hsize
  have hstage := foldl_baseStep (root (s + 1)) hsize.le a
  rw [root_succ_eq, ← pow_succ'] at hstage
  exact hstage

theorem foldl_lengthStep (a : ComplexArrays ℝ) {s : ℕ} (hs : s ≤ 10) :
    (((List.range s).map (2 <<< ·)).foldl (lengthStep exactLibm) a).value =
      (List.range s).foldl (fun a s => Radix2.stage (root (s + 1)) (2 ^ s) (2 ^ (10 - 1 - s)) a)
        a.value := by
  induction s with
  | zero => rfl
  | succ s ih =>
      rw [List.range_succ, List.map_append, List.foldl_append, List.foldl_append, ← ih (by omega)]
      exact value_lengthStep hs _

/-- **The loops** are those of the radix-2 transform. -/
theorem value_fftInPlace (a : ComplexArrays ℝ) :
    (fftInPlace exactLibm a).value = Radix2.transform root 10 (bitReverse a).value :=
  foldl_lengthStep (bitReverse a) le_rfl

theorem value_bitReverse (a : ComplexArrays ℝ) {i : ℕ} (hi : i < 1024) :
    (bitReverse a).value i = a.value (bitReversal 10 i) := by
  obtain ⟨hreal, himag⟩ := bitReverse_apply a hi
  simp only [ComplexArrays.value, getD_eq_getElem?, hreal, himag]

/-- **The portable FFT computes the discrete Fourier transform.** -/
theorem fftInPlace_eq_dft (a : ComplexArrays ℝ) (k : Fin 1024) :
    (⟨(fftInPlace exactLibm a).real.get k, (fftInPlace exactLibm a).imag.get k⟩ : ℂ) =
      ∑ n : Fin 1024, (⟨a.real.get n, a.imag.get n⟩ : ℂ) *
        exp (-2 * Real.pi * I * n.val * k.val / 1024) := by
  have hvalue : ∀ (b : ComplexArrays ℝ) (i : Fin 1024),
      b.value i.val = ⟨b.real.get i, b.imag.get i⟩ := by
    intro b i
    simp [ComplexArrays.value, getD_eq_getElem?, get_eq_getElem]
  have hpower : ∀ n : ℕ, root 10 ^ (n * k.val) = exp (-2 * Real.pi * I * n * k.val / 1024) := by
    intro n
    rw [root, ← exp_nat_mul]
    congr 1
    push_cast
    ring
  calc (⟨(fftInPlace exactLibm a).real.get k, (fftInPlace exactLibm a).imag.get k⟩ : ℂ)
      = Radix2.transform root 10 (bitReverse a).value k := by rw [← hvalue, value_fftInPlace]
    _ = Radix2.dft (root 10) 1024 a.value k :=
        Radix2.transform_eq_dft root_sq root_half (fun _ hq => value_bitReverse a hq) k.isLt
    _ = ∑ n : Fin 1024, a.value n.val * root 10 ^ (n.val * k.val) := by
        rw [Radix2.dft, Finset.sum_range]
    _ = _ := by
        refine Finset.sum_congr rfl ?_
        intro n _
        rw [hvalue, hpower]

end SpectrumAnalyzer
