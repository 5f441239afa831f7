import Mathlib.Algebra.BigOperators.Group.Finset.Basic
import Mathlib.Algebra.BigOperators.Ring.Finset
import Mathlib.Tactic.LinearCombination
import SpectrumAnalyzer.Lib.BitReversal

/-!
# The radix-2 transform

The fast Fourier transform with decimation in time, over any commutative ring with the
roots of unity it needs.  An array is a function on the natural numbers.  The input is in
bit-reversed order; after the stage for blocks of `2 ^ s` items, every block holds the
transform of the items whose numbers agree in the lower digits.

## Main definitions

* `dft` — the discrete Fourier transform, as a sum.
* `butterfly`, `block`, `stage`, `transform` — the loops of the fast one.
* `Transformed` — the invariant between two stages.
* `transform_eq_dft` — the fast transform of the reversed input is the transform.
-/

namespace Radix2

variable {R : Type*} [CommRing R]

/-! ## The transform as a sum -/

/-- The discrete Fourier transform of the first `n` items, with the root `ω`. -/
def dft (ω : R) (n : ℕ) (x : ℕ → R) (k : ℕ) : R := ∑ i ∈ Finset.range n, x i * ω ^ (i * k)

theorem dft_one (ω : R) (x : ℕ → R) (k : ℕ) : dft ω 1 x k = x 0 := by
  rw [dft, Finset.sum_range_one, Nat.zero_mul, pow_zero, mul_one]

theorem sum_range_two_mul (f : ℕ → R) (n : ℕ) :
    ∑ i ∈ Finset.range (2 * n), f i =
      ∑ i ∈ Finset.range n, f (2 * i) + ∑ i ∈ Finset.range n, f (2 * i + 1) := by
  induction n with
  | zero => simp
  | succ n ih =>
      rw [Nat.mul_succ, Finset.sum_range_succ, Finset.sum_range_succ, ih, Finset.sum_range_succ,
        Finset.sum_range_succ]
      ring

/-- The transform of twice as many items, from those with even and with odd numbers. -/
theorem dft_two_mul (ω : R) (n : ℕ) (x : ℕ → R) (k : ℕ) :
    dft ω (2 * n) x k =
      dft (ω ^ 2) n (fun i => x (2 * i)) k + ω ^ k * dft (ω ^ 2) n (fun i => x (2 * i + 1)) k := by
  rw [dft, sum_range_two_mul, dft, dft, Finset.mul_sum]
  congr 1
  · refine Finset.sum_congr rfl ?_
    intro i _
    rw [← pow_mul, ← Nat.mul_assoc]
  · refine Finset.sum_congr rfl ?_
    intro i _
    rw [← pow_mul, show (2 * i + 1) * k = k + 2 * (i * k) by ring, pow_add]
    ring

/-- Half a turn further the items with odd numbers change sign. -/
theorem dft_two_mul_add {ω : R} {n : ℕ} (hω : ω ^ n = -1) (x : ℕ → R) (k : ℕ) :
    dft ω (2 * n) x (k + n) =
      dft (ω ^ 2) n (fun i => x (2 * i)) k - ω ^ k * dft (ω ^ 2) n (fun i => x (2 * i + 1)) k := by
  have hperiod : ∀ y : ℕ → R, dft (ω ^ 2) n y (k + n) = dft (ω ^ 2) n y k := by
    intro y
    refine Finset.sum_congr rfl ?_
    intro i _
    rw [Nat.mul_add, pow_add, ← pow_mul ω, ← pow_mul ω, show 2 * (i * n) = n * (2 * i) by ring,
      pow_mul ω n, hω, pow_mul (-1 : R), neg_one_sq, one_pow, mul_one, pow_mul]
  rw [dft_two_mul, hperiod, hperiod, pow_add, hω]
  ring

/-! ## The loops -/

/-- One butterfly. -/
def butterfly (w : R) (even odd : ℕ) (a : ℕ → R) : ℕ → R :=
  Function.update (Function.update a odd (a even - w * a odd)) even (a even + w * a odd)

/-- The first `k` butterflies of a block whose halves have `half` items. -/
def block (w : R) (half base k : ℕ) (a : ℕ → R) : ℕ → R :=
  (List.range k).foldl (fun a o => butterfly (w ^ o) (base + o) (base + o + half) a) a

/-- The first blocks of a stage. -/
def stage (w : R) (half blocks : ℕ) (a : ℕ → R) : ℕ → R :=
  (List.range blocks).foldl (fun a q => block w half (q * (2 * half)) half a) a

/-- The stages; the `s`-th has blocks of `2 ^ (s + 1)` items. -/
def transform (ω : ℕ → R) (m : ℕ) (a : ℕ → R) : ℕ → R :=
  (List.range m).foldl (fun a s => stage (ω (s + 1)) (2 ^ s) (2 ^ (m - 1 - s)) a) a

section Block
variable {w : R} {half base k : ℕ} {a : ℕ → R}

theorem block_succ (w : R) (half base k : ℕ) (a : ℕ → R) :
    block w half base (k + 1) a =
      butterfly (w ^ k) (base + k) (base + k + half) (block w half base k a) := by
  rw [block, List.range_succ, List.foldl_append]
  rfl

/-- What a block does not reach stays as it was. -/
theorem block_of_untouched {p : ℕ} (h : ∀ o < k, p ≠ base + o ∧ p ≠ base + o + half) :
    block w half base k a p = a p := by
  induction k with
  | zero => rfl
  | succ k ih =>
      obtain ⟨hlow, hhigh⟩ := h k (Nat.lt_succ_self k)
      rw [block_succ, butterfly, Function.update_of_ne hlow, Function.update_of_ne hhigh]
      exact ih fun o ho => h o (Nat.lt_succ_of_lt ho)

/-- **A block** combines its lower and its upper half. -/
theorem block_apply (hk : k ≤ half) {o : ℕ} (ho : o < k) :
    block w half base k a (base + o) = a (base + o) + w ^ o * a (base + o + half) ∧
      block w half base k a (base + o + half) = a (base + o) - w ^ o * a (base + o + half) := by
  induction k with
  | zero => exact absurd ho (Nat.not_lt_zero o)
  | succ k ih =>
      rw [block_succ, butterfly]
      rcases Nat.lt_succ_iff_lt_or_eq.mp ho with hlt | rfl
      · obtain ⟨hlow, hhigh⟩ := ih (by omega) hlt
        rw [Function.update_of_ne (by omega), Function.update_of_ne (by omega),
          Function.update_of_ne (by omega), Function.update_of_ne (by omega)]
        exact ⟨hlow, hhigh⟩
      · -- neither item has been reached before
        have hlow : block w half base o a (base + o) = a (base + o) :=
          block_of_untouched fun i hi => ⟨by omega, by omega⟩
        have hhigh : block w half base o a (base + o + half) = a (base + o + half) :=
          block_of_untouched fun i hi => ⟨by omega, by omega⟩
        rw [Function.update_self, Function.update_of_ne (by omega), Function.update_self, hlow,
          hhigh]
        exact ⟨rfl, rfl⟩

end Block

section Stage
variable {w : R} {half blocks : ℕ} {a : ℕ → R}

theorem stage_succ (w : R) (half blocks : ℕ) (a : ℕ → R) :
    stage w half (blocks + 1) a =
      block w half (blocks * (2 * half)) half (stage w half blocks a) := by
  rw [stage, List.range_succ, List.foldl_append]
  rfl

/-- Later blocks stay as they were. -/
theorem stage_of_le {p : ℕ} (h : blocks * (2 * half) ≤ p) : stage w half blocks a p = a p := by
  induction blocks with
  | zero => rfl
  | succ b ih =>
      rw [Nat.succ_mul] at h
      rw [stage_succ, block_of_untouched fun o ho => ⟨by omega, by omega⟩]
      exact ih (by omega)

/-- **A stage** combines the halves of every block. -/
theorem stage_apply {q o : ℕ} (hq : q < blocks) (ho : o < half) :
    stage w half blocks a (q * (2 * half) + o) =
        a (q * (2 * half) + o) + w ^ o * a (q * (2 * half) + o + half) ∧
      stage w half blocks a (q * (2 * half) + o + half) =
        a (q * (2 * half) + o) - w ^ o * a (q * (2 * half) + o + half) := by
  induction blocks with
  | zero => exact absurd hq (Nat.not_lt_zero q)
  | succ b ih =>
      rw [stage_succ]
      rcases Nat.lt_succ_iff_lt_or_eq.mp hq with hlt | rfl
      · have hle : (q + 1) * (2 * half) ≤ b * (2 * half) := Nat.mul_le_mul_right _ hlt
        rw [Nat.succ_mul] at hle
        rw [block_of_untouched fun i hi => ⟨by omega, by omega⟩,
          block_of_untouched fun i hi => ⟨by omega, by omega⟩]
        exact ih hlt
      · have hlow : stage w half q a (q * (2 * half) + o) = a (q * (2 * half) + o) :=
          stage_of_le (by omega)
        have hhigh : stage w half q a (q * (2 * half) + o + half) =
            a (q * (2 * half) + o + half) := stage_of_le (by omega)
        rw [← hlow, ← hhigh]
        exact block_apply le_rfl ho

end Stage

/-! ## The invariant -/

/-- Every block of `2 ^ s` items holds the transform of the items of `x` whose numbers end in
the `t` digits of the block, read backwards. -/
def Transformed (s t : ℕ) (ω : R) (x a : ℕ → R) : Prop :=
  ∀ q < 2 ^ t, ∀ k < 2 ^ s,
    a (q * 2 ^ s + k) = dft ω (2 ^ s) (fun n => x (n * 2 ^ t + bitReversal t q)) k

/-- The input in bit-reversed order. -/
theorem transformed_zero {t : ℕ} {x a : ℕ → R} (ω : R)
    (h : ∀ q < 2 ^ t, a q = x (bitReversal t q)) : Transformed 0 t ω x a := by
  intro q hq k hk
  obtain rfl : k = 0 := by simpa using hk
  rw [pow_zero, dft_one, Nat.zero_mul, Nat.zero_add, Nat.mul_one, Nat.add_zero]
  exact h q hq

/-- **One stage.** -/
theorem Transformed.stage {s t : ℕ} {ω : R} {x a : ℕ → R} (h : Transformed s (t + 1) (ω ^ 2) x a)
    (hω : ω ^ 2 ^ s = -1) : Transformed (s + 1) t ω x (stage ω (2 ^ s) (2 ^ t) a) := by
  intro q hq k hk
  have hlow : ∀ o < 2 ^ s, a (q * (2 * 2 ^ s) + o) =
      dft (ω ^ 2) (2 ^ s) (fun n => x (2 * n * 2 ^ t + bitReversal t q)) o := by
    intro o ho
    have hblock := h (2 * q) (by rw [pow_succ]; omega) o ho
    rw [bitReversal_two_mul, show 2 * q * 2 ^ s = q * (2 * 2 ^ s) by ring] at hblock
    simpa only [pow_succ', mul_left_comm, mul_assoc] using hblock
  have hhigh : ∀ o < 2 ^ s, a (q * (2 * 2 ^ s) + o + 2 ^ s) =
      dft (ω ^ 2) (2 ^ s) (fun n => x ((2 * n + 1) * 2 ^ t + bitReversal t q)) o := by
    intro o ho
    have hblock := h (2 * q + 1) (by rw [pow_succ]; omega) o ho
    rw [bitReversal_two_mul_add_one,
      show (2 * q + 1) * 2 ^ s + o = q * (2 * 2 ^ s) + o + 2 ^ s by ring] at hblock
    have hindex : ∀ n, n * 2 ^ (t + 1) + (2 ^ t + bitReversal t q) =
        (2 * n + 1) * 2 ^ t + bitReversal t q := by
      intro n
      ring
    simpa only [hindex] using hblock
  rw [pow_succ'] at hk ⊢
  rcases Nat.lt_or_ge k (2 ^ s) with hlt | hge
  · rw [(stage_apply hq hlt).1, hlow k hlt, hhigh k hlt, dft_two_mul]
  · obtain ⟨o, rfl⟩ := Nat.exists_eq_add_of_le' hge
    have ho : o < 2 ^ s := by omega
    rw [← Nat.add_assoc, (stage_apply hq ho).2, hlow o ho, hhigh o ho, dft_two_mul_add hω]

/-- **The fast transform.** -/
theorem transform_eq_dft {ω : ℕ → R} {m : ℕ} (hsq : ∀ s, ω (s + 1) ^ 2 = ω s)
    (hneg : ∀ s, ω (s + 1) ^ 2 ^ s = -1) {x a : ℕ → R}
    (h : ∀ q < 2 ^ m, a q = x (bitReversal m q)) {k : ℕ} (hk : k < 2 ^ m) :
    transform ω m a k = dft (ω m) (2 ^ m) x k := by
  have hstages : ∀ s ≤ m, Transformed s (m - s) (ω s) x ((List.range s).foldl
      (fun a s => Radix2.stage (ω (s + 1)) (2 ^ s) (2 ^ (m - 1 - s)) a) a) := by
    intro s hs
    induction s with
    | zero => exact transformed_zero (ω 0) h
    | succ s ih =>
        have hbefore := ih (by omega)
        rw [show m - s = m - (s + 1) + 1 by omega, ← hsq] at hbefore
        rw [List.range_succ, List.foldl_append, List.foldl_cons, List.foldl_nil,
          show m - 1 - s = m - (s + 1) by omega]
        exact hbefore.stage (hneg s)
  have hlast := hstages m le_rfl
  rw [Nat.sub_self] at hlast
  have hblock := hlast 0 Nat.one_pos k hk
  rw [Nat.zero_mul, Nat.zero_add] at hblock
  simpa [transform, bitReversal] using hblock

end Radix2
