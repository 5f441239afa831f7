import Mathlib.RingTheory.AdjoinRoot
import SpectrumAnalyzer.Lib.CyclicCode

/-!
# Cyclic redundancy registers as remainders

The bits of a register are the coefficients of a polynomial over the field of two
elements.  Modulo the generator, a shift is a multiplication by `X`: the one that falls
out at the top is exactly what the added polynomial makes up for.  So a register holds the
remainder of the message, moved up by the width, plus the start value, moved up by the
length of the message.

## Main definitions

* `toPolynomial`, `ofBits` — the polynomial of a word, and of a string of bits.
* `generator` — the monic polynomial of a register.
* `residue_shift`, `residue_run` — what a register holds, modulo the generator.
* `toPolynomial_run` — the register after a message is a remainder.
-/

namespace ShiftRegister

open ParityCheck Polynomial

variable {w k : ℕ}

/-! ## Polynomials of words -/

/-- Bit `i` is the coefficient of `X ^ i`. -/
noncomputable def toPolynomial : Word w →+ (ZMod 2)[X] :=
  ∑ i ∈ Finset.range w, (monomial i).toAddMonoidHom.comp (Word.bit i)

theorem toPolynomial_apply (c : Word w) :
    toPolynomial c = ∑ i ∈ Finset.range w, monomial i (Word.bit i c) := by
  rw [toPolynomial, AddMonoidHom.finsetSum_apply]
  rfl

@[simp] theorem coeff_toPolynomial (c : Word w) (i : ℕ) :
    (toPolynomial c).coeff i = Word.bit i c := by
  rw [toPolynomial_apply, finsetSum_coeff]
  simp only [coeff_monomial]
  rw [Finset.sum_ite_eq']
  by_cases h : i < w
  · rw [if_pos (Finset.mem_range.mpr h)]
  · rw [if_neg (mt Finset.mem_range.mp h), eq_comm, Word.bit_eq_zero_iff]
    exact BitVec.getLsbD_of_ge _ _ (Nat.le_of_not_lt h)

theorem degree_toPolynomial_lt (c : Word w) : (toPolynomial c).degree < w := by
  rw [degree_lt_iff_coeff_zero]
  intro i hi
  rw [coeff_toPolynomial, Word.bit_eq_zero_iff]
  exact BitVec.getLsbD_of_ge _ _ hi

/-- A symbol placed inside a word is multiplied by a power. -/
theorem toPolynomial_placed (b : BitVec k) {s : ℕ} (hs : s + k ≤ w) :
    toPolynomial (⟨b.setWidth w <<< s⟩ : Word w) = toPolynomial ⟨b⟩ * X ^ s := by
  ext i
  rw [coeff_toPolynomial, coeff_mul_X_pow', coeff_toPolynomial, Word.bit_apply, Word.bit_apply,
    BitVec.getLsbD_shiftLeft, BitVec.getLsbD_setWidth]
  rcases Nat.lt_or_ge i s with h | h
  · simp [h]
  · rw [if_pos h]
    by_cases hb : i - s < k
    · simp [show i < w by omega, show i - s < w by omega, Nat.not_lt.mpr h]
    · rw [BitVec.getLsbD_of_ge b _ (by omega)]
      simp

/-- What falls out at the top is the coefficient of `X ^ w`. -/
theorem toPolynomial_shiftLeft (c : BitVec w) :
    toPolynomial (⟨c <<< 1⟩ : Word w) + (if c.msb then X ^ w else 0) = X * toPolynomial ⟨c⟩ := by
  have htop : ∀ i, (if c.msb then X ^ w else 0 : (ZMod 2)[X]).coeff i =
      if i = w ∧ c.msb then 1 else 0 := by
    intro i
    cases c.msb <;> simp [coeff_X_pow]
  ext i
  rw [coeff_add, coeff_toPolynomial, htop, Word.bit_apply, BitVec.getLsbD_shiftLeft,
    BitVec.msb_eq_getLsbD_last]
  cases i with
  | zero =>
      by_cases hw : w = 0
      · subst hw
        simp
      · simp [Ne.symm hw]
  | succ i =>
      rw [coeff_X_mul, coeff_toPolynomial, Word.bit_apply]
      rcases lt_trichotomy (i + 1) w with h | h | h
      · simp [h, h.ne]
      · subst h
        simp
      · rw [BitVec.getLsbD_of_ge c i (by omega)]
        simp [h.ne', Nat.not_lt.mpr h.le]

/-! ## The generator -/

section Generator
variable (poly : BitVec w)

/-- The polynomial of a register of width `w`; its leading term is not stored. -/
noncomputable def generator : (ZMod 2)[X] := X ^ w + toPolynomial ⟨poly⟩

theorem monic_generator : (generator poly).Monic := monic_X_pow_add (degree_toPolynomial_lt _)

theorem degree_generator : (generator poly).degree = w := by
  have hlt := degree_toPolynomial_lt (⟨poly⟩ : Word w)
  rw [generator, degree_add_eq_left_of_degree_lt (by rwa [degree_X_pow]), degree_X_pow]

/-- **A shift** multiplies by `X`, up to the generator. -/
theorem toPolynomial_shift (c : BitVec w) :
    toPolynomial ⟨shift poly c⟩ + (if c.msb then generator poly else 0) =
      X * toPolynomial ⟨c⟩ := by
  rw [← toPolynomial_shiftLeft, shift]
  cases c.msb with
  | false => rfl
  | true =>
      simp only [if_true]
      rw [Word.mk_xor, map_add, generator, add_assoc, add_left_comm (toPolynomial ⟨poly⟩),
        CharTwo.add_self_eq_zero, add_zero]

/-- What a word stands for, modulo the generator. -/
noncomputable def residue (c : BitVec w) : AdjoinRoot (generator poly) :=
  AdjoinRoot.mk (generator poly) (toPolynomial ⟨c⟩)

theorem residue_xor (c d : BitVec w) :
    residue poly (c ^^^ d) = residue poly c + residue poly d := by
  rw [residue, Word.mk_xor, map_add, map_add]
  rfl

theorem residue_shift (c : BitVec w) :
    residue poly (shift poly c) = AdjoinRoot.root (generator poly) * residue poly c := by
  have h := congrArg (AdjoinRoot.mk (generator poly)) (toPolynomial_shift poly c)
  rw [map_add, map_mul, AdjoinRoot.mk_X, apply_ite (AdjoinRoot.mk _), AdjoinRoot.mk_self, map_zero,
    ite_self, add_zero] at h
  exact h

theorem residue_shifts (n : ℕ) (c : BitVec w) :
    residue poly ((shift poly)^[n] c) = AdjoinRoot.root (generator poly) ^ n * residue poly c := by
  induction n with
  | zero => rw [Function.iterate_zero_apply, pow_zero, one_mul]
  | succ n ih => rw [Function.iterate_succ_apply', residue_shift, ih, pow_succ', mul_assoc]

/-- **A symbol** moves the register up by its width, and comes in above the register. -/
theorem residue_absorb (hk : k ≤ w) (c : BitVec w) (b : BitVec k) :
    residue poly (absorb poly c b) =
      AdjoinRoot.root (generator poly) ^ k * residue poly c +
        AdjoinRoot.root (generator poly) ^ w *
          AdjoinRoot.mk (generator poly) (toPolynomial ⟨b⟩) := by
  have hplaced : residue poly (b.setWidth w <<< (w - k)) =
      AdjoinRoot.mk (generator poly) (toPolynomial ⟨b⟩) *
        AdjoinRoot.root (generator poly) ^ (w - k) := by
    rw [residue, toPolynomial_placed b (by omega), map_mul, map_pow, AdjoinRoot.mk_X]
  rw [absorb, residue_shifts, residue_xor, hplaced, mul_add, mul_left_comm, ← pow_add,
    Nat.add_sub_cancel' hk, mul_comm (AdjoinRoot.mk _ _)]

end Generator

/-! ## Messages -/

/-- The polynomial of a string of bits, which starts with the highest coefficient. -/
noncomputable def ofBits : List Bool → (ZMod 2)[X]
  | [] => 0
  | bit :: bits => (if bit then X ^ bits.length else 0) + ofBits bits

theorem ofBits_append (xs ys : List Bool) :
    ofBits (xs ++ ys) = ofBits xs * X ^ ys.length + ofBits ys := by
  induction xs with
  | nil => rw [List.nil_append, ofBits, zero_mul, zero_add]
  | cons x xs ih =>
      rw [List.cons_append, ofBits, ofBits, ih, List.length_append, add_mul, ite_mul, zero_mul,
        pow_add, add_assoc]

/-- The bits of a symbol, most significant first. -/
def msbFirst (b : BitVec k) : List Bool := (List.range k).map b.getMsbD

@[simp] theorem length_msbFirst (b : BitVec k) : (msbFirst b).length = k := by
  rw [msbFirst, List.length_map, List.length_range]

/-- The first of the low bits has the highest power. -/
theorem ofBits_map_range (f : ℕ → Bool) (n : ℕ) :
    ofBits ((List.range n).map fun i => f (n - 1 - i)) =
      ∑ i ∈ Finset.range n, monomial i (if f i then 1 else 0) := by
  induction n with
  | zero => rfl
  | succ n ih =>
      have htail : ((List.range n).map Nat.succ).map (fun i => f (n + 1 - 1 - i)) =
          (List.range n).map fun i => f (n - 1 - i) := by
        rw [List.map_map]
        refine List.map_congr_left ?_
        intro i _
        rw [Function.comp_apply, Nat.succ_eq_add_one, show n + 1 - 1 - (i + 1) = n - 1 - i by omega]
      rw [List.range_succ_eq_map, List.map_cons, ofBits, htail, ih, Finset.sum_range_succ, add_comm,
        List.length_map, List.length_range, Nat.add_sub_cancel, Nat.sub_zero]
      cases f n <;> simp [monomial_one_right_eq_X_pow]

theorem ofBits_msbFirst (b : BitVec k) : ofBits (msbFirst b) = toPolynomial ⟨b⟩ := by
  have hbits : msbFirst b = (List.range k).map fun i => b.getLsbD (k - 1 - i) := by
    refine List.map_congr_left ?_
    intro i hi
    rw [BitVec.getMsbD, decide_eq_true (List.mem_range.mp hi), Bool.true_and]
  rw [hbits, ofBits_map_range, toPolynomial_apply]
  rfl

theorem length_flatMap_msbFirst (message : List (BitVec k)) :
    (message.flatMap msbFirst).length = k * message.length := by
  induction message with
  | nil => rfl
  | cons b bs ih =>
      rw [List.flatMap_cons, List.length_append, ih, length_msbFirst, List.length_cons,
        Nat.mul_succ, Nat.add_comm]

section Run
variable (poly : BitVec w)

/-- **A message**, modulo the generator. -/
theorem residue_run (hk : k ≤ w) (c : BitVec w) (message : List (BitVec k)) :
    residue poly (run poly c message) = AdjoinRoot.mk (generator poly)
      (ofBits (message.flatMap msbFirst) * X ^ w +
        toPolynomial ⟨c⟩ * X ^ (k * message.length)) := by
  induction message generalizing c with
  | nil => simp [residue, ofBits]
  | cons b bs ih =>
      rw [run_cons, ih, List.flatMap_cons, ofBits_append, ofBits_msbFirst,
        length_flatMap_msbFirst, List.length_cons]
      have habsorb := residue_absorb poly hk c b
      simp only [residue] at habsorb
      simp only [map_add, map_mul, map_pow, AdjoinRoot.mk_X]
      rw [habsorb]
      ring

/-- **The register is a remainder.** -/
theorem toPolynomial_run (hk : k ≤ w) (c : BitVec w) (message : List (BitVec k)) :
    toPolynomial ⟨run poly c message⟩ =
      (ofBits (message.flatMap msbFirst) * X ^ w + toPolynomial ⟨c⟩ * X ^ (k * message.length)) %ₘ
        generator poly := by
  have hself : toPolynomial ⟨run poly c message⟩ %ₘ generator poly =
      toPolynomial ⟨run poly c message⟩ := by
    rw [modByMonic_eq_self_iff (monic_generator poly), degree_generator]
    exact degree_toPolynomial_lt _
  rw [← hself]
  exact modByMonic_eq_of_dvd_sub (monic_generator poly)
    (AdjoinRoot.mk_eq_mk.mp (residue_run poly hk c message))

end Run

end ShiftRegister
