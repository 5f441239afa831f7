import Mathlib.Algebra.BigOperators.Fin
import SpectrumAnalyzer.Lib.ParityCheck
import SpectrumAnalyzer.Lib.ShiftRegister

/-!
# Cyclic redundancy registers as parity checks

The shift of a register is additive, so the register that a message leaves is the sum of
one word for every one-bit of the message, whatever the rest of the message is: the word
of a bit is a power of the shift, applied to the lowest unit.  As long as the powers do
not return to the unit they are distinct, and when the polynomial has an odd number of
terms they all have odd parity.

## Main definitions

* `shifts` — the shift, iterated, as an additive map.
* `power` — the word of a bit that is followed by so many others.
* `power_injective_of_walk` — the powers up to a checked length are distinct.
* `parity_power` — the powers have odd parity.
* `run_ofFn` — the register as a sum over the bits of the message.
-/

namespace ShiftRegister

open ParityCheck

variable {w k : ℕ} (poly : BitVec w)

/-! ## The shift is additive -/

theorem shift_xor (c d : BitVec w) : shift poly (c ^^^ d) = shift poly c ^^^ shift poly d := by
  simp only [shift]
  rw [BitVec.msb_xor, BitVec.shiftLeft_xor_distrib]
  cases c.msb <;> cases d.msb
  · rfl
  · simp [BitVec.xor_assoc]
  · simp only [Bool.xor_false, if_true, if_false, Bool.false_eq_true]
    rw [BitVec.xor_assoc, BitVec.xor_comm (d <<< 1), BitVec.xor_assoc]
  · simp only [Bool.xor_self, if_true, if_false, Bool.false_eq_true]
    rw [BitVec.xor_assoc, ← BitVec.xor_assoc poly, BitVec.xor_comm poly, BitVec.xor_assoc,
      BitVec.xor_self, BitVec.xor_zero]

theorem shifts_xor (n : ℕ) (c d : BitVec w) :
    (shift poly)^[n] (c ^^^ d) = (shift poly)^[n] c ^^^ (shift poly)^[n] d := by
  induction n generalizing c d with
  | zero => rfl
  | succ n ih => rw [Function.iterate_succ_apply, shift_xor, ih]; rfl

/-- `n` shifts. -/
def shifts (n : ℕ) : Word w →+ Word w :=
  AddMonoidHom.mk' (fun c => ⟨(shift poly)^[n] c.bits⟩) fun c d =>
    Word.ext (shifts_xor poly n c.bits d.bits)

@[simp] theorem bits_shifts (n : ℕ) (c : Word w) :
    (shifts poly n c).bits = (shift poly)^[n] c.bits := rfl

theorem shifts_shifts (m n : ℕ) (c : Word w) :
    shifts poly m (shifts poly n c) = shifts poly (m + n) c :=
  Word.ext (Function.iterate_add_apply _ m n _).symm

theorem shifts_word_injective (hw : 0 < w) (hp : poly.getLsbD 0 = true) (n : ℕ) :
    Function.Injective (shifts poly n) := by
  intro c d h
  exact Word.ext (shifts_injective poly hw hp n (congrArg Word.bits h))

/-! ## Powers -/

/-- The lowest unit, shifted `i` times. -/
def power (i : ℕ) : Word w := ⟨(shift poly)^[i] 1#w⟩

theorem shifts_power (n i : ℕ) : shifts poly n (power poly i) = power poly (n + i) :=
  shifts_shifts poly n i ⟨1#w⟩

/-- The first `w` powers are the units. -/
theorem power_of_lt {i : ℕ} (hi : i < w) : power poly i = ⟨BitVec.twoPow w i⟩ := by
  induction i with
  | zero =>
      apply Word.ext
      change 1#w = BitVec.twoPow w 0
      rw [BitVec.twoPow_zero]
  | succ i ih =>
      have hstep : power poly (i + 1) = ⟨shift poly (power poly i).bits⟩ :=
        Word.ext (Function.iterate_succ_apply' _ _ _)
      have hmsb : (BitVec.twoPow w i).msb = false := by
        rw [BitVec.msb_eq_getLsbD_last, BitVec.getLsbD_twoPow]
        simp
        omega
      rw [hstep, ih (by omega), shift, hmsb, if_neg (by simp)]
      apply Word.ext
      change BitVec.twoPow w i <<< 1 = _
      rw [BitVec.twoPow_eq, BitVec.twoPow_eq, BitVec.shiftLeft_add]

/-- None of the first `n` shifts of `c` is the lowest unit. -/
def walk : ℕ → BitVec w → Bool
  | 0, _ => true
  | n + 1, c => c != 1#w && walk n (shift poly c)

theorem walk_spec {n : ℕ} {c : BitVec w} (h : walk poly n c = true) {i : ℕ} (hi : i < n) :
    (shift poly)^[i] c ≠ 1#w := by
  induction n generalizing c i with
  | zero => exact absurd hi (Nat.not_lt_zero i)
  | succ n ih =>
      rw [walk, Bool.and_eq_true, bne_iff_ne] at h
      cases i with
      | zero => exact h.1
      | succ i => exact ih h.2 (by omega)

/-- The powers are distinct as long as they do not return to the unit. -/
theorem power_injective_of_walk (hw : 0 < w) (hp : poly.getLsbD 0 = true) {n : ℕ}
    (h : walk poly n (shift poly 1#w) = true) {i j : ℕ} (hi : i ≤ n) (hj : j ≤ n)
    (heq : power poly i = power poly j) : i = j := by
  have hless : ∀ {i j}, j ≤ n → i < j → power poly i ≠ power poly j := by
    intro i j hj hij heq
    obtain ⟨d, rfl⟩ := Nat.exists_eq_add_of_lt hij
    have hreturn : power poly 0 = power poly (d + 1) := by
      apply shifts_word_injective poly hw hp i
      rw [shifts_power, shifts_power]
      exact heq
    exact walk_spec poly h (i := d) (by omega) (congrArg Word.bits hreturn).symm
  rcases Nat.lt_trichotomy i j with hij | hij | hij
  · exact absurd heq (hless hj hij)
  · exact hij
  · exact absurd heq.symm (hless hi hij)

/-! ## Parity -/

theorem parity_shiftLeft (c : BitVec w) :
    Word.parity ⟨c <<< 1⟩ + (if c.msb then 1 else 0) = Word.parity ⟨c⟩ := by
  cases w with
  | zero => rw [BitVec.eq_nil c]; rfl
  | succ w =>
      have hlow : Word.bit 0 ⟨c <<< 1⟩ = 0 := (Word.bit_eq_zero_iff _ _).mpr (by simp)
      have hhigh : ∀ i ∈ Finset.range w, Word.bit (i + 1) ⟨c <<< 1⟩ = Word.bit i ⟨c⟩ := by
        intro i hi
        have hiw := Finset.mem_range.mp hi
        rw [Word.bit_apply, Word.bit_apply]
        simp only [BitVec.getLsbD_shiftLeft, Nat.succ_lt_succ hiw, decide_true, Bool.true_and,
          Nat.add_sub_cancel, Nat.not_lt_of_le (Nat.le_add_left 1 i), decide_false, Bool.not_false]
      rw [Word.parity_apply, Word.parity_apply, Finset.sum_range_succ', Finset.sum_range_succ, hlow,
        add_zero, Finset.sum_congr rfl hhigh, BitVec.msb_eq_getLsbD_last]
      rfl

/-- Shifting keeps the parity when the polynomial has an odd number of terms. -/
theorem parity_shift (hodd : Word.parity ⟨poly⟩ = 1) (c : BitVec w) :
    Word.parity ⟨shift poly c⟩ = Word.parity ⟨c⟩ := by
  rw [← parity_shiftLeft c]
  rw [shift]
  split
  · rw [Word.mk_xor, map_add, hodd]
  · rw [add_zero]

theorem parity_one (hw : 0 < w) : Word.parity (⟨1#w⟩ : Word w) = 1 := by
  have hbit : ∀ i ∈ Finset.range w, Word.bit i (⟨1#w⟩ : Word w) = if i = 0 then 1 else 0 := by
    intro i hi
    simp [Word.bit_apply, BitVec.getLsbD_one, hw]
  rw [Word.parity_apply, Finset.sum_congr rfl hbit, Finset.sum_ite_eq',
    if_pos (Finset.mem_range.mpr hw)]

theorem parity_power (hodd : Word.parity ⟨poly⟩ = 1) (hw : 0 < w) (i : ℕ) :
    (power poly i).parity = 1 := by
  induction i with
  | zero => exact parity_one hw
  | succ i ih =>
      have hstep : power poly (i + 1) = ⟨shift poly (power poly i).bits⟩ :=
        Word.ext (Function.iterate_succ_apply' _ _ _)
      rw [hstep, parity_shift poly hodd, ← ih]

/-! ## The register as a sum -/

theorem bit_power {j : ℕ} (hj : j < w) (i : ℕ) :
    Word.bit i (power poly j) = if j = i then 1 else 0 := by
  rw [power_of_lt poly hj, Word.bit_apply, BitVec.getLsbD_twoPow]
  simp only [hj, decide_true, Bool.true_and, decide_eq_true_eq]

/-- A symbol placed inside the register is the sum of the units at its ones. -/
theorem placed_symbol (b : BitVec k) {s : ℕ} (hs : s + k ≤ w) :
    (⟨b.setWidth w <<< s⟩ : Word w) =
      ∑ m : Fin k, if b.getLsbD m then power poly (s + m) else 0 := by
  apply Word.ext_bit
  intro i hi
  have hterm : ∀ m : Fin k, Word.bit i (if b.getLsbD m then power poly (s + m) else 0) =
      if s + m = i then (if b.getLsbD (i - s) then 1 else 0) else 0 := by
    intro m
    rw [apply_ite (Word.bit i), map_zero, bit_power poly (by omega)]
    by_cases h : s + m = i
    · rw [if_pos h, if_pos h, ← h, Nat.add_sub_cancel_left]
    · rw [if_neg h, if_neg h, ite_self]
  rw [map_sum, Finset.sum_congr rfl fun m _ => hterm m, Word.bit_apply, BitVec.getLsbD_shiftLeft,
    BitVec.getLsbD_setWidth]
  by_cases hin : s ≤ i ∧ i - s < k
  · -- only the bit that is placed at `i` counts
    rw [Finset.sum_eq_single_of_mem ⟨i - s, hin.2⟩ (Finset.mem_univ _)]
    · have hiw : i - s < w := by omega
      simp [hi, hiw, hin.1]
    · intro m _ hm
      refine if_neg ?_
      intro h
      exact hm (Fin.ext (by simp only; omega))
  · rw [Finset.sum_eq_zero]
    · rcases Nat.lt_or_ge i s with h | h
      · simp [h]
      · rw [BitVec.getLsbD_of_ge b _ (by omega)]
        simp
    · intro m _
      refine if_neg ?_
      omega

/-- The register after a symbol: what it was and the new symbol, both shifted. -/
theorem absorb_eq (hk : k ≤ w) (c : BitVec w) (b : BitVec k) :
    (⟨absorb poly c b⟩ : Word w) =
      shifts poly k ⟨c⟩ + ∑ m : Fin k, if b.getLsbD m then power poly (w + m) else 0 := by
  have hsymbol : shifts poly k ⟨b.setWidth w <<< (w - k)⟩ =
      ∑ m : Fin k, if b.getLsbD m then power poly (w + m) else 0 := by
    rw [placed_symbol poly b (by omega), map_sum]
    refine Finset.sum_congr rfl ?_
    intro m _
    rw [apply_ite (shifts poly k), map_zero, shifts_power]
    congr 2
    omega
  rw [← hsymbol, ← map_add]
  rfl

/-- **The register is a sum over the bits of the message**, one power for every one. -/
theorem run_ofFn (hk : k ≤ w) {n : ℕ} (message : Fin n → BitVec k) (c : BitVec w) :
    (⟨run poly c (List.ofFn message)⟩ : Word w) = shifts poly (k * n) ⟨c⟩ +
      ∑ i : Fin n, ∑ m : Fin k,
        if (message i).getLsbD m then power poly (w + k * (n - 1 - i) + m) else 0 := by
  induction n generalizing c with
  | zero => simp [List.ofFn_zero, run_nil, Word.ext_iff]
  | succ n ih =>
      rw [List.ofFn_succ, run_cons, ih, Fin.sum_univ_succ]
      have habsorb : shifts poly (k * n) ⟨absorb poly c (message 0)⟩ =
          shifts poly (k * (n + 1)) ⟨c⟩ + ∑ m : Fin k,
            if (message 0).getLsbD m then power poly (w + k * n + m) else 0 := by
        rw [absorb_eq poly hk, map_add, shifts_shifts, map_sum]
        congr 1
        refine Finset.sum_congr rfl ?_
        intro m _
        rw [apply_ite (shifts poly (k * n)), map_zero, shifts_power]
        congr 2
        omega
      rw [habsorb, add_assoc]
      congr 2
      refine Finset.sum_congr rfl ?_
      intro i _
      rw [show n + 1 - 1 - (i.succ : ℕ) = n - 1 - i by rw [Fin.val_succ]; omega]

end ShiftRegister
