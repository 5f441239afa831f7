import SpectrumAnalyzer.Lib.BitReversal
import SpectrumAnalyzer.Spectrum.Portable

/-!
# The bit-reversal permutation

The counter `j` of `bit_reverse` runs through the reversed numbers: the carry clears ones
from the top and sets the first zero.  With that, the loop exchanges every item with the
one at the reversed index, once.

## Main definitions

* `reversedCounter_bitReversal` — the counter is advanced to the next reversed number.
* `bitReverse_apply` — both arrays are permuted.
* `bitReverse_permutes` — the permutation, digit by digit, and its inverse.
-/

namespace SpectrumAnalyzer

/-! ## The counter -/

theorem and_two_pow_of_lt {m r : ℕ} (h : r < 2 ^ m) : r &&& 2 ^ m = 0 := by
  rw [Nat.and_two_pow, Nat.testBit_lt_two_pow h]
  exact Nat.zero_mul _

/-- Setting the top digit. -/
theorem xor_two_pow_of_lt {m r : ℕ} (h : r < 2 ^ m) : r ^^^ 2 ^ m = 2 ^ m + r := by
  have hor := Nat.two_pow_add_eq_or_of_lt h 1
  rw [Nat.mul_one] at hor
  rw [hor]
  apply Nat.eq_of_testBit_eq
  intro i
  rw [Nat.testBit_xor, Nat.testBit_or, Nat.testBit_two_pow]
  by_cases hi : m = i
  · subst hi
    simp [Nat.testBit_lt_two_pow h]
  · simp [hi]

/-- Clearing it again. -/
theorem two_pow_add_xor {m r : ℕ} (h : r < 2 ^ m) : (2 ^ m + r) ^^^ 2 ^ m = r := by
  rw [← xor_two_pow_of_lt h, Nat.xor_assoc, Nat.xor_self, Nat.xor_zero]

theorem two_pow_add_and {m r : ℕ} (h : r < 2 ^ m) : (2 ^ m + r) &&& 2 ^ m ≠ 0 := by
  rw [Nat.and_two_pow, Nat.testBit_two_pow_add_eq, Nat.testBit_lt_two_pow h]
  simp

/-- **The counter** runs through the reversed numbers. -/
theorem reversedCounter_bitReversal (m : ℕ) {i : ℕ} (hi : i + 1 < 2 ^ (m + 1)) :
    reversedCounter (bitReversal (m + 1) i) (2 ^ m) = bitReversal (m + 1) (i + 1) := by
  have heven : ∀ m i, i % 2 = 0 →
      reversedCounter (bitReversal (m + 1) i) (2 ^ m) = bitReversal (m + 1) (i + 1) := by
    intro m i h
    have hlow : bitReversal (m + 1) i < 2 ^ m := by
      rw [bitReversal, h, Nat.mul_zero, Nat.zero_add]
      exact bitReversal_lt m (i / 2)
    rw [reversedCounter, if_neg (not_not_intro (and_two_pow_of_lt hlow)), xor_two_pow_of_lt hlow,
      bitReversal_succ_of_even h]
  induction m generalizing i with
  | zero => exact heven 0 i (by omega)
  | succ m ih =>
      rcases Nat.mod_two_eq_zero_or_one i with h | h
      · exact heven (m + 1) i h
      · obtain ⟨htop, hnext⟩ := bitReversal_succ_of_odd (m := m + 1) h
        have hlow := bitReversal_lt (m + 1) (i / 2)
        have hhalf : 2 ^ (m + 1) >>> 1 = 2 ^ m := by
          rw [Nat.shiftRight_one, pow_succ, Nat.mul_div_cancel _ Nat.two_pos]
        rw [htop, reversedCounter, if_pos (two_pow_add_and hlow), two_pow_add_xor hlow, hhalf,
          hnext]
        exact ih (by rw [pow_succ] at hi; omega)

/-! ## The loop -/

section Loop
variable {α : Type*}

/-- What the loop has done after `i = k`. -/
theorem foldl_bitReverseStep (arrays : ComplexArrays α) {k : ℕ} (hk : k < 1024) :
    (List.range' 1 k).foldl bitReverseStep ⟨0, arrays⟩ =
      ⟨bitReversal 10 k, (List.range (k + 1)).foldl (exchange (bitReversal 10)) arrays.real,
        (List.range (k + 1)).foldl (exchange (bitReversal 10)) arrays.imag⟩ := by
  induction k with
  | zero => rfl
  | succ k ih =>
      have hcounter : reversedCounter (bitReversal 10 k) (1024 >>> 1) = bitReversal 10 (k + 1) :=
        reversedCounter_bitReversal 9 hk
      rw [List.range'_concat, List.foldl_append, ih (by omega), List.range_succ (n := k + 1),
        List.foldl_append, List.foldl_append, Nat.one_mul, Nat.add_comm 1 k]
      simp only [List.foldl_cons, List.foldl_nil, bitReverseStep, exchange, hcounter]
      split
      · rfl
      · rfl

/-- **The permutation**: every item goes to the reversed index. -/
theorem bitReverse_apply (arrays : ComplexArrays α) {i : ℕ} (hi : i < 1024) :
    (bitReverse arrays).real[i]? = arrays.real[bitReversal 10 i]? ∧
      (bitReverse arrays).imag[i]? = arrays.imag[bitReversal 10 i]? := by
  have hlt : ∀ i < 1024, bitReversal 10 i < 1024 := fun i _ => bitReversal_lt 10 i
  have hinv : ∀ i < 1024, bitReversal 10 (bitReversal 10 i) = i :=
    fun i hi => bitReversal_bitReversal 10 hi
  have hall : min i (bitReversal 10 i) < 1024 := (min_le_left _ _).trans_lt hi
  rw [bitReverse, foldl_bitReverseStep arrays (by decide)]
  dsimp only
  rw [getElem?_foldl_exchange hlt hinv _ le_rfl hi, getElem?_foldl_exchange hlt hinv _ le_rfl hi,
    if_pos hall, if_pos hall]
  exact ⟨rfl, rfl⟩

/-- A second call undoes the first. -/
theorem bitReverse_bitReverse (arrays : ComplexArrays α) :
    bitReverse (bitReverse arrays) = arrays := by
  have hback : ∀ i < 1024, (bitReverse (bitReverse arrays)).real[i]? = arrays.real[i]? ∧
      (bitReverse (bitReverse arrays)).imag[i]? = arrays.imag[i]? := by
    intro i hi
    have hsecond := bitReverse_apply (bitReverse arrays) hi
    have hfirst := bitReverse_apply arrays (bitReversal_lt 10 i)
    rw [bitReversal_bitReversal 10 hi] at hfirst
    exact ⟨hsecond.1.trans hfirst.1, hsecond.2.trans hfirst.2⟩
  have hreal : (bitReverse (bitReverse arrays)).real = arrays.real :=
    Vector.ext fun i hi => by simpa [hi] using (hback i hi).1
  have himag : (bitReverse (bitReverse arrays)).imag = arrays.imag :=
    Vector.ext fun i hi => by simpa [hi] using (hback i hi).2
  generalize bitReverse (bitReverse arrays) = twice at hreal himag ⊢
  cases twice
  cases arrays
  exact congrArg₂ ComplexArrays.mk hreal himag

/-- **`bit_reverse` is the bit-reversal permutation.**  The ten digits of `bitReversal 10 i`
are those of `i` in the opposite order; index `i` of both arrays holds the item that was
there; the counter `j` of the loop is that index from its update in turn `i` on; and a second
call restores both arrays.  The element type is any, so the loop over `float` arrays and the
one of the precision report over lists of Python integers are both covered. -/
theorem bitReverse_permutes (arrays : ComplexArrays α) :
    (∀ i : Fin 1024,
      (∀ b : Fin 10, (bitReversal 10 i).testBit b = (i : ℕ).testBit (9 - b)) ∧
      bitReversal 10 i < 1024 ∧
      (bitReverse arrays).real[(i : ℕ)]? = arrays.real[bitReversal 10 i]? ∧
      (bitReverse arrays).imag[(i : ℕ)]? = arrays.imag[bitReversal 10 i]? ∧
      ((List.range' 1 i).foldl bitReverseStep ⟨0, arrays⟩).j = bitReversal 10 i) ∧
    bitReverse (bitReverse arrays) = arrays := by
  refine ⟨fun i => ?_, bitReverse_bitReverse arrays⟩
  obtain ⟨hreal, himag⟩ := bitReverse_apply arrays i.isLt
  refine ⟨fun b => testBit_bitReversal b.isLt, bitReversal_lt 10 i, hreal, himag, ?_⟩
  rw [foldl_bitReverseStep arrays i.isLt]

end Loop

end SpectrumAnalyzer
