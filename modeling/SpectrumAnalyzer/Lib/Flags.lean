import Mathlib.Data.Nat.Bitwise

/-!
# Words as sets of flags

A status word is a set of bits that grows by `|||` and is examined through a mask.

## Main definitions

* `Flags.Any` — a word carries at least one flag of a mask.
* `Flags.eq_of_any_bit` — a word is the set of its flags.
-/

namespace Flags

/-- The word carries at least one flag of the mask. -/
def Any (mask word : UInt32) : Prop := word &&& mask ≠ 0

instance (mask word : UInt32) : Decidable (Any mask word) := inferInstanceAs (Decidable (_ ≠ _))

theorem any_or {mask a b : UInt32} : Any mask (a ||| b) ↔ Any mask a ∨ Any mask b := by
  have hiff : (a ||| b) &&& mask = 0 ↔ a &&& mask = 0 ∧ b &&& mask = 0 := by
    simp only [← UInt32.toBitVec_inj, UInt32.toBitVec_and, UInt32.toBitVec_or,
      BitVec.and_or_distrib_right]
    exact BitVec.or_eq_zero_iff
  rw [Any, Any, Any, Ne, Ne, Ne, hiff, Decidable.not_and_iff_or_not]

/-- Flags that are set stay set. -/
theorem Any.or_left {mask a : UInt32} (h : Any mask a) (b : UInt32) : Any mask (a ||| b) :=
  any_or.mpr (.inl h)

theorem Any.or_right {mask b : UInt32} (h : Any mask b) (a : UInt32) : Any mask (a ||| b) :=
  any_or.mpr (.inr h)

/-- Words and masks play the same part. -/
theorem any_comm {mask word : UInt32} : Any mask word ↔ Any word mask := by
  rw [Any, Any, UInt32.and_comm]

theorem any_mask_or {mask more word : UInt32} :
    Any (mask ||| more) word ↔ Any mask word ∨ Any more word := by
  rw [any_comm, any_or, @any_comm word mask, @any_comm word more]

/-- A wider mask finds as much. -/
theorem Any.mask_or_left {mask word : UInt32} (h : Any mask word) (more : UInt32) :
    Any (mask ||| more) word := any_mask_or.mpr (.inl h)

/-- A word without flags outside another shows no more than that. -/
theorem Any.of_not_any_complement {mask a b : UInt32} (h : ¬ Any (~~~b) a) (hany : Any mask a) :
    Any mask b := by
  intro hnone
  refine hany ?_
  have hsplit : a &&& mask = (a &&& ~~~b) &&& mask ||| a &&& (b &&& mask) := by
    rw [← UInt32.toBitVec_inj]
    apply BitVec.eq_of_getLsbD_eq
    intro i hi
    simp only [UInt32.toBitVec_or, UInt32.toBitVec_and, UInt32.toBitVec_not, BitVec.getLsbD_or,
      BitVec.getLsbD_and, BitVec.getLsbD_not, hi, decide_true, Bool.true_and]
    cases a.toBitVec.getLsbD i <;> cases b.toBitVec.getLsbD i <;> simp
  rw [hsplit, not_not.mp h, hnone, UInt32.zero_and, UInt32.and_zero, UInt32.zero_or]

/-- A mask of one bit. -/
theorem any_bit {i : ℕ} (hi : i < 32) {word : UInt32} :
    Any (1 <<< UInt32.ofNat i) word ↔ word.toNat.testBit i = true := by
  have hmask : ((1 : UInt32) <<< UInt32.ofNat i).toNat = 2 ^ i := by
    rw [UInt32.toNat_shiftLeft, UInt32.toNat_ofNat', Nat.mod_mod_of_dvd _ (by decide),
      Nat.mod_eq_of_lt hi, UInt32.toNat_one, Nat.one_shiftLeft,
      Nat.mod_eq_of_lt (Nat.pow_lt_pow_right (by decide) hi)]
  rw [Any, Ne, ← UInt32.toNat_inj, UInt32.toNat_and, hmask, Nat.and_two_pow]
  cases word.toNat.testBit i <;> simp

/-- Words with the same flags are equal. -/
theorem eq_of_any_bit {a b : UInt32}
    (h : ∀ i < 32, Any (1 <<< UInt32.ofNat i) a ↔ Any (1 <<< UInt32.ofNat i) b) : a = b := by
  rw [← UInt32.toNat_inj]
  apply Nat.eq_of_testBit_eq
  intro i
  by_cases hi : i < 32
  · rw [Bool.eq_iff_iff, ← any_bit hi, ← any_bit hi]
    exact h i hi
  · have hpow : 2 ^ 32 ≤ 2 ^ i := Nat.pow_le_pow_right (by decide) (Nat.not_lt.mp hi)
    rw [Nat.testBit_lt_two_pow (Nat.lt_of_lt_of_le a.toNat_lt hpow),
      Nat.testBit_lt_two_pow (Nat.lt_of_lt_of_le b.toNat_lt hpow)]

end Flags
