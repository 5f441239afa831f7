import Mathlib.Algebra.Order.Ring.Nat
import Mathlib.Data.Nat.Bitwise
import Mathlib.Logic.Equiv.Basic
import Mathlib.Tactic.Ring

/-!
# Reversed binary numbers

A number of `m` binary digits, read backwards.  Reversal is an involution, so an array is
brought into reversed order by exchanging every item with its partner, once from the lower
side.  A reversed counter is advanced by a carry that runs from the top digit downwards.

## Main definitions

* `bitReversal` — the number with its digits reversed.
* `bitReversal_bitReversal` — reversal is an involution.
* `testBit_bitReversal` — digit `b` is digit `m - 1 - b` of the number.
* `bitReversal_succ_of_even`, `bitReversal_succ_of_odd` — the reversed successor.
* `exchange`, `getElem?_foldl_exchange` — the permutation by an involution, in place.
-/

/-- A number of `m` binary digits, read backwards. -/
def bitReversal : ℕ → ℕ → ℕ
  | 0, _ => 0
  | m + 1, i => 2 ^ m * (i % 2) + bitReversal m (i / 2)

theorem bitReversal_lt (m i : ℕ) : bitReversal m i < 2 ^ m := by
  induction m generalizing i with
  | zero => exact Nat.one_pos
  | succ m ih =>
      have hlow := ih (i / 2)
      rw [bitReversal, pow_succ]
      rcases Nat.mod_two_eq_zero_or_one i with h | h <;> rw [h] <;> omega

theorem bitReversal_two_mul (m i : ℕ) : bitReversal (m + 1) (2 * i) = bitReversal m i := by
  rw [bitReversal, Nat.mul_mod_right, Nat.mul_div_cancel_left i Nat.two_pos, Nat.mul_zero,
    Nat.zero_add]

theorem bitReversal_two_mul_add_one (m i : ℕ) :
    bitReversal (m + 1) (2 * i + 1) = 2 ^ m + bitReversal m i := by
  rw [bitReversal, show (2 * i + 1) % 2 = 1 by omega, show (2 * i + 1) / 2 = i by omega,
    Nat.mul_one]

/-- The top digit comes last. -/
theorem bitReversal_top (m : ℕ) {b i : ℕ} (hb : b < 2) (hi : i < 2 ^ m) :
    bitReversal (m + 1) (2 ^ m * b + i) = 2 * bitReversal m i + b := by
  induction m generalizing i with
  | zero =>
      obtain rfl : i = 0 := by omega
      simp only [bitReversal, pow_zero]
      omega
  | succ m ih =>
      rw [pow_succ] at hi
      have hmod : (2 ^ (m + 1) * b + i) % 2 = i % 2 := by
        rw [pow_succ, mul_right_comm, Nat.mul_add_mod_self_right]
      have hdiv : (2 ^ (m + 1) * b + i) / 2 = 2 ^ m * b + i / 2 := by
        rw [pow_succ, mul_right_comm, Nat.mul_comm _ 2, Nat.mul_add_div Nat.two_pos]
      rw [bitReversal, hmod, hdiv, ih (by omega), bitReversal]
      ring

/-- **Reversal is an involution.** -/
theorem bitReversal_bitReversal (m : ℕ) {i : ℕ} (hi : i < 2 ^ m) :
    bitReversal m (bitReversal m i) = i := by
  induction m generalizing i with
  | zero =>
      rw [pow_zero, Nat.lt_one_iff] at hi
      rw [hi]
      rfl
  | succ m ih =>
      rw [pow_succ] at hi
      have hhalf : bitReversal m (bitReversal m (i / 2)) = i / 2 := ih (by omega)
      calc bitReversal (m + 1) (bitReversal (m + 1) i)
          = bitReversal (m + 1) (2 ^ m * (i % 2) + bitReversal m (i / 2)) := rfl
        _ = 2 * bitReversal m (bitReversal m (i / 2)) + i % 2 :=
          bitReversal_top m (Nat.mod_lt i Nat.two_pos) (bitReversal_lt m (i / 2))
        _ = i := by omega

/-- **The digits** come in the opposite order. -/
theorem testBit_bitReversal {m i b : ℕ} (hb : b < m) :
    (bitReversal m i).testBit b = i.testBit (m - 1 - b) := by
  induction m generalizing i with
  | zero => omega
  | succ m ih =>
      rw [bitReversal, Nat.testBit_two_pow_mul_add _ (bitReversal_lt m (i / 2))]
      split
      · next hlow =>
          have hindex : m + 1 - 1 - b = (m - 1 - b) + 1 := by omega
          rw [ih hlow, hindex, Nat.testBit_add_one]
      · next htop =>
          obtain rfl : b = m := by omega
          rw [Nat.sub_self, Nat.add_sub_cancel, Nat.sub_self, Nat.testBit_zero, Nat.testBit_zero,
            Nat.mod_mod]

/-! ## Advancing a reversed counter -/

/-- Behind an even number only the top digit changes. -/
theorem bitReversal_succ_of_even {m i : ℕ} (h : i % 2 = 0) :
    bitReversal (m + 1) (i + 1) = 2 ^ m + bitReversal (m + 1) i := by
  rw [bitReversal, bitReversal, h, show (i + 1) % 2 = 1 by omega, show (i + 1) / 2 = i / 2 by omega,
    Nat.mul_one, Nat.mul_zero, Nat.zero_add]

/-- Behind an odd number the top digit is cleared, and the carry goes on below it. -/
theorem bitReversal_succ_of_odd {m i : ℕ} (h : i % 2 = 1) :
    bitReversal (m + 1) i = 2 ^ m + bitReversal m (i / 2) ∧
      bitReversal (m + 1) (i + 1) = bitReversal m (i / 2 + 1) := by
  rw [bitReversal, bitReversal, h, show (i + 1) % 2 = 0 by omega,
    show (i + 1) / 2 = i / 2 + 1 by omega, Nat.mul_one, Nat.mul_zero, Nat.zero_add]
  exact ⟨rfl, rfl⟩

/-! ## Permuting in place -/

section Exchange
variable {α : Type*} {n : ℕ}

theorem getElem?_swapIfInBounds (v : Vector α n) {i j : ℕ} (hi : i < n) (hj : j < n) (p : ℕ) :
    (v.swapIfInBounds i j)[p]? = v[Equiv.swap i j p]? := by
  by_cases hp : p < n
  · have hswap : (v.swapIfInBounds i j)[p] = _ :=
      @Array.getElem_swapIfInBounds α v.toArray i j p (by simpa using hp)
    rw [getElem?_pos _ p hp, hswap]
    by_cases hpi : p = i
    · subst hpi
      simp [hj]
    · by_cases hpj : p = j
      · subst hpj
        simp [hpi, hi]
      · rw [Equiv.swap_apply_of_ne_of_ne hpi hpj]
        simp [hpi, hpj, hp]
  · rw [Equiv.swap_apply_of_ne_of_ne (by omega) (by omega), getElem?_neg _ p hp,
      getElem?_neg _ p hp]

variable (σ : ℕ → ℕ)

/-- Exchange an item with its partner, from the lower side only. -/
def exchange (v : Vector α n) (i : ℕ) : Vector α n :=
  if i < σ i then v.swapIfInBounds i (σ i) else v

variable {σ}

/-- **The exchanges of the first `k` items**: every pair with a member among them is
exchanged. -/
theorem getElem?_foldl_exchange (hlt : ∀ i < n, σ i < n) (hσ : ∀ i < n, σ (σ i) = i)
    (v : Vector α n) {k : ℕ} (hk : k ≤ n) {p : ℕ} (hp : p < n) :
    ((List.range k).foldl (exchange σ) v)[p]? =
      if min p (σ p) < k then v[σ p]? else v[p]? := by
  induction k generalizing p with
  | zero => simp
  | succ i ih =>
      have hpair : ∀ {q}, q < n → σ q = i → q = σ i := by
        intro q hq h
        rw [← h, hσ q hq]
      rw [List.range_succ, List.foldl_append, List.foldl_cons, List.foldl_nil, exchange]
      split
      · next hlow =>
          rw [getElem?_swapIfInBounds _ hk (hlt i hk)]
          by_cases hpi : p = i
          · rw [hpi, Equiv.swap_apply_left, ih (by omega) (hlt i hk), hσ i hk, if_neg (by omega),
              if_pos (by omega)]
          · by_cases hpσ : p = σ i
            · rw [hpσ, Equiv.swap_apply_right, ih (by omega) hk, hσ i hk, if_neg (by omega),
                if_pos (by omega)]
            · have hne : σ p ≠ i := fun h => hpσ (hpair hp h)
              rw [Equiv.swap_apply_of_ne_of_ne hpi hpσ, ih (by omega) hp]
              exact if_congr (by omega) rfl rfl
      · next hhigh =>
          rw [ih (by omega) hp]
          by_cases hfix : p = i ∧ σ p = i
          · rw [hfix.2, hfix.1, ite_self, ite_self]
          · have hne : σ p = i → p ≤ i := fun h => by
              have := hpair hp h
              omega
            refine if_congr ?_ rfl rfl
            have hself : p = i → σ p ≤ i := fun h => by
              rw [h]
              omega
            omega

end Exchange
