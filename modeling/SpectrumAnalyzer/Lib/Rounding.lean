import Mathlib.Algebra.Order.Field.Basic
import Mathlib.Algebra.Order.Round
import Mathlib.Tactic.Linarith

/-!
# Rounding to the nearest integer

`lround` of the C library and `round` of Python, over any ordered field with a floor.

## Main definitions

* `lround` — the nearest integer, the one further from zero if there are two.
* `lround_le_iff` — where a bound by an integer is crossed.
* `roundHalfEven` — the nearest integer, the even one if there are two.
-/

variable {K : Type*} [Field K] [LinearOrder K] [FloorRing K]

/-- The nearest integer; of two, the one further from zero. -/
def lround (x : K) : ℤ := if 0 ≤ x then round x else -round (-x)

/-- The nearest integer; of two, the even one. -/
def roundHalfEven (x : K) : ℤ := if Int.fract x = 0.5 ∧ Even ⌊x⌋ then ⌊x⌋ else round x

variable [IsStrictOrderedRing K]

/-- An integer bound holds up to one half above it. -/
theorem lround_le_iff {x : K} (hx : 0 ≤ x) (n : ℤ) : lround x ≤ n ↔ x < n + 1 / 2 := by
  rw [lround, if_pos hx, round_eq, ← Int.lt_add_one_iff, Int.floor_lt, Int.cast_add, Int.cast_one]
  constructor
  · intro h
    linarith
  · intro h
    linarith

theorem lround_nonneg {x : K} (hx : 0 ≤ x) : 0 ≤ lround x := by
  rw [lround, if_pos hx, round_eq]
  exact Int.floor_nonneg.mpr (by linarith)

/-- Rounding stays below an integer. -/
theorem lround_le {x : K} (hx : 0 ≤ x) {n : ℤ} (h : x ≤ n) : lround x ≤ n :=
  (lround_le_iff hx n).mpr (by linarith)

/-- Rounding stays above an integer. -/
theorem le_lround {x : K} (hx : 0 ≤ x) {n : ℤ} (h : n ≤ x) : n ≤ lround x := by
  rw [lround, if_pos hx, round_eq, Int.le_floor]
  linarith

/-- An integer is its own rounding. -/
@[simp] theorem lround_natCast (n : ℕ) : lround (n : K) = n := by
  have hn : (0 : K) ≤ n := Nat.cast_nonneg n
  apply le_antisymm
  · exact lround_le hn (by simp)
  · exact le_lround hn (by simp)

theorem abs_sub_roundHalfEven (x : K) : |x - roundHalfEven x| ≤ 1 / 2 := by
  rw [roundHalfEven]
  split
  · next h =>
      rw [Int.self_sub_floor, h.1]
      norm_num
  · exact abs_sub_round x
