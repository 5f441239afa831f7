import Mathlib.Logic.Function.Iterate

/-!
# Cyclic redundancy registers

A register of width `w` is shifted left one bit at a time; when a one falls out at the
top, the polynomial is added.  When the polynomial has a constant term the shift is a
bijection, so nothing that happens after a difference enters the register can cancel
it: two messages that differ in one symbol leave different registers.

## Main definitions

* `ShiftRegister.shift` — one bit.
* `ShiftRegister.absorb` — one symbol of `k` bits, added at the top of the register.
* `ShiftRegister.run` — a whole message.
* `ShiftRegister.run_single` — a change of one symbol is always visible.
-/

namespace ShiftRegister

variable {w k : ℕ} (poly : BitVec w)

/-- Shift out one bit and reduce. -/
def shift (c : BitVec w) : BitVec w := if c.msb then (c <<< 1) ^^^ poly else c <<< 1

/-- Add a symbol at the top of the register and shift it through. -/
def absorb (c : BitVec w) (b : BitVec k) : BitVec w :=
  (shift poly)^[k] (c ^^^ (b.setWidth w <<< (w - k)))

/-- Absorb a message, starting from the register `c`. -/
def run (c : BitVec w) (message : List (BitVec k)) : BitVec w :=
  message.foldl (absorb poly) c

@[simp] theorem run_nil (c : BitVec w) : run (k := k) poly c [] = c := rfl

@[simp] theorem run_cons (c : BitVec w) (b : BitVec k) (bs : List (BitVec k)) :
    run poly c (b :: bs) = run poly (absorb poly c b) bs := rfl

theorem run_append (c : BitVec w) (xs ys : List (BitVec k)) :
    run poly c (xs ++ ys) = run poly (run poly c xs) ys := by
  simp [run]

/-- The bit shifted in at the bottom tells whether the polynomial was added. -/
theorem getLsbD_shift_zero (hp : poly.getLsbD 0 = true) (c : BitVec w) :
    (shift poly c).getLsbD 0 = c.msb := by
  rw [shift]
  split
  · next h => simp [BitVec.getLsbD_xor, hp, h]
  · next h => simpa using h

/-- Shifting is injective when the polynomial has a constant term. -/
theorem shift_injective (hw : 0 < w) (hp : poly.getLsbD 0 = true) :
    Function.Injective (shift poly) := by
  intro a b h
  have hmsb : a.msb = b.msb := by
    rw [← getLsbD_shift_zero poly hp, h, getLsbD_shift_zero poly hp]
  have hshift : a <<< 1 = b <<< 1 := by
    simp only [shift] at h
    rw [hmsb] at h
    split at h
    · exact (BitVec.xor_left_inj poly).mp h
    · exact h
  apply BitVec.eq_of_getLsbD_eq
  intro i hi
  by_cases hlast : i + 1 = w
  · have hget : ∀ c : BitVec w, c.getLsbD i = c.msb := by
      intro c
      rw [BitVec.msb_eq_getLsbD_last]
      congr 1
      omega
    rw [hget, hget, hmsb]
  · have hbit := congrArg (fun c : BitVec w => c.getLsbD (i + 1)) hshift
    have hi1 : i + 1 < w := by omega
    simpa only [BitVec.getLsbD_shiftLeft, hi1, decide_true, Nat.not_lt_of_le, Nat.le_add_left,
      decide_false, Bool.not_false, Bool.true_and, Nat.add_sub_cancel] using hbit

theorem shifts_injective (hw : 0 < w) (hp : poly.getLsbD 0 = true) (n : ℕ) :
    Function.Injective (shift poly)^[n] :=
  (shift_injective poly hw hp).iterate n

/-- Absorbing one symbol loses nothing of the register. -/
theorem absorb_injective (hw : 0 < w) (hp : poly.getLsbD 0 = true) (b : BitVec k) :
    Function.Injective fun c => absorb poly c b := by
  intro c d h
  exact (BitVec.xor_left_inj _).mp (shifts_injective poly hw hp k h)

/-- Absorbing loses nothing of a symbol that fits the register. -/
theorem absorb_symbol_injective (hw : 0 < w) (hp : poly.getLsbD 0 = true) (hk : k ≤ w)
    (c : BitVec w) : Function.Injective fun b : BitVec k => absorb poly c b := by
  intro a b h
  have htop : a.setWidth w <<< (w - k) = b.setWidth w <<< (w - k) :=
    (BitVec.xor_right_inj c).mp (shifts_injective poly hw hp k h)
  apply BitVec.eq_of_getLsbD_eq
  intro i hi
  have hbit := congrArg (fun x : BitVec w => x.getLsbD (i + (w - k))) htop
  have hik : i + (w - k) < w := by omega
  have hle : ¬ i + (w - k) < w - k := by omega
  have hiw : i < w := by omega
  simpa only [BitVec.getLsbD_shiftLeft, BitVec.getLsbD_setWidth, hik, hle, hiw, decide_true,
    decide_false, Bool.not_false, Bool.true_and, Nat.add_sub_cancel] using hbit

/-- A difference in the register survives the rest of the message. -/
theorem run_injective (hw : 0 < w) (hp : poly.getLsbD 0 = true) (message : List (BitVec k)) :
    Function.Injective fun c => run poly c message := by
  induction message with
  | nil => exact fun _ _ h => h
  | cons b bs ih =>
      intro c d h
      exact absorb_injective poly hw hp b (ih h)

/-- **A change of one symbol is visible.**  Two messages that differ in at most one
symbol and leave the same register are equal. -/
theorem run_single (hw : 0 < w) (hp : poly.getLsbD 0 = true) (hk : k ≤ w) (c : BitVec w)
    (front back : List (BitVec k)) (x y : BitVec k)
    (h : run poly c (front ++ x :: back) = run poly c (front ++ y :: back)) : x = y := by
  rw [run_append, run_append, run_cons, run_cons] at h
  exact absorb_symbol_injective poly hw hp hk _ (run_injective poly hw hp back h)

end ShiftRegister
