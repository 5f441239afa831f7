import Mathlib.Algebra.BigOperators.Group.List.Basic
import Mathlib.Algebra.Order.Ring.Int
import Mathlib.Data.List.Chain

/-!
# Neighbours in a list, and counters that wrap

A monitor that compares every item with the one before it sees the neighbours of a list.
When the items carry a counter modulo `2 ^ 32`, the difference of two residues is the
difference of the counts as long as that is less than the modulus, and the numbers that
neighbours leave out add up to what the whole list leaves out.

## Main definitions

* `neighbours` — the pairs of adjacent items, in order.
* `serialDelta` — the difference of two residues.
* `sum_skipped` — the numbers left out by a strictly increasing list.
-/

section Neighbours

variable {α β : Type*}

/-- The pairs of adjacent items, in order. -/
def neighbours (xs : List α) : List (α × α) := xs.zip xs.tail

@[simp] theorem neighbours_nil : neighbours ([] : List α) = [] := rfl

@[simp] theorem neighbours_singleton (x : α) : neighbours [x] = [] := rfl

@[simp] theorem neighbours_cons_cons (x y : α) (xs : List α) :
    neighbours (x :: y :: xs) = (x, y) :: neighbours (y :: xs) := rfl

/-- One more item has the last one as its neighbour. -/
theorem neighbours_snoc (xs : List α) (x : α) :
    neighbours (xs ++ [x]) = neighbours xs ++ (xs.getLast?.map (·, x)).toList := by
  induction xs with
  | nil => rfl
  | cons y ys ih =>
      cases ys with
      | nil => rfl
      | cons z zs =>
          rw [List.cons_append, List.cons_append, neighbours_cons_cons, ← List.cons_append, ih,
            neighbours_cons_cons, List.getLast?_cons_cons]
          rfl

theorem neighbours_map (f : α → β) (xs : List α) :
    neighbours (xs.map f) = (neighbours xs).map (Prod.map f f) := by
  rw [neighbours, neighbours, ← List.map_tail, List.zip_map]

theorem neighbours_replicate (n : ℕ) (x : α) :
    neighbours (List.replicate (n + 1) x) = List.replicate n (x, x) := by
  induction n with
  | zero => rfl
  | succ n ih =>
      rw [List.replicate_succ, List.replicate_succ, neighbours_cons_cons, ← List.replicate_succ, ih,
        ← List.replicate_succ]

/-- A chain relates its neighbours. -/
theorem forall_neighbours {R : α → α → Prop} {xs : List α} (h : xs.IsChain R) :
    ∀ p ∈ neighbours xs, R p.1 p.2 := by
  induction h with
  | nil => simp
  | singleton => simp
  | cons_cons hxy _ ih =>
      rw [neighbours_cons_cons, List.forall_mem_cons]
      exact ⟨hxy, ih⟩

end Neighbours

/-- **What is left out between neighbours** adds up to what is left out overall. -/
theorem sum_skipped {first : ℕ} {later : List ℕ} (h : (first :: later).IsChain (· < ·)) :
    ((neighbours (first :: later)).map fun p => p.2 - p.1 - 1).sum + (first + later.length) =
      (first :: later).getLast (List.cons_ne_nil _ _) := by
  induction later generalizing first with
  | nil => simp
  | cons next later ih =>
      obtain ⟨hlt, hrest⟩ := List.isChain_cons_cons.mp h
      have hlater := ih hrest
      rw [neighbours_cons_cons, List.map_cons, List.sum_cons, List.length_cons,
        List.getLast_cons (List.cons_ne_nil _ _), ← hlater]
      dsimp only
      omega

/-! ## Residues -/

/-- The difference of two residues modulo `2 ^ 32`, in exact arithmetic. -/
def serialDelta (last next : UInt32) : ℕ :=
  (((next.toNat : ℤ) - last.toNat) % 2 ^ 32).toNat

/-- It is what machine subtraction yields. -/
theorem toNat_sub_eq_serialDelta (last next : UInt32) :
    (next - last).toNat = serialDelta last next := by
  have hlast := last.toNat_lt
  have hnext := next.toNat_lt
  rw [UInt32.toNat_sub, serialDelta]
  omega

theorem serialDelta_lt (last next : UInt32) : serialDelta last next < 2 ^ 32 := by
  rw [← toNat_sub_eq_serialDelta]
  exact (next - last).toNat_lt

/-- Of two numbers less than the modulus apart, it is the difference. -/
theorem serialDelta_ofNat {m n : ℕ} (hle : m ≤ n) (hlt : n < m + 2 ^ 32) :
    serialDelta (UInt32.ofNat m) (UInt32.ofNat n) = n - m := by
  rw [serialDelta, UInt32.toNat_ofNat', UInt32.toNat_ofNat']
  omega
