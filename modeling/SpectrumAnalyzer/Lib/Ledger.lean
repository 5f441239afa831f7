import Mathlib.Data.List.Chain

/-!
# Pipelines that own up to their losses

Items enter a pipeline in order and leave it at its head.  They may be lost anywhere on
the way, but not without raising a flag that is never lowered.  As long as the flag is
down, what has entered is what has left, followed by what is still inside.  When the
items were numbered one after the other as they entered, whatever leaves has been
preceded by all numbers before its own.

## Main definitions

* `Ledger` — what entered, what left, what is inside, and the flag.
* `Ledger.Move` — what may happen to a pipeline.
* `Ledger.Sound` — the invariant.
* `Consecutive` — items numbered one after the other.
-/

/-- The account of a pipeline. -/
structure Ledger (α : Type*) where
  entered : List α
  finished : List α
  inFlight : List α
  lossy : Prop

namespace Ledger

variable {α : Type*}

/-- What may happen to a pipeline. -/
inductive Move (l l' : Ledger α) : Prop where
  | stay (entered : l'.entered = l.entered) (finished : l'.finished = l.finished)
      (inFlight : l'.inFlight = l.inFlight) (lossy : l.lossy → l'.lossy)
  | enter (x : α) (entered : l'.entered = l.entered ++ [x]) (finished : l'.finished = l.finished)
      (inFlight : l'.inFlight = l.inFlight ++ [x]) (lossy : l.lossy → l'.lossy)
  | finish (x : α) (entered : l'.entered = l.entered) (finished : l'.finished = l.finished ++ [x])
      (inFlight : l.inFlight = x :: l'.inFlight) (lossy : l.lossy → l'.lossy)
  | lose (lossy : l'.lossy)

/-- Nothing is missing unless the flag is up. -/
def Sound (l : Ledger α) : Prop := ¬ l.lossy → l.finished ++ l.inFlight = l.entered

/-- Every move keeps the account. -/
theorem Sound.move {l l' : Ledger α} (h : l.Sound) (hmove : Move l l') : l'.Sound := by
  intro hl'
  cases hmove with
  | stay entered finished inFlight lossy =>
      rw [entered, finished, inFlight, h (mt lossy hl')]
  | enter x entered finished inFlight lossy =>
      rw [entered, finished, inFlight, ← List.append_assoc, h (mt lossy hl')]
  | finish x entered finished inFlight lossy =>
      rw [entered, finished, List.append_assoc, List.singleton_append, ← inFlight,
        h (mt lossy hl')]
  | lose lossy => exact absurd lossy hl'

end Ledger

/-- Items whose numbers follow one another. -/
def Consecutive {α : Type*} (number : α → ℕ) (xs : List α) : Prop :=
  xs.IsChain fun x y => number y = number x + 1

namespace Consecutive

variable {α : Type*} {number : α → ℕ}

theorem snoc {xs : List α} (h : Consecutive number xs) {y : α}
    (hy : ∀ x ∈ xs.getLast?, number y = number x + 1) : Consecutive number (xs ++ [y]) := by
  rw [Consecutive, List.isChain_append]
  refine ⟨h, List.isChain_singleton y, ?_⟩
  intro x hx z hz
  cases hz
  exact hy x hx

/-- All numbers between the first item and another belong to items in between. -/
theorem exists_of_lt {before after : List α} {x first : α}
    (h : Consecutive number (before ++ x :: after))
    (hfirst : (before ++ x :: after).head? = some first) {n : ℕ} (hn : number first ≤ n)
    (hx : n < number x) : ∃ y ∈ before, number y = n := by
  induction before generalizing first with
  | nil =>
      cases hfirst
      omega
  | cons y ys ih =>
      cases hfirst
      by_cases hy : number y = n
      · exact ⟨y, List.mem_cons_self, hy⟩
      -- the next item has the next number
      obtain ⟨z, hz⟩ : ∃ z, (ys ++ x :: after).head? = some z := by
        cases ys with
        | nil => exact ⟨x, rfl⟩
        | cons z zs => exact ⟨z, rfl⟩
      obtain ⟨hnext, hrest⟩ := List.isChain_cons.mp h
      have hstep := hnext z hz
      obtain ⟨w, hw, hwn⟩ := ih hrest hz (by omega)
      exact ⟨w, List.mem_cons_of_mem _ hw, hwn⟩

/-- The numbers are a range. -/
theorem map_eq_range' {x : α} {xs : List α} (h : Consecutive number (x :: xs)) :
    (x :: xs).map number = List.range' (number x) (xs.length + 1) := by
  induction xs generalizing x with
  | nil => rfl
  | cons y ys ih =>
      obtain ⟨hnext, hrest⟩ := List.isChain_cons_cons.mp h
      rw [List.map_cons, ih hrest, hnext, List.length_cons]
      rfl

end Consecutive
