import Mathlib.Data.List.Induction
import Mathlib.Logic.Function.Basic
import Mathlib.Order.Nat

/-!
# Writing through a pointer

A writer stores symbols one after the other behind a pointer.  The memory there has no end
of its own: whether a store stays within a buffer is for the writer to see to.  What has
been written is a list, and the rest of the memory is as it was.

## Main definitions

* `PointerWriter` — the memory behind the pointer, and the next position.
* `PointerWriter.put` — one store.
* `PointerWriter.ofList` — the writer that has written a list.
-/

/-- The memory behind a pointer, and the position of the next store. -/
structure PointerWriter (α : Type*) where
  memory : ℕ → α
  position : ℕ

namespace PointerWriter

variable {α : Type*}

/-- One store. -/
def put (w : PointerWriter α) (x : α) : PointerWriter α where
  memory := Function.update w.memory w.position x
  position := w.position + 1

/-- The writer that has written a list over the memory. -/
def ofList (memory : ℕ → α) (xs : List α) : PointerWriter α where
  memory := fun i => xs.getD i (memory i)
  position := xs.length

@[simp] theorem position_ofList (memory : ℕ → α) (xs : List α) :
    (ofList memory xs).position = xs.length := rfl

theorem ofList_nil (memory : ℕ → α) : ofList memory [] = ⟨memory, 0⟩ := rfl

/-- A store appends to what has been written. -/
theorem put_ofList (memory : ℕ → α) (xs : List α) (x : α) :
    (ofList memory xs).put x = ofList memory (xs ++ [x]) := by
  rw [put, ofList, ofList]
  congr 1
  · funext i
    rcases lt_trichotomy i xs.length with h | rfl | h
    · rw [Function.update_of_ne h.ne]
      simp [List.getElem?_append_left h]
    · simp
    · rw [Function.update_of_ne h.ne']
      have happend : (xs ++ [x]).length ≤ i := by
        rw [List.length_append, List.length_singleton]
        omega
      simp [List.getElem?_eq_none h.le, List.getElem?_eq_none happend]
  · simp

/-- Behind what has been written the memory is as it was. -/
theorem memory_ofList_of_le (memory : ℕ → α) {xs : List α} {i : ℕ} (h : xs.length ≤ i) :
    (ofList memory xs).memory i = memory i := by
  simp [ofList, List.getElem?_eq_none h]

theorem memory_ofList_of_lt (memory : ℕ → α) {xs : List α} {i : ℕ} (h : i < xs.length) :
    (ofList memory xs).memory i = xs[i] := by
  simp [ofList, List.getElem?_eq_getElem h]

end PointerWriter
