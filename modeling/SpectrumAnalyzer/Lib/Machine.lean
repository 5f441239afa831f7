import Mathlib.Data.List.Induction

/-!
# Machines that consume a stream

A step function in Mealy form reads one symbol, moves to a new state and says one
thing about the symbol it read.  Decoders, reassemblers and task loops all have
this shape, so the run, the list of what a run says, and the two inductions over a
stream are stated here once.

## Main definitions

* `Machine.final` — the state after a stream.
* `Machine.outputs` — what the machine said, one entry per symbol.
* `Machine.trace` — the states that read the symbols.
* `Machine.yields` — the entries that carry a value.
* `Machine.final_induction` — an invariant that also sees the stream read so far.
* `Machine.attempt` — the run of a step that may raise an exception.
-/

/-- One symbol in, a new state and one output symbol out. -/
abbrev Machine (σ α β : Type*) := σ → α → σ × β

namespace Machine

variable {σ α β γ : Type*} (step : Machine σ α β)

/-- The state after reading a stream. -/
def final (s : σ) (xs : List α) : σ := xs.foldl (fun s x => (step s x).1) s

/-- The outputs of a run, one for each symbol read. -/
def outputs : σ → List α → List β
  | _, [] => []
  | s, x :: xs => (step s x).2 :: outputs (step s x).1 xs

/-- The symbols of a run, each with the state that read it. -/
def trace : σ → List α → List (σ × α)
  | _, [] => []
  | s, x :: xs => (s, x) :: trace (step s x).1 xs

/-- The values a run hands to its consumer, in order. -/
def yields (emit : β → Option γ) (s : σ) (xs : List α) : List γ :=
  (outputs step s xs).filterMap emit

@[simp] theorem final_nil (s : σ) : final step s [] = s := rfl

@[simp] theorem final_cons (s : σ) (x : α) (xs : List α) :
    final step s (x :: xs) = final step (step s x).1 xs := rfl

theorem final_append (s : σ) (xs ys : List α) :
    final step s (xs ++ ys) = final step (final step s xs) ys := by
  simp [final]

theorem final_snoc (s : σ) (xs : List α) (x : α) :
    final step s (xs ++ [x]) = (step (final step s xs) x).1 := by
  simp [final]

@[simp] theorem outputs_nil (s : σ) : outputs step s [] = [] := rfl

@[simp] theorem outputs_cons (s : σ) (x : α) (xs : List α) :
    outputs step s (x :: xs) = (step s x).2 :: outputs step (step s x).1 xs := rfl

theorem outputs_append (s : σ) (xs ys : List α) :
    outputs step s (xs ++ ys) = outputs step s xs ++ outputs step (final step s xs) ys := by
  induction xs generalizing s with
  | nil => rfl
  | cons x xs ih => simp [ih]

theorem outputs_snoc (s : σ) (xs : List α) (x : α) :
    outputs step s (xs ++ [x]) = outputs step s xs ++ [(step (final step s xs) x).2] := by
  simp [outputs_append]

theorem outputs_take (s : σ) (xs : List α) (n : ℕ) :
    outputs step s (xs.take n) = (outputs step s xs).take n := by
  induction xs generalizing s n with
  | nil => simp
  | cons x xs ih => cases n <;> simp [ih]

@[simp] theorem trace_nil (s : σ) : trace step s [] = [] := rfl

theorem trace_snoc (s : σ) (xs : List α) (x : α) :
    trace step s (xs ++ [x]) = trace step s xs ++ [(final step s xs, x)] := by
  induction xs generalizing s with
  | nil => rfl
  | cons y ys ih => exact congrArg ((s, y) :: ·) (ih (step s y).1)

@[simp] theorem yields_nil (emit : β → Option γ) (s : σ) : yields step emit s [] = [] := rfl

theorem yields_append (emit : β → Option γ) (s : σ) (xs ys : List α) :
    yields step emit s (xs ++ ys) =
      yields step emit s xs ++ yields step emit (final step s xs) ys := by
  simp [yields, outputs_append]

theorem yields_snoc (emit : β → Option γ) (s : σ) (xs : List α) (x : α) :
    yields step emit s (xs ++ [x]) =
      yields step emit s xs ++ (emit (step (final step s xs) x).2).toList := by
  rw [yields_append]
  cases h : emit (step (final step s xs) x).2 <;> simp [yields, h]

@[simp] theorem length_trace (s : σ) (xs : List α) : (trace step s xs).length = xs.length := by
  induction xs generalizing s with
  | nil => rfl
  | cons x xs ih => exact congrArg (· + 1) (ih (step s x).1)

theorem map_snd_trace (s : σ) (xs : List α) : (trace step s xs).map Prod.snd = xs := by
  induction xs generalizing s with
  | nil => rfl
  | cons x xs ih => exact congrArg (x :: ·) (ih (step s x).1)

/-- A yielded value, and the symbol that yielded it. -/
theorem exists_of_mem_yields {emit : β → Option γ} {s : σ} {xs : List α} {v : γ}
    (h : v ∈ yields step emit s xs) :
    ∃ past x future, xs = past ++ x :: future ∧ emit (step (final step s past) x).2 = some v := by
  induction xs generalizing s with
  | nil => cases h
  | cons x xs ih =>
      rw [yields, outputs_cons, List.mem_filterMap] at h
      obtain ⟨o, ho, hv⟩ := h
      rcases List.mem_cons.mp ho with rfl | ho
      · exact ⟨[], x, xs, rfl, hv⟩
      · obtain ⟨past, y, future, rfl, hy⟩ := ih (List.mem_filterMap.mpr ⟨o, ho, hv⟩)
        exact ⟨x :: past, y, future, rfl, hy⟩

/-- **Induction along a stream.**  A predicate on the stream read so far and the
state it left holds of every stream when it holds of none and every symbol
preserves it. -/
theorem final_induction {P : List α → σ → Prop} {s : σ} (h0 : P [] s)
    (hstep : ∀ xs x, P xs (final step s xs) → P (xs ++ [x]) (step (final step s xs) x).1)
    (xs : List α) : P xs (final step s xs) := by
  induction xs using List.reverseRecOn with
  | nil => exact h0
  | append_singleton xs x ih =>
      rw [final_snoc]
      exact hstep xs x ih

/-- An invariant of the state alone. -/
theorem final_invariant {I : σ → Prop} (hstep : ∀ s x, I s → I (step s x).1) {s : σ}
    (h0 : I s) (xs : List α) : I (final step s xs) :=
  final_induction step (P := fun _ s => I s) h0 (fun _ x h => hstep _ x h) xs

/-- What a run tells an observer who reacts to the yielded values only. -/
theorem observe_final {ω : Type*} (emit : β → Option γ) (observe : σ → ω) (react : ω → γ → ω)
    (hstep : ∀ s x, observe (step s x).1 =
      (emit (step s x).2).elim (observe s) (react (observe s)))
    (s : σ) (xs : List α) :
    observe (final step s xs) = (yields step emit s xs).foldl react (observe s) := by
  induction xs using List.reverseRecOn with
  | nil => rfl
  | append_singleton xs x ih =>
      rw [final_snoc, yields_snoc, List.foldl_append, hstep, ih]
      cases emit (step (final step s xs) x).2 <;> rfl

/-! ## Steps that may raise -/

section Attempt
variable {ε : Type*} (act : σ → α → Except ε (σ × β))

/-- The run of a step that may raise.  The first exception ends it. -/
def attempt : σ → List α → Except ε (σ × List β)
  | s, [] => .ok (s, [])
  | s, x :: xs => do
      let r ← act s x
      let rest ← attempt r.1 xs
      return (rest.1, r.2 :: rest.2)

theorem attempt_snoc (s : σ) (xs : List α) (x : α) :
    attempt act s (xs ++ [x]) = do
      let r ← attempt act s xs
      let last ← act r.1 x
      return (last.1, r.2 ++ [last.2]) := by
  induction xs generalizing s with
  | nil =>
      rw [List.nil_append, attempt]
      cases act s x with
      | error e => rfl
      | ok r => rfl
  | cons y ys ih => simp only [List.cons_append, attempt, ih, bind_assoc, pure_bind]

end Attempt

end Machine
