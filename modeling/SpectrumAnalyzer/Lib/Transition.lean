import Mathlib.Data.List.Induction

/-!
# Systems that take guarded steps

A system whose parties share a state is a partial step function: an action either does
not apply to a state or leads to one other state.  A run is a list of actions in any
order the guards allow, so what holds of all runs holds of every interleaving.

## Main definitions

* `Transition.run` — the state after a list of actions, if each applies.
* `Transition.Always` — every step of a run meets a condition.
* `Transition.run_invariant` — an invariant, under a condition on the steps.
* `Transition.exists_cause` — the step that is to blame for a property.
* `Transition.length_add_work_le`, `Transition.exists_run_of_work` — a measure that steps
  lessen.
* `Transition.tally` — what the steps of a run weigh.
-/

/-- A guarded step function. -/
abbrev Transition (σ α : Type*) := σ → α → Option σ

namespace Transition

variable {σ α : Type*} (step : Transition σ α)

/-- The state after a list of actions, or `none` when one of them does not apply. -/
def run : σ → List α → Option σ
  | s, [] => some s
  | s, a :: as => (step s a).bind fun s' => run s' as

@[simp] theorem run_nil (s : σ) : run step s [] = some s := rfl

theorem run_cons_eq_some {s s' : σ} {a : α} {as : List α} :
    run step s (a :: as) = some s' ↔ ∃ t, step s a = some t ∧ run step t as = some s' :=
  Option.bind_eq_some_iff

theorem run_singleton {s s' : σ} {a : α} (h : step s a = some s') : run step s [a] = some s' :=
  (run_cons_eq_some step).mpr ⟨s', h, rfl⟩

theorem run_append (s : σ) (as bs : List α) :
    run step s (as ++ bs) = (run step s as).bind fun t => run step t bs := by
  induction as generalizing s with
  | nil => rfl
  | cons a as ih =>
      rw [List.cons_append, run, run]
      cases step s a with
      | none => rfl
      | some t => exact ih t

theorem run_append_eq_some {s s' : σ} {as bs : List α} :
    run step s (as ++ bs) = some s' ↔ ∃ t, run step s as = some t ∧ run step t bs = some s' := by
  rw [run_append, Option.bind_eq_some_iff]

/-- Every step of a run meets a condition on the state before it and its action. -/
def Always (ok : σ → α → Prop) : σ → List α → Prop
  | _, [] => True
  | s, a :: as => ok s a ∧ ∀ t, step s a = some t → Always ok t as

/-- A condition that an action meets in every state. -/
theorem always_of_forall {ok : σ → α → Prop} {as : List α} (h : ∀ a ∈ as, ∀ s, ok s a) (s : σ) :
    Always step ok s as := by
  induction as generalizing s with
  | nil => exact trivial
  | cons a as ih =>
      exact ⟨h a List.mem_cons_self s,
        fun t _ => ih (fun b hb => h b (List.mem_cons_of_mem a hb)) t⟩

/-- A run goes on meeting a condition. -/
theorem always_append {ok : σ → α → Prop} {s t : σ} {as bs : List α}
    (has : Always step ok s as) (hrun : run step s as = some t) (hbs : Always step ok t bs) :
    Always step ok s (as ++ bs) := by
  induction as generalizing s with
  | nil =>
      cases hrun
      exact hbs
  | cons a as ih =>
      obtain ⟨u, hu, hrest⟩ := (run_cons_eq_some step).mp hrun
      refine ⟨has.1, ?_⟩
      intro v hv
      obtain rfl : u = v := Option.some.inj (hu.symm.trans hv)
      exact ih (has.2 u hu) hrest

/-- **Invariants.**  What the steps that meet a condition preserve, a run of such steps
preserves. -/
theorem run_invariant_of {ok : σ → α → Prop} {I : σ → Prop}
    (hstep : ∀ s a s', I s → ok s a → step s a = some s' → I s') {s s' : σ} {as : List α}
    (h0 : I s) (hok : Always step ok s as) (hrun : run step s as = some s') : I s' := by
  induction as generalizing s with
  | nil =>
      cases hrun
      exact h0
  | cons a as ih =>
      obtain ⟨t, ht, hrest⟩ := (run_cons_eq_some step).mp hrun
      exact ih (hstep s a t h0 hok.1 ht) (hok.2 t ht) hrest

/-- What every step preserves, every run preserves. -/
theorem run_invariant {I : σ → Prop} (hstep : ∀ s a s', I s → step s a = some s' → I s')
    {s s' : σ} {as : List α} (h0 : I s) (hrun : run step s as = some s') : I s' := by
  have halways : Always step (fun _ _ => True) s as :=
    always_of_forall step (fun _ _ _ => trivial) s
  exact run_invariant_of step (fun s a s' h _ => hstep s a s' h) h0 halways hrun

/-- **Causes.**  A property of the last state of a run that holds before any step behind which
it holds, unless the step is a cause, was there from the start or has a cause in the run. -/
theorem exists_cause {P : σ → Prop} {cause : σ → α → Prop}
    (hstep : ∀ s a s', step s a = some s' → P s' → P s ∨ cause s a) {s s' : σ} {as : List α}
    (hrun : run step s as = some s') (h : P s') :
    P s ∨ ∃ before a after t, as = before ++ a :: after ∧ run step s before = some t ∧
      cause t a := by
  induction as generalizing s with
  | nil =>
      cases hrun
      exact .inl h
  | cons a as ih =>
      obtain ⟨t, ht, hrest⟩ := (run_cons_eq_some step).mp hrun
      rcases ih hrest with hlater | ⟨before, b, after, u, rfl, hbefore, hcause⟩
      · rcases hstep s a t ht hlater with hstart | hcause
        · exact .inl hstart
        · exact .inr ⟨[], a, as, s, rfl, rfl, hcause⟩
      · exact .inr ⟨a :: before, b, after, u, rfl, (run_cons_eq_some step).mpr ⟨t, ht, hbefore⟩,
          hcause⟩

/-! ## Work -/

section Work
variable (work : σ → ℕ) {ok : σ → α → Prop}
  (hless : ∀ s a s', ok s a → step s a = some s' → work s' < work s)
include hless

/-- **No run outlasts its work**, if all of its steps lessen it. -/
theorem length_add_work_le {s s' : σ} {as : List α} (hok : Always step ok s as)
    (hrun : run step s as = some s') : as.length + work s' ≤ work s := by
  induction as generalizing s with
  | nil =>
      cases hrun
      exact Nat.le_of_eq (Nat.zero_add _)
  | cons a as ih =>
      obtain ⟨t, ht, hrest⟩ := (run_cons_eq_some step).mp hrun
      have hlt := hless s a t hok.1 ht
      have hle := ih (hok.2 t ht) hrest
      rw [List.length_cons]
      omega

/-- **Work gets done.**  Where such a step is left as long as there is work, a run of them does
all of it. -/
theorem exists_run_of_work
    (hleft : ∀ s, work s ≠ 0 → ∃ a s', ok s a ∧ step s a = some s') (s : σ) :
    ∃ as s', run step s as = some s' ∧ Always step ok s as ∧ work s' = 0 := by
  induction hn : work s using Nat.strongRecOn generalizing s with
  | ind n ih =>
      by_cases hzero : work s = 0
      · exact ⟨[], s, rfl, trivial, hzero⟩
      obtain ⟨a, t, hok, ht⟩ := hleft s hzero
      obtain ⟨as, u, hrun, halways, hdone⟩ := ih (work t) (hn ▸ hless s a t hok ht) t rfl
      refine ⟨a :: as, u, (run_cons_eq_some step).mpr ⟨t, ht, hrun⟩, ⟨hok, ?_⟩, hdone⟩
      intro t' ht'
      obtain rfl : t = t' := Option.some.inj (ht.symm.trans ht')
      exact halways

end Work

/-! ## Weighing the steps -/

/-- The sum of what the steps of a run weigh. -/
def tally (weight : σ → α → ℕ) : σ → List α → ℕ
  | _, [] => 0
  | s, a :: as => weight s a + (step s a).elim 0 fun s' => tally weight s' as

/-- A relation between the state and what the steps have weighed so far. -/
theorem run_tally (weight : σ → α → ℕ) {R : σ → ℕ → Prop}
    (hstep : ∀ s a s' n, R s n → step s a = some s' → R s' (n + weight s a)) {s s' : σ}
    {as : List α} {n : ℕ} (h0 : R s n) (hrun : run step s as = some s') :
    R s' (n + tally step weight s as) := by
  induction as generalizing s n with
  | nil =>
      cases hrun
      exact h0
  | cons a as ih =>
      obtain ⟨t, ht, hrest⟩ := (run_cons_eq_some step).mp hrun
      have htally : tally step weight s (a :: as) = weight s a + tally step weight t as := by
        rw [tally, ht, Option.elim_some]
      rw [htally, ← Nat.add_assoc]
      exact ih (hstep s a t n h0 ht) hrest

theorem tally_append {weight : σ → α → ℕ} {s t : σ} {as : List α} (bs : List α)
    (hrun : run step s as = some t) :
    tally step weight s (as ++ bs) = tally step weight s as + tally step weight t bs := by
  induction as generalizing s with
  | nil =>
      cases hrun
      exact (Nat.zero_add _).symm
  | cons a as ih =>
      obtain ⟨u, hu, hrest⟩ := (run_cons_eq_some step).mp hrun
      rw [List.cons_append, tally, tally, hu, Option.elim_some, Option.elim_some, ih hrest,
        Nat.add_assoc]

/-- Steps that weigh nothing. -/
theorem tally_eq_zero {weight : σ → α → ℕ} {ok : σ → α → Prop}
    (hweight : ∀ s a, ok s a → weight s a = 0) {s : σ} {as : List α}
    (hok : Always step ok s as) : tally step weight s as = 0 := by
  induction as generalizing s with
  | nil => rfl
  | cons a as ih =>
      rw [tally, hweight s a hok.1, Nat.zero_add]
      cases ht : step s a with
      | none => rfl
      | some t => exact ih (hok.2 t ht)

end Transition
