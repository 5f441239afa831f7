import SpectrumAnalyzer.Lib.Transition

/-!
# A timer beside a system

A counter next to a system counts down with every tick, and some steps of the system load it
anew.  As long as it does not expire, the ticks are covered by what it held at the start and
by the loads since.

## Main definitions

* `Countdown` — a system and the ticks that are left.
* `Countdown.step` — a step of the system, or a tick that does not expire.
* `Countdown.run_system` — the system takes no notice.
* `Countdown.ticks_run` — the ticks of a run, and the loads.
-/

/-- A system and the ticks that are left. -/
structure Countdown (σ : Type*) where
  system : σ
  left : ℕ

namespace Countdown

/-- A step of the system, or a tick. -/
inductive Action (α : Type*) where
  | work (a : α)
  | tick

/-- The steps of the system among the actions. -/
def Action.work? {α : Type*} : Action α → Option α
  | .work a => some a
  | .tick => none

section System
variable {σ α : Type*} (inner : Transition σ α) (loads : σ → α → Prop) [DecidableRel loads]
  (reload : ℕ)

/-- A step of the system, or a tick that does not expire. -/
def step (s : Countdown σ) : Action α → Option (Countdown σ)
  | .work a => (inner s.system a).map fun t => ⟨t, if loads s.system a then reload else s.left⟩
  | .tick => if s.left ≤ 1 then none else some ⟨s.system, s.left - 1⟩

/-- The ticks among the actions. -/
def ticks (actions : List (Action α)) : ℕ := actions.countP fun a => a.work?.isNone

/-- The loads of a run of the system. -/
def loadsOf (s : σ) (as : List α) : ℕ :=
  Transition.tally inner (fun s a => if loads s a then 1 else 0) s as

variable {inner loads reload} {s s' : Countdown σ} {actions : List (Action α)}

/-- The system runs as it would without the timer. -/
theorem run_system (hrun : Transition.run (step inner loads reload) s actions = some s') :
    Transition.run inner s.system (actions.filterMap Action.work?) = some s'.system := by
  induction actions generalizing s with
  | nil =>
      cases hrun
      rfl
  | cons a actions ih =>
      obtain ⟨t, ht, hrest⟩ := (Transition.run_cons_eq_some _).mp hrun
      cases a with
      | work a =>
          obtain ⟨u, hu, rfl⟩ := Option.map_eq_some_iff.mp ht
          exact (Transition.run_cons_eq_some _).mpr ⟨u, hu, ih hrest⟩
      | tick =>
          obtain ⟨-, ⟨⟩⟩ := Option.ite_none_left_eq_some.mp ht
          exact ih (s := ⟨s.system, s.left - 1⟩) hrest

/-- **Ticks and loads.**  The ticks of a run that does not expire come out of what was left at
its start and of the loads in it. -/
theorem ticks_run (hrun : Transition.run (step inner loads reload) s actions = some s') :
    ticks actions + s'.left ≤
      s.left + reload * loadsOf inner loads s.system (actions.filterMap Action.work?) := by
  induction actions generalizing s with
  | nil =>
      cases hrun
      exact Nat.le_of_eq (Nat.zero_add _)
  | cons a actions ih =>
      obtain ⟨t, ht, hrest⟩ := (Transition.run_cons_eq_some _).mp hrun
      have hlater := ih hrest
      cases a with
      | work a =>
          obtain ⟨u, hu, rfl⟩ := Option.map_eq_some_iff.mp ht
          have hticks : ticks (.work a :: actions) = ticks actions := by simp [ticks, Action.work?]
          have hloads : loadsOf inner loads s.system ((.work a :: actions).filterMap Action.work?) =
              (if loads s.system a then 1 else 0) +
                loadsOf inner loads u (actions.filterMap Action.work?) := by
            simp only [loadsOf, List.filterMap_cons, Action.work?, Transition.tally, hu,
              Option.elim_some]
          rw [hticks, hloads, Nat.mul_add]
          dsimp only at hlater
          split at hlater
          · next h =>
              rw [if_pos h]
              omega
          · next h =>
              rw [if_neg h]
              omega
      | tick =>
          obtain ⟨hleft, ⟨⟩⟩ := Option.ite_none_left_eq_some.mp ht
          have hticks : ticks (.tick :: actions) = ticks actions + 1 := by
            simp [ticks, Action.work?]
          have hloads : (Action.tick :: actions).filterMap Action.work? =
              actions.filterMap Action.work? := rfl
          rw [hticks, hloads]
          dsimp only at hlater
          omega

/-- A counter that has not expired holds a tick at least. -/
theorem left_pos_run (hreload : 0 < reload) (hpos : 0 < s.left)
    (hrun : Transition.run (step inner loads reload) s actions = some s') : 0 < s'.left := by
  refine Transition.run_invariant _ (I := fun s => 0 < s.left) ?_ hpos hrun
  intro s a s' hs hstep
  cases a with
  | work a =>
      obtain ⟨u, -, rfl⟩ := Option.map_eq_some_iff.mp hstep
      dsimp only
      split
      · exact hreload
      · exact hs
  | tick =>
      obtain ⟨hleft, ⟨⟩⟩ := Option.ite_none_left_eq_some.mp hstep
      exact Nat.sub_pos_of_lt (Nat.not_le.mp hleft)

/-- Many ticks without expiry take many loads. -/
theorem le_loadsOf {n : ℕ} (hpos : 0 < s.left) (hle : s.left ≤ reload)
    (hrun : Transition.run (step inner loads reload) s actions = some s')
    (hn : reload * n ≤ ticks actions) :
    n ≤ loadsOf inner loads s.system (actions.filterMap Action.work?) := by
  have hreload : 0 < reload := Nat.lt_of_lt_of_le hpos hle
  have hticks := ticks_run hrun
  have hleft := left_pos_run hreload hpos hrun
  by_contra hfew
  have hmul : reload * (loadsOf inner loads s.system (actions.filterMap Action.work?) + 1) ≤
      reload * n := Nat.mul_le_mul_left reload (Nat.not_le.mp hfew)
  rw [Nat.mul_add, Nat.mul_one] at hmul
  omega

end System

end Countdown
