import SpectrumAnalyzer.Firmware.Handout

/-!
# Counting overruns

`adc_overrun_count` has two writers: the error callback of the ADC adds one, and
`platform_adc_wait_block` adds the notifications that it took beyond the first.  The
addition of the task loads the counter and stores it again outside any critical section, so
a callback that runs in between is overwritten.  Apart from these the account is exact.

## Main definitions

* `excessNotifications` — what the calls have to add.
* `settledCount` — the counter, with the addition of the call in progress.
* `lostUpdate` — a callback between load and store.
* `settledCount_run` — the account of a run, lost callbacks included.
* `overruns_counted` — the account of a run that loses none.
-/

namespace SpectrumAnalyzer

/-- What a call adds to the counter for the notifications it took. -/
def excess (notifications : UInt32) : UInt32 := if notifications > 1 then notifications - 1 else 0

namespace AcquisitionPc

/-- What a call that has taken its notifications has yet to begin to add. -/
def owed : AcquisitionPc → UInt32
  | .taken notifications => excess notifications
  | _ => 0

/-- Between load and store. -/
def Updating : AcquisitionPc → Prop
  | .loaded _ _ => True
  | _ => False

instance (pc : AcquisitionPc) : Decidable pc.Updating :=
  match pc with
  | .loaded _ _ => inferInstanceAs (Decidable True)
  | .waiting | .taken _ | .counted | .acquired _ | .checked _ | .flagging _ | .sending _
  | .dropping _ | .kicking | .timedOut => inferInstanceAs (Decidable False)

end AcquisitionPc

/-- The notifications that a call took beyond the first. -/
def Event.excess : Event → ℕ
  | .taken notifications => notifications.toNat - 1
  | _ => 0

/-- The error callbacks of a log. -/
def errorCallbacks (log : List Event) : ℕ := log.count .adcError

/-- The sum of `n - 1` over the calls that took `n` notifications. -/
def excessNotifications (log : List Event) : ℕ := (log.map Event.excess).sum

/-- What the counter should have counted. -/
def overruns (log : List Event) : ℕ := errorCallbacks log + excessNotifications log

theorem overruns_append (log events : List Event) :
    overruns (log ++ events) = overruns log + overruns events := by
  simp only [overruns, errorCallbacks, excessNotifications, List.count_append, List.map_append,
    List.sum_append]
  omega

theorem toNat_excess (n : UInt32) : (excess n).toNat = n.toNat - 1 := by
  rw [excess]
  split
  · next h =>
      rw [UInt32.toNat_sub_of_le _ _ (UInt32.le_of_lt h)]
      rfl
  · next h =>
      have hle : n.toNat ≤ 1 := UInt32.le_iff_toNat_le.mp (UInt32.not_lt.mp h)
      rw [Nat.sub_eq_zero_of_le hle]
      rfl

namespace Firmware

variable {env : Environment} {s s' : Firmware}

/-- The counter as it will be when the call in progress has stored it. -/
def settledCount (s : Firmware) : UInt32 :=
  match s.acquisition with
  | .taken notifications => s.adcOverrunCount + excess notifications
  | .loaded notifications count => count + (notifications - 1)
  | _ => s.adcOverrunCount

/-- A callback between load and store is overwritten. -/
def lostUpdate (s : Firmware) (a : Action) : ℕ :=
  if a = .adcError ∧ s.acquisition.Updating then 1 else 0

/-- The error callbacks that a run loses. -/
def lostUpdates (env : Environment) (actions : List Action) : ℕ :=
  Transition.tally (step env) lostUpdate (init env) actions

/-- No error callback runs between load and store. -/
def Uninterrupted (s : Firmware) (a : Action) : Prop := a = .adcError → ¬ s.acquisition.Updating

theorem settledCount_of_not_updating (h : ¬ s.acquisition.Updating) :
    settledCount s = s.adcOverrunCount + s.acquisition.owed := by
  rw [settledCount]
  cases hpc : s.acquisition with
  | taken n => rfl
  | loaded n count =>
      rw [hpc] at h
      exact absurd trivial h
  | _ => exact (UInt32.add_zero _).symm

/-- A step that adds nothing and owes nothing new. -/
theorem settledCount_quiet {t : Firmware} (hpc : t.acquisition = s.acquisition)
    (hcount : t.adcOverrunCount = s.adcOverrunCount) : settledCount t = settledCount s := by
  rw [settledCount, settledCount, hpc, hcount]

/-- **One step of `acquisition_task`.**  What it takes, it owes, and what it stores it has
owed. -/
theorem settledCount_acquisition (now : UInt32) (s : Firmware) :
    ∃ events, (s.acquisitionStep now).log = s.log ++ events ∧
      settledCount (s.acquisitionStep now) = settledCount s + UInt32.ofNat (overruns events) := by
  have hquiet : ∀ {t : Firmware}, t.log = s.log → settledCount t = settledCount s →
      ∃ events, t.log = s.log ++ events ∧
        settledCount t = settledCount s + UInt32.ofNat (overruns events) :=
    fun hlog hsettled =>
      ⟨[], by rw [hlog, List.append_nil], by rw [hsettled]; exact (UInt32.add_zero _).symm⟩
  rw [acquisitionStep]
  cases hpc : s.acquisition with
  | waiting =>
      dsimp only
      split
      · exact hquiet rfl (by simp [settledCount, hpc])
      · refine ⟨[.taken s.adcNotifications], rfl, ?_⟩
        have htaken : overruns [.taken s.adcNotifications] = (excess s.adcNotifications).toNat := by
          rw [toNat_excess]
          simp [overruns, errorCallbacks, excessNotifications, Event.excess]
        rw [htaken, UInt32.ofNat_toNat]
        simp only [settledCount, hpc]
  | taken n =>
      dsimp only
      split
      · next hn => exact hquiet rfl (by simp [settledCount, hpc, excess, hn])
      · next hn => exact hquiet rfl (by simp [settledCount, hpc, excess, hn])
  | loaded n count => exact hquiet rfl (by simp [settledCount, hpc])
  | counted => exact ⟨_, rfl, by simp [settledCount, hpc, overruns, errorCallbacks,
      excessNotifications, Event.excess]⟩
  | kicking => exact ⟨_, rfl, by simp [settledCount, hpc, healthKick, overruns, errorCallbacks,
      excessNotifications, Event.excess]⟩
  | checked block =>
      dsimp only
      split <;> exact hquiet rfl (by simp [settledCount, hpc])
  | sending block =>
      dsimp only
      split <;> exact hquiet rfl (by simp [settledCount, hpc])
  | _ => exact hquiet rfl (by simp [settledCount, hpc, statusSet])

/-- **A callback** is counted, unless the task stores over it. -/
theorem settledCount_adcError (s : Firmware) :
    settledCount { s with
      adcOverrunCount := s.adcOverrunCount + 1, log := s.log ++ [.adcError] } +
        UInt32.ofNat (lostUpdate s .adcError) = settledCount s + 1 := by
  by_cases hpc : s.acquisition.Updating
  · have hsettled : settledCount { s with
        adcOverrunCount := s.adcOverrunCount + 1, log := s.log ++ [.adcError] } =
          settledCount s := by
      rw [settledCount, settledCount]
      cases h : s.acquisition with
      | loaded n count => rfl
      | _ =>
          rw [h] at hpc
          exact hpc.elim
    rw [hsettled, lostUpdate, if_pos ⟨rfl, hpc⟩]
    rfl
  · rw [lostUpdate, if_neg fun h => hpc h.2, settledCount_of_not_updating hpc,
      settledCount_of_not_updating (by exact hpc)]
    show s.adcOverrunCount + 1 + s.acquisition.owed + 0 = s.adcOverrunCount + s.acquisition.owed + 1
    rw [UInt32.add_zero]
    ac_rfl

/-- **One step** of the system. -/
theorem settledCount_step {a : Action} (h : step env s a = some s') :
    ∃ events, s'.log = s.log ++ events ∧
      settledCount s' + UInt32.ofNat (lostUpdate s a) =
        settledCount s + UInt32.ofNat (overruns events) := by
  have hkept : ∀ {t : Firmware} {b : Action} (events : List Event), b ≠ .adcError →
      t.log = s.log ++ events → overruns events = 0 → t.acquisition = s.acquisition →
      t.adcOverrunCount = s.adcOverrunCount → ∃ events, t.log = s.log ++ events ∧
        settledCount t + UInt32.ofNat (lostUpdate s b) =
          settledCount s + UInt32.ofNat (overruns events) := by
    intro t b events hb hlog hnone hpc hcount
    refine ⟨events, hlog, ?_⟩
    rw [settledCount_quiet hpc hcount, hnone, lostUpdate, if_neg fun h => hb h.1]
  have hnil : s.log = s.log ++ [] := (List.append_nil _).symm
  cases actionStep_of_step h with
  | dmaStore => exact hkept [] (by decide) hnil rfl rfl rfl
  | adcCallback => exact hkept [] (by decide) hnil rfl rfl rfl
  | adcError => exact ⟨[.adcError], rfl, settledCount_adcError s⟩
  | @acquisition now _ hstep =>
      cases h
      obtain ⟨events, hlog, hsettled⟩ := settledCount_acquisition now s
      refine ⟨events, hlog, ?_⟩
      rw [hsettled, lostUpdate, if_neg (by simp)]
      exact UInt32.add_zero _
  | dsp hstep =>
      cases hstep with
      | receive => exact hkept _ (by simp) rfl rfl rfl rfl
      | accept => exact hkept _ (by simp) rfl rfl rfl rfl
      | publish => exact hkept _ (by simp) rfl rfl rfl rfl
      | kick => exact hkept _ (by simp) rfl rfl rfl rfl
      | _ => exact hkept [] (by simp) hnil rfl rfl rfl
  | telemetry hstep =>
      cases hstep with
      | finish => exact hkept _ (by simp) rfl rfl rfl rfl
      | kick => exact hkept _ (by simp) rfl rfl rfl rfl
      | _ => exact hkept [] (by simp) hnil rfl rfl rfl
  | watchdog hstep =>
      cases hstep with
      | sample => exact hkept _ (by simp) rfl rfl rfl rfl
      | feed => exact hkept _ (by simp) rfl rfl rfl rfl
      | withhold => exact hkept [] (by simp) hnil rfl rfl rfl

/-- **A run.**  The counter and what was lost make up the account. -/
theorem settledCount_run {actions : List Action}
    (hrun : Transition.run (step env) (init env) actions = some s) :
    settledCount s + UInt32.ofNat (lostUpdates env actions) = UInt32.ofNat (overruns s.log) := by
  have hbalance := Transition.run_tally (step env) lostUpdate
    (R := fun s lost => settledCount s + UInt32.ofNat lost = UInt32.ofNat (overruns s.log)) (n := 0)
    ?_ rfl hrun
  · rwa [Nat.zero_add] at hbalance
  · intro t a t' lost hlaw hstep
    obtain ⟨events, hlog, hone⟩ := settledCount_step hstep
    calc settledCount t' + UInt32.ofNat (lost + lostUpdate t a)
        = settledCount t' + UInt32.ofNat (lostUpdate t a) + UInt32.ofNat lost := by
          rw [UInt32.ofNat_add, UInt32.add_assoc, UInt32.add_comm (UInt32.ofNat lost)]
      _ = settledCount t + UInt32.ofNat lost + UInt32.ofNat (overruns events) := by
          rw [hone]
          ac_rfl
      _ = UInt32.ofNat (overruns t'.log) := by
          rw [hlaw, hlog, overruns_append, UInt32.ofNat_add]

/-- **Overruns are counted unless a callback interrupts an addition.**  In every run in which
no error callback comes between load and store, and at every point outside of these, the
counter, with what a call has taken and not begun to add, is the number of error callbacks
plus the sum of `n - 1` over the calls, modulo `2 ^ 32`.  In an arbitrary run this holds if
and only if the number of callbacks in between is a multiple of `2 ^ 32`. -/
theorem overruns_counted {actions : List Action}
    (hrun : Transition.run (step env) (init env) actions = some s)
    (hpc : ¬ s.acquisition.Updating) :
    (Transition.Always (step env) Uninterrupted (init env) actions →
      s.adcOverrunCount + s.acquisition.owed =
        UInt32.ofNat (errorCallbacks s.log + excessNotifications s.log)) ∧
    (s.adcOverrunCount + s.acquisition.owed =
        UInt32.ofNat (errorCallbacks s.log + excessNotifications s.log) ↔
      2 ^ 32 ∣ lostUpdates env actions) := by
  have hlaw := settledCount_run hrun
  rw [settledCount_of_not_updating hpc, overruns] at hlaw
  have hexact : s.adcOverrunCount + s.acquisition.owed =
      UInt32.ofNat (errorCallbacks s.log + excessNotifications s.log) ↔
        2 ^ 32 ∣ lostUpdates env actions := by
    rw [← hlaw, eq_comm, UInt32.add_eq_left, ← UInt32.toNat_inj, UInt32.toNat_ofNat',
      Nat.dvd_iff_mod_eq_zero]
    rfl
  refine ⟨?_, hexact⟩
  intro hok
  have hnone : lostUpdates env actions = 0 :=
    Transition.tally_eq_zero (step env) (fun t a h => if_neg fun hlost => h hlost.1 hlost.2) hok
  rw [hexact, hnone]
  exact Nat.dvd_zero _

/-! ## Two notifications at once -/

/-- Two fills complete before the task runs. -/
theorem run_two_fills (env : Environment) : ∃ actions a,
    Transition.run (step env) (init env) actions =
      some { init env with adc := a, adcNotifications := 2 } ∧ .adcError ∉ actions := by
  obtain ⟨a, hfill, -, hposition, -⟩ := run_fill env (s := init env) rfl
  obtain ⟨b, hfill', -⟩ := run_fill env
    (s := { init env with adc := a, adcNotifications := 0 + 1 }) hposition
  have hboth : Transition.run (step env) (init env) _ =
      some { init env with adc := b, adcNotifications := 2 } :=
    (Transition.run_append_eq_some _).mpr ⟨_, hfill, hfill'⟩
  refine ⟨_, b, hboth, ?_⟩
  simp only [List.mem_append, List.mem_replicate, List.mem_singleton, reduceCtorEq, and_false,
    or_self, not_false_eq_true]

/-- A callback and two notifications, one after the other. -/
theorem overruns_counted_twice : ∃ actions s,
    Transition.run (step silence) (init silence) actions = some s ∧ ¬ s.acquisition.Updating ∧
    Transition.Always (step silence) Uninterrupted (init silence) actions ∧
    errorCallbacks s.log + excessNotifications s.log = 2 ∧ s.acquisition = .counted ∧
    s.adcOverrunCount + s.acquisition.owed =
      UInt32.ofNat (errorCallbacks s.log + excessNotifications s.log) := by
  obtain ⟨actions, a, hfills, hnone⟩ := run_two_fills silence
  have hrest : Transition.run (step silence) { init silence with adc := a, adcNotifications := 2 }
      [.acquisition 0, .adcError, .acquisition 0, .acquisition 0] = some { init silence with
        adc := a, adcNotifications := 0, acquisition := .counted, adcOverrunCount := 2
        log := [.taken 2, .adcError] } := by
    simp [Transition.run, step, acquisitionStep, init]
  have hrun := (Transition.run_append_eq_some _).mpr ⟨_, hfills, hrest⟩
  have hpc : ¬ AcquisitionPc.counted.Updating := id
  have hfirst : ∀ b ∈ actions, ∀ s, Uninterrupted s b :=
    fun b hb s herror => absurd (herror ▸ hb) hnone
  have hlast : Transition.Always (step silence) Uninterrupted
      { init silence with adc := a, adcNotifications := 2 }
      [.acquisition 0, .adcError, .acquisition 0, .acquisition 0] := by
    have hquiet : ∀ t, Uninterrupted t (.acquisition 0) := by
      intro t herror
      cases herror
    refine ⟨hquiet _, fun t ht => ⟨?_, fun u _ => ⟨hquiet u, fun v _ => ⟨hquiet v, ?_⟩⟩⟩⟩
    · intro _
      cases ht
      exact id
    · exact fun _ _ => trivial
  have halways := Transition.always_append _ (Transition.always_of_forall _ hfirst _) hfills hlast
  exact ⟨_, _, hrun, hpc, halways, rfl, rfl, (overruns_counted hrun hpc).1 halways⟩

/-- An error callback is overwritten. -/
theorem overrun_lost : ¬ ∀ env actions s,
    Transition.run (step env) (init env) actions = some s → ¬ s.acquisition.Updating →
      s.adcOverrunCount + s.acquisition.owed =
        UInt32.ofNat (errorCallbacks s.log + excessNotifications s.log) := by
  intro h
  obtain ⟨actions, a, hfills, -⟩ := run_two_fills silence
  have hrest : Transition.run (step silence) { init silence with adc := a, adcNotifications := 2 }
      [.acquisition 0, .acquisition 0, .adcError, .acquisition 0] = some { init silence with
        adc := a, adcNotifications := 0, acquisition := .counted, adcOverrunCount := 1
        log := [.taken 2, .adcError] } := by
    simp [Transition.run, step, acquisitionStep, init]
  have hrun := (Transition.run_append_eq_some _).mpr ⟨_, hfills, hrest⟩
  have hcount : (1 : UInt32) + 0 = UInt32.ofNat 2 := h silence _ _ hrun id
  exact absurd hcount (by decide)

end Firmware

end SpectrumAnalyzer
