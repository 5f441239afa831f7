import SpectrumAnalyzer.Firmware.BlockLoss

/-!
# How often a block is handed out

`platform_adc_wait_block` takes the notifications in one step and reads the generation in
another.  A fill that completes in between is the one that is handed out, but its
notification stays behind, and the next call returns the same generation again unless a
further fill has completed by then.  Without such completions the generations ascend.

## Main definitions

* `Undivided` — no completion between the two steps of a call.
* `Handed` — what is known of the generations handed out.
* `generations_ascend` — no block is handed out twice.
* `run_divided` — the run that hands out a block twice.
-/

namespace SpectrumAnalyzer

namespace Firmware

variable {env : Environment} {s s' : Firmware}

/-- No fill completes while a call has taken its notifications and not yet read the
generation. -/
def Undivided (s : Firmware) (a : Action) : Prop := a = .adcCallback → ¬ s.acquisition.Notified

/-- The generations handed out ascend up to the last completed fill, and stay below it
while a notification is pending or taken. -/
structure Handed (s : Firmware) : Prop where
  ascending : (acquiredGenerations s.log).Pairwise (· < ·)
  le : ∀ g ∈ acquiredGenerations s.log, g.toNat ≤ s.adc.completed
  behind : s.adcNotifications ≠ 0 ∨ s.acquisition.Notified →
    ∀ g ∈ acquiredGenerations s.log, g.toNat < s.adc.completed
  taken : s.acquisition.Notified → s.adcNotifications = 0

theorem handed_init : Handed (init env) := ⟨.nil, nofun, nofun, nofun⟩

/-- A step that hands nothing out and takes no notification. -/
theorem Handed.stay (h : Handed s)
    (hlog : acquiredGenerations s'.log = acquiredGenerations s.log)
    (hcompleted : s'.adc.completed = s.adc.completed)
    (hnotifications : s'.adcNotifications = s.adcNotifications)
    (hpc : s'.acquisition.Notified → s.acquisition.Notified) : Handed s' where
  ascending := hlog ▸ h.ascending
  le := by
    rw [hlog, hcompleted]
    exact h.le
  behind := by
    intro hpending
    rw [hnotifications] at hpending
    rw [hlog, hcompleted]
    exact h.behind (hpending.imp_right hpc)
  taken := by
    intro hnotified
    rw [hnotifications]
    exact h.taken (hpc hnotified)

/-- A fill completes while no call is between its two steps. -/
theorem handed_callback (h : Handed s) (hprompt : ¬ s.acquisition.Notified) (half : UInt32) :
    Handed { s with
      adc := s.adc.publishCompletedHalf half, adcNotifications := s.adcNotifications + 1 } where
  ascending := h.ascending
  le := fun g hg => (h.le g hg).trans (Nat.le_succ _)
  behind := fun _ g hg => Nat.lt_succ_of_le (h.le g hg)
  taken := fun hnotified => absurd hnotified hprompt

/-- The snapshot hands out the last completed fill, which is ahead of all before. -/
theorem handed_snapshot (h : Handed s) (hgeneration : s.adc.completedGeneration.toNat =
    s.adc.completed) (hpc : s.acquisition = .counted) (now : UInt32) :
    Handed { s with
      acquisition := .acquired (s.adc.block now)
      log := s.log ++ [.acquired (s.adc.block now)] } := by
  have hnotified : s.acquisition.Notified := hpc ▸ trivial
  have hbehind := h.behind (.inr hnotified)
  have hlog : acquiredGenerations (s.log ++ [.acquired (s.adc.block now)]) =
      acquiredGenerations s.log ++ [s.adc.completedGeneration] := acquired_append _ _
  constructor
  · rw [hlog, List.pairwise_append]
    refine ⟨h.ascending, List.pairwise_singleton _ _, ?_⟩
    intro g hg last hlast
    rw [List.mem_singleton.mp hlast, UInt32.lt_iff_toNat_lt, hgeneration]
    exact hbehind g hg
  · intro g hg
    rw [hlog, List.mem_append, List.mem_singleton] at hg
    rcases hg with hg | rfl
    · exact h.le g hg
    · exact hgeneration.le
  · rintro (hpending | hpending)
    · exact absurd (h.taken hnotified) hpending
    · exact hpending.elim
  · exact fun hpending => hpending.elim

/-- An event that hands nothing out. -/
theorem acquired_append_other (log : List Event) {e : Event} (h : e.acquired? = none) :
    acquiredGenerations (log ++ [e]) = acquiredGenerations log := by
  rw [acquired_append, h]
  exact List.append_nil _

theorem handed_acquisition {now : UInt32} (h : Handed s)
    (hgeneration : s.adc.completedGeneration.toNat = s.adc.completed)
    (hstep : AcquisitionStep now s s') : Handed s' := by
  cases hstep with
  | take hpc hn =>
      have hlog := acquired_append_other s.log (e := .taken s.adcNotifications) rfl
      constructor
      · exact hlog ▸ h.ascending
      · exact hlog ▸ h.le
      · intro _
        exact hlog ▸ h.behind (.inl hn)
      · exact fun _ => rfl
  | load hpc => exact h.stay rfl rfl rfl fun _ => hpc ▸ trivial
  | single hpc => exact h.stay rfl rfl rfl fun _ => hpc ▸ trivial
  | store hpc => exact h.stay rfl rfl rfl fun _ => hpc ▸ trivial
  | snapshot hpc => exact handed_snapshot h hgeneration hpc now
  | kick hpc => exact h.stay (acquired_append_other _ rfl) rfl rfl False.elim
  | _ => exact h.stay rfl rfl rfl False.elim

theorem handed_dsp (h : Handed s) (hstep : DspStep s s') : Handed s' := by
  cases hstep with
  | receive => exact h.stay (acquired_append_other _ rfl) rfl rfl id
  | accept => exact h.stay (acquired_append_other _ rfl) rfl rfl id
  | publish => exact h.stay (acquired_append_other _ rfl) rfl rfl id
  | kick => exact h.stay (acquired_append_other _ rfl) rfl rfl id
  | _ => exact h.stay rfl rfl rfl id

theorem handed_bystander (h : Handed s) (hstep : Bystander s s') : Handed s' := by
  obtain ⟨events, hlog, haside⟩ := hstep.log
  have hacquired := (log_append_aside s.log haside).1
  refine h.stay (hlog ▸ hacquired) (congrArg Adc.completed hstep.adc) hstep.adcNotifications ?_
  intro hpending
  rwa [hstep.acquisition] at hpending

/-- One step that does not divide a call. -/
theorem handed_step {a : Action} (h : Handed s) (howned : Owned env s)
    (hfew : s.adc.completed < 2 ^ 32) (hprompt : Undivided s a)
    (hstep : step env s a = some s') : Handed s' := by
  cases actionStep_of_step hstep with
  | dmaStore => exact h.stay rfl rfl rfl id
  | adcCallback => exact handed_callback h (hprompt rfl) _
  | adcError => exact h.stay (acquired_append_other _ rfl) rfl rfl id
  | acquisition hstep =>
      have hgeneration : s.adc.completedGeneration.toNat = s.adc.completed := by
        rw [howned.filled.generation, UInt32.toNat_ofNat']
        exact Nat.mod_eq_of_lt hfew
      exact handed_acquisition h hgeneration hstep
  | dsp hstep => exact handed_dsp h hstep
  | telemetry hstep => exact handed_bystander h (bystander_telemetry hstep)
  | watchdog hstep => exact handed_bystander h (bystander_watchdog hstep)

/-- **No block is handed out twice.**  In every run of fewer than `2 ^ 32` completions in
which none divides a call, the generations handed out ascend. -/
theorem generations_ascend {actions : List Action}
    (hprompt : Transition.Always (step env) Undivided (init env) actions)
    (hrun : Transition.run (step env) (init env) actions = some s)
    (hfew : s.adc.completed < 2 ^ 32) : (acquiredGenerations s.log).Pairwise (· < ·) := by
  have hinvariant : Owned env s ∧ (s.adc.completed < 2 ^ 32 → Handed s) := by
    refine Transition.run_invariant_of (step env) (I := fun s => Owned env s ∧
      (s.adc.completed < 2 ^ 32 → Handed s)) ?_ ⟨owned_init, fun _ => handed_init⟩ hprompt hrun
    intro s a s' h hok hstep
    refine ⟨owned_step h.1 (step_cases hstep), ?_⟩
    intro hfew
    have hless := (completed_le (step_cases hstep)).trans_lt hfew
    exact handed_step (h.2 hless) h.1 hless hok hstep
  exact (hinvariant.2 hfew).ascending

/-! ## Calls, divided or not -/

/-- Between two calls, with a fill about to begin. -/
structure Resting (s : Firmware) : Prop where
  position : s.adc.position = 0
  acquisition : s.acquisition = .waiting
  notifications : s.adcNotifications = 0
  overruns : s.adcOverrunCount = 0

theorem resting_init (env : Environment) : Resting (init env) := ⟨rfl, rfl, rfl, rfl⟩

/-- The next fill completes. -/
theorem run_fill (env : Environment) {s : Firmware} (hposition : s.adc.position = 0) :
    ∃ a, Transition.run (step env) s (List.replicate 1024 .dmaStore ++ [.adcCallback]) =
        some { s with adc := a, adcNotifications := s.adcNotifications + 1 } ∧
      (¬ s.acquisition.Notified → Transition.Always (step env) Undivided s
        (List.replicate 1024 .dmaStore ++ [.adcCallback])) ∧
      a.position = 0 ∧ a.completed = s.adc.completed + 1 ∧
      a.completedGeneration = s.adc.completedGeneration + 1 := by
  obtain ⟨a, hstores, hfull, hcompleted, hgeneration⟩ := run_stores env s (n := 1024) (by omega)
  have hcallback : step env { s with adc := a } .adcCallback = some { s with
      adc := a.publishCompletedHalf (UInt32.ofNat (halfOf (a.completed + 1)))
      adcNotifications := s.adcNotifications + 1 } := if_pos (hfull.trans (by omega))
  refine ⟨_, (Transition.run_append_eq_some _).mpr ⟨_, hstores,
    (Transition.run_cons_eq_some _).mpr ⟨_, hcallback, rfl⟩⟩, ?_, rfl, ?_, ?_⟩
  · intro hpc
    refine Transition.always_append _ (Transition.always_of_forall _ ?_ s) hstores
      ⟨fun _ => hpc, fun _ _ => trivial⟩
    intro b hb _ hcall
    rw [List.eq_of_mem_replicate hb] at hcall
    cases hcall
  · exact congrArg (· + 1) hcompleted
  · exact congrArg (· + 1) hgeneration

/-- A call that finds one notification hands out the last completed fill. -/
theorem run_call (env : Environment) {s : Firmware} (hpc : s.acquisition = .waiting)
    (hnotifications : s.adcNotifications = 1) (hoverruns : s.adcOverrunCount = 0)
    (hroom : s.blockQueue.length < blockQueueLength) :
    ∃ t, Transition.run (step env) s (List.replicate 7 (.acquisition 0)) = some t ∧
      t.adc = s.adc ∧ t.acquisition = .waiting ∧ t.adcNotifications = 0 ∧
      t.adcOverrunCount = 0 ∧ t.blockQueue.length = s.blockQueue.length + 1 ∧
      acquiredGenerations t.log =
        acquiredGenerations s.log ++ [s.adc.completedGeneration] := by
  have htake := step_take env hpc hnotifications
  obtain ⟨t, hrun, ht⟩ := run_notified env
    (s := { s with acquisition := .taken 1, adcNotifications := 0, log := s.log ++ [.taken 1] })
    rfl hoverruns hroom
  refine ⟨t, (Transition.run_cons_eq_some _).mpr ⟨_, htake, hrun⟩, ht.adc, ht.acquisition,
    ht.notifications, ht.overruns.trans hoverruns, ?_, ?_⟩
  · rw [ht.queue, List.length_append, List.length_singleton]
  · rw [ht.log]
    simp only [acquiredGenerations, List.append_assoc, List.filterMap_append]
    rfl

/-- **A call hands out the fill that it waited for**, when nothing divides it. -/
theorem run_undivided (env : Environment) {s : Firmware} (h : Resting s)
    (hroom : s.blockQueue.length < blockQueueLength) :
    ∃ actions t, Transition.run (step env) s actions = some t ∧
      Transition.Always (step env) Undivided s actions ∧ Resting t ∧
      t.blockQueue.length = s.blockQueue.length + 1 ∧
      t.adc.completed = s.adc.completed + 1 ∧
      t.adc.completedGeneration = s.adc.completedGeneration + 1 ∧
      acquiredGenerations t.log =
        acquiredGenerations s.log ++ [s.adc.completedGeneration + 1] := by
  have hwaiting : ¬ s.acquisition.Notified := by
    rw [h.acquisition]
    exact id
  obtain ⟨a, hfill, halways, hposition, hcompleted, hgeneration⟩ := run_fill env h.position
  obtain ⟨t, hcall, hadc, hpc, hnotifications, hoverruns, hqueue, hlog⟩ := run_call env
    (s := { s with adc := a, adcNotifications := s.adcNotifications + 1 }) h.acquisition
    (by simp [h.notifications]) h.overruns hroom
  have hquiet : ∀ b ∈ List.replicate 7 (Action.acquisition 0), ∀ s, Undivided s b := by
    intro b hb _ hcallback
    rw [List.eq_of_mem_replicate hb] at hcallback
    cases hcallback
  refine ⟨_, t, (Transition.run_append_eq_some _).mpr ⟨_, hfill, hcall⟩,
    Transition.always_append _ (halways hwaiting) hfill (Transition.always_of_forall _ hquiet _),
    ⟨?_, hpc, hnotifications, hoverruns⟩, hqueue, ?_, ?_, ?_⟩
  · rw [hadc]
    exact hposition
  · rw [hadc]
    exact hcompleted
  · rw [hadc]
    exact hgeneration
  · rw [hlog, ← hgeneration]

/-- Two fills, two calls. -/
theorem generations_ascend_silence :
    ∃ actions s, Transition.Always (step silence) Undivided (init silence) actions ∧
      Transition.run (step silence) (init silence) actions = some s ∧ s.adc.completed < 2 ^ 32 ∧
      acquiredGenerations s.log = [1, 2] ∧ (acquiredGenerations s.log).Pairwise (· < ·) := by
  obtain ⟨_, t, hrun, halways, hrest, hqueue, hcompleted, hgeneration, hlog⟩ :=
    run_undivided silence (resting_init silence) (by decide)
  obtain ⟨_, s, hrun', halways', -, -, hcompleted', -, hlog'⟩ :=
    run_undivided silence hrest (by rw [hqueue]; decide)
  have hfew : s.adc.completed < 2 ^ 32 := by
    rw [hcompleted', hcompleted]
    decide
  have hboth := Transition.always_append _ halways hrun halways'
  have hruns := (Transition.run_append_eq_some _).mpr ⟨t, hrun, hrun'⟩
  refine ⟨_, s, hboth, hruns, hfew, ?_, generations_ascend hboth hruns hfew⟩
  rw [hlog', hlog, hgeneration]
  rfl

/-- **A divided call.**  A fill that completes between the two steps of a call is handed
out by it, and by the next call once more. -/
theorem run_divided (env : Environment) {s : Firmware} (h : Resting s)
    (hempty : s.blockQueue = []) :
    ∃ actions t, Transition.run (step env) s actions = some t ∧
      t.adc.completed = s.adc.completed + 2 ∧
      acquiredGenerations t.log = acquiredGenerations s.log ++
        [s.adc.completedGeneration + 2, s.adc.completedGeneration + 2] := by
  obtain ⟨a, hfill, -, hposition, hcompleted, hgeneration⟩ := run_fill env h.position
  have htake := step_take env (s := { s with adc := a, adcNotifications := s.adcNotifications + 1 })
    h.acquisition (by simp [h.notifications])
  -- the second fill completes while the first call has taken its notification
  obtain ⟨a', hfill', -, -, hcompleted', hgeneration'⟩ := run_fill env (s := { s with
    adc := a, adcNotifications := 0, acquisition := .taken 1
    log := s.log ++ [.taken 1] }) hposition
  obtain ⟨t, hrest, ht⟩ := run_notified env (s := { s with
    adc := a', adcNotifications := 0 + 1, acquisition := .taken 1, log := s.log ++ [.taken 1] })
    rfl h.overruns (by simp [hempty, blockQueueLength])
  obtain ⟨u, hcall, hadc, -, -, -, -, hlog⟩ := run_call env ht.acquisition
    (ht.notifications.trans rfl) (ht.overruns.trans h.overruns)
    (by simp [ht.queue, hempty, blockQueueLength])
  have hcurrent : a'.completedGeneration = s.adc.completedGeneration + 2 := by
    rw [hgeneration', hgeneration, UInt32.add_assoc]
    rfl
  refine ⟨_, u, (Transition.run_append_eq_some _).mpr ⟨_, hfill,
    (Transition.run_cons_eq_some _).mpr ⟨_, htake, (Transition.run_append_eq_some _).mpr ⟨_, hfill',
      (Transition.run_append_eq_some _).mpr ⟨_, hrest, hcall⟩⟩⟩⟩, ?_, ?_⟩
  · rw [hadc, ht.adc, hcompleted', hcompleted]
  · rw [hlog, ht.log, ht.adc, hcurrent]
    simp only [acquiredGenerations, List.append_assoc, List.filterMap_append]
    rw [← hcurrent]
    rfl

/-- A fill is handed out twice. -/
theorem generation_repeated :
    ¬ ∀ env actions s, Transition.run (step env) (init env) actions = some s →
      s.adc.completed < 2 ^ 32 → (acquiredGenerations s.log).Pairwise (· < ·) := by
  intro h
  obtain ⟨actions, t, hrun, hcompleted, hlog⟩ :=
    run_divided silence (resting_init silence) rfl
  have hascend := h silence actions t hrun (by rw [hcompleted]; decide)
  rw [hlog] at hascend
  exact absurd hascend (by decide)

end Firmware

end SpectrumAnalyzer
