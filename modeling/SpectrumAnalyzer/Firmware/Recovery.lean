import SpectrumAnalyzer.Firmware.Provenance
import SpectrumAnalyzer.Firmware.Transmission
import SpectrumAnalyzer.Firmware.Votes

/-!
# The system recovers

Whatever has gone wrong before, blocks lost, calls failed, tasks late, the system is never
stuck.  What its tasks still have to do is a bounded number that each of their turns lessens,
so any backlog is worked off in whatever order they take them.  From there the next fill can
be analyzed, its result delivered, and the watchdog fed.

## Main definitions

* `Firmware.work`, `workLimit` — what the tasks still have to do, and how much it can be.
* `AtRest`, `Due` — a system without work, and the turns of a task with work.
* `comes_to_rest` — a run that does all the work.
* `passage` — what the log records of a fill that goes all the way.
* `recovers` — from every reachable state.
-/

namespace SpectrumAnalyzer

/-- The steps of `telemetry_task` until it waits again. -/
def TelemetryPc.work : TelemetryPc → ℕ
  | .waiting => 0
  | .sending _ todo => todo.length + 2
  | .failed => 1
  | .kicking => 1

/-- The work on a result in the queue. -/
def resultWork : ℕ := plan.length + 3

/-- The steps of `dsp_task` until it waits again, and the work on the result. -/
def DspPc.work : DspPc → ℕ
  | .receiving => 0
  | .received _ => resultWork + 2056
  | .firstPass _ _ reads => resultWork + 1031 + (1024 - reads.length)
  | .secondPass _ _ _ reads => resultWork + 6 + (1024 - reads.length)
  | .unpacked _ _ _ _ => resultWork + 5
  | .accepted _ _ _ => resultWork + 4
  | .analyzed _ => resultWork + 3
  | .publishing _ => resultWork + 2
  | .stale _ => 2
  | .kicking => 1

/-- The work on a block in the queue. -/
def blockWork : ℕ := resultWork + 2057

theorem blockWork_eq : blockWork = resultWork + 2057 := rfl

/-- The steps of `acquisition_task` until it waits again, and the work on the block. -/
def AcquisitionPc.work : AcquisitionPc → ℕ
  | .waiting => 0
  | .taken _ => blockWork + 8
  | .loaded _ _ => blockWork + 7
  | .counted => blockWork + 6
  | .acquired _ => blockWork + 5
  | .checked _ => blockWork + 4
  | .flagging _ => blockWork + 3
  | .sending _ => blockWork + 2
  | .dropping _ => 2
  | .kicking => 1
  | .timedOut => 1

def WatchdogPc.work : WatchdogPc → ℕ
  | .waiting => 0
  | .observed _ => 1

namespace Firmware
variable {env : Environment} {s s' : Firmware}

/-- What the tasks still have to do. -/
def work (s : Firmware) : ℕ :=
  (if s.adcNotifications = 0 then 0 else blockWork + 9) + s.acquisition.work +
    (blockWork * s.blockQueue.length + s.dsp.work) +
    ((if s.resultQueue = none then 0 else resultWork) + s.telemetry.work) + s.watchdog.work

/-! ## Every step lessens the work -/

theorem work_acquisition (now : UInt32)
    (hwork : s.acquisition ≠ .waiting ∨ s.adcNotifications ≠ 0) :
    (s.acquisitionStep now).work < s.work := by
  rw [acquisitionStep]
  cases hpc : s.acquisition with
  | waiting =>
      have hn := hwork.resolve_left (not_not.mpr hpc)
      simp only [work, hpc, hn, if_false, if_true, AcquisitionPc.work]
      omega
  | taken n =>
      dsimp only
      split <;> simp only [work, hpc, AcquisitionPc.work] <;> omega
  | checked block =>
      dsimp only
      split <;> simp only [work, hpc, AcquisitionPc.work] <;> omega
  | sending block =>
      dsimp only
      split
      · simp only [work, hpc, AcquisitionPc.work, List.length_append, List.length_singleton,
          Nat.mul_add]
        omega
      · have hblock := blockWork_eq
        simp only [work, hpc, AcquisitionPc.work]
        omega
  | _ =>
      simp only [work, hpc, AcquisitionPc.work, statusSet, healthKick]
      omega

theorem work_dsp (elapsedCycles : UInt32) (hwork : s.dsp ≠ .receiving ∨ s.blockQueue ≠ []) :
    (s.dspStep env elapsedCycles).work < s.work := by
  rw [dspStep]
  cases hpc : s.dsp with
  | receiving =>
      dsimp only
      cases hqueue : s.blockQueue with
      | nil => exact absurd hqueue (hwork.resolve_left (not_not.mpr hpc))
      | cons block rest =>
          have hblock := blockWork_eq
          simp only [work, hpc, hqueue, DspPc.work, List.length_cons, Nat.mul_succ]
          omega
  | received block =>
      dsimp only
      split
      · simp only [work, hpc, DspPc.work]
        omega
      · simp only [work, hpc, DspPc.work, List.length_nil]
        omega
  | firstPass block since reads =>
      dsimp only
      rw [Adc.length_read]
      split
      · simp only [work, hpc, DspPc.work, Adc.length_read]
        omega
      · simp only [work, hpc, DspPc.work, List.length_nil]
        omega
  | secondPass block since first reads =>
      dsimp only
      rw [Adc.length_read]
      split <;> simp only [work, hpc, DspPc.work, Adc.length_read] <;> omega
  | unpacked block since first second =>
      dsimp only
      split <;> simp only [work, hpc, DspPc.work] <;> omega
  | publishing result =>
      simp only [work, hpc, DspPc.work, reduceCtorEq, if_false]
      split <;> omega
  | _ =>
      simp only [work, hpc, DspPc.work, statusSet, healthKick]
      omega

theorem work_telemetry (written : Bool)
    (hwork : s.telemetry ≠ .waiting ∨ s.resultQueue ≠ none) :
    (s.telemetryStep written).work < s.work := by
  rw [telemetryStep]
  cases hpc : s.telemetry with
  | waiting =>
      dsimp only
      cases hqueue : s.resultQueue with
      | none => exact absurd hqueue (hwork.resolve_left (not_not.mpr hpc))
      | some result =>
          simp only [work, hpc, hqueue, TelemetryPc.work, resultWork, reduceCtorEq, if_false,
            if_true]
          omega
  | sending result todo =>
      cases todo with
      | nil =>
          simp only [work, hpc, TelemetryPc.work]
          omega
      | cons address rest =>
          dsimp only
          split <;> simp only [work, hpc, TelemetryPc.work, List.length_cons] <;> omega
  | _ =>
      simp only [work, hpc, TelemetryPc.work, statusSet, healthKick]
      omega

theorem work_watchdog (hwork : s.watchdog ≠ .waiting) : (s.watchdogStep).work < s.work := by
  rw [watchdogStep]
  cases hpc : s.watchdog with
  | waiting => exact absurd hpc hwork
  | observed mask =>
      dsimp only
      split <;> simp only [work, hpc, WatchdogPc.work] <;> omega

/-! ## Rest -/

/-- No task has anything to do. -/
structure AtRest (s : Firmware) : Prop where
  notifications : s.adcNotifications = 0
  acquisition : s.acquisition = .waiting
  queue : s.blockQueue = []
  dsp : s.dsp = .receiving
  result : s.resultQueue = none
  telemetry : s.telemetry = .waiting
  watchdog : s.watchdog = .waiting

/-- It is the turn of a task that has something to do. -/
def Due (s : Firmware) : Action → Prop
  | .acquisition _ => s.acquisition ≠ .waiting ∨ s.adcNotifications ≠ 0
  | .dsp _ => s.dsp ≠ .receiving ∨ s.blockQueue ≠ []
  | .telemetry _ => s.telemetry ≠ .waiting ∨ s.resultQueue ≠ none
  | .watchdog => s.watchdog ≠ .waiting
  | _ => False

theorem adc_acquisition {now : UInt32} (h : AcquisitionStep now s s') : s'.adc = s.adc := by
  cases h <;> rfl

theorem adc_dsp (h : DspStep s s') : s'.adc = s.adc := by
  cases h <;> rfl

/-- Each turn lessens the work. -/
theorem work_due (env : Environment) (s : Firmware) (a : Action) (s' : Firmware)
    (hdue : Due s a) (hstep : step env s a = some s') : s'.work < s.work := by
  cases a with
  | dmaStore => exact hdue.elim
  | adcCallback => exact hdue.elim
  | adcError => exact hdue.elim
  | acquisition now =>
      cases hstep
      exact work_acquisition now hdue
  | dsp elapsedCycles =>
      cases hstep
      exact work_dsp elapsedCycles hdue
  | telemetry written =>
      cases hstep
      exact work_telemetry written hdue
  | watchdog =>
      cases hstep
      exact work_watchdog hdue

/-- The tasks do not touch the ADC. -/
theorem adc_due {a : Action} (hdue : Due s a) (hstep : step env s a = some s') :
    s'.adc = s.adc := by
  cases actionStep_of_step hstep with
  | dmaStore => exact hdue.elim
  | adcCallback => exact hdue.elim
  | adcError => rfl
  | acquisition h => exact adc_acquisition h
  | dsp h => exact adc_dsp h
  | telemetry h => exact (bystander_telemetry h).adc
  | watchdog h => exact (bystander_watchdog h).adc

/-- **No deadlock.**  Unless all are at rest, some task can take a turn. -/
theorem exists_due (env : Environment) (hwork : ¬ AtRest s) :
    ∃ a s', Due s a ∧ step env s a = some s' := by
  by_cases hacquisition : s.acquisition ≠ .waiting ∨ s.adcNotifications ≠ 0
  · exact ⟨.acquisition 0, _, hacquisition, rfl⟩
  by_cases hdsp : s.dsp ≠ .receiving ∨ s.blockQueue ≠ []
  · exact ⟨.dsp 0, _, hdsp, rfl⟩
  by_cases htelemetry : s.telemetry ≠ .waiting ∨ s.resultQueue ≠ none
  · exact ⟨.telemetry true, _, htelemetry, rfl⟩
  by_cases hwatchdog : s.watchdog ≠ .waiting
  · exact ⟨.watchdog, _, hwatchdog, rfl⟩
  simp only [not_or, not_not] at hacquisition hdsp htelemetry hwatchdog
  exact absurd ⟨hacquisition.2, hacquisition.1, hdsp.2, hdsp.1, htelemetry.2, htelemetry.1,
    hwatchdog⟩ hwork

/-- A run of such turns. -/
theorem run_due {actions : List Action} (hdue : Transition.Always (step env) Due s actions)
    (hrun : Transition.run (step env) s actions = some s') :
    actions.length + s'.work ≤ s.work ∧ s'.adc = s.adc ∧ ∃ events, s'.log = s.log ++ events := by
  refine ⟨Transition.length_add_work_le (step env) work (work_due env) hdue hrun, ?_⟩
  refine Transition.run_invariant_of (step env)
    (I := fun t => t.adc = s.adc ∧ ∃ events, t.log = s.log ++ events) ?_
    ⟨rfl, [], (List.append_nil _).symm⟩ hdue hrun
  rintro t a t' ⟨hadc, events, hlog⟩ hturn hstep
  obtain ⟨more, hmore, -⟩ := votes_step hstep
  refine ⟨(adc_due hturn hstep).trans hadc, events ++ more, ?_⟩
  rw [hmore, hlog, List.append_assoc]

/-- **The backlog is worked off.** -/
theorem comes_to_rest (env : Environment) (s : Firmware) : ∃ actions t,
    Transition.run (step env) s actions = some t ∧
      Transition.Always (step env) Due s actions ∧ AtRest t := by
  have hwork : ∀ t : Firmware, t.work ≠ 0 → ¬ AtRest t := by
    rintro t hne ⟨hnotifications, hacquisition, hqueue, hdsp, hresult, htelemetry, hwatchdog⟩
    refine hne ?_
    simp only [work, hnotifications, hacquisition, hqueue, hdsp, hresult, htelemetry, hwatchdog,
      if_true, AcquisitionPc.work, DspPc.work, TelemetryPc.work, WatchdogPc.work, List.length_nil,
      Nat.mul_zero, Nat.add_zero]
  obtain ⟨actions, t, hrun, hdue, hdone⟩ := Transition.exists_run_of_work (step env) work
    (work_due env) (fun t hne => exists_due env (hwork t hne)) s
  refine ⟨actions, t, hrun, hdue, ?_⟩
  by_contra hrest
  obtain ⟨a, t', hturn, hstep⟩ := exists_due env hrest
  have hlt := work_due env t a t' hturn hstep
  omega

/-! ## How much work there can be -/

/-- The queue of blocks is bounded. -/
theorem queue_step (hle : s.blockQueue.length ≤ blockQueueLength) {a : Action}
    (hstep : step env s a = some s') : s'.blockQueue.length ≤ blockQueueLength := by
  cases actionStep_of_step hstep with
  | dmaStore => exact hle
  | adcCallback => exact hle
  | adcError => exact hle
  | @acquisition now =>
      cases hstep
      rw [acquisitionStep]
      split
      · split <;> exact hle
      · split <;> exact hle
      · exact hle
      · exact hle
      · exact hle
      · split <;> exact hle
      · exact hle
      · split
        · next hroom =>
            rw [List.length_append, List.length_singleton]
            omega
        · exact hle
      · exact hle
      · exact hle
      · exact hle
  | dsp h =>
      cases h with
      | receive hpc hqueue =>
          rw [hqueue, List.length_cons] at hle
          exact Nat.le_of_succ_le hle
      | _ => exact hle
  | telemetry h => rwa [(bystander_telemetry h).blockQueue]
  | watchdog h => rwa [(bystander_watchdog h).blockQueue]

theorem Reachable.queue_le (hs : Reachable env s) : s.blockQueue.length ≤ blockQueueLength := by
  obtain ⟨actions, hrun⟩ := hs
  exact Transition.run_invariant (step env)
    (I := fun s => s.blockQueue.length ≤ blockQueueLength)
    (fun _ _ _ hle hstep => queue_step hle hstep)
    (Nat.zero_le _) hrun

/-- The greatest backlog: a notification, a block with `acquisition_task`, a full queue, a block
with `dsp_task`, and two results. -/
def workLimit : ℕ := (blockWork + 9) + (blockWork + 8) + (blockWork * blockQueueLength +
  (resultWork + 2056)) + (resultWork + (plan.length + 2)) + 1

example : workLimit = 10378 := by decide

/-- **The backlog is bounded.** -/
theorem Reachable.work_le (hs : Reachable env s) : s.work ≤ workLimit := by
  obtain ⟨outcomes, htransmitted⟩ := hs.transmitted
  have hqueue := Nat.mul_le_mul_left blockWork hs.queue_le
  have hacquisition : s.acquisition.work ≤ blockWork + 8 := by
    cases s.acquisition <;> simp only [AcquisitionPc.work] <;> omega
  have hdsp : s.dsp.work ≤ resultWork + 2056 := by
    cases s.dsp <;> simp only [DspPc.work] <;> omega
  have htelemetry : s.telemetry.work ≤ plan.length + 2 := by
    cases hpc : s.telemetry with
    | sending result todo =>
        obtain ⟨before, n, -, rfl⟩ := htransmitted.sending result todo hpc
        simp only [TelemetryPc.work, List.length_drop]
        omega
    | _ =>
        simp only [TelemetryPc.work]
        omega
  have hwatchdog : s.watchdog.work ≤ 1 := by
    cases s.watchdog <;> simp only [WatchdogPc.work] <;> omega
  unfold work workLimit
  -- the summands are large numbers, which arithmetic need not look into
  generalize blockWork = block at hqueue hacquisition ⊢
  generalize resultWork = result at hdsp ⊢
  generalize plan.length = packets at htelemetry ⊢
  split <;> split <;> omega

/-! ## The next fill -/

/-- What the way of a fill to `dsp_task` leaves behind. -/
structure Arrived (s t : Firmware) (block : AdcDmaBlock) : Prop where
  dsp : t.dsp = .received block
  current : t.adc.completedGeneration = block.generation
  generation : block.generation = s.adc.completedGeneration + 1
  telemetry : t.telemetry = .waiting
  watchdog : t.watchdog = .waiting
  votes : t.healthMask = s.healthMask ||| healthAcquisition
  log : t.log = s.log ++ [.taken 1, .acquired block, .kicked healthAcquisition, .received block]

/-- The next fill reaches `dsp_task`. -/
theorem run_arrival (env : Environment) (h : AtRest s) (hposition : s.adc.position ≤ 1024) :
    ∃ actions t block, Transition.run (step env) s actions = some t ∧ actions.length ≤ 1034 ∧
      Arrived s t block := by
  obtain ⟨a, hstores, hfull, hcompleted, hgeneration⟩ :=
    run_stores env s (n := 1024 - s.adc.position) (by omega)
  obtain ⟨t, block, hrun, ht⟩ := run_completed env (s := { s with adc := a })
    h.acquisition h.notifications h.queue (hfull.trans (by omega)) h.dsp
  have hcurrent : t.adc.completedGeneration = block.generation := by
    rw [ht.fromAdc]
    rfl
  have hnext : t.adc.completedGeneration = a.completedGeneration + 1 := by
    rw [ht.adc]
    rfl
  have hsteps : turnSteps { s with adc := a } ≤ 7 := by
    unfold turnSteps
    split <;> omega
  refine ⟨_, t, block, (Transition.run_append_eq_some _).mpr ⟨_, hstores, hrun⟩, ?_, ht.dsp,
    hcurrent, ?_, ht.downstream.telemetry.trans h.telemetry,
    ht.downstream.watchdog.trans h.watchdog, ht.votes, ht.log⟩
  · simp only [List.length_append, List.length_cons, List.length_replicate, List.length_nil]
    omega
  · rw [← hcurrent, hnext, hgeneration]

/-- The votes of all tasks make a full mask, whatever else is in it. -/
theorem full_of_votes (mask : UInt32) :
    (mask ||| healthAcquisition ||| healthDsp ||| healthTelemetry) &&& healthRequired =
      healthRequired := by
  have hrequired : mask ||| healthAcquisition ||| healthDsp ||| healthTelemetry =
      mask ||| healthRequired := by
    simp only [healthRequired, UInt32.or_assoc]
  rw [hrequired, ← UInt32.toBitVec_inj, UInt32.toBitVec_and, UInt32.toBitVec_or]
  ext k hk
  simp only [BitVec.getElem_and, BitVec.getElem_or]
  cases mask.toBitVec[k] <;> cases healthRequired.toBitVec[k] <;> rfl

/-- A received block is analyzed, its result delivered, and the watchdog fed. -/
theorem run_completion (env : Environment) {t : Firmware} {block : AdcDmaBlock}
    (h : Arrived s t block) : ∃ actions u result since first second,
      Transition.run (step env) t actions = some u ∧ actions.length = 2067 ∧
        result.generation = block.generation ∧
        u.log = t.log ++ [.accepted block since first second, .published result,
          .kicked healthDsp, .delivered result, .kicked healthTelemetry, .cleared, .fed] := by
  obtain ⟨first, second, hunpack, haccept⟩ := accepts_undisturbed env h.dsp h.current
  obtain ⟨result, hgeneration, hanalyze⟩ := run_analysis env
    (s := { t with
      dsp := .accepted block first second
      log := t.log ++ [.accepted block t.adc.completed first second] }) rfl
  obtain ⟨sender, hdelivered⟩ := run_delivered env (t := { t with
    dsp := .publishing result
    log := t.log ++ [.accepted block t.adc.completed first second] }) rfl h.telemetry
  have hsample := step_sample env (s := { t with
    dsp := .receiving, telemetry := .waiting, resultQueue := none, sender := sender
    healthMask := t.healthMask ||| healthDsp ||| healthTelemetry
    log := t.log ++ [.accepted block t.adc.completed first second] ++
      [.published result, .kicked healthDsp, .delivered result, .kicked healthTelemetry] })
    h.watchdog
  have hfeed := step_feed env (s := { t with
    dsp := .receiving, telemetry := .waiting, resultQueue := none, sender := sender
    healthMask := 0, watchdog := .observed (t.healthMask ||| healthDsp ||| healthTelemetry)
    log := t.log ++ [.accepted block t.adc.completed first second] ++
      [.published result, .kicked healthDsp, .delivered result, .kicked healthTelemetry] ++
      [.cleared] }) rfl (by rw [h.votes]; exact full_of_votes s.healthMask)
  refine ⟨_, _, result, t.adc.completed, first, second,
    (Transition.run_append_eq_some _).mpr ⟨_, hunpack,
      (Transition.run_cons_eq_some _).mpr ⟨_, haccept,
        (Transition.run_append_eq_some _).mpr ⟨_, hanalyze,
          (Transition.run_append_eq_some _).mpr ⟨_, hdelivered,
            (Transition.run_cons_eq_some _).mpr ⟨_, hsample,
              Transition.run_singleton _ hfeed⟩⟩⟩⟩⟩, ?_, hgeneration, ?_⟩
  · simp only [List.length_append, List.length_cons, List.length_replicate, List.length_nil]
  · simp only [List.append_assoc]
    rfl

/-- What the log records of a fill that goes all the way. -/
def passage (block : AdcDmaBlock) (result : SpectrumResult) (since : ℕ)
    (first second : List UInt32) : List Event :=
  [.taken 1, .acquired block, .kicked healthAcquisition, .received block,
    .accepted block since first second, .published result, .kicked healthDsp, .delivered result,
    .kicked healthTelemetry, .cleared, .fed]

/-- From rest the next fill can go all the way. -/
theorem run_passage (hs : Reachable env s) (h : AtRest s) :
    ∃ next t block result since first second, Transition.run (step env) s next = some t ∧
      next.length ≤ 3101 ∧ block.generation = UInt32.ofNat (s.adc.completed + 1) ∧
      result.generation = block.generation ∧
      t.log = s.log ++ passage block result since first second := by
  have hfilled := hs.owned.filled
  obtain ⟨arrival, t, block, harrival, hlength, ht⟩ := run_arrival env h hfilled.position_le
  obtain ⟨completion, u, result, since, first, second, hcompletion, hlength', hgeneration, hlog⟩ :=
    run_completion env ht
  refine ⟨arrival ++ completion, u, block, result, since, first, second,
    (Transition.run_append_eq_some _).mpr ⟨t, harrival, hcompletion⟩, ?_, ?_, hgeneration, ?_⟩
  · rw [List.length_append]
    omega
  · rw [ht.generation, hfilled.generation, UInt32.ofNat_add]
    rfl
  · rw [hlog, ht.log, List.append_assoc]
    rfl

/-- The watchdog can be fed again. -/
theorem exists_feed (hs : Reachable env s) : ∃ actions t events,
    Transition.run (step env) s actions = some t ∧ t.log = s.log ++ events ∧ .fed ∈ events := by
  obtain ⟨rest, u, hrest, hdue, hu⟩ := comes_to_rest env s
  obtain ⟨-, -, before, hbefore⟩ := run_due hdue hrest
  obtain ⟨next, t, block, result, since, first, second, hnext, -, -, -, hlog⟩ :=
    run_passage (hs.run hrest) hu
  refine ⟨rest ++ next, t, before ++ passage block result since first second,
    (Transition.run_append_eq_some _).mpr ⟨u, hrest, hnext⟩, ?_, ?_⟩
  · rw [hlog, hbefore, List.append_assoc]
  · simp [passage]

/-- **The system recovers.**  From every reachable state the tasks work off their backlog,
which is bounded: in whatever order they take their turns, and whatever becomes of the UART
calls, they come to rest after at most as many turns as there is work, and until then a task
that has something to do can take its turn.  From there the next fill of the DMA buffer can be
acquired, analyzed, published and delivered and the watchdog fed, in a bounded number of
steps. -/
theorem recovers (hs : Reachable env s) :
    s.work ≤ workLimit ∧
    (∀ actions t, Transition.run (step env) s actions = some t →
      Transition.Always (step env) Due s actions →
      actions.length + t.work ≤ s.work ∧
        (AtRest t ∨ ∃ a t', Due t a ∧ step env t a = some t')) ∧
    (∃ rest u, Transition.run (step env) s rest = some u ∧
      Transition.Always (step env) Due s rest ∧ AtRest u) ∧
    ∀ rest u, Transition.run (step env) s rest = some u →
      Transition.Always (step env) Due s rest → AtRest u →
      ∃ next t block result since first second, Transition.run (step env) u next = some t ∧
        next.length ≤ 3101 ∧ block.generation = UInt32.ofNat (s.adc.completed + 1) ∧
        result.generation = block.generation ∧
        t.log = u.log ++ passage block result since first second := by
  refine ⟨hs.work_le, ?_, comes_to_rest env s, ?_⟩
  · intro actions t hrun hdue
    refine ⟨(run_due hdue hrun).1, ?_⟩
    by_cases hrest : AtRest t
    · exact .inl hrest
    · exact .inr (exists_due env hrest)
  · intro rest u hrest hdue hu
    rw [← (run_due hdue hrest).2.1]
    exact run_passage (hs.run hrest) hu

/-- From an ADC error and a timeout. -/
theorem recovers_silence : ∃ s, Reachable silence s ∧ s.adcOverrunCount = 1 ∧
    s.acquisition = .timedOut ∧ s.work ≤ workLimit ∧
    ∃ rest u next t block result since first second,
      Transition.run (step silence) s rest = some u ∧ AtRest u ∧
      Transition.run (step silence) u next = some t ∧ next.length ≤ 3101 ∧
      block.generation = UInt32.ofNat (s.adc.completed + 1) ∧
      result.generation = block.generation ∧
      t.log = u.log ++ passage block result since first second := by
  have hs : Reachable silence
      { init silence with
        adcOverrunCount := 1, acquisition := .timedOut, log := [.adcError] } :=
    ⟨[.adcError, .acquisition 0], rfl⟩
  obtain ⟨hlimit, -, ⟨rest, u, hrest, hdue, hu⟩, hnext⟩ := recovers hs
  obtain ⟨next, t, block, result, since, first, second, h⟩ := hnext rest u hrest hdue hu
  exact ⟨_, hs, rfl, rfl, hlimit, rest, u, next, t, block, result, since, first, second, hrest, hu,
    h⟩

end Firmware

end SpectrumAnalyzer
