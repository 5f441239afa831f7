import SpectrumAnalyzer.Firmware.System

/-!
# What the steps can do

One relation for each task, with a constructor for each step.  Invariants are proved by
cases on these relations.

## Main definitions

* `AcquisitionStep`, `DspStep`, `TelemetryStep`, `WatchdogStep` — the steps of the tasks.
* `ActionStep`, `actionStep_of_step` — the steps of the system.
* `Bystander` — a step that touches neither blocks nor the buffer.
* `step_cases` — every other step is one of DMA, callback, `acquisition_task` or `dsp_task`.
* `Logged` — what is behind an event about a block.
-/

namespace SpectrumAnalyzer

namespace Firmware

/-- The steps of `acquisition_task`. -/
inductive AcquisitionStep (now : UInt32) (s : Firmware) : Firmware → Prop where
  | timeout (hpc : s.acquisition = .waiting) :
      AcquisitionStep now s { s with acquisition := .timedOut }
  | take (hpc : s.acquisition = .waiting) (hn : s.adcNotifications ≠ 0) :
      AcquisitionStep now s { s with
        acquisition := .taken s.adcNotifications
        adcNotifications := 0
        log := s.log ++ [.taken s.adcNotifications] }
  | load {n : UInt32} (hpc : s.acquisition = .taken n) :
      AcquisitionStep now s { s with acquisition := .loaded n s.adcOverrunCount }
  | single {n : UInt32} (hpc : s.acquisition = .taken n) :
      AcquisitionStep now s { s with acquisition := .counted }
  | store {n count : UInt32} (hpc : s.acquisition = .loaded n count) :
      AcquisitionStep now s { s with
        acquisition := .counted, adcOverrunCount := count + (n - 1) }
  | snapshot (hpc : s.acquisition = .counted) :
      AcquisitionStep now s { s with
        acquisition := .acquired (s.adc.block now)
        log := s.log ++ [.acquired (s.adc.block now)] }
  | check {block : AdcDmaBlock} (hpc : s.acquisition = .acquired block) :
      AcquisitionStep now s { s with
        acquisition := .checked block
        monitor := (acquisitionHealthCheck s.monitor block blockPeriodUs).2
        stickyStatus :=
          s.stickyStatus ||| (acquisitionHealthCheck s.monitor block blockPeriodUs).1 }
  | overrun {block : AdcDmaBlock} (hpc : s.acquisition = .checked block) :
      AcquisitionStep now s { s with acquisition := .flagging block }
  | noOverrun {block : AdcDmaBlock} (hpc : s.acquisition = .checked block) :
      AcquisitionStep now s { s with acquisition := .sending block }
  | flag {block : AdcDmaBlock} (hpc : s.acquisition = .flagging block) :
      AcquisitionStep now s { s with
        acquisition := .sending block, stickyStatus := s.stickyStatus ||| statusAdcOverrun }
  | send {block : AdcDmaBlock} (hpc : s.acquisition = .sending block) :
      AcquisitionStep now s { s with
        acquisition := .kicking, blockQueue := s.blockQueue ++ [block] }
  | full {block : AdcDmaBlock} (hpc : s.acquisition = .sending block) :
      AcquisitionStep now s { s with acquisition := .dropping block }
  | drop {block : AdcDmaBlock} (hpc : s.acquisition = .dropping block) :
      AcquisitionStep now s { s with
        acquisition := .kicking, stickyStatus := s.stickyStatus ||| statusFrameDropped }
  | kick (hpc : s.acquisition = .kicking) :
      AcquisitionStep now s { s.healthKick healthAcquisition with acquisition := .waiting }
  | resume (hpc : s.acquisition = .timedOut) :
      AcquisitionStep now s { s with
        acquisition := .waiting, stickyStatus := s.stickyStatus ||| statusAdcOverrun }

theorem acquisitionStep_spec (now : UInt32) (s : Firmware) :
    AcquisitionStep now s (s.acquisitionStep now) := by
  rw [acquisitionStep]
  cases hpc : s.acquisition with
  | waiting =>
      dsimp only
      split
      · exact .timeout hpc
      · next hn => exact .take hpc hn
  | taken n =>
      dsimp only
      split
      · exact .load hpc
      · exact .single hpc
  | loaded n count => exact .store hpc
  | counted => exact .snapshot hpc
  | acquired block => exact .check hpc
  | checked block =>
      dsimp only
      split
      · exact .overrun hpc
      · exact .noOverrun hpc
  | flagging block => exact .flag hpc
  | sending block =>
      dsimp only
      split
      · exact .send hpc
      · exact .full hpc
  | dropping block => exact .drop hpc
  | kicking => exact .kick hpc
  | timedOut => exact .resume hpc

/-- The steps of `dsp_task`. -/
inductive DspStep (s : Firmware) : Firmware → Prop where
  | idle (hpc : s.dsp = .receiving) : DspStep s s
  | receive {block : AdcDmaBlock} {rest : List AdcDmaBlock} (hpc : s.dsp = .receiving)
      (hqueue : s.blockQueue = block :: rest) :
      DspStep s { s with
        dsp := .received block, blockQueue := rest, log := s.log ++ [.received block] }
  | begin {block : AdcDmaBlock} (hpc : s.dsp = .received block)
      (hgen : s.adc.completedGeneration = block.generation) :
      DspStep s { s with dsp := .firstPass block s.adc.completed [] }
  | readFirst {block : AdcDmaBlock} {since : ℕ} {reads : List UInt32}
      (hpc : s.dsp = .firstPass block since reads) (hroom : reads.length + 1 < 1024) :
      DspStep s { s with dsp := .firstPass block since (s.adc.read block reads) }
  | lastFirst {block : AdcDmaBlock} {since : ℕ} {reads : List UInt32}
      (hpc : s.dsp = .firstPass block since reads) (hlast : 1024 ≤ reads.length + 1) :
      DspStep s { s with dsp := .secondPass block since (s.adc.read block reads) [] }
  | readSecond {block : AdcDmaBlock} {since : ℕ} {first reads : List UInt32}
      (hpc : s.dsp = .secondPass block since first reads) (hroom : reads.length + 1 < 1024) :
      DspStep s { s with dsp := .secondPass block since first (s.adc.read block reads) }
  | lastSecond {block : AdcDmaBlock} {since : ℕ} {first reads : List UInt32}
      (hpc : s.dsp = .secondPass block since first reads) (hlast : 1024 ≤ reads.length + 1) :
      DspStep s { s with dsp := .unpacked block since first (s.adc.read block reads) }
  | accept {block : AdcDmaBlock} {since : ℕ} {first second : List UInt32}
      (hpc : s.dsp = .unpacked block since first second)
      (hgen : s.adc.completedGeneration = block.generation) :
      DspStep s { s with
        dsp := .accepted block first second
        log := s.log ++ [.accepted block since first second] }
  | reject {block : AdcDmaBlock}
      (hpc : s.dsp = .received block ∨ ∃ since first second,
        s.dsp = .unpacked block since first second) :
      DspStep s { s with dsp := .stale block }
  | analyze {block : AdcDmaBlock} {first second : List UInt32} {result : SpectrumResult}
      (hpc : s.dsp = .accepted block first second)
      (hgen : result.generation = block.generation) :
      DspStep s { s with dsp := .analyzed result }
  | complete {result result' : SpectrumResult} (hpc : s.dsp = .analyzed result)
      (hgen : result'.generation = result.generation)
      (hstatus : ∃ own, result'.status = result.status ||| s.stickyStatus ||| own) :
      DspStep s { s with dsp := .publishing result' }
  | publish {result : SpectrumResult} (hpc : s.dsp = .publishing result) :
      DspStep s { s with
        dsp := .kicking, resultQueue := some result, log := s.log ++ [.published result] }
  | flagStale {block : AdcDmaBlock} (hpc : s.dsp = .stale block) :
      DspStep s { s with
        dsp := .kicking
        stickyStatus := s.stickyStatus ||| (statusDmaStale ||| statusFrameDropped) }
  | kick (hpc : s.dsp = .kicking) :
      DspStep s { s.healthKick healthDsp with dsp := .receiving }

theorem dspStep_spec (env : Environment) (elapsedCycles : UInt32) (s : Firmware) :
    DspStep s (s.dspStep env elapsedCycles) := by
  rw [dspStep]
  cases hpc : s.dsp with
  | receiving =>
      dsimp only
      cases hqueue : s.blockQueue with
      | nil => exact .idle hpc
      | cons block rest => exact .receive hpc hqueue
  | received block =>
      dsimp only
      split
      · exact .reject (.inl hpc)
      · next hgen => exact .begin hpc (not_not.mp hgen)
  | firstPass block since reads =>
      dsimp only
      rw [Adc.length_read]
      split
      · next h => exact .readFirst hpc h
      · next h => exact .lastFirst hpc (Nat.not_lt.mp h)
  | secondPass block since first reads =>
      dsimp only
      rw [Adc.length_read]
      split
      · next h => exact .readSecond hpc h
      · next h => exact .lastSecond hpc (Nat.not_lt.mp h)
  | unpacked block since first second =>
      dsimp only
      split
      · exact .reject (.inr ⟨since, first, second, hpc⟩)
      · next hgen => exact .accept hpc (not_not.mp hgen)
  | accepted block first second => exact .analyze hpc rfl
  | analyzed result => exact .complete hpc rfl ⟨_, rfl⟩
  | publishing result => exact .publish hpc
  | stale block => exact .flagStale hpc
  | kicking => exact .kick hpc

/-- The steps of `telemetry_task`. -/
inductive TelemetryStep (written : Bool) (s : Firmware) : Firmware → Prop where
  | idle (hpc : s.telemetry = .waiting) : TelemetryStep written s s
  | begin {result : SpectrumResult} (hpc : s.telemetry = .waiting)
      (hqueue : s.resultQueue = some result) :
      TelemetryStep written s { s with telemetry := .sending result plan, resultQueue := none }
  | finish {result : SpectrumResult} (hpc : s.telemetry = .sending result []) :
      TelemetryStep written s { s with
        telemetry := .kicking, log := s.log ++ [.delivered result] }
  | send {result : SpectrumResult} {address : Fin 2 × Fin 4} {rest : List (Fin 2 × Fin 4)}
      {sender : Sender} (hpc : s.telemetry = .sending result (address :: rest))
      (hsent : sendChunk (fun _ => written) result (UInt8.ofNat address.1) (UInt8.ofNat address.2)
        s.sender = (true, sender)) :
      TelemetryStep written s { s with telemetry := .sending result rest, sender := sender }
  | fail {result : SpectrumResult} {address : Fin 2 × Fin 4} {rest : List (Fin 2 × Fin 4)}
      {sender : Sender} (hpc : s.telemetry = .sending result (address :: rest))
      (hsent : sendChunk (fun _ => written) result (UInt8.ofNat address.1) (UInt8.ofNat address.2)
        s.sender = (false, sender)) :
      TelemetryStep written s { s with telemetry := .failed, sender := sender }
  | flag (hpc : s.telemetry = .failed) :
      TelemetryStep written s { s with
        telemetry := .waiting, stickyStatus := s.stickyStatus ||| statusUartBackpressure }
  | kick (hpc : s.telemetry = .kicking) :
      TelemetryStep written s { s.healthKick healthTelemetry with telemetry := .waiting }

theorem telemetryStep_spec (written : Bool) (s : Firmware) :
    TelemetryStep written s (s.telemetryStep written) := by
  rw [telemetryStep]
  cases hpc : s.telemetry with
  | waiting =>
      dsimp only
      cases hqueue : s.resultQueue with
      | none => exact .idle hpc
      | some result => exact .begin hpc hqueue
  | sending result todo =>
      cases todo with
      | nil => exact .finish hpc
      | cons address rest =>
          dsimp only
          cases hsent : sendChunk (fun _ => written) result (UInt8.ofNat address.1)
            (UInt8.ofNat address.2) s.sender with
          | mk sent sender =>
              cases sent with
              | true => exact .send hpc hsent
              | false => exact .fail hpc hsent
  | failed => exact .flag hpc
  | kicking => exact .kick hpc

/-- The steps of `watchdog_task`. -/
inductive WatchdogStep (s : Firmware) : Firmware → Prop where
  | sample (hpc : s.watchdog = .waiting) :
      WatchdogStep s { s with
        watchdog := .observed s.healthMask, healthMask := 0, log := s.log ++ [.cleared] }
  | feed {mask : UInt32} (hpc : s.watchdog = .observed mask)
      (hfull : mask &&& healthRequired = healthRequired) :
      WatchdogStep s { s with watchdog := .waiting, log := s.log ++ [.fed] }
  | withhold {mask : UInt32} (hpc : s.watchdog = .observed mask)
      (hfull : mask &&& healthRequired ≠ healthRequired) :
      WatchdogStep s { s with watchdog := .waiting }

theorem watchdogStep_spec (s : Firmware) : WatchdogStep s s.watchdogStep := by
  rw [watchdogStep]
  cases hpc : s.watchdog with
  | waiting => exact .sample hpc
  | observed mask =>
      dsimp only
      split
      · next hfull => exact .feed hpc hfull
      · next hfull => exact .withhold hpc hfull

/-- The steps of the system, one constructor for each action. -/
inductive ActionStep (env : Environment) (s : Firmware) : Action → Firmware → Prop where
  | dmaStore (hroom : s.adc.position < 1024) :
      ActionStep env s .dmaStore { s with
        adc := s.adc.store (env.conversion (s.adc.completed + 1) s.adc.position) }
  | adcCallback (hfull : s.adc.position = 1024) :
      ActionStep env s .adcCallback { s with
        adc := s.adc.publishCompletedHalf (UInt32.ofNat (halfOf (s.adc.completed + 1)))
        adcNotifications := s.adcNotifications + 1 }
  | adcError :
      ActionStep env s .adcError { s with
        adcOverrunCount := s.adcOverrunCount + 1, log := s.log ++ [.adcError] }
  | acquisition {now : UInt32} {s' : Firmware} (h : AcquisitionStep now s s') :
      ActionStep env s (.acquisition now) s'
  | dsp {elapsedCycles : UInt32} {s' : Firmware} (h : DspStep s s')
      (heq : s.dspStep env elapsedCycles = s') : ActionStep env s (.dsp elapsedCycles) s'
  | telemetry {written : Bool} {s' : Firmware} (h : TelemetryStep written s s') :
      ActionStep env s (.telemetry written) s'
  | watchdog {s' : Firmware} (h : WatchdogStep s s') : ActionStep env s .watchdog s'

/-- **What a step can do**, action by action. -/
theorem actionStep_of_step {env : Environment} {s s' : Firmware} {a : Action}
    (h : step env s a = some s') : ActionStep env s a s' := by
  cases a with
  | dmaStore =>
      obtain ⟨hroom, ⟨⟩⟩ := Option.ite_none_right_eq_some.mp h
      exact .dmaStore hroom
  | adcCallback =>
      obtain ⟨hfull, ⟨⟩⟩ := Option.ite_none_right_eq_some.mp h
      exact .adcCallback hfull
  | adcError =>
      cases h
      exact .adcError
  | acquisition now =>
      cases h
      exact .acquisition (acquisitionStep_spec now s)
  | dsp elapsedCycles =>
      cases h
      exact .dsp (dspStep_spec env elapsedCycles s) rfl
  | telemetry written =>
      cases h
      exact .telemetry (telemetryStep_spec written s)
  | watchdog =>
      cases h
      exact .watchdog (watchdogStep_spec s)

end Firmware

/-- An event that is about no block. -/
def Event.Aside : Event → Prop
  | .acquired _ => False
  | .received _ => False
  | .accepted _ _ _ _ => False
  | .published _ => False
  | _ => True

namespace Firmware

/-- A step that leaves alone what the blocks pass through. -/
structure Bystander (s s' : Firmware) : Prop where
  adc : s'.adc = s.adc
  adcNotifications : s'.adcNotifications = s.adcNotifications
  blockQueue : s'.blockQueue = s.blockQueue
  acquisition : s'.acquisition = s.acquisition
  monitor : s'.monitor = s.monitor
  dsp : s'.dsp = s.dsp
  status : ∃ bits, s'.stickyStatus = s.stickyStatus ||| bits
  log : ∃ events, s'.log = s.log ++ events ∧ ∀ e ∈ events, e.Aside

theorem bystander_telemetry {written : Bool} {s s' : Firmware} (h : TelemetryStep written s s') :
    Bystander s s' := by
  have hsame : ∃ bits, s.stickyStatus = s.stickyStatus ||| bits := ⟨0, by simp⟩
  have hquiet : ∃ events, s.log = s.log ++ events ∧ ∀ e ∈ events, e.Aside := ⟨[], by simp⟩
  cases h with
  | @finish result =>
      exact ⟨rfl, rfl, rfl, rfl, rfl, rfl, hsame, [.delivered result], rfl, by simp [Event.Aside]⟩
  | flag => exact ⟨rfl, rfl, rfl, rfl, rfl, rfl, ⟨_, rfl⟩, hquiet⟩
  | kick =>
      exact ⟨rfl, rfl, rfl, rfl, rfl, rfl, hsame, [.kicked healthTelemetry], rfl,
        by simp [Event.Aside]⟩
  | _ => exact ⟨rfl, rfl, rfl, rfl, rfl, rfl, hsame, hquiet⟩

theorem bystander_watchdog {s s' : Firmware} (h : WatchdogStep s s') : Bystander s s' := by
  have hsame : ∃ bits, s.stickyStatus = s.stickyStatus ||| bits := ⟨0, by simp⟩
  cases h with
  | sample => exact ⟨rfl, rfl, rfl, rfl, rfl, rfl, hsame, [.cleared], rfl, by simp [Event.Aside]⟩
  | feed => exact ⟨rfl, rfl, rfl, rfl, rfl, rfl, hsame, [.fed], rfl, by simp [Event.Aside]⟩
  | withhold => exact ⟨rfl, rfl, rfl, rfl, rfl, rfl, hsame, [], by simp⟩

/-- The steps of the system. -/
inductive Step (env : Environment) (s : Firmware) : Firmware → Prop where
  | store (hroom : s.adc.position < 1024) :
      Step env s { s with
        adc := s.adc.store (env.conversion (s.adc.completed + 1) s.adc.position) }
  | callback (hfull : s.adc.position = 1024) :
      Step env s { s with
        adc := s.adc.publishCompletedHalf (UInt32.ofNat (halfOf (s.adc.completed + 1)))
        adcNotifications := s.adcNotifications + 1 }
  | acquisition {now : UInt32} {s' : Firmware} (h : AcquisitionStep now s s') : Step env s s'
  | dsp {s' : Firmware} (h : DspStep s s') : Step env s s'
  | bystander {s' : Firmware} (h : Bystander s s') : Step env s s'

/-- **What a step can do** to the blocks and the buffer. -/
theorem step_cases {env : Environment} {s s' : Firmware} {a : Action}
    (h : step env s a = some s') : Step env s s' := by
  cases actionStep_of_step h with
  | dmaStore hroom => exact .store hroom
  | adcCallback hfull => exact .callback hfull
  | adcError =>
      exact .bystander ⟨rfl, rfl, rfl, rfl, rfl, rfl, ⟨0, by simp⟩, [.adcError], rfl,
        by simp [Event.Aside]⟩
  | acquisition hstep => exact .acquisition hstep
  | dsp hstep => exact .dsp hstep
  | telemetry hstep => exact .bystander (bystander_telemetry hstep)
  | watchdog hstep => exact .bystander (bystander_watchdog hstep)

/-! ## The log -/

/-- What is behind an event about a block. -/
inductive Logged (s : Firmware) : Event → Prop where
  | acquired (now : UInt32) (hpc : s.acquisition = .counted) :
      Logged s (.acquired (s.adc.block now))
  | received {block : AdcDmaBlock} {rest : List AdcDmaBlock} (hpc : s.dsp = .receiving)
      (hqueue : s.blockQueue = block :: rest) : Logged s (.received block)
  | accepted {block : AdcDmaBlock} {since : ℕ} {first second : List UInt32}
      (hpc : s.dsp = .unpacked block since first second)
      (hgen : s.adc.completedGeneration = block.generation) :
      Logged s (.accepted block since first second)
  | published {result : SpectrumResult} (hpc : s.dsp = .publishing result) :
      Logged s (.published result)

/-- Each event about a block is logged at one place. -/
theorem logged_of_step {env : Environment} {s s' : Firmware} {e : Event} (hstep : Step env s s')
    (hlog : s'.log = s.log ++ [e]) (he : ¬ e.Aside) : Logged s e := by
  have hsame : s.log ≠ s.log ++ [e] := by simp
  have hcancel : ∀ {x : Event}, s.log ++ [x] = s.log ++ [e] → x = e := by
    intro x h
    simpa using h
  cases hstep with
  | store => exact absurd hlog hsame
  | callback => exact absurd hlog hsame
  | @acquisition now _ hstep =>
      cases hstep with
      | take => exact absurd (hcancel hlog ▸ trivial) he
      | snapshot hpc => exact hcancel hlog ▸ .acquired now hpc
      | kick => exact absurd (hcancel hlog ▸ trivial) he
      | _ => exact absurd hlog hsame
  | dsp hstep =>
      cases hstep with
      | receive hpc hqueue => exact hcancel hlog ▸ .received hpc hqueue
      | accept hpc hgen => exact hcancel hlog ▸ .accepted hpc hgen
      | publish hpc => exact hcancel hlog ▸ .published hpc
      | kick => exact absurd (hcancel hlog ▸ trivial) he
      | _ => exact absurd hlog hsame
  | bystander hstep =>
      obtain ⟨events, hevents, haside⟩ := hstep.log
      have hone := List.append_cancel_left (hevents.symm.trans hlog)
      exact absurd (haside e (by simp [hone])) he

/-- What every step preserves holds of every reachable state. -/
theorem Reachable.induction {env : Environment} {I : Firmware → Prop} (h0 : I (init env))
    (hstep : ∀ s s', I s → Step env s s' → I s') {s : Firmware} (hs : Reachable env s) : I s := by
  obtain ⟨actions, hrun⟩ := hs
  exact Transition.run_invariant (step env) (fun s a s' h ha => hstep s s' h (step_cases ha)) h0
    hrun

end Firmware

end SpectrumAnalyzer
