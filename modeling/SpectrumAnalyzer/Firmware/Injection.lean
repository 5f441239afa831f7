import SpectrumAnalyzer.Firmware.Transmission
import SpectrumAnalyzer.Firmware.Votes

/-!
# Fault-injection builds

The options of `app_config.h` compile faults into the tasks: blocks that are dropped, a
`dsp_task` that suspends itself, UART calls that fail, an ADC that seems frozen.  A build is
given by its options; with all of them zero it is the firmware itself.  Each build steps like
the firmware but for a few places, and `Move` is what those places do to the shared state.

## Main definitions

* `FaultInject` — the options.
* `Injected`, `Injected.step` — the system of a build, and one step of it.
* `InjectedStep`, `injectedStep_of_step` — what a step can do.
* `Move`, `InjectedStep.move` — what it does to the shared state.
* `step_of_plain`, `run_none` — without options a build is the firmware.
-/

namespace SpectrumAnalyzer

/-- The options of `app_config.h`; zero leaves a fault out. -/
structure FaultInject where
  dropEveryNBlocks : UInt32
  dspStallAfterBlocks : UInt32
  uartFailEveryNFrames : UInt32
  freezeAdc : Bool
  deriving DecidableEq, Repr

/-- The defaults. -/
def FaultInject.none : FaultInject := ⟨0, 0, 0, false⟩

/-- One more reading of the first word of a block. -/
def Adc.readFrozen (a : Adc) (block : AdcDmaBlock) (reads : List UInt32) : List UInt32 :=
  reads ++ [a.words block.packedSamples]

@[simp] theorem Adc.length_readFrozen (a : Adc) (block : AdcDmaBlock) (reads : List UInt32) :
    (a.readFrozen block reads).length = reads.length + 1 := by
  simp [readFrozen]

/-- Where `dsp_task` stands with respect to its suspension. -/
inductive DspLife where
  | running
  /-- The last block is published. -/
  | stalling
  | suspended
  deriving DecidableEq, Repr

/-- The firmware with the counters of the injected faults. -/
structure Injected where
  system : Firmware
  blocksSeen : UInt32
  blocksProcessed : UInt32
  framesAttempted : UInt32
  dspLife : DspLife

namespace Injected

/-- `acquisition_task`. -/
def acquisitionStep (fault : FaultInject) (now : UInt32) (s : Injected) : Injected :=
  match s.system.acquisition with
  | .sending _ =>
      if fault.dropEveryNBlocks > 0 then
        let s := { s with blocksSeen := s.blocksSeen + 1 }
        if s.blocksSeen % fault.dropEveryNBlocks = 0 then
          { s with
            system := { s.system.statusSet (statusFrameDropped ||| statusFaultInjected) with
              acquisition := .kicking } }
        else { s with system := s.system.acquisitionStep now }
      else { s with system := s.system.acquisitionStep now }
  | _ => { s with system := s.system.acquisitionStep now }

/-- `dsp_task`, while it is not about to suspend itself. -/
def dspRunning (fault : FaultInject) (env : Environment) (elapsedCycles : UInt32) (s : Injected) :
    Injected :=
  match s.system.dsp with
  | .firstPass block since reads =>
      if fault.freezeAdc then
        let reads := s.system.adc.readFrozen block reads
        if reads.length < 1024 then
          { s with system := { s.system with dsp := .firstPass block since reads } }
        else { s with system := { s.system with dsp := .secondPass block since reads [] } }
      else { s with system := s.system.dspStep env elapsedCycles }
  | .secondPass block since first reads =>
      if fault.freezeAdc then
        let reads := s.system.adc.readFrozen block reads
        if reads.length < 1024 then
          { s with system := { s.system with dsp := .secondPass block since first reads } }
        else { s with system := { s.system with dsp := .unpacked block since first reads } }
      else { s with system := s.system.dspStep env elapsedCycles }
  | .analyzed result =>
      if fault.freezeAdc then
        let result := { result with status := result.status ||| s.system.stickyStatus }
        let result := { result with status := result.status ||| statusFaultInjected }
        let result := { result with
          status := result.status ||| spectrumHealthCheck result dspDeadlineUs }
        { s with system := { s.system with dsp := .publishing result } }
      else { s with system := s.system.dspStep env elapsedCycles }
  | .publishing _ =>
      let s := { s with system := s.system.dspStep env elapsedCycles }
      if fault.dspStallAfterBlocks > 0 then
        let s := { s with blocksProcessed := s.blocksProcessed + 1 }
        if s.blocksProcessed ≥ fault.dspStallAfterBlocks then { s with dspLife := .stalling }
        else s
      else s
  | _ => { s with system := s.system.dspStep env elapsedCycles }

/-- `dsp_task`. -/
def dspStep (fault : FaultInject) (env : Environment) (elapsedCycles : UInt32) (s : Injected) :
    Injected :=
  match s.dspLife with
  | .running => s.dspRunning fault env elapsedCycles
  | .stalling => { s with system := s.system.statusSet statusFaultInjected, dspLife := .suspended }
  | .suspended => s

/-- `telemetry_task`. -/
def telemetryStep (fault : FaultInject) (written : Bool) (s : Injected) : Injected :=
  match s.system.telemetry with
  | .sending _ (_ :: _) =>
      if fault.uartFailEveryNFrames > 0 then
        let s := { s with framesAttempted := s.framesAttempted + 1 }
        if s.framesAttempted % fault.uartFailEveryNFrames = 0 then
          { s with
            system := { s.system.statusSet statusFaultInjected with
              telemetry := .failed, sender := { s.system.sender with backpressure := true } } }
        else { s with system := s.system.telemetryStep written }
      else { s with system := s.system.telemetryStep written }
  | _ => { s with system := s.system.telemetryStep written }

/-- One step of the system. -/
def step (fault : FaultInject) (env : Environment) (s : Injected) :
    Firmware.Action → Option Injected
  | .acquisition now => some (s.acquisitionStep fault now)
  | .dsp elapsedCycles => some (s.dspStep fault env elapsedCycles)
  | .telemetry written => some (s.telemetryStep fault written)
  | a => (Firmware.step env s.system a).map fun system => { s with system := system }

/-- The system at its start. -/
def init (env : Environment) : Injected := ⟨Firmware.init env, 0, 0, 0, .running⟩

/-- A state that some run of the build reaches. -/
def Reachable (fault : FaultInject) (env : Environment) (s : Injected) : Prop :=
  ∃ actions, Transition.run (step fault env) (init env) actions = some s

/-! ## What the steps can do -/

/-- The steps at which a build does what the firmware does, and counts nothing. -/
def Plain (fault : FaultInject) (s : Injected) : Firmware.Action → Prop
  | .acquisition _ => fault.dropEveryNBlocks = 0 ∨ ∀ block, s.system.acquisition ≠ .sending block
  | .dsp _ => s.dspLife = .running ∧
      (fault.freezeAdc = false ∨
        (∀ block since reads, s.system.dsp ≠ .firstPass block since reads) ∧
        (∀ block since first reads, s.system.dsp ≠ .secondPass block since first reads) ∧
        ∀ result, s.system.dsp ≠ .analyzed result) ∧
      (fault.dspStallAfterBlocks = 0 ∨ ∀ result, s.system.dsp ≠ .publishing result)
  | .telemetry _ => fault.uartFailEveryNFrames = 0 ∨
      ∀ result address rest, s.system.telemetry ≠ .sending result (address :: rest)
  | _ => True

/-- The steps of a build. -/
inductive InjectedStep (fault : FaultInject) (env : Environment) (s : Injected) :
    Injected → Prop where
  | plain {a : Firmware.Action} {system : Firmware} (hplain : Plain fault s a)
      (h : Firmware.step env s.system a = some system) :
      InjectedStep fault env s { s with system := system }
  | offer {block : AdcDmaBlock} {now : UInt32} (hn : 0 < fault.dropEveryNBlocks)
      (hpc : s.system.acquisition = .sending block)
      (hcount : (s.blocksSeen + 1) % fault.dropEveryNBlocks ≠ 0) :
      InjectedStep fault env s { s with
        blocksSeen := s.blocksSeen + 1, system := s.system.acquisitionStep now }
  | drop {block : AdcDmaBlock} (hn : 0 < fault.dropEveryNBlocks)
      (hpc : s.system.acquisition = .sending block)
      (hcount : (s.blocksSeen + 1) % fault.dropEveryNBlocks = 0) :
      InjectedStep fault env s { s with
        blocksSeen := s.blocksSeen + 1
        system := { s.system.statusSet (statusFrameDropped ||| statusFaultInjected) with
          acquisition := .kicking } }
  | readFirst {block : AdcDmaBlock} {since : ℕ} {reads : List UInt32}
      (hlife : s.dspLife = .running) (hfreeze : fault.freezeAdc = true)
      (hpc : s.system.dsp = .firstPass block since reads) (hroom : reads.length + 1 < 1024) :
      InjectedStep fault env s { s with
        system := { s.system with
          dsp := .firstPass block since (s.system.adc.readFrozen block reads) } }
  | lastFirst {block : AdcDmaBlock} {since : ℕ} {reads : List UInt32}
      (hlife : s.dspLife = .running) (hfreeze : fault.freezeAdc = true)
      (hpc : s.system.dsp = .firstPass block since reads) (hlast : 1024 ≤ reads.length + 1) :
      InjectedStep fault env s { s with
        system := { s.system with
          dsp := .secondPass block since (s.system.adc.readFrozen block reads) [] } }
  | readSecond {block : AdcDmaBlock} {since : ℕ} {first reads : List UInt32}
      (hlife : s.dspLife = .running) (hfreeze : fault.freezeAdc = true)
      (hpc : s.system.dsp = .secondPass block since first reads)
      (hroom : reads.length + 1 < 1024) :
      InjectedStep fault env s { s with
        system := { s.system with
          dsp := .secondPass block since first (s.system.adc.readFrozen block reads) } }
  | lastSecond {block : AdcDmaBlock} {since : ℕ} {first reads : List UInt32}
      (hlife : s.dspLife = .running) (hfreeze : fault.freezeAdc = true)
      (hpc : s.system.dsp = .secondPass block since first reads)
      (hlast : 1024 ≤ reads.length + 1) :
      InjectedStep fault env s { s with
        system := { s.system with
          dsp := .unpacked block since first (s.system.adc.readFrozen block reads) } }
  | complete {result : SpectrumResult} (hlife : s.dspLife = .running)
      (hfreeze : fault.freezeAdc = true) (hpc : s.system.dsp = .analyzed result) :
      InjectedStep fault env s { s with
        system := { s.system with
          dsp := .publishing (completeResult result
            (s.system.stickyStatus ||| statusFaultInjected)) } }
  | publish {result : SpectrumResult} (hlife : s.dspLife = .running)
      (hn : 0 < fault.dspStallAfterBlocks) (hpc : s.system.dsp = .publishing result)
      (hcount : s.blocksProcessed + 1 < fault.dspStallAfterBlocks) :
      InjectedStep fault env s { s with
        blocksProcessed := s.blocksProcessed + 1
        system := { s.system with
          dsp := .kicking, resultQueue := some result
          log := s.system.log ++ [.published result] } }
  | last {result : SpectrumResult} (hlife : s.dspLife = .running)
      (hn : 0 < fault.dspStallAfterBlocks) (hpc : s.system.dsp = .publishing result)
      (hcount : fault.dspStallAfterBlocks ≤ s.blocksProcessed + 1) :
      InjectedStep fault env s { s with
        blocksProcessed := s.blocksProcessed + 1
        dspLife := .stalling
        system := { s.system with
          dsp := .kicking, resultQueue := some result
          log := s.system.log ++ [.published result] } }
  | stall (hlife : s.dspLife = .stalling) :
      InjectedStep fault env s { s with
        system := s.system.statusSet statusFaultInjected, dspLife := .suspended }
  | suspended (hlife : s.dspLife = .suspended) : InjectedStep fault env s s
  | attempt {result : SpectrumResult} {address : Fin 2 × Fin 4} {rest : List (Fin 2 × Fin 4)}
      {written : Bool} (hn : 0 < fault.uartFailEveryNFrames)
      (hpc : s.system.telemetry = .sending result (address :: rest))
      (hcount : (s.framesAttempted + 1) % fault.uartFailEveryNFrames ≠ 0) :
      InjectedStep fault env s { s with
        framesAttempted := s.framesAttempted + 1, system := s.system.telemetryStep written }
  | fail {result : SpectrumResult} {address : Fin 2 × Fin 4} {rest : List (Fin 2 × Fin 4)}
      (hn : 0 < fault.uartFailEveryNFrames)
      (hpc : s.system.telemetry = .sending result (address :: rest))
      (hcount : (s.framesAttempted + 1) % fault.uartFailEveryNFrames = 0) :
      InjectedStep fault env s { s with
        framesAttempted := s.framesAttempted + 1
        system := { s.system.statusSet statusFaultInjected with
          telemetry := .failed, sender := { s.system.sender with backpressure := true } } }

variable {fault : FaultInject} {env : Environment} {s s' : Injected}

theorem injectedStep_acquisition (now : UInt32) (s : Injected) :
    InjectedStep fault env s (s.acquisitionStep fault now) := by
  have hplain : Plain fault s (.acquisition now) →
      InjectedStep fault env s { s with system := s.system.acquisitionStep now } :=
    fun h => .plain (a := .acquisition now) h rfl
  rw [acquisitionStep]
  cases hpc : s.system.acquisition with
  | sending block =>
      dsimp only
      split
      · next hn =>
          split
          · next hcount => exact .drop hn hpc hcount
          · next hcount => exact .offer hn hpc hcount
      · next hn => exact hplain (.inl (UInt32.le_zero_iff.mp (UInt32.not_lt.mp hn)))
  | _ => exact hplain (.inr (by simp [hpc]))

theorem injectedStep_dspRunning (hlife : s.dspLife = .running) (elapsedCycles : UInt32) :
    InjectedStep fault env s (s.dspRunning fault env elapsedCycles) := by
  have hplain : Plain fault s (.dsp elapsedCycles) →
      InjectedStep fault env s { s with system := s.system.dspStep env elapsedCycles } :=
    fun h => .plain (a := .dsp elapsedCycles) h rfl
  rw [dspRunning]
  cases hpc : s.system.dsp with
  | firstPass block since reads =>
      dsimp only
      rw [Adc.length_readFrozen]
      split
      · next hfreeze =>
          split
          · next hroom => exact .readFirst hlife hfreeze hpc hroom
          · next hlast => exact .lastFirst hlife hfreeze hpc (Nat.not_lt.mp hlast)
      · next hfreeze =>
          exact hplain ⟨hlife, .inl (Bool.eq_false_iff.mpr hfreeze), .inr (by simp [hpc])⟩
  | secondPass block since first reads =>
      dsimp only
      rw [Adc.length_readFrozen]
      split
      · next hfreeze =>
          split
          · next hroom => exact .readSecond hlife hfreeze hpc hroom
          · next hlast => exact .lastSecond hlife hfreeze hpc (Nat.not_lt.mp hlast)
      · next hfreeze =>
          exact hplain ⟨hlife, .inl (Bool.eq_false_iff.mpr hfreeze), .inr (by simp [hpc])⟩
  | analyzed result =>
      dsimp only
      split
      · next hfreeze =>
          have hstep : InjectedStep fault env s _ := .complete hlife hfreeze hpc
          simp only [completeResult, ← UInt32.or_assoc] at hstep
          exact hstep
      · next hfreeze =>
          exact hplain ⟨hlife, .inl (Bool.eq_false_iff.mpr hfreeze), .inr (by simp [hpc])⟩
  | publishing result =>
      have hpublish : s.system.dspStep env elapsedCycles = { s.system with
          dsp := .kicking, resultQueue := some result
          log := s.system.log ++ [.published result] } := by
        simp only [Firmware.dspStep, hpc]
      dsimp only
      split
      · next hn =>
          rw [hpublish]
          split
          · next hcount => exact .last hlife hn hpc hcount
          · next hcount => exact .publish hlife hn hpc (UInt32.not_le.mp hcount)
      · next hn =>
          exact hplain ⟨hlife, .inr (by simp [hpc]),
            .inl (UInt32.le_zero_iff.mp (UInt32.not_lt.mp hn))⟩
  | _ => exact hplain ⟨hlife, .inr (by simp [hpc]), .inr (by simp [hpc])⟩

theorem injectedStep_telemetry (written : Bool) (s : Injected) :
    InjectedStep fault env s (s.telemetryStep fault written) := by
  have hplain : Plain fault s (.telemetry written) →
      InjectedStep fault env s { s with system := s.system.telemetryStep written } :=
    fun h => .plain (a := .telemetry written) h rfl
  rw [telemetryStep]
  cases hpc : s.system.telemetry with
  | sending result todo =>
      cases todo with
      | nil => exact hplain (.inr (by simp [hpc]))
      | cons address rest =>
          dsimp only
          split
          · next hn =>
              split
              · next hcount => exact .fail hn hpc hcount
              · next hcount => exact .attempt hn hpc hcount
          · next hn => exact hplain (.inl (UInt32.le_zero_iff.mp (UInt32.not_lt.mp hn)))
  | _ => exact hplain (.inr (by simp [hpc]))

/-- **What a step of a build can do.** -/
theorem injectedStep_of_step {a : Firmware.Action} (h : step fault env s a = some s') :
    InjectedStep fault env s s' := by
  have hother : ∀ {a}, Plain fault s a →
      (Firmware.step env s.system a).map (fun system => { s with system := system }) = some s' →
      InjectedStep fault env s s' := by
    intro a hplain h
    obtain ⟨system, hsystem, ⟨⟩⟩ := Option.map_eq_some_iff.mp h
    exact .plain hplain hsystem
  cases a with
  | acquisition now =>
      cases h
      exact injectedStep_acquisition now s
  | dsp elapsedCycles =>
      cases h
      rw [dspStep]
      cases hlife : s.dspLife with
      | running => exact injectedStep_dspRunning hlife elapsedCycles
      | stalling => exact .stall hlife
      | suspended => exact .suspended hlife
  | telemetry written =>
      cases h
      exact injectedStep_telemetry written s
  | dmaStore => exact hother (a := .dmaStore) trivial h
  | adcCallback => exact hother (a := .adcCallback) trivial h
  | adcError => exact hother (a := .adcError) trivial h
  | watchdog => exact hother (a := .watchdog) trivial h

/-! ## The shared state -/

/-- What a step does to the shared state. -/
inductive Move (env : Environment) (s : Firmware) : Firmware → Prop where
  | plain {a : Firmware.Action} {s' : Firmware} (h : Firmware.step env s a = some s') :
      Move env s s'
  | stay : Move env s s
  | drop {block : AdcDmaBlock} (hpc : s.acquisition = .sending block) :
      Move env s { s.statusSet (statusFrameDropped ||| statusFaultInjected) with
        acquisition := .kicking }
  | read {block : AdcDmaBlock} {pc : DspPc} (hpc : s.dsp.block? = some block)
      (hpc' : pc.block? = some block) : Move env s { s with dsp := pc }
  | complete {result : SpectrumResult} (hpc : s.dsp = .analyzed result) :
      Move env s { s with
        dsp := .publishing (completeResult result (s.stickyStatus ||| statusFaultInjected)) }
  | stall : Move env s (s.statusSet statusFaultInjected)
  | fail {result : SpectrumResult} {address : Fin 2 × Fin 4} {rest : List (Fin 2 × Fin 4)}
      (hpc : s.telemetry = .sending result (address :: rest)) :
      Move env s { s.statusSet statusFaultInjected with
        telemetry := .failed, sender := { s.sender with backpressure := true } }

theorem InjectedStep.move (h : InjectedStep fault env s s') : Move env s.system s'.system := by
  have hpublish : ∀ {result : SpectrumResult}, s.system.dsp = .publishing result →
      Firmware.step env s.system (.dsp 0) = some { s.system with
        dsp := .kicking, resultQueue := some result
        log := s.system.log ++ [.published result] } := by
    intro result hpc
    simp only [Firmware.step, Firmware.dspStep, hpc]
  cases h with
  | plain hplain h => exact .plain h
  | @offer block now hn hpc hcount => exact .plain (a := .acquisition now) rfl
  | drop hn hpc hcount => exact .drop hpc
  | @readFirst block since reads hlife hfreeze hpc hroom => exact .read (by rw [hpc]; rfl) rfl
  | @lastFirst block since reads hlife hfreeze hpc hlast => exact .read (by rw [hpc]; rfl) rfl
  | @readSecond block since first reads hlife hfreeze hpc hroom =>
      exact .read (by rw [hpc]; rfl) rfl
  | @lastSecond block since first reads hlife hfreeze hpc hlast =>
      exact .read (by rw [hpc]; rfl) rfl
  | complete hlife hfreeze hpc => exact .complete hpc
  | publish hlife hn hpc hcount => exact .plain (hpublish hpc)
  | last hlife hn hpc hcount => exact .plain (hpublish hpc)
  | stall hlife => exact .stall
  | suspended hlife => exact .stay
  | @attempt result address rest written hn hpc hcount =>
      exact .plain (a := .telemetry written) rfl
  | fail hn hpc hcount => exact .fail hpc

/-! ## Plain steps -/

/-- **Plain steps** are steps of the firmware. -/
theorem step_of_plain {a : Firmware.Action} (hplain : Plain fault s a) :
    step fault env s a =
      (Firmware.step env s.system a).map fun system => { s with system := system } := by
  have hzero : ∀ {n : UInt32}, n = 0 → ¬ n > 0 := by
    rintro n rfl
    exact UInt32.lt_irrefl 0
  cases a with
  | acquisition now =>
      rw [step, acquisitionStep]
      cases hpc : s.system.acquisition with
      | sending block =>
          have hn := hplain.resolve_right fun hnot => hnot block hpc
          exact congrArg some (if_neg (hzero hn))
      | _ => rfl
  | dsp elapsedCycles =>
      obtain ⟨hlife, hfreeze, hstall⟩ := hplain
      have hrunning : s.dspStep fault env elapsedCycles = s.dspRunning fault env elapsedCycles := by
        rw [dspStep, hlife]
      rw [step, hrunning, dspRunning]
      cases hpc : s.system.dsp with
      | firstPass block since reads =>
          have hfree := hfreeze.resolve_right fun hnot => hnot.1 _ _ _ hpc
          simp only [hfree, Bool.false_eq_true, if_false, Firmware.step, Option.map_some]
      | secondPass block since first reads =>
          have hfree := hfreeze.resolve_right fun hnot => hnot.2.1 _ _ _ _ hpc
          simp only [hfree, Bool.false_eq_true, if_false, Firmware.step, Option.map_some]
      | analyzed result =>
          have hfree := hfreeze.resolve_right fun hnot => hnot.2.2 _ hpc
          simp only [hfree, Bool.false_eq_true, if_false, Firmware.step, Option.map_some]
      | publishing result =>
          have hn := hstall.resolve_right fun hnot => hnot _ hpc
          exact congrArg some (if_neg (hzero hn))
      | _ => rfl
  | telemetry written =>
      rw [step, telemetryStep]
      cases hpc : s.system.telemetry with
      | sending result todo =>
          cases todo with
          | nil => rfl
          | cons address rest =>
              have hn := hplain.resolve_right fun hnot => hnot _ _ _ hpc
              exact congrArg some (if_neg (hzero hn))
      | _ => rfl
  | _ => rfl

theorem run_of_plain (fault : FaultInject) {system : Firmware} {actions : List Firmware.Action}
    (hplain : ∀ a ∈ actions, ∀ system, Plain fault { s with system := system } a)
    (hrun : Transition.run (Firmware.step env) s.system actions = some system) :
    Transition.run (step fault env) s actions = some { s with system := system } := by
  induction actions generalizing s with
  | nil =>
      cases hrun
      rfl
  | cons a actions ih =>
      obtain ⟨t, ht, hrest⟩ := (Transition.run_cons_eq_some _).mp hrun
      have hstep : step fault env s a = some { s with system := t } := by
        rw [step_of_plain (hplain a List.mem_cons_self s.system), ht, Option.map_some]
      exact (Transition.run_cons_eq_some _).mpr ⟨_, hstep, ih (s := { s with system := t })
        (fun b hb => hplain b (List.mem_cons_of_mem a hb)) hrest⟩

theorem plain_none (hlife : s.dspLife = .running) (a : Firmware.Action) : Plain .none s a := by
  cases a with
  | acquisition now => exact .inl rfl
  | dsp elapsedCycles => exact ⟨hlife, .inl rfl, .inl rfl⟩
  | telemetry written => exact .inl rfl
  | _ => exact trivial

/-- **Without options** a run of the firmware is one of the build. -/
theorem run_none (hlife : s.dspLife = .running) {system : Firmware}
    {actions : List Firmware.Action}
    (hrun : Transition.run (Firmware.step env) s.system actions = some system) :
    Transition.run (step .none env) s actions = some { s with system := system } :=
  run_of_plain .none (fun a _ system => plain_none (s := { s with system := system }) hlife a) hrun

end Injected

/-! ## A run of a build that freezes the ADC -/

/-- The build of `tools/build_target.ps1 -FreezeAdcFault`. -/
def FaultInject.freeze : FaultInject := { FaultInject.none with freezeAdc := true }

namespace Injected
variable {fault : FaultInject} {env : Environment} {i : Injected}

/-- `acquisition_task` takes the notification of the first fill. -/
theorem run_firstTake (fault : FaultInject) (env : Environment) :
    ∃ a, Transition.run (step fault env) (init env)
        (List.replicate 1024 .dmaStore ++ [.adcCallback, .acquisition 0]) =
        some { init env with system := { Firmware.init env with
          adc := a, acquisition := .taken 1, log := [.taken 1] } } ∧
      a.completed = 1 := by
  obtain ⟨a, hstores, hfull, hcompleted, -⟩ :=
    Firmware.run_stores env (Firmware.init env) (n := 1024) le_rfl
  have hposition : a.position = 1024 := hfull
  let b := a.publishCompletedHalf (UInt32.ofNat (halfOf (a.completed + 1)))
  have hcallback : Firmware.step env { Firmware.init env with adc := a } .adcCallback =
      some { Firmware.init env with adc := b, adcNotifications := 1 } := by
    simp only [Firmware.step, hposition, if_true, b]
    rfl
  have htake := Firmware.step_take env
    (s := { Firmware.init env with adc := b, adcNotifications := 1 }) rfl rfl
  have hfill := run_of_plain fault (s := init env) (by
    intro a ha system
    rw [List.eq_of_mem_replicate ha]
    exact trivial) hstores
  have hcallback' : step fault env { init env with system := { Firmware.init env with adc := a } }
      .adcCallback = some { init env with system := { Firmware.init env with
        adc := b, adcNotifications := 1 } } := by
    rw [step_of_plain (a := .adcCallback) trivial, hcallback, Option.map_some]
  have htake' : step fault env { init env with system := { Firmware.init env with
      adc := b, adcNotifications := 1 } } (.acquisition 0) =
      some { init env with system := { Firmware.init env with
        adc := b, acquisition := .taken 1, log := [.taken 1] } } := by
    have hwaiting : Plain fault { init env with system := { Firmware.init env with
        adc := b, adcNotifications := 1 } } (.acquisition 0) := .inr (by simp [Firmware.init])
    rw [step_of_plain hwaiting, htake, Option.map_some]
    rfl
  exact ⟨b, (Transition.run_append_eq_some _).mpr ⟨_, hfill,
    (Transition.run_cons_eq_some _).mpr ⟨_, hcallback', Transition.run_singleton _ htake'⟩⟩,
    congrArg (· + 1) hcompleted⟩

/-- The first fill reaches the queue. -/
theorem run_firstFill (fault : FaultInject) (env : Environment)
    (hdrop : fault.dropEveryNBlocks = 0) :
    ∃ actions t block, (∀ a ∈ actions, ∀ written, a ≠ .telemetry written) ∧
      Transition.run (step fault env) (init env) actions = some { init env with system := t } ∧
      t.dsp = .receiving ∧ t.blockQueue = [block] ∧ t.adc.completed = 1 ∧
      t.adc.completedGeneration = block.generation ∧ t.telemetry = .waiting := by
  obtain ⟨a, htake, hcompleted⟩ := run_firstTake fault env
  obtain ⟨t, hloop, ht⟩ := Firmware.run_notified env
    (s := { Firmware.init env with adc := a, acquisition := .taken 1, log := [.taken 1] }) rfl rfl
    (by simp [Firmware.init, blockQueueLength])
  have hplain := run_of_plain fault (s := { init env with system := { Firmware.init env with
      adc := a, acquisition := .taken 1, log := [.taken 1] } }) (by
    intro a ha system
    rw [List.eq_of_mem_replicate ha]
    exact .inl hdrop) hloop
  refine ⟨_, t, a.block 0, ?_, (Transition.run_append_eq_some _).mpr ⟨_, htake, hplain⟩, ht.dsp,
    ht.queue, ?_, ?_, ht.downstream.telemetry⟩
  · intro a ha written
    rcases List.mem_append.mp ha with ha | ha
    · rcases List.mem_append.mp ha with ha | ha
      · rw [List.eq_of_mem_replicate ha]
        simp
      · rcases List.mem_pair.mp ha with rfl | rfl <;> simp
    · rw [List.eq_of_mem_replicate ha]
      simp
  · rw [ht.adc]
    exact hcompleted
  · rw [ht.adc]
    rfl

/-- A frozen pass over the block: `pc` within it, `next` behind it. -/
theorem run_frozenPass (fault : FaultInject) (env : Environment) (block : AdcDmaBlock)
    (pc next : List UInt32 → DspPc)
    (hstep : ∀ (j : Injected) reads, j.dspLife = .running → j.system.dsp = pc reads →
      step fault env j (.dsp 0) = some { j with system := { j.system with
        dsp := if reads.length + 1 < 1024 then pc (j.system.adc.readFrozen block reads)
          else next (j.system.adc.readFrozen block reads) } })
    {reads : List UInt32} {n : ℕ} (hlife : i.dspLife = .running) (hpc : i.system.dsp = pc reads)
    (hn : reads.length + (n + 1) = 1024) :
    ∃ words, Transition.run (step fault env) i (List.replicate (n + 1) (.dsp 0)) =
      some { i with system := { i.system with dsp := next words } } := by
  induction n generalizing i reads with
  | zero =>
      have hlast : ¬ reads.length + 1 < 1024 := by omega
      have h := hstep i reads hlife hpc
      rw [if_neg hlast] at h
      exact ⟨_, Transition.run_singleton _ h⟩
  | succ n ih =>
      have hroom : reads.length + 1 < 1024 := by omega
      have h := hstep i reads hlife hpc
      rw [if_pos hroom] at h
      obtain ⟨words, hrun⟩ := ih (i := { i with system := { i.system with
        dsp := pc (i.system.adc.readFrozen block reads) } }) hlife rfl (by
        rw [Adc.length_readFrozen]
        omega)
      rw [List.replicate_succ]
      exact ⟨words, (Transition.run_cons_eq_some _).mpr ⟨_, h, hrun⟩⟩

/-- Both passes are frozen. -/
theorem run_frozenUnpack (env : Environment) (hfreeze : fault.freezeAdc = true)
    {block : AdcDmaBlock} {since : ℕ} (hlife : i.dspLife = .running)
    (hpc : i.system.dsp = .firstPass block since []) :
    ∃ first second, Transition.run (step fault env) i (List.replicate 2048 (.dsp 0)) =
      some { i with system := { i.system with dsp := .unpacked block since first second } } := by
  obtain ⟨first, hfirst⟩ := run_frozenPass fault env block
    (.firstPass block since) (fun words => .secondPass block since words [])
    (by
      intro j reads hlife h
      simp only [step, dspStep, dspRunning, hlife, h, hfreeze, Adc.length_readFrozen, if_true]
      split <;> rfl)
    (n := 1023) hlife hpc rfl
  obtain ⟨second, hsecond⟩ := run_frozenPass fault env block
    (.secondPass block since first) (.unpacked block since first)
    (by
      intro j reads hlife h
      simp only [step, dspStep, dspRunning, hlife, h, hfreeze, Adc.length_readFrozen, if_true]
      split <;> rfl)
    (i := { i with system := { i.system with dsp := .secondPass block since first [] } })
    (n := 1023) hlife rfl rfl
  have hsplit : List.replicate 2048 (Firmware.Action.dsp 0) =
      List.replicate 1024 (.dsp 0) ++ List.replicate 1024 (.dsp 0) := by
    rw [List.replicate_append_replicate]
  rw [hsplit]
  exact ⟨first, second, (Transition.run_append_eq_some _).mpr ⟨_, hfirst, hsecond⟩⟩

/-- A frozen block is about to be published. -/
theorem run_frozen (fault : FaultInject) (env : Environment) (hdrop : fault.dropEveryNBlocks = 0)
    (hfreeze : fault.freezeAdc = true) :
    ∃ actions t result, (∀ a ∈ actions, ∀ written, a ≠ .telemetry written) ∧
      Transition.run (step fault env) (init env) actions = some { init env with system := t } ∧
      t.dsp = .publishing result ∧ t.adc.completed = 1 ∧ t.telemetry = .waiting := by
  obtain ⟨fill, t, block, hothers, hfill, hdsp, hqueue, hcompleted, hcurrent, htelemetry⟩ :=
    run_firstFill fault env hdrop
  have hbegin : Transition.run (step fault env) { init env with system := t } [.dsp 0, .dsp 0] =
      some { init env with system := { t with
        dsp := .firstPass block t.adc.completed [], blockQueue := []
        log := t.log ++ [.received block] } } := by
    simp [Transition.run, step, dspStep, dspRunning, Firmware.dspStep, init, hdsp, hqueue, hcurrent]
  obtain ⟨first, second, hpasses⟩ := run_frozenUnpack env hfreeze
    (i := { init env with system := { t with
      dsp := .firstPass block t.adc.completed [], blockQueue := []
      log := t.log ++ [.received block] } }) rfl rfl
  have hfinish : ∃ result, Transition.run (step fault env) { init env with system := { t with
      dsp := .unpacked block t.adc.completed first second, blockQueue := []
      log := t.log ++ [.received block] } } [.dsp 0, .dsp 0, .dsp 0] =
      some { init env with system := { t with
        dsp := .publishing result, blockQueue := []
        log := t.log ++ [.received block] ++
          [.accepted block t.adc.completed first second] } } := by
    simp [Transition.run, step, dspStep, dspRunning, Firmware.dspStep, init, hcurrent, hfreeze]
  obtain ⟨result, hfinish⟩ := hfinish
  refine ⟨_, _, result, ?_, (Transition.run_append_eq_some _).mpr ⟨_, hfill,
    (Transition.run_append_eq_some _).mpr ⟨_, hbegin,
      (Transition.run_append_eq_some _).mpr ⟨_, hpasses, hfinish⟩⟩⟩, rfl, hcompleted,
    htelemetry⟩
  intro a ha written
  rcases List.mem_append.mp ha with ha | ha
  · exact hothers a ha written
  · have hdsp : a = .dsp 0 := by
      rcases List.mem_append.mp ha with ha | ha
      · simpa using ha
      · rcases List.mem_append.mp ha with ha | ha
        · exact List.eq_of_mem_replicate ha
        · simpa using ha
    simp [hdsp]

/-- A frozen block is published. -/
theorem run_frozenPublished (env : Environment) : ∃ i result, Reachable .freeze env i ∧
    i.system.adc.completed = 1 ∧ result ∈ publishedResults i.system.log := by
  obtain ⟨actions, t, result, -, hrun, hpc, hcompleted, -⟩ := run_frozen .freeze env rfl rfl
  have hpublish : step .freeze env { init env with system := t } (.dsp 0) =
      some { init env with system := { t with
        dsp := .kicking, resultQueue := some result, log := t.log ++ [.published result] } } := by
    simp [step, dspStep, dspRunning, Firmware.dspStep, init, hpc, FaultInject.freeze,
      FaultInject.none]
  refine ⟨_, result, ⟨_, (Transition.run_append_eq_some _).mpr ⟨_, hrun,
    Transition.run_singleton _ hpublish⟩⟩, hcompleted, ?_⟩
  rw [publishedResults_snoc]
  exact List.mem_append_right _ List.mem_cons_self

end Injected

end SpectrumAnalyzer
