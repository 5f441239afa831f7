import Mathlib.Logic.Function.Basic
import SpectrumAnalyzer.Firmware.Dsp
import SpectrumAnalyzer.Lib.Transition
import SpectrumAnalyzer.Telemetry.Task

/-!
# The running firmware

The four tasks, the two ADC callbacks and the DMA as one system of guarded steps.  A step
is one access to what is shared: a word of the DMA buffer, a counter, a queue, or one
critical section.  What a task computes between two accesses belongs to the step of the
first.  No fault is injected, and the tasks have been started.

DMA fills the two halves of the buffer in turn.  The fills are numbered from one, and the
callback of a fill runs before the first word of the next is stored.

## Main definitions

* `Environment` — what the system is given: conversions, FFT, clock, start-up flags.
* `Firmware` — the shared state, the place of each task, and a log.
* `Firmware.step` — one step of the DMA, of a callback or of a task.
* `Event` — what the log records; no step of the program reads it.
-/

namespace SpectrumAnalyzer

def blockQueueLength : ℕ := 2
def blockPeriodUs : UInt32 := 1024 * 1000000 / 100000

def healthAcquisition : UInt32 := (1 : UInt32) <<< 0
def healthDsp : UInt32 := (1 : UInt32) <<< 1
def healthTelemetry : UInt32 := (1 : UInt32) <<< 2
def healthRequired : UInt32 := healthAcquisition ||| healthDsp ||| healthTelemetry

/-- What the system is given: `conversion n i` is word `i` of fill `n`. -/
structure Environment where
  conversion : ℕ → ℕ → UInt32
  spectrumAnalyzeQ15 : Vector Int16 1024 → UInt32 → Bool × ChannelSpectrum
  coreClockHz : UInt32
  watchdogReset : Bool
  testSignal : Bool

/-- The flags that `app_start` and `acquisition_task` set before the first block. -/
def Environment.bootStatus (env : Environment) : UInt32 :=
  (if env.watchdogReset then statusWatchdogReset else 0) |||
    if env.testSignal then statusTestSignal else 0

/-- The DMA buffer and what the completion callbacks publish.  `completed` counts the
fills whose callback has run, `position` the words stored of the next. -/
structure Adc where
  words : ℕ → UInt32
  position : ℕ
  completed : ℕ
  completedHalf : UInt32
  completedGeneration : UInt32

/-- The half of the buffer that fill `n` goes to. -/
def halfOf (n : ℕ) : ℕ := (n + 1) % 2

namespace Adc

/-- DMA stores a word of the fill in progress. -/
def store (a : Adc) (word : UInt32) : Adc :=
  { a with
    words := Function.update a.words (halfOf (a.completed + 1) * 1024 + a.position) word
    position := a.position + 1 }

/-- `publish_completed_half`, without the notification. -/
def publishCompletedHalf (a : Adc) (half : UInt32) : Adc :=
  { a with
    position := 0
    completed := a.completed + 1
    completedHalf := half
    completedGeneration := a.completedGeneration + 1 }

/-- What `platform_adc_wait_block` returns at time `now`. -/
def block (a : Adc) (now : UInt32) : AdcDmaBlock :=
  ⟨a.completedHalf.toNat * 1024, now, a.completedGeneration, 1024⟩

/-- One more word of a block, behind those already read. -/
def read (a : Adc) (block : AdcDmaBlock) (reads : List UInt32) : List UInt32 :=
  reads ++ [a.words (block.packedSamples + reads.length)]

@[simp] theorem completed_store (a : Adc) (word : UInt32) :
    (a.store word).completed = a.completed := rfl

@[simp] theorem position_store (a : Adc) (word : UInt32) :
    (a.store word).position = a.position + 1 := rfl

theorem words_store (a : Adc) (word : UInt32) (address : ℕ) :
    (a.store word).words address =
      if address = halfOf (a.completed + 1) * 1024 + a.position then word
      else a.words address := by
  simp only [store, Function.update_apply]

@[simp] theorem length_read (a : Adc) (block : AdcDmaBlock) (reads : List UInt32) :
    (a.read block reads).length = reads.length + 1 := by
  simp [read]

end Adc

/-! ## Where a task stands -/

/-- `acquisition_task` and `platform_adc_wait_block`. -/
inductive AcquisitionPc where
  /-- At `ulTaskNotifyTake`. -/
  | waiting
  | taken (notifications : UInt32)
  /-- Between load and store of `adc_overrun_count += notifications - 1`. -/
  | loaded (notifications count : UInt32)
  /-- Before the critical section. -/
  | counted
  /-- The block is returned. -/
  | acquired (block : AdcDmaBlock)
  /-- `acquisition_health_check` is done. -/
  | checked (block : AdcDmaBlock)
  /-- Overruns were seen. -/
  | flagging (block : AdcDmaBlock)
  | sending (block : AdcDmaBlock)
  /-- The queue was full. -/
  | dropping (block : AdcDmaBlock)
  | kicking
  | timedOut
  deriving DecidableEq, Repr

/-- `dsp_task`.  `since` is the number of completed fills at the first generation check. -/
inductive DspPc where
  | receiving
  | received (block : AdcDmaBlock)
  /-- In the first loop of `unpack_dual_adc`. -/
  | firstPass (block : AdcDmaBlock) (since : ℕ) (reads : List UInt32)
  /-- In the second loop. -/
  | secondPass (block : AdcDmaBlock) (since : ℕ) (first reads : List UInt32)
  /-- Before the second generation check. -/
  | unpacked (block : AdcDmaBlock) (since : ℕ) (first second : List UInt32)
  | accepted (block : AdcDmaBlock) (first second : List UInt32)
  /-- Before `status_get`. -/
  | analyzed (result : SpectrumResult)
  | publishing (result : SpectrumResult)
  /-- A generation check failed. -/
  | stale (block : AdcDmaBlock)
  | kicking
  deriving DecidableEq

/-- `telemetry_task`, with the packets still to be sent. -/
inductive TelemetryPc where
  | waiting
  | sending (result : SpectrumResult) (todo : List (Fin 2 × Fin 4))
  | failed
  | kicking
  deriving DecidableEq

/-- `watchdog_task`. -/
inductive WatchdogPc where
  | waiting
  | observed (mask : UInt32)
  deriving DecidableEq, Repr

/-- What the log records. -/
inductive Event where
  | adcError
  | taken (notifications : UInt32)
  | acquired (block : AdcDmaBlock)
  | received (block : AdcDmaBlock)
  | accepted (block : AdcDmaBlock) (since : ℕ) (first second : List UInt32)
  | published (result : SpectrumResult)
  | delivered (result : SpectrumResult)
  | kicked (bit : UInt32)
  | cleared
  | fed
  deriving DecidableEq

/-- The shared state, the place of each task, and the log. -/
structure Firmware where
  adc : Adc
  adcNotifications : UInt32
  adcOverrunCount : UInt32
  stickyStatus : UInt32
  healthMask : UInt32
  blockQueue : List AdcDmaBlock
  resultQueue : Option SpectrumResult
  acquisition : AcquisitionPc
  monitor : AcquisitionHealth
  dsp : DspPc
  telemetry : TelemetryPc
  sender : Sender
  watchdog : WatchdogPc
  log : List Event

/-- The words read in one pass. -/
def wordsRead (reads : List UInt32) : Vector UInt32 1024 := .ofFn fun i => reads.getD i 0

namespace Firmware

/-- `status_set`. -/
def statusSet (bits : UInt32) (s : Firmware) : Firmware :=
  { s with stickyStatus := s.stickyStatus ||| bits }

/-- `app_health_kick`. -/
def healthKick (bit : UInt32) (s : Firmware) : Firmware :=
  { s with healthMask := s.healthMask ||| bit, log := s.log ++ [.kicked bit] }

/-- One step of `acquisition_task`; `now` is the time if the step reads it. -/
def acquisitionStep (now : UInt32) (s : Firmware) : Firmware :=
  match s.acquisition with
  | .waiting =>
      if s.adcNotifications = 0 then { s with acquisition := .timedOut }
      else { s with
        acquisition := .taken s.adcNotifications
        adcNotifications := 0
        log := s.log ++ [.taken s.adcNotifications] }
  | .taken notifications =>
      if notifications > 1 then { s with acquisition := .loaded notifications s.adcOverrunCount }
      else { s with acquisition := .counted }
  | .loaded notifications count =>
      { s with acquisition := .counted, adcOverrunCount := count + (notifications - 1) }
  | .counted =>
      { s with
        acquisition := .acquired (s.adc.block now)
        log := s.log ++ [.acquired (s.adc.block now)] }
  | .acquired block =>
      let check := acquisitionHealthCheck s.monitor block blockPeriodUs
      { s.statusSet check.1 with acquisition := .checked block, monitor := check.2 }
  | .checked block =>
      if s.adcOverrunCount ≠ 0 then { s with acquisition := .flagging block }
      else { s with acquisition := .sending block }
  | .flagging block => { s.statusSet statusAdcOverrun with acquisition := .sending block }
  | .sending block =>
      if s.blockQueue.length < blockQueueLength then
        { s with acquisition := .kicking, blockQueue := s.blockQueue ++ [block] }
      else { s with acquisition := .dropping block }
  | .dropping _ => { s.statusSet statusFrameDropped with acquisition := .kicking }
  | .kicking => { s.healthKick healthAcquisition with acquisition := .waiting }
  | .timedOut => { s.statusSet statusAdcOverrun with acquisition := .waiting }

/-- One step of `dsp_task`; `elapsedCycles` is the processing time if the step reads it. -/
def dspStep (env : Environment) (elapsedCycles : UInt32) (s : Firmware) : Firmware :=
  match s.dsp with
  | .receiving =>
      match s.blockQueue with
      | [] => s
      | block :: rest =>
          { s with
            dsp := .received block, blockQueue := rest, log := s.log ++ [.received block] }
  | .received block =>
      if s.adc.completedGeneration ≠ block.generation then { s with dsp := .stale block }
      else { s with dsp := .firstPass block s.adc.completed [] }
  | .firstPass block since reads =>
      let reads := s.adc.read block reads
      if reads.length < 1024 then { s with dsp := .firstPass block since reads }
      else { s with dsp := .secondPass block since reads [] }
  | .secondPass block since first reads =>
      let reads := s.adc.read block reads
      if reads.length < 1024 then { s with dsp := .secondPass block since first reads }
      else { s with dsp := .unpacked block since first reads }
  | .unpacked block since first second =>
      if s.adc.completedGeneration ≠ block.generation then { s with dsp := .stale block }
      else { s with
        dsp := .accepted block first second
        log := s.log ++ [.accepted block since first second] }
  | .accepted block first second =>
      let result :=
        analyzeBlock env.spectrumAnalyzeQ15 block (wordsRead first) (wordsRead second)
      let result := { result with
        processingUs := elapsedCycles / (env.coreClockHz / 1000000)
        droppedBlocks := s.adcOverrunCount }
      { s with dsp := .analyzed result }
  | .analyzed result =>
      let result := { result with status := result.status ||| s.stickyStatus }
      let result := { result with
        status := result.status ||| spectrumHealthCheck result dspDeadlineUs }
      { s with dsp := .publishing result }
  | .publishing result =>
      { s with
        dsp := .kicking, resultQueue := some result, log := s.log ++ [.published result] }
  | .stale _ => { s.statusSet (statusDmaStale ||| statusFrameDropped) with dsp := .kicking }
  | .kicking => { s.healthKick healthDsp with dsp := .receiving }

/-- One step of `telemetry_task`; `written` is the outcome of the UART call if it makes
one. -/
def telemetryStep (written : Bool) (s : Firmware) : Firmware :=
  match s.telemetry with
  | .waiting =>
      match s.resultQueue with
      | none => s
      | some result => { s with telemetry := .sending result plan, resultQueue := none }
  | .sending result [] =>
      { s with telemetry := .kicking, log := s.log ++ [.delivered result] }
  | .sending result (address :: rest) =>
      let sent := sendChunk (fun _ => written) result (UInt8.ofNat address.1)
        (UInt8.ofNat address.2) s.sender
      if sent.1 then { s with telemetry := .sending result rest, sender := sent.2 }
      else { s with telemetry := .failed, sender := sent.2 }
  | .failed => { s.statusSet statusUartBackpressure with telemetry := .waiting }
  | .kicking => { s.healthKick healthTelemetry with telemetry := .waiting }

/-- One step of `watchdog_task`. -/
def watchdogStep (s : Firmware) : Firmware :=
  match s.watchdog with
  | .waiting =>
      { s with watchdog := .observed s.healthMask, healthMask := 0, log := s.log ++ [.cleared] }
  | .observed mask =>
      if mask &&& healthRequired = healthRequired then
        { s with watchdog := .waiting, log := s.log ++ [.fed] }
      else { s with watchdog := .waiting }

/-- What can happen next. -/
inductive Action where
  /-- DMA stores a word. -/
  | dmaStore
  /-- `HAL_ADC_ConvHalfCpltCallback` or `HAL_ADC_ConvCpltCallback`. -/
  | adcCallback
  /-- `HAL_ADC_ErrorCallback`. -/
  | adcError
  | acquisition (now : UInt32)
  | dsp (elapsedCycles : UInt32)
  | telemetry (written : Bool)
  | watchdog
  deriving DecidableEq, Repr

/-- One step of the system. -/
def step (env : Environment) (s : Firmware) : Action → Option Firmware
  | .dmaStore =>
      if s.adc.position < 1024 then
        some { s with
          adc := s.adc.store (env.conversion (s.adc.completed + 1) s.adc.position) }
      else none
  | .adcCallback =>
      if s.adc.position = 1024 then
        some { s with
          adc := s.adc.publishCompletedHalf (UInt32.ofNat (halfOf (s.adc.completed + 1)))
          adcNotifications := s.adcNotifications + 1 }
      else none
  | .adcError =>
      some { s with adcOverrunCount := s.adcOverrunCount + 1, log := s.log ++ [.adcError] }
  | .acquisition now => some (s.acquisitionStep now)
  | .dsp elapsedCycles => some (s.dspStep env elapsedCycles)
  | .telemetry written => some (s.telemetryStep written)
  | .watchdog => some s.watchdogStep

/-- The system when `acquisition_task` enters its loop; DMA has not stored a word yet. -/
def init (env : Environment) : Firmware where
  adc := ⟨fun _ => 0, 0, 0, 0, 0⟩
  adcNotifications := 0
  adcOverrunCount := 0
  stickyStatus := env.bootStatus
  healthMask := 0
  blockQueue := []
  resultQueue := none
  acquisition := .waiting
  monitor := acquisitionHealthInit
  dsp := .receiving
  telemetry := .waiting
  sender := .init
  watchdog := .waiting
  log := []

/-- A state that some run reaches. -/
def Reachable (env : Environment) (s : Firmware) : Prop :=
  ∃ actions, Transition.run (step env) (init env) actions = some s

end Firmware

end SpectrumAnalyzer
