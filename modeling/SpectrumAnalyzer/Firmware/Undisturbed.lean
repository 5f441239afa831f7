import SpectrumAnalyzer.Firmware.Steps

/-!
# A system that is left in peace

What happens when nothing interferes: DMA completes a fill, `acquisition_task` hands it on
at once, and `dsp_task` goes through its two passes, accepts it and publishes the result.

## Main definitions

* `Ready` — nothing is on its way to `dsp_task`.
* `run_delivery` — the next fill reaches an idle `dsp_task` while it is current.
* `accepts_undisturbed` — a current block is accepted.
* `run_publication` — the result is offered to the result queue.
* `run_transmission` — the result is sent.
-/

namespace SpectrumAnalyzer

namespace Firmware

theorem Reachable.run {env : Environment} {s s' : Firmware} {actions : List Action}
    (hs : Reachable env s) (hrun : Transition.run (step env) s actions = some s') :
    Reachable env s' := by
  obtain ⟨before, hbefore⟩ := hs
  exact ⟨before ++ actions, (Transition.run_append_eq_some _).mpr ⟨s, hbefore, hrun⟩⟩

theorem Reachable.snoc {env : Environment} {s s' : Firmware} {a : Action}
    (hs : Reachable env s) (hstep : step env s a = some s') : Reachable env s' :=
  hs.run (Transition.run_singleton _ hstep)

/-- Nothing is on its way from DMA to `dsp_task`, and no overrun was counted. -/
structure Ready (s : Firmware) : Prop where
  position : s.adc.position ≤ 1024
  acquisition : s.acquisition = .waiting
  notifications : s.adcNotifications = 0
  overruns : s.adcOverrunCount = 0
  queue : s.blockQueue = []

theorem ready_init (env : Environment) : Ready (init env) := ⟨Nat.zero_le _, rfl, rfl, rfl, rfl⟩

/-! ## Delivery -/

/-- DMA goes on storing until the fill is complete. -/
theorem run_stores (env : Environment) (s : Firmware) {n : ℕ}
    (hroom : s.adc.position + n ≤ 1024) :
    ∃ a, Transition.run (step env) s (List.replicate n .dmaStore) = some { s with adc := a } ∧
      a.position = s.adc.position + n ∧ a.completed = s.adc.completed ∧
      a.completedGeneration = s.adc.completedGeneration := by
  induction n generalizing s with
  | zero => exact ⟨s.adc, rfl, rfl, rfl, rfl⟩
  | succ n ih =>
      let a := s.adc.store (env.conversion (s.adc.completed + 1) s.adc.position)
      have hstep : step env s .dmaStore = some { s with adc := a } := if_pos (by omega)
      obtain ⟨a', hrun, hposition, hcompleted, hgeneration⟩ := ih { s with adc := a } (by
        rw [Adc.position_store]
        omega)
      refine ⟨a', ?_, ?_, hcompleted, hgeneration⟩
      · rw [List.replicate_succ]
        exact (Transition.run_cons_eq_some _).mpr ⟨_, hstep, hrun⟩
      · rw [hposition, Adc.position_store]
        omega

/-- What lies behind the result queue has not moved. -/
structure Downstream (s t : Firmware) : Prop where
  telemetry : t.telemetry = s.telemetry
  sender : t.sender = s.sender
  watchdog : t.watchdog = s.watchdog

/-- What a turn of `acquisition_task` leaves behind: the block `block` is in the queue. -/
structure Queued (s t : Firmware) (block : AdcDmaBlock) : Prop where
  adc : t.adc = s.adc
  acquisition : t.acquisition = .waiting
  notifications : t.adcNotifications = s.adcNotifications
  overruns : t.adcOverrunCount = s.adcOverrunCount
  queue : t.blockQueue = s.blockQueue ++ [block]
  dsp : t.dsp = s.dsp
  votes : t.healthMask = s.healthMask ||| healthAcquisition
  downstream : Downstream s t
  log : t.log = s.log ++ [.acquired block, .kicked healthAcquisition]

/-- The steps of `acquisition_task` behind a single notification: one more for the flag of an
overrun. -/
def turnSteps (s : Firmware) : ℕ := if s.adcOverrunCount = 0 then 6 else 7

/-- The turn of `acquisition_task` behind a single notification. -/
theorem run_turn (env : Environment) {s : Firmware} (hpc : s.acquisition = .taken 1)
    (hroom : s.blockQueue.length < blockQueueLength) :
    ∃ t, Transition.run (step env) s (List.replicate s.turnSteps (.acquisition 0)) = some t ∧
      Queued s t (s.adc.block 0) := by
  let check := acquisitionHealthCheck s.monitor (s.adc.block 0) blockPeriodUs
  refine ⟨{ s with
    stickyStatus := if s.adcOverrunCount = 0 then s.stickyStatus ||| check.1
      else s.stickyStatus ||| check.1 ||| statusAdcOverrun
    healthMask := s.healthMask ||| healthAcquisition, blockQueue := s.blockQueue ++ [s.adc.block 0]
    acquisition := .waiting, monitor := check.2
    log := s.log ++ [.acquired (s.adc.block 0), .kicked healthAcquisition] },
    ?_, rfl, rfl, rfl, rfl, rfl, rfl, rfl, ⟨rfl, rfl, rfl⟩, rfl⟩
  by_cases hoverruns : s.adcOverrunCount = 0
  · simp [turnSteps, List.replicate, Transition.run, step, acquisitionStep, statusSet, healthKick,
      hpc, hoverruns, hroom, check]
  · simp [turnSteps, List.replicate, Transition.run, step, acquisitionStep, statusSet, healthKick,
      hpc, hoverruns, hroom, check]

/-- The same turn where no overrun was counted. -/
theorem run_notified (env : Environment) {s : Firmware} (hpc : s.acquisition = .taken 1)
    (hoverruns : s.adcOverrunCount = 0) (hroom : s.blockQueue.length < blockQueueLength) :
    ∃ t, Transition.run (step env) s (List.replicate 6 (.acquisition 0)) = some t ∧
      Queued s t (s.adc.block 0) := by
  have hturn := run_turn env hpc hroom
  rwa [turnSteps, if_pos hoverruns] at hturn

/-- `acquisition_task` takes a single notification. -/
theorem step_take (env : Environment) {s : Firmware} (hpc : s.acquisition = .waiting)
    (hnotifications : s.adcNotifications = 1) :
    step env s (.acquisition 0) = some { s with
      acquisition := .taken 1, adcNotifications := 0, log := s.log ++ [.taken 1] } := by
  simp [step, acquisitionStep, hpc, hnotifications]

/-- What the way of a completed fill to `dsp_task` leaves behind. -/
structure HandedOver (s t : Firmware) (block : AdcDmaBlock) : Prop where
  adc : t.adc = s.adc.publishCompletedHalf (UInt32.ofNat (halfOf (s.adc.completed + 1)))
  acquisition : t.acquisition = .waiting
  notifications : t.adcNotifications = 0
  overruns : t.adcOverrunCount = s.adcOverrunCount
  queue : t.blockQueue = []
  dsp : t.dsp = .received block
  fromAdc : block = t.adc.block 0
  votes : t.healthMask = s.healthMask ||| healthAcquisition
  downstream : Downstream s t
  log : t.log = s.log ++ [.taken 1, .acquired block, .kicked healthAcquisition, .received block]

/-- A completed fill is handed over, whether or not overruns were counted before. -/
theorem run_completed (env : Environment) {s : Firmware} (hacquisition : s.acquisition = .waiting)
    (hnotifications : s.adcNotifications = 0) (hempty : s.blockQueue = [])
    (hfull : s.adc.position = 1024) (hdsp : s.dsp = .receiving) :
    ∃ t block, Transition.run (step env) s
        (.adcCallback :: List.replicate (s.turnSteps + 1) (.acquisition 0) ++ [.dsp 0]) = some t ∧
      HandedOver s t block := by
  let a := s.adc.publishCompletedHalf (UInt32.ofNat (halfOf (s.adc.completed + 1)))
  have hcallback : step env s .adcCallback = some { s with adc := a, adcNotifications := 1 } := by
    simp only [step, hfull, if_true, hnotifications, a]
    rfl
  have htake := step_take env (s := { s with adc := a, adcNotifications := 1 }) hacquisition rfl
  obtain ⟨t, hturn, ht⟩ := run_turn env
    (s := { s with
      adc := a, acquisition := .taken 1, adcNotifications := 0, log := s.log ++ [.taken 1] })
    rfl (by simp [hempty, blockQueueLength])
  have hqueue : t.blockQueue = [a.block 0] := by
    rw [ht.queue, hempty]
    rfl
  have hreceive : step env t (.dsp 0) = some { t with
      dsp := .received (a.block 0), blockQueue := []
      log := t.log ++ [.received (a.block 0)] } := by
    simp only [step, dspStep, ht.dsp, hdsp, hqueue]
  refine ⟨_, a.block 0, (Transition.run_append_eq_some _).mpr ⟨t,
    (Transition.run_cons_eq_some _).mpr ⟨_, hcallback,
      (Transition.run_cons_eq_some _).mpr ⟨_, htake, hturn⟩⟩,
    Transition.run_singleton _ hreceive⟩, ht.adc, ht.acquisition, ht.notifications, ht.overruns,
    rfl, rfl, congrArg (Adc.block · 0) ht.adc.symm, ht.votes,
    ⟨ht.downstream.telemetry, ht.downstream.sender, ht.downstream.watchdog⟩, ?_⟩
  rw [ht.log, List.append_assoc, List.append_assoc]
  rfl

/-- What the delivery of a block leaves behind. -/
structure Delivered (s t : Firmware) (block : AdcDmaBlock) : Prop where
  ready : Ready t
  dsp : t.dsp = .received block
  current : t.adc.completedGeneration = block.generation
  completed : t.adc.completed = s.adc.completed + 1
  generation : t.adc.completedGeneration = s.adc.completedGeneration + 1
  votes : t.healthMask = s.healthMask ||| healthAcquisition
  downstream : Downstream s t
  log : t.log = s.log ++ [.taken 1, .acquired block, .kicked healthAcquisition, .received block]

/-- A completed fill is handed over. -/
theorem run_handOver (env : Environment) {s : Firmware} (h : Ready s)
    (hfull : s.adc.position = 1024) (hdsp : s.dsp = .receiving) :
    ∃ t block, Transition.run (step env) s
        (.adcCallback :: List.replicate 7 (.acquisition 0) ++ [.dsp 0]) = some t ∧
      Delivered s t block := by
  obtain ⟨t, block, hrun, ht⟩ :=
    run_completed env h.acquisition h.notifications h.queue hfull hdsp
  have hposition : t.adc.position ≤ 1024 := by
    rw [ht.adc]
    exact Nat.zero_le _
  rw [turnSteps, if_pos h.overruns] at hrun
  refine ⟨t, block, hrun, ⟨hposition, ht.acquisition, ht.notifications,
    ht.overruns.trans h.overruns, ht.queue⟩, ht.dsp, ?_, ?_, ?_, ht.votes, ht.downstream, ht.log⟩
  · rw [ht.fromAdc]
    rfl
  · rw [ht.adc]
    rfl
  · rw [ht.adc]
    rfl

/-- **The next fill reaches an idle `dsp_task`** while it is current. -/
theorem run_delivery (env : Environment) {s : Firmware} (h : Ready s)
    (hdsp : s.dsp = .receiving) :
    ∃ actions t block, Transition.run (step env) s actions = some t ∧ Delivered s t block := by
  have hposition := h.position
  obtain ⟨a, hstores, hfull, hcompleted, hgeneration⟩ :=
    run_stores env s (n := 1024 - s.adc.position) (by omega)
  have hready : Ready { s with adc := a } :=
    ⟨hfull.trans_le (by omega), h.acquisition, h.notifications, h.overruns, h.queue⟩
  obtain ⟨t, block, hrun, ht⟩ := run_handOver env hready (hfull.trans (by omega)) hdsp
  refine ⟨_, t, block, (Transition.run_append_eq_some _).mpr ⟨_, hstores, hrun⟩, ht.ready, ht.dsp,
    ht.current, ?_, ?_, ht.votes,
    ⟨ht.downstream.telemetry, ht.downstream.sender, ht.downstream.watchdog⟩, ht.log⟩
  · rw [ht.completed, hcompleted]
  · rw [ht.generation, hgeneration]

/-! ## Acceptance -/

/-- A pass over the block: `pc` within it, `next` behind it. -/
theorem run_pass (env : Environment) (block : AdcDmaBlock) (pc next : List UInt32 → DspPc)
    (hstep : ∀ (t : Firmware) reads, t.dsp = pc reads → step env t (.dsp 0) = some { t with
      dsp := if reads.length + 1 < 1024 then pc (t.adc.read block reads)
        else next (t.adc.read block reads) })
    {s : Firmware} {reads : List UInt32} {n : ℕ} (hpc : s.dsp = pc reads)
    (hn : reads.length + (n + 1) = 1024) :
    ∃ words, Transition.run (step env) s (List.replicate (n + 1) (.dsp 0)) =
      some { s with dsp := next words } := by
  induction n generalizing s reads with
  | zero =>
      have hlast : ¬ reads.length + 1 < 1024 := by omega
      have h := hstep s reads hpc
      rw [if_neg hlast] at h
      exact ⟨_, (Transition.run_cons_eq_some _).mpr ⟨_, h, rfl⟩⟩
  | succ n ih =>
      have hroom : reads.length + 1 < 1024 := by omega
      have h := hstep s reads hpc
      rw [if_pos hroom] at h
      obtain ⟨words, hrun⟩ := ih (s := { s with dsp := pc (s.adc.read block reads) }) rfl (by
        rw [Adc.length_read]
        omega)
      rw [List.replicate_succ]
      exact ⟨words, (Transition.run_cons_eq_some _).mpr ⟨_, h, hrun⟩⟩

/-- Left to itself `dsp_task` finishes both passes. -/
theorem run_unpack (env : Environment) {s : Firmware} {block : AdcDmaBlock} {since : ℕ}
    (hpc : s.dsp = .firstPass block since []) :
    ∃ first second, Transition.run (step env) s (List.replicate 2048 (.dsp 0)) =
      some { s with dsp := .unpacked block since first second } := by
  obtain ⟨first, hfirst⟩ := run_pass env block (.firstPass block since)
    (fun words => .secondPass block since words [])
    (by
      intro t reads h
      simp only [step, dspStep, h, Adc.length_read]
      split <;> rfl)
    (n := 1023) hpc rfl
  obtain ⟨second, hsecond⟩ := run_pass env block (.secondPass block since first)
    (.unpacked block since first)
    (by
      intro t reads h
      simp only [step, dspStep, h, Adc.length_read]
      split <;> rfl)
    (s := { s with dsp := .secondPass block since first [] }) (n := 1023) rfl rfl
  have hsplit : List.replicate 2048 (Action.dsp 0) =
      List.replicate 1024 (.dsp 0) ++ List.replicate 1024 (.dsp 0) := by
    rw [List.replicate_append_replicate]
  rw [hsplit]
  exact ⟨first, second, (Transition.run_append_eq_some _).mpr ⟨_, hfirst, hsecond⟩⟩

/-- **A current block is accepted** when no other step intervenes. -/
theorem accepts_undisturbed (env : Environment) {s : Firmware} {block : AdcDmaBlock}
    (hpc : s.dsp = .received block) (hgen : s.adc.completedGeneration = block.generation) :
    ∃ first second,
      Transition.run (step env) s (List.replicate 2049 (.dsp 0)) =
        some { s with dsp := .unpacked block s.adc.completed first second } ∧
      step env { s with dsp := .unpacked block s.adc.completed first second } (.dsp 0) =
        some { s with
          dsp := .accepted block first second
          log := s.log ++ [.accepted block s.adc.completed first second] } := by
  obtain ⟨first, second, hunpack⟩ := run_unpack env
    (s := { s with dsp := .firstPass block s.adc.completed [] }) rfl
  refine ⟨first, second, ?_, ?_⟩
  · have hbegin : step env s (.dsp 0) =
        some { s with dsp := .firstPass block s.adc.completed [] } := by
      simp [step, dspStep, hpc, hgen]
    rw [List.replicate_succ]
    exact (Transition.run_cons_eq_some _).mpr ⟨_, hbegin, hunpack⟩
  · simp [step, dspStep, hgen]

/-! ## Publication -/

/-- An accepted block is analyzed. -/
theorem run_analysis (env : Environment) {s : Firmware} {block : AdcDmaBlock}
    {first second : List UInt32} (hpc : s.dsp = .accepted block first second) :
    ∃ result : SpectrumResult, result.generation = block.generation ∧
      Transition.run (step env) s [.dsp 0, .dsp 0] =
        some { s with dsp := .publishing result } := by
  have hanalyze : ∃ result : SpectrumResult, result.generation = block.generation ∧
      step env s (.dsp 0) = some { s with dsp := .analyzed result } := by
    simp only [step, dspStep, hpc]
    refine ⟨_, ?_, rfl⟩
    rfl
  obtain ⟨result, hgeneration, hstep⟩ := hanalyze
  refine ⟨_, ?_, (Transition.run_cons_eq_some _).mpr ⟨_, hstep, rfl⟩⟩
  exact hgeneration

/-- What the way of a fill to publication leaves behind. -/
structure Published (s t : Firmware) : Prop where
  ready : Ready t
  completed : t.adc.completed = s.adc.completed + 1
  generation : t.adc.completedGeneration = s.adc.completedGeneration + 1
  votes : t.healthMask = s.healthMask ||| healthAcquisition
  downstream : Downstream s t
  log : ∃ block since first second,
    block.generation = s.adc.completedGeneration + 1 ∧
      t.log = s.log ++ [.taken 1, .acquired block, .kicked healthAcquisition, .received block,
        .accepted block since first second]

/-- **The next fill is offered to the result queue.** -/
theorem run_publication (env : Environment) {s : Firmware} (h : Ready s)
    (hdsp : s.dsp = .receiving) :
    ∃ actions t result, Transition.run (step env) s actions = some t ∧
      t.dsp = .publishing result ∧ result.generation = s.adc.completedGeneration + 1 ∧
      Published s t := by
  obtain ⟨actions, t, block, hrun, ht⟩ := run_delivery env h hdsp
  obtain ⟨first, second, hunpack, haccept⟩ := accepts_undisturbed env ht.dsp ht.current
  obtain ⟨result, hgeneration, hanalyze⟩ := run_analysis env
    (s := { t with
      dsp := .accepted block first second
      log := t.log ++ [.accepted block t.adc.completed first second] }) rfl
  have hcurrent : block.generation = s.adc.completedGeneration + 1 :=
    ht.current.symm.trans ht.generation
  have htail := (Transition.run_cons_eq_some _).mpr ⟨_, haccept, hanalyze⟩
  refine ⟨_, _, result, (Transition.run_append_eq_some _).mpr ⟨t, hrun,
    (Transition.run_append_eq_some _).mpr ⟨_, hunpack, htail⟩⟩, rfl, hgeneration.trans hcurrent,
    ⟨ht.ready.position, ht.ready.acquisition, ht.ready.notifications, ht.ready.overruns,
      ht.ready.queue⟩, ht.completed, ht.generation, ht.votes,
    ⟨ht.downstream.telemetry, ht.downstream.sender, ht.downstream.watchdog⟩, block,
    t.adc.completed, first, second, hcurrent, ?_⟩
  rw [ht.log, List.append_assoc]
  rfl

/-- After that `dsp_task` waits for the next block. -/
theorem run_finish (env : Environment) {t : Firmware} {result : SpectrumResult}
    (hpc : t.dsp = .publishing result) :
    Transition.run (step env) t [.dsp 0, .dsp 0] = some { t with
      dsp := .receiving
      resultQueue := some result
      healthMask := t.healthMask ||| healthDsp
      log := t.log ++ [.published result] ++ [.kicked healthDsp] } := by
  simp [Transition.run, step, dspStep, healthKick, hpc]

/-! ## Transmission -/

/-- Packets are sent one after the other when no call fails. -/
theorem run_sends (env : Environment) {s : Firmware} {result : SpectrumResult}
    {todo : List (Fin 2 × Fin 4)} (hpc : s.telemetry = .sending result todo) :
    ∃ sender, Transition.run (step env) s (List.replicate todo.length (.telemetry true)) =
      some { s with telemetry := .sending result [], sender := sender } := by
  induction todo generalizing s with
  | nil => exact ⟨s.sender, by rw [← hpc]; rfl⟩
  | cons address rest ih =>
      have hstep : ∃ sender, step env s (.telemetry true) =
          some { s with telemetry := .sending result rest, sender := sender } := by
        simp only [step, telemetryStep, hpc, sendChunk_eq, if_true]
        exact ⟨_, rfl⟩
      obtain ⟨sender, hstep⟩ := hstep
      obtain ⟨sender', hrun⟩ := ih (s := { s with
        telemetry := .sending result rest, sender := sender }) rfl
      exact ⟨sender', (Transition.run_cons_eq_some _).mpr ⟨_, hstep, hrun⟩⟩

/-- **A waiting result is transmitted**, and `telemetry_task` casts its vote. -/
theorem run_transmission (env : Environment) {s : Firmware} {result : SpectrumResult}
    (hpc : s.telemetry = .waiting) (hqueue : s.resultQueue = some result) :
    ∃ sender, Transition.run (step env) s (List.replicate 11 (.telemetry true)) = some { s with
      telemetry := .waiting
      resultQueue := none
      sender := sender
      healthMask := s.healthMask ||| healthTelemetry
      log := s.log ++ [.delivered result] ++ [.kicked healthTelemetry] } := by
  have hbegin : step env s (.telemetry true) = some { s with
      telemetry := .sending result plan, resultQueue := none } := by
    simp only [step, telemetryStep, hpc, hqueue]
  obtain ⟨sender, hsends⟩ := run_sends env (s := { s with
    telemetry := .sending result plan, resultQueue := none }) rfl
  have hactions : List.replicate 11 (Action.telemetry true) =
      .telemetry true :: (List.replicate plan.length (.telemetry true) ++
        [.telemetry true, .telemetry true]) := rfl
  rw [hactions]
  refine ⟨sender, (Transition.run_cons_eq_some _).mpr ⟨_, hbegin,
    (Transition.run_append_eq_some _).mpr ⟨_, hsends, ?_⟩⟩⟩
  simp [Transition.run, step, telemetryStep, healthKick]

end Firmware

end SpectrumAnalyzer
