import SpectrumAnalyzer.Firmware.Causes
import SpectrumAnalyzer.Firmware.Transmission

/-!
# Runs without a fault

When no step of a run gives rise to a fault, its results show the flags of start-up, that
the ADC is running, and the flags of their own analysis, and no lost block.

## Main definitions

* `Spotless` — what such a result shows.
* `Busy`, `busy_step` — a block that is past the monitor has set `ADC_RUNNING`.
* `Clean` — a step without a fault.
* `flawless_run` — the results of a run of clean steps.
-/

namespace SpectrumAnalyzer

/-- A result that shows the flags of start-up and its own, and no lost block. -/
structure Spotless (env : Environment) (result : SpectrumResult) : Prop where
  droppedBlocks : result.droppedBlocks = 0
  lasting : ∀ mask, ¬ Flags.Any mask transientStatus →
    (Flags.Any mask result.status ↔ Flags.Any mask (env.bootStatus ||| statusAdcRunning))

/-- The block is checked and not yet in the queue. -/
def AcquisitionPc.Checked : AcquisitionPc → Prop
  | .checked _ => True
  | .flagging _ => True
  | .sending _ => True
  | _ => False

namespace Firmware
variable {env : Environment} {s s' : Firmware} {mask : UInt32}

/-! ## The ADC is running -/

/-- A block has got past the monitor. -/
def Busy (s : Firmware) : Prop := s.acquisition.Checked ∨ s.blockQueue ≠ [] ∨ s.dsp ≠ .receiving

theorem acquisitionHealthCheck_running {block : AdcDmaBlock} (monitor : AcquisitionHealth)
    (hframes : block.frames.toNat = analyzerFftSize) (hmask : Flags.Any mask statusAdcRunning) :
    Flags.Any mask (acquisitionHealthCheck monitor block blockPeriodUs).1 := by
  have hgeneration : Flags.Any mask (checkGeneration monitor block statusAdcRunning).1 := by
    simp only [checkGeneration]
    split
    · exact hmask.or_left _
    · exact hmask
  rw [acquisitionHealthCheck, if_neg (not_not_intro hframes)]
  dsimp only
  split
  · exact any_checkTiming hgeneration _ _ _
  · exact hmask

theorem busy_step {a : Action} (howned : Owned env s) (hstep : step env s a = some s')
    (hmask : Flags.Any mask statusAdcRunning) (h : Busy s → Flags.Any mask s.stickyStatus)
    (hbusy' : Busy s') : Flags.Any mask s'.stickyStatus := by
  obtain ⟨bits, hsticky, -⟩ := sticky_step hstep
  by_cases hbusy : Busy s
  · rw [hsticky]
    exact (h hbusy).or_left bits
  -- the first block to get past the monitor
  simp only [Busy, not_or, not_not] at hbusy
  obtain ⟨hchecked, hqueue, hdsp⟩ := hbusy
  have hidle : ∀ {t : Firmware}, ¬ t.acquisition.Checked → t.blockQueue = s.blockQueue →
      t.dsp = s.dsp → ¬ Busy t := by
    intro t ht hqueue' hdsp'
    simp only [Busy, not_or, not_not]
    exact ⟨ht, hqueue'.trans hqueue, hdsp'.trans hdsp⟩
  have hbeside : ∀ {t : Firmware}, t.acquisition = s.acquisition →
      t.blockQueue = s.blockQueue → t.dsp = s.dsp → ¬ Busy t :=
    fun hpc => hidle (hpc ▸ hchecked)
  cases actionStep_of_step hstep with
  | dmaStore => exact absurd hbusy' (hbeside rfl rfl rfl)
  | adcCallback => exact absurd hbusy' (hbeside rfl rfl rfl)
  | adcError => exact absurd hbusy' (hbeside rfl rfl rfl)
  | acquisition hacquisition =>
      cases hacquisition with
      | @check block hpc =>
          have hpaired := howned.acquisition block (by rw [hpc]; rfl)
          refine Flags.Any.or_right (acquisitionHealthCheck_running _ ?_ hmask) _
          rw [hpaired.frames]
          rfl
      | overrun hpc => exact (hchecked (by rw [hpc]; trivial)).elim
      | noOverrun hpc => exact (hchecked (by rw [hpc]; trivial)).elim
      | flag hpc => exact (hchecked (by rw [hpc]; trivial)).elim
      | send hpc => exact (hchecked (by rw [hpc]; trivial)).elim
      | _ => exact absurd hbusy' (hidle id rfl rfl)
  | dsp hstep =>
      cases hstep with
      | idle => exact absurd hbusy' (hbeside rfl rfl rfl)
      | receive hpc hblock => simp [hqueue] at hblock
      | kick => exact absurd hbusy' (hidle hchecked rfl hdsp.symm)
      | _ => simp_all
  | telemetry hstep =>
      have h := bystander_telemetry hstep
      exact absurd hbusy' (hbeside h.acquisition h.blockQueue h.dsp)
  | watchdog hstep =>
      have h := bystander_watchdog hstep
      exact absurd hbusy' (hbeside h.acquisition h.blockQueue h.dsp)

/-! ## Clean runs -/

/-- The step gives rise to no fault. -/
def Clean (s : Firmware) (a : Action) : Prop := ¬ Flags.Any (~~~statusAdcRunning) (s.incident a)

instance (s : Firmware) (a : Action) : Decidable (Clean s a) := inferInstanceAs (Decidable (¬ _))

/-- What a run without a fault leaves behind. -/
structure Flawless (env : Environment) (s : Firmware) : Prop where
  boot : ∀ mask, Flags.Any mask env.bootStatus → Flags.Any mask s.stickyStatus
  running : Busy s → ∀ mask, Flags.Any mask statusAdcRunning → Flags.Any mask s.stickyStatus
  flags : ∀ mask, Flags.Any mask s.flags → Flags.Any mask (env.bootStatus ||| statusAdcRunning)
  analyzed : ∀ result, s.dsp = .analyzed result → result.droppedBlocks = 0
  publishing : ∀ result, s.dsp = .publishing result → Spotless env result
  published : ∀ result ∈ publishedResults s.log, Spotless env result

theorem flawless_init : Flawless env (init env) where
  boot := fun _ h => h
  running := by
    rintro (h | h | h)
    · exact h.elim
    · exact absurd rfl h
    · exact absurd rfl h
  flags := by
    intro mask h
    rw [flags_init] at h
    exact h.or_left _
  analyzed := nofun
  publishing := nofun
  published := nofun

theorem Flawless.adcOverrunCount (h : Flawless env s) : s.adcOverrunCount = 0 := by
  by_contra hcount
  have hself : Flags.Any statusAdcOverrun statusAdcOverrun := by decide
  have hany := h.flags statusAdcOverrun (any_flags.mpr (.inr (.inl ⟨hcount, hself⟩)))
  have hnone : ¬ Flags.Any statusAdcOverrun (env.bootStatus ||| statusAdcRunning) := by
    rw [Environment.bootStatus]
    cases env.watchdogReset <;> cases env.testSignal <;> decide
  exact hnone hany

/-- `dsp_task` copies the counter of overruns into a result. -/
theorem droppedBlocks_step {a : Action} {result : SpectrumResult}
    (hstep : step env s a = some s') (hpc : s'.dsp = .analyzed result) :
    s.dsp = .analyzed result ∨ result.droppedBlocks = s.adcOverrunCount := by
  cases actionStep_of_step hstep with
  | dmaStore => exact .inl hpc
  | adcCallback => exact .inl hpc
  | adcError => exact .inl hpc
  | acquisition h => cases h <;> exact .inl hpc
  | telemetry h => exact .inl ((bystander_telemetry h).dsp ▸ hpc)
  | watchdog h => exact .inl ((bystander_watchdog h).dsp ▸ hpc)
  | @dsp elapsedCycles _ h heq =>
      cases h with
      | idle => exact .inl hpc
      | analyze hpc' =>
          rw [← heq, dspStep, hpc'] at hpc
          cases hpc
          exact .inr rfl
      | _ => cases hpc

theorem completed_spotless {result : SpectrumResult} (h : Flawless env s) (hfresh : Fresh result)
    (hpc : s.dsp = .analyzed result) : Spotless env (completeResult result s.stickyStatus) := by
  obtain ⟨hfrom, hto⟩ := carried_completeResult hfresh s.stickyStatus
  refine ⟨h.analyzed result hpc, ?_⟩
  intro mask hmask
  constructor
  · intro hany
    exact h.flags mask (any_flags.mpr (.inl (hto mask hmask hany)))
  · intro hany
    refine hfrom mask hmask ?_
    rcases Flags.any_or.mp hany with hboot | hrunning
    · exact h.boot mask hboot
    · exact h.running (.inr (.inr (by simp [hpc]))) mask hrunning

theorem flawless_step {a : Action} (hs : Reachable env s) (hclean : Clean s a)
    (h : Flawless env s) (hstep : step env s a = some s') : Flawless env s' := by
  obtain ⟨bits, hsticky, -⟩ := sticky_step hstep
  have hpublishing : ∀ result, s'.dsp = .publishing result → Spotless env result := by
    intro r hr
    cases result_step hstep with
    | analyze hpc => cases hpc.symm.trans hr
    | complete hpc hpc' =>
        cases hpc'.symm.trans hr
        exact completed_spotless h (hs.lasting.analyzed _ hpc) hpc
    | publish hpc hpc' => cases hpc'.symm.trans hr
    | pass hpc =>
        rcases hpc with hpc | ⟨-, hnot⟩
        · exact h.publishing r (hpc.symm.trans hr)
        · exact absurd hr (hnot r)
  refine ⟨?_, ?_, ?_, ?_, hpublishing, ?_⟩
  · intro mask hmask
    rw [hsticky]
    exact (h.boot mask hmask).or_left bits
  · intro hbusy mask hmask
    exact busy_step hs.owned hstep hmask (fun hb => h.running hb mask hmask) hbusy
  · intro mask hmask
    rcases (flags_step hstep).caused hmask with hbefore | hincident
    · exact h.flags mask hbefore
    · exact (hincident.of_not_any_complement hclean).or_right _
  · intro result hpc
    rcases droppedBlocks_step hstep hpc with hbefore | hcount
    · exact h.analyzed result hbefore
    · rw [hcount, h.adcOverrunCount]
  · intro r hr
    rcases published_step hstep with hsame | ⟨last, hpc, hmore⟩
    · exact h.published r (hsame ▸ hr)
    · rw [hmore, List.mem_append, List.mem_singleton] at hr
      rcases hr with hr | rfl
      · exact h.published r hr
      · exact h.publishing r hpc

theorem flawless_run {actions : List Action}
    (hrun : Transition.run (step env) (init env) actions = some s)
    (hclean : Transition.Always (step env) Clean (init env) actions) : Flawless env s := by
  have hpreserves : ∀ s a s', Reachable env s ∧ Flawless env s → Clean s a →
      step env s a = some s' → Reachable env s' ∧ Flawless env s' := by
    rintro s a s' ⟨hs, h⟩ hok hstep
    exact ⟨hs.snoc hstep, flawless_step hs hok h hstep⟩
  have hstart : Reachable env (init env) ∧ Flawless env (init env) := ⟨⟨[], rfl⟩, flawless_init⟩
  exact (Transition.run_invariant_of (step env) hpreserves hstart hclean hrun).2

/-! ## A clean run -/

/-- `dsp_task` at work on a block that is not overtaken. -/
theorem always_clean_dsp (env : Environment) {actions : List Action}
    (hactions : ∀ a ∈ actions, a = .dsp 0) (hqueue : s.blockQueue = [])
    (hcurrent : ∀ b, s.dsp.block? = some b → s.adc.completedGeneration = b.generation) :
    Transition.Always (step env) Clean s actions := by
  induction actions generalizing s with
  | nil => exact trivial
  | cons a actions ih =>
      obtain ⟨rfl, hrest⟩ := List.forall_mem_cons.mp hactions
      have hincident : s.incident (.dsp 0) = 0 := by
        rw [incident]
        cases hpc : s.dsp with
        | received block => exact if_pos (hcurrent block (by rw [hpc]; rfl))
        | unpacked block since first second => exact if_pos (hcurrent block (by rw [hpc]; rfl))
        | _ => rfl
      refine ⟨?_, ?_⟩
      · rw [Clean, hincident]
        exact not_any_zero
      · intro t ht
        cases actionStep_of_step ht with
        | dsp h =>
            cases h with
            | receive hpc hblock => simp [hqueue] at hblock
            | idle => exact ih hrest hqueue hcurrent
            | begin hpc => exact ih hrest hqueue fun b hb => hcurrent b (by rw [hpc]; exact hb)
            | readFirst hpc => exact ih hrest hqueue fun b hb => hcurrent b (by rw [hpc]; exact hb)
            | lastFirst hpc => exact ih hrest hqueue fun b hb => hcurrent b (by rw [hpc]; exact hb)
            | readSecond hpc => exact ih hrest hqueue fun b hb => hcurrent b (by rw [hpc]; exact hb)
            | lastSecond hpc => exact ih hrest hqueue fun b hb => hcurrent b (by rw [hpc]; exact hb)
            | _ => exact ih hrest hqueue (by simp [DspPc.block?])

/-- The hand-over of the first fill is clean. -/
theorem always_clean_handOver (env : Environment) {a : Adc} (hfull : a.position = 1024) :
    Transition.Always (step env) Clean { init env with adc := a }
      (.adcCallback :: List.replicate 7 (.acquisition 0) ++ [.dsp 0]) := by
  have hrunning : ¬ Flags.Any (~~~statusAdcRunning) statusAdcRunning := by decide
  have hcheck : ∀ words time generation, (acquisitionHealthCheck acquisitionHealthInit
      ⟨words, time, generation, 1024⟩ blockPeriodUs).1 = statusAdcRunning := fun _ _ _ => rfl
  simp [Transition.Always, List.replicate, Clean, incident, step, acquisitionStep, statusSet, hfull,
    init, not_any_zero, blockQueueLength, Adc.block, hcheck, hrunning, healthKick]

/-- An idle `dsp_task` works off a block on its own. -/
theorem run_work (env : Environment) {t : Firmware} {block : AdcDmaBlock}
    (hpc : t.dsp = .received block) (hgen : t.adc.completedGeneration = block.generation) :
    ∃ actions result since first second, (∀ a ∈ actions, a = .dsp 0) ∧
      Transition.run (step env) t actions = some { t with
        dsp := .receiving
        resultQueue := some result
        healthMask := t.healthMask ||| healthDsp
        log := t.log ++ [.accepted block since first second] ++ [.published result] ++
          [.kicked healthDsp] } := by
  obtain ⟨first, second, hunpack, haccept⟩ := accepts_undisturbed env hpc hgen
  obtain ⟨result, -, hanalyze⟩ := run_analysis env
    (s := { t with
      dsp := .accepted block first second
      log := t.log ++ [.accepted block t.adc.completed first second] }) rfl
  have hfinish := run_finish env (t := { t with
    dsp := .publishing result
    log := t.log ++ [.accepted block t.adc.completed first second] }) rfl
  have htail := (Transition.run_append_eq_some _).mpr ⟨_, hanalyze, hfinish⟩
  refine ⟨_, result, t.adc.completed, first, second, ?_, (Transition.run_append_eq_some _).mpr
    ⟨_, hunpack, (Transition.run_cons_eq_some _).mpr ⟨_, haccept, htail⟩⟩⟩
  intro a ha
  simpa only [List.mem_append, List.mem_cons, List.mem_replicate, List.not_mem_nil, or_false,
    or_self, ne_eq, OfNat.ofNat_ne_zero, not_false_eq_true, true_and] using ha

/-- Calls that all succeed deliver a result. -/
theorem run_calls (env : Environment) {t : Firmware} {result : SpectrumResult}
    (hpc : t.telemetry = .waiting) (hqueue : t.resultQueue = some result) :
    ∃ actions sender, (∀ a ∈ actions, a = .telemetry true) ∧
      Transition.run (step env) t actions = some { t with
        telemetry := .kicking
        resultQueue := none
        sender := sender
        log := t.log ++ [.delivered result] } := by
  obtain ⟨sender, hsends⟩ := run_sends env
    (s := { t with telemetry := .sending result plan, resultQueue := none }) rfl
  have hbegin : step env t (.telemetry true) =
      some { t with telemetry := .sending result plan, resultQueue := none } := by
    simp only [step, telemetryStep, hpc, hqueue]
  have hend : step env { t with
      telemetry := .sending result [], resultQueue := none, sender := sender } (.telemetry true) =
        some { t with
          telemetry := .kicking
          resultQueue := none
          sender := sender
          log := t.log ++ [.delivered result] } := rfl
  refine ⟨_, sender, ?_, (Transition.run_cons_eq_some _).mpr ⟨_, hbegin,
    (Transition.run_append_eq_some _).mpr ⟨_, hsends, Transition.run_singleton _ hend⟩⟩⟩
  intro a ha
  simp only [List.mem_append, List.mem_cons, List.mem_replicate, List.not_mem_nil, or_false] at ha
  rcases ha with rfl | ⟨-, rfl⟩ | rfl <;> rfl

/-- A clean run that delivers a result. -/
theorem run_clean (env : Environment) : ∃ actions s result,
    Transition.run (step env) (init env) actions = some s ∧
      Transition.Always (step env) Clean (init env) actions ∧
      publishedResults s.log = [result] ∧ result ∈ deliveredResults s.log := by
  obtain ⟨a, hstores, hfull, -, -⟩ := run_stores env (init env) (n := 1024) (Nat.le_refl 1024)
  have hready : Ready { init env with adc := a } := ⟨hfull.le, rfl, rfl, rfl, rfl⟩
  obtain ⟨t, block, hhandOver, ht⟩ := run_handOver env hready hfull rfl
  obtain ⟨work, result, since, first, second, hwork, hrun⟩ := run_work env ht.dsp ht.current
  obtain ⟨calls, sender, hcalls, hdelivered⟩ := run_calls env (t := { t with
    dsp := .receiving
    resultQueue := some result
    healthMask := t.healthMask ||| healthDsp
    log := t.log ++ [.accepted block since first second] ++ [.published result] ++
      [.kicked healthDsp] }) ht.downstream.telemetry rfl
  have hclean : ∀ {s : Firmware} {b : Action}, s.incident b = 0 → Clean s b := by
    intro s b hb
    rw [Clean, hb]
    exact not_any_zero
  have hfill : Transition.Always (step env) Clean (init env) (List.replicate 1024 .dmaStore) := by
    refine Transition.always_of_forall _ (fun b hb s => ?_) _
    rw [List.eq_of_mem_replicate hb]
    exact hclean rfl
  have hcurrent : ∀ b, t.dsp.block? = some b → t.adc.completedGeneration = b.generation := by
    intro b hb
    rw [ht.dsp] at hb
    cases hb
    exact ht.current
  have hsent : ∀ u, Transition.Always (step env) Clean u calls := by
    refine Transition.always_of_forall _ (fun b hb s => ?_)
    rw [hcalls b hb]
    refine hclean ?_
    rw [incident]
    split
    · rfl
    · rfl
  have harrival := (Transition.run_append_eq_some _).mpr ⟨_, hstores, hhandOver⟩
  have hpublication := (Transition.run_append_eq_some _).mpr ⟨_, harrival, hrun⟩
  have hlog : t.log = [.taken 1, .acquired block, .kicked healthAcquisition, .received block] :=
    ht.log
  refine ⟨_, _, result, (Transition.run_append_eq_some _).mpr ⟨_, hpublication, hdelivered⟩,
    Transition.always_append _ (Transition.always_append _ (Transition.always_append _ hfill hstores
      (always_clean_handOver env hfull)) harrival
        (always_clean_dsp env hwork ht.ready.queue hcurrent)) hpublication (hsent _), ?_, ?_⟩
  · rw [hlog]
    rfl
  · rw [hlog]
    exact List.mem_singleton_self result

end Firmware

end SpectrumAnalyzer
