import SpectrumAnalyzer.Firmware.InjectedFaults

/-!
# The flags of start-up

`app_start` and `acquisition_task` set two flags before the first block, and no task sets
them later.  So a result shows them if they were set at the start of the run, in every build.

## Main definitions

* `raisedStatus` — the flags that the tasks set.
* `Injected.start_flags` — the other flags of the results.
-/

namespace SpectrumAnalyzer

/-- The flags that the tasks of a build put into the sticky word. -/
def raisedStatus : UInt32 :=
  statusAdcRunning ||| statusBlockGap ||| statusNumericFault ||| statusAdcOverrun |||
    statusFrameDropped ||| statusDmaStale ||| statusUartBackpressure ||| statusFaultInjected

section StartUp
variable {mask : UInt32}

/-- The flags of the acquisition monitor. -/
theorem not_any_acquisitionHealthCheck (hmask : ¬ Flags.Any mask raisedStatus)
    (monitor : AcquisitionHealth) (block : AdcDmaBlock) (expectedPeriodUs : UInt32) :
    ¬ Flags.Any mask (acquisitionHealthCheck monitor block expectedPeriodUs).1 := by
  simp only [raisedStatus, Flags.any_or, not_or] at hmask
  obtain ⟨⟨⟨⟨⟨⟨⟨hrunning, hgap⟩, hnumeric⟩, -⟩, -⟩, -⟩, -⟩, -⟩ := hmask
  have hor : ∀ {status}, ¬ Flags.Any mask status → ¬ Flags.Any mask (status ||| statusBlockGap) :=
    fun h => by
      rw [Flags.any_or, not_or]
      exact ⟨h, hgap⟩
  have hgeneration : ¬ Flags.Any mask (checkGeneration monitor block statusAdcRunning).1 := by
    simp only [checkGeneration]
    split
    · exact hor hrunning
    · exact hrunning
  rw [acquisitionHealthCheck]
  split
  · exact hnumeric
  · dsimp only
    split
    · simp only [checkTiming]
      split
      · exact hor hgeneration
      · exact hgeneration
    · exact hrunning

namespace Firmware
variable {env : Environment} {s s' : Firmware}

theorem sticky_raised {a : Action} (hmask : ¬ Flags.Any mask raisedStatus)
    (h : step env s a = some s') :
    Flags.Any mask s'.stickyStatus ↔ Flags.Any mask s.stickyStatus := by
  have hor : ∀ {bits}, ¬ Flags.Any mask bits →
      (Flags.Any mask (s.stickyStatus ||| bits) ↔ Flags.Any mask s.stickyStatus) := by
    intro bits hbits
    rw [Flags.any_or, or_iff_left hbits]
  have hcheck := not_any_acquisitionHealthCheck hmask
  simp only [raisedStatus, Flags.any_or, not_or] at hmask
  obtain ⟨⟨⟨⟨⟨-, hoverrun⟩, hdropped⟩, hstale⟩, hbackpressure⟩, -⟩ := hmask
  cases actionStep_of_step h with
  | dmaStore => exact Iff.rfl
  | adcCallback => exact Iff.rfl
  | adcError => exact Iff.rfl
  | acquisition hstep =>
      cases hstep with
      | check => exact hor (hcheck _ _ _)
      | flag => exact hor hoverrun
      | drop => exact hor hdropped
      | resume => exact hor hoverrun
      | _ => exact Iff.rfl
  | dsp hstep =>
      cases hstep with
      | flagStale =>
          refine hor ?_
          rw [Flags.any_or, not_or]
          exact ⟨hstale, hdropped⟩
      | _ => exact Iff.rfl
  | telemetry hstep =>
      cases hstep with
      | flag => exact hor hbackpressure
      | _ => exact Iff.rfl
  | watchdog hstep => cases hstep <;> exact Iff.rfl

end Firmware

namespace Injected
variable {fault : FaultInject} {env : Environment} {i : Injected}

theorem sticky_raised {s s' : Firmware} (hmask : ¬ Flags.Any mask raisedStatus)
    (hmove : Move env s s') :
    Flags.Any mask s'.stickyStatus ↔ Flags.Any mask s.stickyStatus := by
  have hor : ∀ {bits}, ¬ Flags.Any mask bits →
      (Flags.Any mask (s.stickyStatus ||| bits) ↔ Flags.Any mask s.stickyStatus) := by
    intro bits hbits
    rw [Flags.any_or, or_iff_left hbits]
  have hraised := hmask
  simp only [raisedStatus, Flags.any_or, not_or] at hmask
  obtain ⟨⟨⟨⟨-, hdropped⟩, -⟩, -⟩, hinjected⟩ := hmask
  cases hmove with
  | plain hstep => exact Firmware.sticky_raised hraised hstep
  | drop =>
      refine hor ?_
      rw [Flags.any_or, not_or]
      exact ⟨hdropped, hinjected⟩
  | stall => exact hor hinjected
  | fail => exact hor hinjected
  | _ => exact Iff.rfl

/-- **The flags of start-up.**  A lasting flag that no task raises is in the results of a run if
it was set at its start, and in none of them otherwise. -/
theorem start_flags (hi : Reachable fault env i) (hmask : ¬ Flags.Any mask raisedStatus)
    (hlasting : ¬ Flags.Any mask transientStatus) {result : SpectrumResult}
    (hresult : result ∈ publishedResults i.system.log) :
    Flags.Any mask result.status ↔ Flags.Any mask env.bootStatus := by
  have hmark : ¬ Flags.Any mask (mark fault) := by
    simp only [raisedStatus, Flags.any_or, not_or] at hmask
    rw [mark]
    split
    · exact hmask.2
    · exact not_any_zero
  have hinv : ∀ i a i', (Reachable fault env i ∧
      (Flags.Any mask i.system.stickyStatus ↔ Flags.Any mask env.bootStatus) ∧
        Results (fun r => Flags.Any mask r.status ↔ Flags.Any mask env.bootStatus) i.system) →
      step fault env i a = some i' → (Reachable fault env i' ∧
      (Flags.Any mask i'.system.stickyStatus ↔ Flags.Any mask env.bootStatus) ∧
        Results (fun r => Flags.Any mask r.status ↔ Flags.Any mask env.bootStatus) i'.system) := by
    rintro i a i' ⟨⟨actions, hrun⟩, hsticky, hresults⟩ hstep
    have hreach : Reachable fault env i := ⟨actions, hrun⟩
    have hmove := injectedStep_of_step hstep
    refine ⟨⟨actions ++ [a], (Transition.run_append_eq_some _).mpr
      ⟨_, hrun, Transition.run_singleton _ hstep⟩⟩, ?_, ?_⟩
    · rw [sticky_raised hmask hmove.move, hsticky]
    · refine results_move hresults (resultMove_of_step hmove) ?_
      intro r hr
      obtain ⟨hfrom, hto⟩ := carried_completeResult (hreach.assessed.analyzed r hr)
        (i.system.stickyStatus ||| mark fault)
      have hsame : Flags.Any mask (i.system.stickyStatus ||| mark fault) ↔
          Flags.Any mask env.bootStatus := by
        rw [Flags.any_or, or_iff_left hmark, hsticky]
      exact ⟨fun h => hsame.mp (hto mask hlasting h), fun h => hfrom mask hlasting (hsame.mpr h)⟩
  obtain ⟨actions, hrun⟩ := hi
  have hstart : Reachable fault env (init env) := ⟨[], rfl⟩
  exact (Transition.run_invariant (step fault env) hinv
    ⟨hstart, Iff.rfl, results_init _⟩ hrun).2.2.published result hresult

end Injected

end StartUp

end SpectrumAnalyzer
