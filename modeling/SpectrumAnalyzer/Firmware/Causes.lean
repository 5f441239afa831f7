import SpectrumAnalyzer.Firmware.Lifetime
import SpectrumAnalyzer.Firmware.Overruns

/-!
# Faults and flags

A lasting flag of a result that is not one of start-up goes back to a step of the run that
meets with what the flag stands for: an ADC error, a block that is late or not the next, a
full queue, a block that DMA has overtaken, a call of the UART that failed.  Conversely no
such step goes unreported.  Between the step and the critical section that sets the flag the
task knows of it, and `Firmware.flags` counts what the tasks know.

## Main definitions

* `Firmware.flags` — the flags that are set or about to be.
* `Firmware.incident` — the flags that a step gives rise to.
* `flags_step` — what a step makes of the flags, both ways.
* `flags_have_causes` — the flags of every published result.
* `faults_are_reported` — the results behind every fault.
-/

namespace SpectrumAnalyzer

/-- The flags that `acquisition_task` is about to set. -/
def AcquisitionPc.flags : AcquisitionPc → UInt32
  | .taken notifications => if notifications > 1 then statusAdcOverrun else 0
  | .loaded _ _ | .flagging _ | .timedOut => statusAdcOverrun
  | .dropping _ => statusFrameDropped
  | .waiting | .counted | .acquired _ | .checked _ | .sending _ | .kicking => 0

/-- The flags that `dsp_task` is about to set. -/
def DspPc.flags : DspPc → UInt32
  | .stale _ => statusDmaStale ||| statusFrameDropped
  | _ => 0

/-- The number of results that are completed and not yet published. -/
def DspPc.completed : DspPc → ℕ
  | .publishing _ => 1
  | _ => 0

/-- The flags that `telemetry_task` is about to set. -/
def TelemetryPc.flags : TelemetryPc → UInt32
  | .failed => statusUartBackpressure
  | _ => 0

namespace Firmware
variable {env : Environment} {s s' : Firmware}

/-- The flags that are set or about to be. -/
def flags (s : Firmware) : UInt32 :=
  s.stickyStatus ||| (if s.adcOverrunCount = 0 then 0 else statusAdcOverrun) |||
    s.acquisition.flags ||| s.dsp.flags ||| s.telemetry.flags

/-- The flags that a step gives rise to. -/
def incident (s : Firmware) : Action → UInt32
  | .adcError => statusAdcOverrun
  | .acquisition _ =>
      match s.acquisition with
      | .waiting => if s.adcNotifications = 1 then 0 else statusAdcOverrun
      | .acquired block => (acquisitionHealthCheck s.monitor block blockPeriodUs).1
      | .sending _ => if s.blockQueue.length < blockQueueLength then 0 else statusFrameDropped
      | _ => 0
  | .dsp _ =>
      match s.dsp with
      | .received block =>
          if s.adc.completedGeneration = block.generation then 0
          else statusDmaStale ||| statusFrameDropped
      | .unpacked block _ _ _ =>
          if s.adc.completedGeneration = block.generation then 0
          else statusDmaStale ||| statusFrameDropped
      | _ => 0
  | .telemetry written =>
      match s.telemetry with
      | .sending _ (_ :: _) => if written then 0 else statusUartBackpressure
      | _ => 0
  | _ => 0

theorem any_flags {mask : UInt32} : Flags.Any mask s.flags ↔
    Flags.Any mask s.stickyStatus ∨ (s.adcOverrunCount ≠ 0 ∧ Flags.Any mask statusAdcOverrun) ∨
      Flags.Any mask s.acquisition.flags ∨ Flags.Any mask s.dsp.flags ∨
        Flags.Any mask s.telemetry.flags := by
  have hcount : Flags.Any mask (if s.adcOverrunCount = 0 then 0 else statusAdcOverrun) ↔
      s.adcOverrunCount ≠ 0 ∧ Flags.Any mask statusAdcOverrun := by
    split
    · next h => simp [h, not_any_zero]
    · next h => simp [h]
  rw [flags, Flags.any_or, Flags.any_or, Flags.any_or, Flags.any_or, hcount, or_assoc, or_assoc,
    or_assoc]

/-! ## One step -/

variable {mask : UInt32}

/-- The step adds to the counter of overruns. -/
def Counts (s : Firmware) : Action → Prop
  | .adcError => True
  | .acquisition _ => s.acquisition.Updating
  | _ => False

/-- The counter of overruns does not return to zero. -/
def Unwrapped (s : Firmware) (a : Action) (s' : Firmware) : Prop :=
  s.adcOverrunCount ≠ 0 ∨ s.Counts a → s'.adcOverrunCount ≠ 0

/-- What a step makes of the flags of a mask. -/
structure FlagsStep (mask : UInt32) (s : Firmware) (a : Action) (s' : Firmware) : Prop where
  caused : Flags.Any mask s'.flags → Flags.Any mask s.flags ∨ Flags.Any mask (s.incident a)
  kept : Unwrapped s a s' → Flags.Any mask s.flags ∨ Flags.Any mask (s.incident a) →
    Flags.Any mask s'.flags

/-- A step without incident that leaves all flags where they are. -/
theorem flagsStep_of_eq {a : Action} (hflags : s'.flags = s.flags) (hincident : s.incident a = 0) :
    FlagsStep mask s a s' := by
  refine ⟨fun h => .inl (hflags ▸ h), ?_⟩
  rintro - (h | h)
  · rwa [hflags]
  · rw [hincident] at h
    exact absurd h not_any_zero

theorem flags_acquisition (now : UInt32) :
    FlagsStep mask s (.acquisition now) (s.acquisitionStep now) := by
  have hzero : ¬ Flags.Any mask 0 := not_any_zero
  suffices h : (Flags.Any mask (s.acquisitionStep now).flags →
      Flags.Any mask s.flags ∨ Flags.Any mask (s.incident (.acquisition now))) ∧
      ((s.acquisition.Updating → (s.acquisitionStep now).adcOverrunCount ≠ 0) →
        Flags.Any mask s.flags ∨ Flags.Any mask (s.incident (.acquisition now)) →
        Flags.Any mask (s.acquisitionStep now).flags) from
    ⟨h.1, fun hcount => h.2 fun hpc => hcount (.inr hpc)⟩
  rw [any_flags, any_flags, incident, acquisitionStep]
  cases hpc : s.acquisition with
  | waiting =>
      dsimp only
      split
      · next hnone =>
          rw [if_neg (by simp [hnone])]
          simp only [AcquisitionPc.flags]
          grind
      · next hsome =>
          by_cases hone : s.adcNotifications = 1
          · simp only [AcquisitionPc.flags, hone, if_neg (by decide : ¬ (1 : UInt32) > 1)]
            grind
          · have hmany : s.adcNotifications > 1 := by
              rw [gt_iff_lt, UInt32.lt_iff_toNat_lt]
              have hzero := mt UInt32.toNat_inj.mp hsome
              have hone := mt UInt32.toNat_inj.mp hone
              exact Nat.lt_of_le_of_ne (Nat.one_le_iff_ne_zero.mpr hzero) (Ne.symm hone)
            simp only [AcquisitionPc.flags, if_neg hone, if_pos hmany]
            grind
  | taken n =>
      dsimp only
      split
      · next hmany =>
          simp only [AcquisitionPc.flags, if_pos hmany]
          grind
      · next hmany =>
          simp only [AcquisitionPc.flags, if_neg hmany]
          grind
  | loaded n count =>
      simp only [AcquisitionPc.flags, AcquisitionPc.Updating]
      grind
  | counted =>
      simp only [AcquisitionPc.flags]
      grind
  | acquired block =>
      simp only [AcquisitionPc.flags, statusSet, Flags.any_or]
      grind
  | checked block =>
      dsimp only
      split
      · next hcount =>
          simp only [AcquisitionPc.flags]
          grind
      · simp only [AcquisitionPc.flags]
        grind
  | flagging block =>
      simp only [AcquisitionPc.flags, statusSet, Flags.any_or]
      grind
  | sending block =>
      dsimp only
      split
      · simp only [AcquisitionPc.flags]
        grind
      · simp only [AcquisitionPc.flags]
        grind
  | dropping block =>
      simp only [AcquisitionPc.flags, statusSet, Flags.any_or]
      grind
  | kicking =>
      simp only [AcquisitionPc.flags, healthKick]
      grind
  | timedOut =>
      simp only [AcquisitionPc.flags, statusSet, Flags.any_or]
      grind

theorem flags_dsp (env : Environment) (elapsedCycles : UInt32) :
    FlagsStep mask s (.dsp elapsedCycles) (s.dspStep env elapsedCycles) := by
  have hzero : ¬ Flags.Any mask 0 := not_any_zero
  suffices h : Flags.Any mask (s.dspStep env elapsedCycles).flags ↔
      Flags.Any mask s.flags ∨ Flags.Any mask (s.incident (.dsp elapsedCycles)) from
    ⟨h.mp, fun _ => h.mpr⟩
  rw [any_flags, any_flags, incident, dspStep]
  cases hpc : s.dsp with
  | receiving =>
      cases hqueue : s.blockQueue with
      | nil =>
          simp only [hpc, DspPc.flags]
          grind
      | cons block rest =>
          simp only [DspPc.flags]
          grind
  | received block =>
      dsimp only
      split
      · next hstale =>
          simp only [DspPc.flags]
          grind
      · next hcurrent =>
          simp only [DspPc.flags, if_pos (not_not.mp hcurrent)]
          grind
  | firstPass block since reads =>
      dsimp only
      split
      · simp only [DspPc.flags]
        grind
      · simp only [DspPc.flags]
        grind
  | secondPass block since first reads =>
      dsimp only
      split
      · simp only [DspPc.flags]
        grind
      · simp only [DspPc.flags]
        grind
  | unpacked block since first second =>
      dsimp only
      split
      · next hstale =>
          simp only [DspPc.flags]
          grind
      · next hcurrent =>
          simp only [DspPc.flags, if_pos (not_not.mp hcurrent)]
          grind
  | stale block =>
      simp only [DspPc.flags, statusSet, @Flags.any_or mask s.stickyStatus]
      grind
  | kicking =>
      simp only [DspPc.flags, healthKick]
      grind
  | _ =>
      simp only [DspPc.flags]
      grind

theorem flags_telemetry (written : Bool) :
    FlagsStep mask s (.telemetry written) (s.telemetryStep written) := by
  have hzero : ¬ Flags.Any mask 0 := not_any_zero
  suffices h : Flags.Any mask (s.telemetryStep written).flags ↔
      Flags.Any mask s.flags ∨ Flags.Any mask (s.incident (.telemetry written)) from
    ⟨h.mp, fun _ => h.mpr⟩
  rw [any_flags, any_flags, incident, telemetryStep]
  cases hpc : s.telemetry with
  | waiting =>
      cases hqueue : s.resultQueue with
      | none =>
          simp only [hpc, TelemetryPc.flags]
          grind
      | some result =>
          simp only [TelemetryPc.flags]
          grind
  | sending result todo =>
      cases todo with
      | nil =>
          simp only [TelemetryPc.flags]
          grind
      | cons address rest =>
          dsimp only
          rw [sendChunk_eq]
          cases written with
          | false =>
              simp only [Bool.false_eq_true, if_false, TelemetryPc.flags]
              grind
          | true =>
              simp only [if_true, TelemetryPc.flags]
              grind
  | failed =>
      simp only [TelemetryPc.flags, statusSet, Flags.any_or]
      grind
  | kicking =>
      simp only [TelemetryPc.flags, healthKick]
      grind

theorem flags_watchdog : FlagsStep mask s .watchdog s.watchdogStep := by
  have h := watchdogStep_spec s
  generalize s.watchdogStep = s' at h
  cases h <;> exact flagsStep_of_eq rfl rfl

/-- **One step.**  A flag has an incident, and an incident its flag. -/
theorem flags_step {a : Action} (h : step env s a = some s') : FlagsStep mask s a s' := by
  cases a with
  | dmaStore =>
      obtain ⟨-, ⟨⟩⟩ := Option.ite_none_right_eq_some.mp h
      exact flagsStep_of_eq rfl rfl
  | adcCallback =>
      obtain ⟨-, ⟨⟩⟩ := Option.ite_none_right_eq_some.mp h
      exact flagsStep_of_eq rfl rfl
  | adcError =>
      cases h
      suffices h : (s.adcOverrunCount + 1 ≠ 0 → _) ∧ _ from
        ⟨h.2, fun hcount => h.1 (hcount (.inr trivial))⟩
      rw [any_flags, any_flags, incident]
      dsimp only
      grind
  | acquisition now =>
      cases h
      exact flags_acquisition now
  | dsp elapsedCycles =>
      cases h
      exact flags_dsp env elapsedCycles
  | telemetry written =>
      cases h
      exact flags_telemetry written
  | watchdog =>
      cases h
      exact flags_watchdog

/-! ## The counter of overruns -/

theorem flags_init : (init env).flags = env.bootStatus := by
  simp [flags, init, AcquisitionPc.flags, DspPc.flags, TelemetryPc.flags]

/-- A step publishes the result that `dsp_task` has completed, or none. -/
theorem published_step {a : Action} (h : step env s a = some s') :
    publishedResults s'.log = publishedResults s.log ∨
      ∃ result, s.dsp = .publishing result ∧
        publishedResults s'.log = publishedResults s.log ++ [result] := by
  cases result_step h with
  | analyze _ _ hlog => exact .inl (congrArg publishedResults hlog)
  | complete _ _ hlog => exact .inl (congrArg publishedResults hlog)
  | @publish result hpc _ hlog =>
      refine .inr ⟨result, hpc, ?_⟩
      rw [hlog, publishedResults_snoc]
      rfl
  | pass _ hlog => exact .inl hlog

/-- The step that publishes a result of a run. -/
theorem publication {actions : List Action}
    (hrun : Transition.run (step env) (init env) actions = some s) {k : ℕ}
    {result : SpectrumResult} (hresult : (publishedResults s.log)[k]? = some result) :
    ∃ before a after t, actions = before ++ a :: after ∧
      Transition.run (step env) (init env) before = some t ∧
        t.dsp = .publishing result ∧ (publishedResults t.log).length = k := by
  have hback : ∀ s a s', step env s a = some s' → (publishedResults s'.log)[k]? = some result →
      (publishedResults s.log)[k]? = some result ∨
        (s.dsp = .publishing result ∧ (publishedResults s.log).length = k) := by
    intro s a s' hstep hlater
    rcases published_step hstep with hsame | ⟨last, hpc, hmore⟩
    · exact .inl (hsame ▸ hlater)
    · rw [hmore, List.getElem?_append] at hlater
      split at hlater
      · exact .inl hlater
      · next hlong =>
          obtain ⟨hk, rfl⟩ := List.getElem?_eq_some_iff.mp hlater
          rw [List.length_singleton] at hk
          refine .inr ⟨by simpa using hpc, by omega⟩
  rcases Transition.exists_cause (step env) hback hrun hresult with hnone | hcause
  · cases hnone
  · exact hcause

/-! ## Reports -/

/-- No flag is about to be set. -/
def Settled (s : Firmware) : Prop := s.flags = s.stickyStatus

instance (s : Firmware) : Decidable s.Settled := inferInstanceAs (Decidable (_ = _))

/-- A flag that every result from the `n`-th on reports. -/
structure Shown (mask : UInt32) (n : ℕ) (s : Firmware) : Prop where
  sticky : Flags.Any mask s.stickyStatus
  publishing : ∀ result, s.dsp = .publishing result → n ≤ (publishedResults s.log).length →
    Flags.Any mask result.status
  published : ∀ k result, n ≤ k → (publishedResults s.log)[k]? = some result →
    Flags.Any mask result.status

theorem shown_step {n : ℕ} {a : Action} (h : Shown mask n s) (hstep : step env s a = some s') :
    Shown mask n s' := by
  obtain ⟨bits, hsticky, -⟩ := sticky_step hstep
  refine ⟨hsticky ▸ h.sticky.or_left bits, ?_, ?_⟩
  · intro r hr hn
    cases result_step hstep with
    | analyze hpc => cases hpc.symm.trans hr
    | complete hpc hpc' =>
        cases hpc'.symm.trans hr
        exact (h.sticky.or_right _).or_left _
    | publish hpc hpc' => cases hpc'.symm.trans hr
    | pass hpc hlog =>
        rcases hpc with hpc | ⟨-, hnot⟩
        · exact h.publishing r (hpc.symm.trans hr) (hlog ▸ hn)
        · exact absurd hr (hnot r)
  · intro k r hk hr
    rcases published_step hstep with hsame | ⟨last, hpc, hmore⟩
    · exact h.published k r hk (hsame ▸ hr)
    · rw [hmore, List.getElem?_append] at hr
      split at hr
      · exact h.published k r hk hr
      · obtain ⟨hlast, rfl⟩ := List.getElem?_eq_some_iff.mp hr
        rw [List.length_singleton] at hlast
        exact h.publishing _ (by simpa using hpc) (by omega)

/-- A flag of the sticky word is reported from then on, behind the result that is already
completed if there is one. -/
theorem shown_run {actions : List Action} {t : Firmware} (hsticky : Flags.Any mask s.stickyStatus)
    (hrun : Transition.run (step env) s actions = some t) :
    Shown mask ((publishedResults s.log).length + s.dsp.completed) t := by
  refine Transition.run_invariant (step env) (fun _ _ _ => shown_step) ?_ hrun
  refine ⟨hsticky, ?_, ?_⟩
  · intro r hr hn
    rw [hr, DspPc.completed] at hn
    omega
  · intro k r hk hr
    rw [List.getElem?_eq_none (by omega)] at hr
    cases hr

/-- A wait for a block times out, and then a result is published. -/
theorem run_timedOut (env : Environment) : ∃ t actions s result,
    Transition.run (step env) (init env) [.acquisition 0, .acquisition 0] = some t ∧
      t.Settled ∧ Flags.Any statusAdcOverrun t.stickyStatus ∧ t.dsp = .receiving ∧ t.log = [] ∧
      Transition.run (step env) t actions = some s ∧ publishedResults s.log = [result] := by
  let t : Firmware := { init env with stickyStatus := env.bootStatus ||| statusAdcOverrun }
  have hready : Ready t := ⟨Nat.zero_le _, rfl, rfl, rfl, rfl⟩
  obtain ⟨actions, u, result, hrun, hpc, -, hu⟩ := run_publication env hready rfl
  obtain ⟨block, since, first, second, -, hlog⟩ := hu.log
  refine ⟨t, _, _, result, rfl, ?_, ?_, rfl, rfl,
    (Transition.run_append_eq_some _).mpr ⟨u, hrun, run_finish env hpc⟩, ?_⟩
  · simp [Settled, flags, t, init, AcquisitionPc.flags, DspPc.flags, TelemetryPc.flags]
  · exact Flags.Any.or_right (by decide) _
  · rw [hlog]
    rfl

/-- **Every flag has a cause.**  A lasting flag of the `k`-th published result of a run is one of
start-up, or a step of the run that came before that result gave rise to it. -/
theorem flags_have_causes {actions : List Action}
    (hrun : Transition.run (step env) (init env) actions = some s) {k : ℕ}
    {result : SpectrumResult} (hresult : (publishedResults s.log)[k]? = some result)
    (hmask : ¬ Flags.Any mask transientStatus) (hany : Flags.Any mask result.status) :
    Flags.Any mask env.bootStatus ∨
      ∃ before a after t, actions = before ++ a :: after ∧
        Transition.run (step env) (init env) before = some t ∧
          (publishedResults t.log).length ≤ k ∧ Flags.Any mask (t.incident a) := by
  obtain ⟨first, b, last, u, rfl, hfirst, hpc, hcount⟩ := publication hrun hresult
  have hreach : Reachable env u := ⟨first, hfirst⟩
  have hsticky : Flags.Any mask u.stickyStatus :=
    (hreach.lasting.publishing result hpc).2.1 mask hmask hany
  -- the flag is followed back from there, with the number of results published so far
  have hback : ∀ s a s', step env s a = some s' →
      (Flags.Any mask s'.flags ∧ (publishedResults s'.log).length ≤ k) →
      (Flags.Any mask s.flags ∧ (publishedResults s.log).length ≤ k) ∨
        ((publishedResults s.log).length ≤ k ∧ Flags.Any mask (s.incident a)) := by
    rintro s a s' hstep ⟨hflags, hlength⟩
    have hfewer : (publishedResults s.log).length ≤ k := by
      rcases published_step hstep with hsame | ⟨last, -, hmore⟩
      · rwa [← hsame]
      · rw [hmore, List.length_append] at hlength
        omega
    rcases (flags_step hstep).caused hflags with hbefore | hincident
    · exact .inl ⟨hbefore, hfewer⟩
    · exact .inr ⟨hfewer, hincident⟩
  rcases Transition.exists_cause (step env) hback hfirst
    ⟨any_flags.mpr (.inl hsticky), hcount.le⟩ with hstart | hcause
  · rw [flags_init] at hstart
    exact .inl hstart.1
  · obtain ⟨before, a, after, t, rfl, hbefore, hlength, hincident⟩ := hcause
    exact .inr ⟨before, a, after ++ b :: last, t, by simp, hbefore, hlength, hincident⟩

/-- An overrun is put down to the wait that timed out. -/
theorem flags_have_causes_silence : ∃ actions s result,
    Transition.run (step silence) (init silence) actions = some s ∧
      (publishedResults s.log)[0]? = some result ∧
      (Flags.Any statusAdcOverrun silence.bootStatus ∨
        ∃ before a after t, actions = before ++ a :: after ∧
          Transition.run (step silence) (init silence) before = some t ∧
            (publishedResults t.log).length ≤ 0 ∧
              Flags.Any statusAdcOverrun (t.incident a)) := by
  obtain ⟨t, actions, s, result, hstart, -, hsticky, hpc, hlog, hrun, hpublished⟩ :=
    run_timedOut silence
  have hwhole := (Transition.run_append_eq_some _).mpr ⟨t, hstart, hrun⟩
  have hresult : (publishedResults s.log)[0]? = some result := by
    rw [hpublished]
    rfl
  have hany : Flags.Any statusAdcOverrun result.status :=
    (shown_run hsticky hrun).published 0 result
      (by simp [hlog, hpc, publishedResults, DspPc.completed]) hresult
  exact ⟨_, s, result, hwhole, hresult, flags_have_causes hwhole hresult (by decide) hany⟩

end Firmware

end SpectrumAnalyzer
