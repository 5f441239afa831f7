import SpectrumAnalyzer.Firmware.FaultBuilds

/-!
# A frozen ADC

`docs/fault_injection.md` says of each option what the build with it should show.  Frozen
conversions are reported as weak and frozen and are never valid.

## Main definitions

* `ResultMove` — what a step of a build does with results.
* `Assessed` — the quality flags of results, in every build.
* `frozen_is_rejected` — every published result, in every run.
-/

namespace SpectrumAnalyzer

namespace Injected
variable {fault : FaultInject} {env : Environment} {s s' : Firmware} {i i' : Injected}

/-! ## Results -/

/-- The flags that a build adds to each result. -/
def mark (fault : FaultInject) : UInt32 := if fault.freezeAdc then statusFaultInjected else 0

/-- What a step of a build does with the result that `dsp_task` is at work on. -/
inductive ResultMove (fault : FaultInject) (s s' : Firmware) : Prop where
  | analyze {result : SpectrumResult} (hpc : s'.dsp = .analyzed result) (hfresh : Fresh result)
      (hlog : s'.log = s.log)
  | complete {result : SpectrumResult} (hpc : s.dsp = .analyzed result)
      (hpc' : s'.dsp = .publishing (completeResult result (s.stickyStatus ||| mark fault)))
      (hlog : s'.log = s.log)
  | publish {result : SpectrumResult} (hpc : s.dsp = .publishing result)
      (hpc' : s'.dsp = .kicking) (hlog : s'.log = s.log ++ [.published result])
  | pass (hpc : s'.dsp = s.dsp ∨
      (∀ result, s'.dsp ≠ .analyzed result) ∧ ∀ result, s'.dsp ≠ .publishing result)
      (hlog : publishedResults s'.log = publishedResults s.log)

theorem resultMove_of_step (h : InjectedStep fault env i i') :
    ResultMove fault i.system i'.system := by
  have hother : ∀ {a t}, (∀ elapsedCycles, a ≠ .dsp elapsedCycles) →
      Firmware.step env i.system a = some t → ResultMove fault i.system t := by
    intro a t ha h
    obtain ⟨hdsp, hlog⟩ := Firmware.dsp_of_other_step ha h
    exact .pass (.inl hdsp) hlog
  cases h with
  | @plain a t hplain h =>
      by_cases ha : ∀ elapsedCycles, a ≠ .dsp elapsedCycles
      · exact hother ha h
      simp only [not_forall, not_not] at ha
      obtain ⟨elapsedCycles, rfl⟩ := ha
      cases Firmware.result_step h with
      | analyze hpc hfresh hlog => exact .analyze hpc hfresh hlog
      | complete hpc hpc' hlog =>
          have hfreeze : fault.freezeAdc = false :=
            hplain.2.1.resolve_right fun hnot => hnot.2.2 _ hpc
          refine .complete hpc ?_ hlog
          rw [hpc', mark, hfreeze, if_neg Bool.false_ne_true, UInt32.or_zero]
      | publish hpc hpc' hlog => exact .publish hpc hpc' hlog
      | pass hpc hlog => exact .pass hpc hlog
  | @offer block now => exact hother (a := .acquisition now) nofun rfl
  | @attempt result address rest written => exact hother (a := .telemetry written) nofun rfl
  | complete hlife hfreeze hpc =>
      refine .complete hpc ?_ rfl
      rw [mark, if_pos hfreeze]
  | publish hlife hn hpc hcount => exact .publish hpc rfl rfl
  | last hlife hn hpc hcount => exact .publish hpc rfl rfl
  | readFirst => exact .pass (.inr (by simp)) rfl
  | lastFirst => exact .pass (.inr (by simp)) rfl
  | readSecond => exact .pass (.inr (by simp)) rfl
  | lastSecond => exact .pass (.inr (by simp)) rfl
  | drop => exact .pass (.inl rfl) rfl
  | stall => exact .pass (.inl rfl) rfl
  | suspended => exact .pass (.inl rfl) rfl
  | fail => exact .pass (.inl rfl) rfl

/-- What holds of the result that is about to be published and of all that were. -/
structure Results (P : SpectrumResult → Prop) (s : Firmware) : Prop where
  publishing : ∀ result, s.dsp = .publishing result → P result
  published : ∀ result ∈ publishedResults s.log, P result

theorem results_init (P : SpectrumResult → Prop) : Results P (Firmware.init env) := ⟨nofun, nofun⟩

/-- A property that every completed result has. -/
theorem results_move {P : SpectrumResult → Prop} (h : Results P s) (hmove : ResultMove fault s s')
    (hcomplete : ∀ result, s.dsp = .analyzed result →
      P (completeResult result (s.stickyStatus ||| mark fault))) : Results P s' := by
  cases hmove with
  | analyze hpc hfresh hlog =>
      refine ⟨?_, by rw [hlog]; exact h.published⟩
      intro r hr
      cases hpc.symm.trans hr
  | complete hpc hpc' hlog =>
      refine ⟨?_, by rw [hlog]; exact h.published⟩
      intro r hr
      cases hpc'.symm.trans hr
      exact hcomplete _ hpc
  | @publish result hpc hpc' hlog =>
      have hpublished : publishedResults s'.log = publishedResults s.log ++ [result] := by
        rw [hlog, publishedResults_snoc]
        rfl
      refine ⟨?_, ?_⟩
      · intro r hr
        cases hpc'.symm.trans hr
      · intro r hr
        rw [hpublished, List.mem_append, List.mem_singleton] at hr
        rcases hr with hr | rfl
        · exact h.published r hr
        · exact h.publishing r hpc
  | pass hpc hlog =>
      refine ⟨?_, by rw [hlog]; exact h.published⟩
      intro r hr
      rcases hpc with hpc | ⟨-, hnot⟩
      · exact h.publishing r (hpc.symm.trans hr)
      · exact absurd hr (hnot r)

/-! ## Quality flags -/

/-- No quality flag gets into the sticky word, and the results are graded by their own
fields. -/
structure Assessed (s : Firmware) : Prop where
  sticky : ¬ Flags.Any qualityStatus s.stickyStatus
  analyzed : ∀ result, s.dsp = .analyzed result → Fresh result
  results : Results Graded s

theorem assessed_init : Assessed (Firmware.init env) where
  sticky := Firmware.lasting_init.sticky
  analyzed := nofun
  results := results_init _

theorem sticky_move (hmove : Move env s s') :
    ∃ bits, s'.stickyStatus = s.stickyStatus ||| bits ∧ ¬ Flags.Any qualityStatus bits := by
  have hsame : ∃ bits, s.stickyStatus = s.stickyStatus ||| bits ∧
      ¬ Flags.Any qualityStatus bits := ⟨0, UInt32.or_zero.symm, not_any_zero⟩
  cases hmove with
  | plain hstep => exact Firmware.sticky_step hstep
  | stay => exact hsame
  | drop => exact ⟨_, rfl, by decide⟩
  | read => exact hsame
  | complete => exact hsame
  | stall => exact ⟨_, rfl, by decide⟩
  | fail => exact ⟨_, rfl, by decide⟩

theorem assessed_step (h : Assessed i.system) (hstep : InjectedStep fault env i i') :
    Assessed i'.system := by
  obtain ⟨bits, hsticky, hbits⟩ := sticky_move hstep.move
  have hmove := resultMove_of_step hstep
  have hmark : ¬ Flags.Any qualityStatus (i.system.stickyStatus ||| mark fault) := by
    have hinjected : ¬ Flags.Any qualityStatus (mark fault) := by
      rw [mark]
      split <;> decide
    rw [Flags.any_or]
    exact not_or.mpr ⟨h.sticky, hinjected⟩
  refine ⟨?_, ?_, results_move h.results hmove fun result hpc =>
    graded_completeResult (h.analyzed result hpc) hmark⟩
  · rw [hsticky, Flags.any_or]
    exact not_or.mpr ⟨h.sticky, hbits⟩
  · intro r hr
    cases hmove with
    | analyze hpc hfresh =>
        cases hpc.symm.trans hr
        exact hfresh
    | complete hpc hpc' => cases hpc'.symm.trans hr
    | publish hpc hpc' => cases hpc'.symm.trans hr
    | pass hpc =>
        rcases hpc with hpc | ⟨hnot, -⟩
        · exact h.analyzed r (hpc.symm.trans hr)
        · exact absurd hr (hnot r)

theorem Reachable.assessed (hi : Reachable fault env i) : Assessed i.system := by
  obtain ⟨actions, hrun⟩ := hi
  exact Transition.run_invariant (step fault env) (I := fun i => Assessed i.system)
    (fun _ _ _ h hstep => assessed_step h (injectedStep_of_step hstep)) assessed_init hrun

/-! ## A frozen ADC -/

/-- Every result of a build that freezes the ADC is marked. -/
theorem Reachable.marked (hi : Reachable fault env i) (hfreeze : fault.freezeAdc = true) :
    Results (fun result => Flags.Any statusFaultInjected result.status) i.system := by
  have hmark : mark fault = statusFaultInjected := if_pos hfreeze
  have hself : Flags.Any statusFaultInjected statusFaultInjected := by decide
  obtain ⟨actions, hrun⟩ := hi
  refine Transition.run_invariant (step fault env) (I := fun i =>
    Results (fun result => Flags.Any statusFaultInjected result.status) i.system) ?_
    (results_init _) hrun
  intro i a i' h hstep
  refine results_move h (resultMove_of_step (injectedStep_of_step hstep)) ?_
  intro result _
  rw [hmark, completeResult]
  exact ((hself.or_right _).or_right _).or_left _

/-- All words of a frozen fill are the same. -/
theorem fillWords_frozen (env : Environment) (n : ℕ) :
    env.frozen.fillWords n = .replicate 1024 (env.conversion n 0) := by
  apply Vector.ext
  intro k hk
  rw [Vector.getElem_replicate, Environment.fillWords, wordsRead, Vector.getElem_ofFn,
    Environment.fill, List.getD_eq_getElem?_getD, List.getElem?_map, List.getElem?_range hk]
  rfl

theorem blockMean_replicate (channel : Fin 2) (word : UInt32) :
    blockMean channel (.replicate 1024 word) = adcBits channel word := by
  rw [blockMean, Vector.toList_replicate, List.map_replicate, List.sum_replicate, smul_eq_mul]
  omega

/-- Unpacking a constant block leaves nothing. -/
theorem channelSamples_replicate (channel : Fin 2) (word : UInt32) :
    (unpackDualAdc (.replicate 1024 word) (.replicate 1024 word) channel).channelSamples =
      .replicate 1024 0 := by
  apply Vector.ext
  intro k hk
  have hsample := toInt_channelSamples channel (.replicate 1024 word) ⟨k, hk⟩
  have hdeviation : deviation channel (.replicate 1024 word) ⟨k, hk⟩ = 0 := by
    have hword : (Vector.replicate 1024 word)[(⟨k, hk⟩ : Fin 1024)] = word :=
      Vector.getElem_replicate hk
    rw [deviation, hword, blockMean_replicate, sub_self]
  rw [hdeviation] at hsample
  rw [Vector.getElem_replicate]
  exact Int16.toInt_inj.mp hsample

theorem rmsQ15_analyzeChannel
    (spectrumAnalyzeQ15 : Vector Int16 1024 → UInt32 → Bool × ChannelSpectrum)
    (unpacked : Unpacked) : (analyzeChannel spectrumAnalyzeQ15 unpacked).2.rmsQ15 =
      (spectrumAnalyzeQ15 unpacked.channelSamples adcSampleRateHz).2.rmsQ15 := by
  simp only [analyzeChannel]

/-- **A frozen ADC is rejected.**  In a build that freezes the ADC every published result is
marked and flagged as frozen, none is valid, and all are flagged as weak when the analysis
measures less than 128 in a block of zeros. -/
theorem frozen_is_rejected (hi : Reachable fault env i) (hfreeze : fault.freezeAdc = true)
    (hfew : i.system.adc.completed < 2 ^ 32) {result : SpectrumResult}
    (hresult : result ∈ publishedResults i.system.log) :
    Flags.Any statusFaultInjected result.status ∧ Flags.Any statusSignalFrozen result.status ∧
      ¬ Flags.Any statusSignalValid result.status ∧
      ((env.spectrumAnalyzeQ15 (.replicate 1024 0) adcSampleRateHz).2.rmsQ15 < 128 →
        Flags.Any statusSignalWeak result.status) := by
  have hanalysis := ((hi.sound.traced hfew).published result hresult).analysis
  have hgraded := hi.assessed.results.published result hresult
  rw [FaultInject.seen, if_pos hfreeze, fillWords_frozen] at hanalysis
  have hchannel : ∀ channel, ∃ clipped, result.channel.get channel =
      (analyzeChannel env.spectrumAnalyzeQ15 ⟨.replicate 1024 0, clipped⟩).2 := by
    intro channel
    refine ⟨(unpackDualAdc (.replicate 1024 (env.conversion result.generation.toNat 0))
      (.replicate 1024 (env.conversion result.generation.toNat 0)) channel).clippedSamples, ?_⟩
    rw [hanalysis.channel channel, ← channelSamples_replicate]
  have hflat : ∀ channel, ∀ k : Fin 128,
      ((result.channel.get channel).previewQ15.get k).toInt = 0 := by
    intro channel k
    obtain ⟨clipped, hclipped⟩ := hchannel channel
    rw [hclipped]
    simp [analyzeChannel, get_eq_getElem]
  refine ⟨(hi.marked hfreeze).published result hresult, ?_, ?_, ?_⟩
  · rw [hgraded.frozen]
    refine ⟨0, ?_⟩
    intro j k
    rw [hflat, hflat]
    decide
  · rw [hgraded.valid]
    intro hvalid
    obtain ⟨-, -, -, ⟨j, k, hspan⟩, -⟩ := hvalid 0
    rw [hflat, hflat] at hspan
    omega
  · intro hweak
    rw [hgraded.weak]
    obtain ⟨clipped, hclipped⟩ := hchannel 0
    refine ⟨0, ?_⟩
    rwa [hclipped, rmsQ15_analyzeChannel]

/-- A frozen block of silence is weak as well. -/
theorem frozen_is_rejected_silence : ∃ i result, Reachable .freeze Firmware.silence i ∧
    result ∈ publishedResults i.system.log ∧ Flags.Any statusSignalFrozen result.status ∧
    Flags.Any statusSignalWeak result.status := by
  obtain ⟨i, result, hi, hcompleted, hresult⟩ := run_frozenPublished Firmware.silence
  obtain ⟨-, hfrozen, -, hweak⟩ := frozen_is_rejected hi rfl (by
    rw [hcompleted]
    decide) hresult
  have hzero : ChannelSpectrum.zero.rmsQ15 < 128 := by decide
  exact ⟨i, result, hi, hresult, hfrozen, hweak (by
    simp only [Firmware.silence]
    exact hzero)⟩

end Injected

end SpectrumAnalyzer
