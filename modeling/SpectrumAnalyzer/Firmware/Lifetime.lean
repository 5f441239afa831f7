import SpectrumAnalyzer.Firmware.Ownership
import SpectrumAnalyzer.Firmware.Quality

/-!
# How long a status flag lasts

The flags of a published result come from three places: its own analysis, the sticky word
as it was when the result was completed, and `spectrum_health_check`.  No step of any task
puts a quality flag into the sticky word, so those flags depend on the result alone; and
the sticky word only grows, so all other flags stay once a result has shown them.

## Main definitions

* `qualityStatus`, `transientStatus` — flags of a single result, without and with the
  numeric fault.
* `Carried` — a later word has all lasting flags of an earlier one.
* `Graded` — the quality flags of a result are what its fields say.
* `status_lifetime` — both, for the published results of every run.
-/

namespace SpectrumAnalyzer

/-- The flags that recover with the next result. -/
def qualityStatus : UInt32 :=
  statusSignalValid ||| statusDspDeadline ||| statusSignalWeak ||| statusAdcClipping |||
    statusSignalFrozen

/-- With the numeric fault, which an analysis and the acquisition monitor can both raise. -/
def transientStatus : UInt32 := qualityStatus ||| statusNumericFault

/-- Flags that are not transient are in the later word if they are in the earlier. -/
def Carried (earlier later : UInt32) : Prop :=
  ∀ mask, ¬ Flags.Any mask transientStatus → Flags.Any mask earlier → Flags.Any mask later

namespace Carried
variable {a b c : UInt32}

theorem refl (a : UInt32) : Carried a a := fun _ _ h => h

theorem trans (h : Carried a b) (h' : Carried b c) : Carried a c :=
  fun mask hmask ha => h' mask hmask (h mask hmask ha)

theorem or_left (h : Carried a b) (c : UInt32) : Carried a (b ||| c) :=
  fun mask hmask ha => (h mask hmask ha).or_left c

theorem or_right (h : Carried a b) (c : UInt32) : Carried a (c ||| b) :=
  fun mask hmask ha => (h mask hmask ha).or_right c

end Carried

/-! ## The sticky word -/

/-- The flags of the acquisition monitor. -/
theorem acquisitionHealthCheck_status (monitor : AcquisitionHealth) (block : AdcDmaBlock)
    (expectedPeriodUs : UInt32) :
    ¬ Flags.Any qualityStatus (acquisitionHealthCheck monitor block expectedPeriodUs).1 := by
  have hgap : ∀ {status}, ¬ Flags.Any qualityStatus status →
      ¬ Flags.Any qualityStatus (status ||| statusBlockGap) := by
    intro status h
    rw [Flags.any_or]
    exact not_or.mpr ⟨h, by decide⟩
  have hgeneration : ∀ {status}, ¬ Flags.Any qualityStatus status →
      ¬ Flags.Any qualityStatus (checkGeneration monitor block status).1 := by
    intro status h
    simp only [checkGeneration]
    split
    · exact hgap h
    · exact h
  have htiming : ∀ {monitor status}, ¬ Flags.Any qualityStatus status →
      ¬ Flags.Any qualityStatus (checkTiming monitor block expectedPeriodUs status).1 := by
    intro monitor status h
    simp only [checkTiming]
    split
    · exact hgap h
    · exact h
  have hrunning : ¬ Flags.Any qualityStatus statusAdcRunning := by decide
  rw [acquisitionHealthCheck]
  split
  · exact (by decide : ¬ Flags.Any qualityStatus statusNumericFault)
  · dsimp only
    split
    · exact htiming (hgeneration hrunning)
    · exact hrunning

namespace Firmware
variable {env : Environment} {s s' : Firmware}

/-- **What enters the sticky word.**  Every step adds flags that are not quality flags. -/
theorem sticky_step {a : Action} (h : step env s a = some s') :
    ∃ bits, s'.stickyStatus = s.stickyStatus ||| bits ∧ ¬ Flags.Any qualityStatus bits := by
  have hsame : ∃ bits, s.stickyStatus = s.stickyStatus ||| bits ∧
      ¬ Flags.Any qualityStatus bits := ⟨0, UInt32.or_zero.symm, not_any_zero⟩
  cases actionStep_of_step h with
  | dmaStore => exact hsame
  | adcCallback => exact hsame
  | adcError => exact hsame
  | acquisition hstep =>
      cases hstep with
      | check => exact ⟨_, rfl, acquisitionHealthCheck_status _ _ _⟩
      | flag => exact ⟨_, rfl, by decide⟩
      | drop => exact ⟨_, rfl, by decide⟩
      | resume => exact ⟨_, rfl, by decide⟩
      | _ => exact hsame
  | dsp hstep =>
      cases hstep with
      | flagStale => exact ⟨_, rfl, by decide⟩
      | complete => exact hsame
      | _ => exact hsame
  | telemetry hstep =>
      cases hstep with
      | flag => exact ⟨_, rfl, by decide⟩
      | _ => exact hsame
  | watchdog hstep =>
      cases hstep <;> exact hsame

end Firmware

/-! ## One result -/

/-- What `dsp_task` publishes of an analyzed block when the sticky word is `sticky`. -/
def completeResult (result : SpectrumResult) (sticky : UInt32) : SpectrumResult :=
  let result := { result with status := result.status ||| sticky }
  { result with status := result.status ||| spectrumHealthCheck result dspDeadlineUs }

/-- A result before its status word is completed. -/
structure Fresh (result : SpectrumResult) : Prop where
  sampleRate : result.sampleRateHz = adcSampleRateHz
  status : result.status = 0 ∨ result.status = statusNumericFault

/-- The quality flags of a result say what its own fields say. -/
structure Graded (result : SpectrumResult) : Prop where
  deadline : Flags.Any statusDspDeadline result.status ↔ dspDeadlineUs < result.processingUs
  weak : Flags.Any statusSignalWeak result.status ↔
    ∃ channel : Fin 2, (result.channel.get channel).rmsQ15 < 128
  clipping : Flags.Any statusAdcClipping result.status ↔
    ∃ channel : Fin 2, (result.channel.get channel).clippedSamples ≠ 0 ∨
      32700 ≤ (result.channel.get channel).peakQ15
  frozen : Flags.Any statusSignalFrozen result.status ↔
    ∃ channel : Fin 2, ∀ i j : Fin 128, ((result.channel.get channel).previewQ15.get i).toInt -
      ((result.channel.get channel).previewQ15.get j).toInt < 32
  valid : Flags.Any statusSignalValid result.status ↔
    ∀ channel : Fin 2, 128 ≤ (result.channel.get channel).rmsQ15 ∧
      (result.channel.get channel).clippedSamples = 0 ∧
      (result.channel.get channel).peakQ15 < 32700 ∧
      (∃ i j : Fin 128, 32 ≤ ((result.channel.get channel).previewQ15.get i).toInt -
        ((result.channel.get channel).previewQ15.get j).toInt) ∧
      (result.channel.get channel).dominantMillihz.toNat ≤ 50000000

theorem fresh_analyzeBlock
    (spectrumAnalyzeQ15 : Vector Int16 1024 → UInt32 → Bool × ChannelSpectrum)
    (block : AdcDmaBlock) (first second : Vector UInt32 1024) :
    Fresh (analyzeBlock spectrumAnalyzeQ15 block first second) := by
  refine ⟨rfl, ?_⟩
  simp only [analyzeBlock]
  split
  · exact .inl rfl
  · exact .inr rfl

theorem Fresh.not_any {result : SpectrumResult} (h : Fresh result) {mask : UInt32}
    (hmask : ¬ Flags.Any mask statusNumericFault) : ¬ Flags.Any mask result.status := by
  rcases h.status with heq | heq
  · rw [heq]
    exact not_any_zero
  · rw [heq]
    exact hmask

theorem exists_mem_channel {P : ChannelSpectrum → Prop} {result : SpectrumResult} :
    (∃ c ∈ result.channel.toList, P c) ↔ ∃ channel : Fin 2, P (result.channel.get channel) := by
  constructor
  · rintro ⟨c, hc, h⟩
    obtain ⟨i, hi, rfl⟩ := List.mem_iff_getElem.mp hc
    rw [Vector.length_toList] at hi
    exact ⟨⟨i, hi⟩, by simpa [get_eq_getElem] using h⟩
  · rintro ⟨channel, h⟩
    exact ⟨_, by simp [get_eq_getElem], h⟩

theorem forall_mem_channel {P : ChannelSpectrum → Prop} {result : SpectrumResult} :
    (∀ c ∈ result.channel.toList, P c) ↔ ∀ channel : Fin 2, P (result.channel.get channel) := by
  rw [← not_iff_not]
  simp only [not_forall, exists_prop]
  exact exists_mem_channel

/-- The flags of the mask that are not in the first two parts come from the health check. -/
theorem any_completeResult {mask sticky : UInt32} {result : SpectrumResult}
    (hfresh : ¬ Flags.Any mask result.status) (hsticky : ¬ Flags.Any mask sticky) :
    Flags.Any mask (completeResult result sticky).status ↔
      Flags.Any mask (spectrumHealthCheck result dspDeadlineUs) := by
  rw [completeResult]
  dsimp only
  rw [Flags.any_or, Flags.any_or]
  -- the check does not read the status word
  change _ ∨ Flags.Any mask (spectrumHealthCheck result dspDeadlineUs) ↔ _
  simp [hfresh, hsticky]

theorem passes_iff {c : ChannelSpectrum} : c.Passes adcSampleRateHz ↔
    128 ≤ c.rmsQ15 ∧ c.clippedSamples = 0 ∧ c.peakQ15 < 32700 ∧
      (∃ i j : Fin 128, 32 ≤ (c.previewQ15.get i).toInt - (c.previewQ15.get j).toInt) ∧
      c.dominantMillihz.toNat ≤ 50000000 := by
  have hspan : signalMinSpanQ15 ≤ c.maximum.toInt32 - c.minimum.toInt32 ↔
      ∃ i j : Fin 128, 32 ≤ (c.previewQ15.get i).toInt - (c.previewQ15.get j).toInt := by
    rw [← Int32.not_lt, ChannelSpectrum.span_lt_iff]
    simp only [not_forall, not_lt]
  have hnyquist : c.dominantMillihz ≤ adcSampleRateHz / 2 * 1000 ↔
      c.dominantMillihz.toNat ≤ 50000000 := UInt32.le_iff_toNat_le
  constructor
  · intro h
    exact ⟨h.rms, h.clipped, h.peak, hspan.mp h.span, hnyquist.mp h.dominant⟩
  · intro h
    exact ⟨hnyquist.mpr h.2.2.2.2, h.1, h.2.1, h.2.2.1, hspan.mpr h.2.2.2.1⟩

/-- **The quality flags of a completed result** depend on its own fields. -/
theorem graded_completeResult {result : SpectrumResult} {sticky : UInt32} (hfresh : Fresh result)
    (hsticky : ¬ Flags.Any qualityStatus sticky) : Graded (completeResult result sticky) := by
  have hrate : result.sampleRateHz ≠ 0 := by
    rw [hfresh.sampleRate]
    decide
  -- a quality flag comes from the health check, and there from its own check
  have hown : ∀ flag, (∀ word, Flags.Any flag word → Flags.Any qualityStatus word) →
      (Flags.Any flag (completeResult result sticky).status ↔
        dspDeadlineUs < result.processingUs ∧ Flags.Any flag statusDspDeadline ∨
        (∃ channel : Fin 2, Raises flag adcSampleRateHz (result.channel.get channel)) ∨
        (∀ channel : Fin 2, (result.channel.get channel).Passes adcSampleRateHz) ∧
          Flags.Any flag statusSignalValid) := by
    intro flag hflag
    rw [any_completeResult (hfresh.not_any (mt (hflag _) (by decide))) (mt (hflag _) hsticky),
      any_spectrumHealthCheck hrate, hfresh.sampleRate, exists_mem_channel, forall_mem_channel]
  have hquality : ∀ word, Flags.Any qualityStatus word ↔
      (((Flags.Any statusSignalValid word ∨ Flags.Any statusDspDeadline word) ∨
        Flags.Any statusSignalWeak word) ∨ Flags.Any statusAdcClipping word) ∨
        Flags.Any statusSignalFrozen word := by
    intro word
    simp only [qualityStatus, Flags.any_mask_or]
  constructor
  · refine (hown _ (by simp +contextual [hquality])).trans ?_
    simp +decide only [raises_iff, and_false, and_true, or_false, exists_false]
    rfl
  · refine (hown _ (by simp +contextual [hquality])).trans ?_
    simp +decide only [raises_iff, and_false, and_true, or_false, false_or]
    rfl
  · refine (hown _ (by simp +contextual [hquality])).trans ?_
    simp +decide only [raises_iff, and_false, and_true, or_false, false_or]
    rfl
  · refine (hown _ (by simp +contextual [hquality])).trans ?_
    simp +decide only [raises_frozen_iff, and_false, or_false, false_or]
    rfl
  · refine (hown _ (by simp +contextual [hquality])).trans ?_
    simp +decide only [raises_iff, passes_iff, and_false, and_true, or_false, false_or,
      exists_false]
    rfl

/-- The health check raises transient flags only. -/
theorem not_any_spectrumHealthCheck {mask deadlineUs : UInt32} {result : SpectrumResult}
    (hrate : result.sampleRateHz ≠ 0) (hmask : ¬ Flags.Any mask transientStatus) :
    ¬ Flags.Any mask (spectrumHealthCheck result deadlineUs) := by
  simp only [transientStatus, qualityStatus, Flags.any_or, not_or] at hmask
  rw [any_spectrumHealthCheck hrate]
  simp [raises_iff, hmask]

/-- A completed result has the flags of the sticky word, and no lasting flag besides. -/
theorem carried_completeResult {result : SpectrumResult} (hfresh : Fresh result)
    (sticky : UInt32) : Carried sticky (completeResult result sticky).status ∧
      Carried (completeResult result sticky).status sticky := by
  have hrate : result.sampleRateHz ≠ 0 := by
    rw [hfresh.sampleRate]
    decide
  refine ⟨((Carried.refl sticky).or_right _).or_left _, ?_⟩
  intro mask hmask hany
  have hnumeric : ¬ Flags.Any mask statusNumericFault := by
    rw [transientStatus, Flags.any_or, not_or] at hmask
    exact hmask.2
  rw [completeResult, Flags.any_or, Flags.any_or] at hany
  rcases hany with (hstatus | hsticky) | hhealth
  · exact absurd hstatus (hfresh.not_any hnumeric)
  · exact hsticky
  · exact absurd hhealth (not_any_spectrumHealthCheck hrate hmask)

/-! ## All results of a run -/

/-- A result that is offered to the result queue. -/
def Event.result? : Event → Option SpectrumResult
  | .published result => some result
  | _ => none

/-- The published results, in order. -/
def publishedResults (log : List Event) : List SpectrumResult := log.filterMap Event.result?

theorem publishedResults_snoc (log : List Event) (e : Event) :
    publishedResults (log ++ [e]) = publishedResults log ++ e.result?.toList := by
  cases e <;> simp [publishedResults, Event.result?]

namespace Firmware

/-- What a step does with the result that `dsp_task` is at work on. -/
inductive ResultStep (s : Firmware) : Firmware → Prop where
  | analyze {s' : Firmware} {result : SpectrumResult} (hpc : s'.dsp = .analyzed result)
      (hfresh : Fresh result) (hlog : s'.log = s.log) : ResultStep s s'
  | complete {s' : Firmware} {result : SpectrumResult} (hpc : s.dsp = .analyzed result)
      (hpc' : s'.dsp = .publishing (completeResult result s.stickyStatus))
      (hlog : s'.log = s.log) : ResultStep s s'
  | publish {s' : Firmware} {result : SpectrumResult} (hpc : s.dsp = .publishing result)
      (hpc' : s'.dsp = .kicking) (hlog : s'.log = s.log ++ [.published result]) : ResultStep s s'
  | pass {s' : Firmware} (hpc : s'.dsp = s.dsp ∨
      (∀ result, s'.dsp ≠ .analyzed result) ∧ ∀ result, s'.dsp ≠ .publishing result)
      (hlog : publishedResults s'.log = publishedResults s.log) : ResultStep s s'

theorem resultStep_dsp (env : Environment) (elapsedCycles : UInt32) (s : Firmware) :
    ResultStep s (s.dspStep env elapsedCycles) := by
  have hpass : ∀ {pc : DspPc} {queue : List AdcDmaBlock}, (∀ result, pc ≠ .analyzed result) →
      (∀ result, pc ≠ .publishing result) →
      ResultStep s { s with dsp := pc, blockQueue := queue } :=
    fun hanalyzed hpublishing => .pass (.inr ⟨hanalyzed, hpublishing⟩) rfl
  rw [dspStep]
  cases hpc : s.dsp with
  | receiving =>
      cases hqueue : s.blockQueue with
      | nil => exact .pass (.inl rfl) rfl
      | cons block rest =>
          refine .pass (.inr (by simp)) ?_
          simp [publishedResults_snoc, Event.result?]
  | received block =>
      dsimp only
      split
      · exact hpass (by simp) (by simp)
      · exact hpass (by simp) (by simp)
  | firstPass block since reads =>
      dsimp only
      split
      · exact hpass (by simp) (by simp)
      · exact hpass (by simp) (by simp)
  | secondPass block since first reads =>
      dsimp only
      split
      · exact hpass (by simp) (by simp)
      · exact hpass (by simp) (by simp)
  | unpacked block since first second =>
      dsimp only
      split
      · exact hpass (by simp) (by simp)
      · refine .pass (.inr (by simp)) ?_
        simp [publishedResults_snoc, Event.result?]
  | accepted block first second =>
      obtain ⟨hrate, hstatus⟩ :=
        fresh_analyzeBlock env.spectrumAnalyzeQ15 block (wordsRead first) (wordsRead second)
      exact .analyze rfl ⟨hrate, hstatus⟩ rfl
  | analyzed result => exact .complete hpc rfl rfl
  | publishing result => exact .publish hpc rfl rfl
  | stale block => exact .pass (.inr (by simp)) rfl
  | kicking =>
      refine .pass (.inr (by simp)) ?_
      simp [healthKick, publishedResults_snoc, Event.result?]

theorem resultStep_bystander (h : Bystander s s') : ResultStep s s' := by
  obtain ⟨events, hlog, haside⟩ := h.log
  refine .pass (.inl h.dsp) ?_
  have hnone : events.filterMap Event.result? = [] := by
    rw [List.filterMap_eq_nil_iff]
    intro e he
    cases e <;> first | rfl | exact (haside _ he).elim
  rw [hlog, publishedResults, List.filterMap_append, hnone, List.append_nil]
  rfl

theorem result_step {a : Action} (h : step env s a = some s') : ResultStep s s' := by
  cases actionStep_of_step h with
  | dmaStore => exact .pass (.inl rfl) rfl
  | adcCallback => exact .pass (.inl rfl) rfl
  | adcError =>
      refine .pass (.inl rfl) ?_
      simp [publishedResults_snoc, Event.result?]
  | acquisition hstep =>
      cases hstep with
      | take => exact .pass (.inl rfl) (by simp [publishedResults_snoc, Event.result?])
      | snapshot => exact .pass (.inl rfl) (by simp [publishedResults_snoc, Event.result?])
      | kick =>
          exact .pass (.inl rfl) (by simp [healthKick, publishedResults_snoc, Event.result?])
      | _ => exact .pass (.inl rfl) rfl
  | @dsp elapsedCycles _ _ heq =>
      rw [← heq]
      exact resultStep_dsp env elapsedCycles s
  | telemetry hstep => exact resultStep_bystander (bystander_telemetry hstep)
  | watchdog hstep => exact resultStep_bystander (bystander_watchdog hstep)

/-- What is known of the results of a run. -/
structure Lasting (s : Firmware) : Prop where
  sticky : ¬ Flags.Any qualityStatus s.stickyStatus
  analyzed : ∀ result, s.dsp = .analyzed result → Fresh result
  publishing : ∀ result, s.dsp = .publishing result →
    Graded result ∧ Carried result.status s.stickyStatus ∧
      ∀ earlier ∈ publishedResults s.log, Carried earlier.status result.status
  published : ∀ result ∈ publishedResults s.log,
    Graded result ∧ Carried result.status s.stickyStatus
  ordered : (publishedResults s.log).Pairwise fun earlier later =>
    Carried earlier.status later.status

theorem lasting_init : Lasting (init env) where
  sticky := by
    simp only [init, Environment.bootStatus]
    cases env.watchdogReset <;> cases env.testSignal <;> decide
  analyzed := nofun
  publishing := nofun
  published := nofun
  ordered := .nil

theorem lasting_step {a : Action} (h : Lasting s) (hstep : step env s a = some s') :
    Lasting s' := by
  obtain ⟨bits, hsticky, hbits⟩ := sticky_step hstep
  have hquality : ¬ Flags.Any qualityStatus s'.stickyStatus := by
    rw [hsticky, Flags.any_or]
    exact not_or.mpr ⟨h.sticky, hbits⟩
  have hgrow : ∀ {status}, Carried status s.stickyStatus → Carried status s'.stickyStatus := by
    intro status hcarried
    rw [hsticky]
    exact hcarried.or_left bits
  cases result_step hstep with
  | @analyze result hpc hfresh hlog =>
      refine ⟨hquality, ?_, ?_, ?_, ?_⟩
      · intro r hr
        cases hpc.symm.trans hr
        exact hfresh
      · intro r hr
        cases hpc.symm.trans hr
      · rw [hlog]
        exact fun r hr => ⟨(h.published r hr).1, hgrow (h.published r hr).2⟩
      · rw [hlog]
        exact h.ordered
  | @complete result hpc hpc' hlog =>
      obtain ⟨hfrom, hto⟩ := carried_completeResult (h.analyzed result hpc) s.stickyStatus
      refine ⟨hquality, ?_, ?_, ?_, ?_⟩
      · intro r hr
        cases hpc'.symm.trans hr
      · intro r hr
        cases hpc'.symm.trans hr
        rw [hlog]
        exact ⟨graded_completeResult (h.analyzed result hpc) h.sticky, hgrow hto,
          fun earlier he => (h.published earlier he).2.trans hfrom⟩
      · rw [hlog]
        exact fun r hr => ⟨(h.published r hr).1, hgrow (h.published r hr).2⟩
      · rw [hlog]
        exact h.ordered
  | @publish result hpc hpc' hlog =>
      obtain ⟨hgraded, hcarried, hearlier⟩ := h.publishing result hpc
      have hpublished : publishedResults s'.log = publishedResults s.log ++ [result] := by
        rw [hlog, publishedResults_snoc]
        rfl
      refine ⟨hquality, ?_, ?_, ?_, ?_⟩
      · intro r hr
        cases hpc'.symm.trans hr
      · intro r hr
        cases hpc'.symm.trans hr
      · intro r hr
        rw [hpublished, List.mem_append, List.mem_singleton] at hr
        rcases hr with hr | rfl
        · exact ⟨(h.published r hr).1, hgrow (h.published r hr).2⟩
        · exact ⟨hgraded, hgrow hcarried⟩
      · rw [hpublished, List.pairwise_append]
        refine ⟨h.ordered, List.pairwise_singleton _ _, ?_⟩
        intro earlier he later hl
        rw [List.mem_singleton.mp hl]
        exact hearlier earlier he
  | pass hpc hlog =>
      have hpublished : ∀ r ∈ publishedResults s'.log,
          Graded r ∧ Carried r.status s'.stickyStatus := by
        rw [hlog]
        exact fun r hr => ⟨(h.published r hr).1, hgrow (h.published r hr).2⟩
      have hordered : (publishedResults s'.log).Pairwise fun earlier later =>
          Carried earlier.status later.status := by
        rw [hlog]
        exact h.ordered
      refine ⟨hquality, ?_, ?_, hpublished, hordered⟩
      · intro r hr
        rcases hpc with hpc | ⟨hanalyzed, -⟩
        · exact h.analyzed r (hpc.symm.trans hr)
        · exact absurd hr (hanalyzed r)
      · intro r hr
        rcases hpc with hpc | ⟨-, hpublishing⟩
        · obtain ⟨hgraded, hcarried, hearlier⟩ := h.publishing r (hpc.symm.trans hr)
          rw [hlog]
          exact ⟨hgraded, hgrow hcarried, hearlier⟩
        · exact absurd hr (hpublishing r)

theorem Reachable.lasting (hs : Reachable env s) : Lasting s := by
  obtain ⟨actions, hrun⟩ := hs
  exact Transition.run_invariant (step env) (fun _ _ _ => lasting_step) lasting_init hrun

/-- **The lifetime of the status flags.**  Along the published results of a run no lasting
flag is ever cleared, and the quality flags of each are those of its own fields. -/
theorem status_lifetime (hs : Reachable env s) :
    ((publishedResults s.log).Pairwise fun earlier later =>
      ∀ mask, ¬ Flags.Any mask transientStatus →
        Flags.Any mask earlier.status → Flags.Any mask later.status) ∧
      ∀ result ∈ publishedResults s.log, Graded result :=
  ⟨hs.lasting.ordered, fun result hresult => (hs.lasting.published result hresult).1⟩

/-- The first two results. -/
theorem status_lifetime_silence : ∃ s earlier later, Reachable silence s ∧
    publishedResults s.log = [earlier, later] ∧
    (∀ mask, ¬ Flags.Any mask transientStatus →
      Flags.Any mask earlier.status → Flags.Any mask later.status) ∧
    Graded earlier ∧ Graded later := by
  obtain ⟨_, t, earlier, hrun, hpc, -, ht⟩ := run_publication silence (ready_init silence) rfl
  obtain ⟨_, u, later, hrun', hpc', -, hu⟩ := run_publication silence (s := { t with
      dsp := .receiving, resultQueue := some earlier, healthMask := t.healthMask ||| healthDsp
      log := t.log ++ [.published earlier] ++ [.kicked healthDsp] })
    ⟨ht.ready.position, ht.ready.acquisition, ht.ready.notifications, ht.ready.overruns,
      ht.ready.queue⟩ rfl
  have hreach : Reachable silence { u with
      dsp := .receiving, resultQueue := some later, healthMask := u.healthMask ||| healthDsp
      log := u.log ++ [.published later] ++ [.kicked healthDsp] } :=
    (((Reachable.run ⟨[], rfl⟩ hrun).run (run_finish silence hpc)).run hrun').run
      (run_finish silence hpc')
  have hpublished : publishedResults (u.log ++ [.published later] ++ [.kicked healthDsp]) =
      [earlier, later] := by
    obtain ⟨_, _, _, _, -, hlog⟩ := ht.log
    obtain ⟨_, _, _, _, -, hlog'⟩ := hu.log
    rw [hlog', hlog]
    rfl
  obtain ⟨hordered, hgraded⟩ := status_lifetime hreach
  rw [hpublished] at hordered hgraded
  exact ⟨_, earlier, later, hreach, hpublished, List.rel_of_pairwise_cons hordered (by simp),
    hgraded earlier (by simp), hgraded later (by simp)⟩

end Firmware

end SpectrumAnalyzer
