import SpectrumAnalyzer.Firmware.Lifetime
import SpectrumAnalyzer.Firmware.BlockLoss

/-!
# Where a published result comes from

A result is published long after DMA stored the words it was computed from, and the buffer
has been overwritten since.  Nevertheless every published result is the analysis of one
whole fill, the one that its generation numbers.  A result without loss flags says more:
the results published so far, up to itself, are those of consecutive fills.

## Main definitions

* `AnalysisOf` — a result holds the analysis of given words.
* `DspPc.Sourced` — what `dsp_task` holds comes from one fill.
* `Unbroken` — the last of these results, if it has no loss flag, closes a chain of fills.
* `Traced` — the invariant.
* `published_provenance` — the published results of every run.
-/

namespace SpectrumAnalyzer

/-- The words of fill `n`. -/
def Environment.fillWords (env : Environment) (n : ℕ) : Vector UInt32 1024 :=
  wordsRead (env.fill n)

/-- A result holds the analysis of `words`. -/
structure AnalysisOf (spectrumAnalyzeQ15 : Vector Int16 1024 → UInt32 → Bool × ChannelSpectrum)
    (words : Vector UInt32 1024) (result : SpectrumResult) : Prop where
  sampleRate : result.sampleRateHz = adcSampleRateHz
  channel : ∀ channel : Fin 2, result.channel.get channel =
    (analyzeChannel spectrumAnalyzeQ15 (unpackDualAdc words words channel)).2

theorem analysisOf_analyzeBlock
    (spectrumAnalyzeQ15 : Vector Int16 1024 → UInt32 → Bool × ChannelSpectrum)
    (block : AdcDmaBlock) (words : Vector UInt32 1024) :
    AnalysisOf spectrumAnalyzeQ15 words (analyzeBlock spectrumAnalyzeQ15 block words words) where
  sampleRate := rfl
  channel := by
    intro channel
    simp [analyzeBlock, get_eq_getElem]

section Sources
variable (spectrumAnalyzeQ15 : Vector Int16 1024 → UInt32 → Bool × ChannelSpectrum)
  (words : ℕ → Vector UInt32 1024)

/-- The result is the analysis of the fill that its generation numbers, one of the first
`completed`. -/
structure SourcedResult (completed : ℕ) (result : SpectrumResult) : Prop where
  pos : 1 ≤ result.generation.toNat
  le : result.generation.toNat ≤ completed
  analysis : AnalysisOf spectrumAnalyzeQ15 (words result.generation.toNat) result

/-- What `dsp_task` holds comes from one fill. -/
def DspPc.Sourced (completed : ℕ) : DspPc → Prop
  | .accepted block first second =>
      (1 ≤ block.generation.toNat ∧ block.generation.toNat ≤ completed) ∧
        wordsRead first = words block.generation.toNat ∧
        wordsRead second = words block.generation.toNat
  | .analyzed result => SourcedResult spectrumAnalyzeQ15 words completed result
  | .publishing result => SourcedResult spectrumAnalyzeQ15 words completed result
  | _ => True

end Sources

/-- If the last of these results has no loss flag, they are those of consecutive fills. -/
def Unbroken (results : List SpectrumResult) : Prop :=
  ∀ result ∈ results.getLast?, ¬ Flags.Any lossStatus result.status →
    ∃ first, results.map (fun result => result.generation.toNat) =
      List.range' first results.length

section Mono
variable {spectrumAnalyzeQ15 : Vector Int16 1024 → UInt32 → Bool × ChannelSpectrum}
  {words : ℕ → Vector UInt32 1024} {m n : ℕ}

theorem SourcedResult.mono {result : SpectrumResult}
    (h : SourcedResult spectrumAnalyzeQ15 words m result) (hle : m ≤ n) :
    SourcedResult spectrumAnalyzeQ15 words n result :=
  ⟨h.pos, h.le.trans hle, h.analysis⟩

theorem DspPc.Sourced.mono {pc : DspPc} (h : pc.Sourced spectrumAnalyzeQ15 words m)
    (hle : m ≤ n) : pc.Sourced spectrumAnalyzeQ15 words n := by
  cases pc with
  | accepted block first second => exact ⟨⟨h.1.1, h.1.2.trans hle⟩, h.2⟩
  | analyzed result => exact SourcedResult.mono h hle
  | publishing result => exact SourcedResult.mono h hle
  | _ => exact trivial

end Mono

theorem publishedGenerations_eq (log : List Event) :
    publishedGenerations log = (publishedResults log).map SpectrumResult.generation := by
  rw [publishedGenerations, publishedResults, List.map_filterMap]
  congr 1
  funext e
  cases e <;> rfl

namespace Firmware
variable {env : Environment} {s s' : Firmware}

/-! ## The invariant -/

/-- What is held and what was published comes from single fills, and the published results
form chains where they say so. -/
structure Traced (env : Environment) (words : ℕ → Vector UInt32 1024) (s : Firmware) : Prop where
  dsp : s.dsp.Sourced env.spectrumAnalyzeQ15 words s.adc.completed
  published : ∀ result ∈ publishedResults s.log,
    SourcedResult env.spectrumAnalyzeQ15 words s.adc.completed result
  publishing : ∀ result, s.dsp = .publishing result →
    Unbroken (publishedResults s.log ++ [result])
  unbroken : ∀ past, past <+: publishedResults s.log → Unbroken past

theorem traced_init (words : ℕ → Vector UInt32 1024) : Traced env words (init env) where
  dsp := trivial
  published := nofun
  publishing := nofun
  unbroken := by
    intro past hpast result hresult
    rw [List.prefix_nil.mp hpast] at hresult
    cases hresult

/-- While no loss flag is up, the results published and the one that is analyzed are those
of consecutive fills. -/
theorem consecutive_of_clean (htracked : Tracked s) {result : SpectrumResult}
    (hpc : s.dsp.generation? = some result.generation)
    (hclean : ¬ Flags.Any lossStatus s.stickyStatus) :
    Consecutive UInt32.toNat (publishedGenerations s.log ++ [result.generation]) := by
  obtain ⟨checked, hmonitored⟩ := htracked.monitored
  have hflow := htracked.sound hclean
  simp only [ledger, hpc, Option.toList_some] at hflow
  rw [← List.append_assoc, hmonitored.acquired] at hflow
  have hstart : publishedGenerations s.log ++ [result.generation] <+:
      checked ++ s.acquisition.fresh?.toList := ⟨_, hflow⟩
  -- a block that the monitor has not seen is behind the result
  have hlength : s.acquisition.fresh?.toList.length ≤
      s.acquisition.generation?.toList.length := by
    cases s.acquisition <;> simp [AcquisitionPc.fresh?, AcquisitionPc.generation?,
      AcquisitionPc.block?]
  have hle : (publishedGenerations s.log ++ [result.generation]).length ≤ checked.length := by
    have htotal := congrArg List.length hflow
    simp only [List.length_append] at htotal ⊢
    omega
  obtain ⟨rest, hrest⟩ := List.prefix_of_prefix_length_le hstart (List.prefix_append _ _) hle
  have hchain := hmonitored.consecutive hclean
  rw [← hrest, Consecutive, List.isChain_append] at hchain
  exact hchain.1

/-- When the status of a result is completed without a loss flag, the chain is closed. -/
theorem unbroken_complete (htracked : Tracked s) {result result' : SpectrumResult}
    (hpc : s.dsp = .analyzed result) (hgeneration : result'.generation = result.generation)
    (hstatus : ∃ own, result'.status = result.status ||| s.stickyStatus ||| own) :
    Unbroken (publishedResults s.log ++ [result']) := by
  intro last hlast hclean
  rw [List.getLast?_concat] at hlast
  cases hlast
  obtain ⟨own, hown⟩ := hstatus
  have hsticky : ¬ Flags.Any lossStatus s.stickyStatus := by
    intro hany
    rw [hown] at hclean
    exact hclean ((hany.or_right _).or_left _)
  have hcurrent : s.dsp.generation? = some result.generation := by
    rw [hpc]
    rfl
  have hchain := consecutive_of_clean htracked hcurrent hsticky
  have hgenerations : (publishedResults s.log ++ [result']).map SpectrumResult.generation =
      publishedGenerations s.log ++ [result.generation] := by
    rw [publishedGenerations_eq, List.map_append, List.map_singleton, hgeneration]
  have hlength := congrArg List.length hgenerations
  rw [List.length_map] at hlength
  have hnumbers : (publishedResults s.log ++ [result']).map
      (fun result => result.generation.toNat) =
      (publishedGenerations s.log ++ [result.generation]).map UInt32.toNat := by
    rw [← hgenerations, List.map_map]
    rfl
  rw [hnumbers, hlength]
  cases hall : publishedGenerations s.log ++ [result.generation] with
  | nil => simp at hall
  | cons g gs =>
      rw [hall] at hchain
      exact ⟨g.toNat, hchain.map_eq_range'⟩

/-! ## The steps -/

/-- A step that publishes nothing, completes no status and has sourced what it holds. -/
theorem Traced.stay {words : ℕ → Vector UInt32 1024} (h : Traced env words s)
    (hle : s.adc.completed ≤ s'.adc.completed)
    (hlog : publishedResults s'.log = publishedResults s.log)
    (hdsp : s'.dsp.Sourced env.spectrumAnalyzeQ15 words s'.adc.completed)
    (hpublishing : ∀ result, s'.dsp = .publishing result → s.dsp = .publishing result) :
    Traced env words s' where
  dsp := hdsp
  published := by
    rw [hlog]
    exact fun result hresult => (h.published result hresult).mono hle
  publishing := by
    intro result hpc
    rw [hlog]
    exact h.publishing result (hpublishing result hpc)
  unbroken := by
    rw [hlog]
    exact h.unbroken

/-- A step that leaves `dsp_task` alone. -/
theorem Traced.pass {words : ℕ → Vector UInt32 1024} (h : Traced env words s)
    (hle : s.adc.completed ≤ s'.adc.completed)
    (hlog : publishedResults s'.log = publishedResults s.log) (hdsp : s'.dsp = s.dsp) :
    Traced env words s' :=
  h.stay hle hlog (hdsp ▸ h.dsp.mono hle) fun _ hpc => hdsp ▸ hpc

/-- A step to a place where `dsp_task` holds nothing that was computed. -/
theorem Traced.restart {words : ℕ → Vector UInt32 1024} (h : Traced env words s)
    (hle : s.adc.completed ≤ s'.adc.completed)
    (hlog : publishedResults s'.log = publishedResults s.log)
    (hdsp : ∀ m, s'.dsp.Sourced env.spectrumAnalyzeQ15 words m)
    (hpublishing : ∀ result, s'.dsp ≠ .publishing result) : Traced env words s' :=
  h.stay hle hlog (hdsp _) fun result hpc => absurd hpc (hpublishing result)

/-- The status of a result is completed. -/
theorem traced_complete {words : ℕ → Vector UInt32 1024} (h : Traced env words s)
    (htracked : Tracked s) {result : SpectrumResult} (hpc : s.dsp = .analyzed result)
    (status : UInt32) (hstatus : ∃ own, status = result.status ||| s.stickyStatus ||| own) :
    Traced env words { s with dsp := .publishing { result with status := status } } where
  dsp := by
    have hsource : SourcedResult env.spectrumAnalyzeQ15 words s.adc.completed result := by
      have hsourced := h.dsp
      rw [hpc] at hsourced
      exact hsourced
    exact ⟨hsource.pos, hsource.le, ⟨hsource.analysis.sampleRate, hsource.analysis.channel⟩⟩
  published := h.published
  publishing := by
    intro result' hpc'
    cases hpc'
    exact unbroken_complete htracked hpc rfl hstatus
  unbroken := h.unbroken

/-- A result is published. -/
theorem traced_publish {words : ℕ → Vector UInt32 1024} (h : Traced env words s)
    {result : SpectrumResult} (hpc : s.dsp = .publishing result) :
    Traced env words { s with
      dsp := .kicking, resultQueue := some result, log := s.log ++ [.published result] } := by
  have hlog : publishedResults (s.log ++ [.published result]) =
      publishedResults s.log ++ [result] := publishedResults_snoc _ _
  have hsource := h.dsp
  rw [hpc] at hsource
  refine ⟨trivial, ?_, nofun, ?_⟩
  · intro r hr
    rw [hlog, List.mem_append, List.mem_singleton] at hr
    rcases hr with hr | rfl
    · exact h.published r hr
    · exact hsource
  · intro past hpast
    rw [hlog, List.prefix_concat_iff] at hpast
    rcases hpast with rfl | hpast
    · exact h.publishing result hpc
    · exact h.unbroken past hpast

/-- The second check passes for a block both of whose passes have read its fill. -/
def SourcedPasses (words : ℕ → Vector UInt32 1024) (s : Firmware) : Prop :=
  ∀ block since first second, s.dsp = .unpacked block since first second →
    s.adc.completedGeneration = block.generation →
      (1 ≤ block.generation.toNat ∧ block.generation.toNat ≤ s.adc.completed) ∧
        wordsRead first = words block.generation.toNat ∧
        wordsRead second = words block.generation.toNat

/-- While the generation counter has not gone round, both passes have read the fill that is
current when the second check passes. -/
theorem sourcedPasses_of_reading
    (hgeneration : s.adc.completedGeneration = UInt32.ofNat s.adc.completed)
    (hreading : Reading env s.adc s.dsp) (hfew : s.adc.completed < 2 ^ 32) :
    SourcedPasses env.fillWords s := by
  intro block since first second hpc hgen
  rw [hpc] at hreading
  obtain ⟨hbegan, hwords⟩ := hreading
  have hnow := congrArg UInt32.toNat (hgen.symm.trans hgeneration)
  have hthen := congrArg UInt32.toNat hbegan.generation
  rw [UInt32.toNat_ofNat'] at hnow hthen
  have hle := hbegan.le
  have hpos := hbegan.pos
  have hsince : s.adc.completed = since := by omega
  have hnumber : block.generation.toNat = since := by omega
  obtain ⟨hfirst, hsecond⟩ := hwords hsince
  rw [hnumber, hfirst, hsecond]
  exact ⟨⟨hpos, hle⟩, rfl, rfl⟩

theorem traced_dsp {words : ℕ → Vector UInt32 1024} (h : Traced env words s)
    (hpasses : SourcedPasses words s) (htracked : Tracked s) (elapsedCycles : UInt32) :
    Traced env words (s.dspStep env elapsedCycles) := by
  have hrestart : ∀ {pc : DspPc} {queue : List AdcDmaBlock},
      (∀ m, pc.Sourced env.spectrumAnalyzeQ15 words m) → (∀ result, pc ≠ .publishing result) →
      Traced env words { s with dsp := pc, blockQueue := queue } :=
    fun hdsp hpublishing => h.restart le_rfl rfl hdsp hpublishing
  rw [dspStep]
  cases hpc : s.dsp with
  | receiving =>
      cases hqueue : s.blockQueue with
      | nil => exact h
      | cons block rest =>
          refine h.restart le_rfl ?_ (fun _ => trivial) (by simp)
          simp [publishedResults_snoc, Event.result?]
  | received block =>
      dsimp only
      split
      · exact hrestart (fun _ => trivial) (by simp)
      · exact hrestart (fun _ => trivial) (by simp)
  | firstPass block since reads =>
      dsimp only
      split
      · exact hrestart (fun _ => trivial) (by simp)
      · exact hrestart (fun _ => trivial) (by simp)
  | secondPass block since first reads =>
      dsimp only
      split
      · exact hrestart (fun _ => trivial) (by simp)
      · exact hrestart (fun _ => trivial) (by simp)
  | unpacked block since first second =>
      dsimp only
      split
      · exact hrestart (fun _ => trivial) (by simp)
      · next hgen =>
          refine h.stay le_rfl ?_ (hpasses block since first second hpc (not_not.mp hgen)) (by simp)
          simp [publishedResults_snoc, Event.result?]
  | accepted block first second =>
      have hsourced := h.dsp
      rw [hpc] at hsourced
      obtain ⟨⟨hpos, hle⟩, hfirst, hsecond⟩ := hsourced
      refine h.stay le_rfl rfl ?_ (by simp)
      have hanalysis := analysisOf_analyzeBlock env.spectrumAnalyzeQ15 block
        (words block.generation.toNat)
      dsimp only
      rw [hfirst, hsecond]
      exact ⟨hpos, hle, ⟨hanalysis.sampleRate, hanalysis.channel⟩⟩
  | analyzed result => exact traced_complete h htracked hpc _ ⟨_, rfl⟩
  | publishing result => exact traced_publish h hpc
  | stale block => exact h.restart le_rfl rfl (fun _ => trivial) (by simp)
  | kicking =>
      refine h.restart le_rfl ?_ (fun _ => trivial) (by simp)
      simp [healthKick, publishedResults_snoc, Event.result?]

/-- An event that publishes nothing. -/
theorem publishedResults_append_aside (log : List Event) {events : List Event}
    (h : ∀ e ∈ events, e.result? = none) :
    publishedResults (log ++ events) = publishedResults log := by
  have hnone : events.filterMap Event.result? = [] := by
    rw [List.filterMap_eq_nil_iff]
    exact h
  rw [publishedResults, List.filterMap_append, hnone, List.append_nil]
  rfl

theorem publishedResults_bystander (h : Bystander s s') :
    publishedResults s'.log = publishedResults s.log := by
  obtain ⟨events, hlog, haside⟩ := h.log
  rw [hlog]
  refine publishedResults_append_aside s.log ?_
  intro e he
  cases e <;> first | rfl | exact (haside _ he).elim

theorem publishedResults_acquisition {now : UInt32} (h : AcquisitionStep now s s') :
    publishedResults s'.log = publishedResults s.log := by
  cases h with
  | take => simp [publishedResults_snoc, Event.result?]
  | snapshot => simp [publishedResults_snoc, Event.result?]
  | kick => simp [healthKick, publishedResults_snoc, Event.result?]
  | _ => rfl

/-- Only `dsp_task` moves on and publishes. -/
theorem dsp_of_other_step {a : Action} (ha : ∀ elapsedCycles, a ≠ .dsp elapsedCycles)
    (hstep : step env s a = some s') :
    s'.dsp = s.dsp ∧ publishedResults s'.log = publishedResults s.log := by
  cases actionStep_of_step hstep with
  | dmaStore => exact ⟨rfl, rfl⟩
  | adcCallback => exact ⟨rfl, rfl⟩
  | adcError => exact ⟨rfl, by simp [publishedResults_snoc, Event.result?]⟩
  | acquisition hstep => exact ⟨(acquisition_dsp hstep).1, publishedResults_acquisition hstep⟩
  | dsp => exact absurd rfl (ha _)
  | telemetry hstep =>
      exact ⟨(bystander_telemetry hstep).dsp,
        publishedResults_bystander (bystander_telemetry hstep)⟩
  | watchdog hstep =>
      exact ⟨(bystander_watchdog hstep).dsp, publishedResults_bystander (bystander_watchdog hstep)⟩

theorem traced_step {words : ℕ → Vector UInt32 1024} {a : Action} (h : Traced env words s)
    (hpasses : SourcedPasses words s) (htracked : Tracked s) (hstep : step env s a = some s') :
    Traced env words s' := by
  by_cases ha : ∀ elapsedCycles, a ≠ .dsp elapsedCycles
  · obtain ⟨hdsp, hlog⟩ := dsp_of_other_step ha hstep
    exact h.pass (completed_le (step_cases hstep)) hlog hdsp
  · simp only [not_forall, not_not] at ha
    obtain ⟨elapsedCycles, rfl⟩ := ha
    cases hstep
    exact traced_dsp h hpasses htracked elapsedCycles

/-! ## All published results -/

theorem Reachable.traced (hs : Reachable env s) (hfew : s.adc.completed < 2 ^ 32) :
    Traced env env.fillWords s := by
  obtain ⟨actions, hrun⟩ := hs
  refine (Transition.run_invariant (step env) (I := fun s => Reachable env s ∧
    (s.adc.completed < 2 ^ 32 → Traced env env.fillWords s)) ?_
    ⟨⟨[], rfl⟩, fun _ => traced_init _⟩ hrun).2 hfew
  intro s a s' h hstep
  refine ⟨h.1.snoc hstep, ?_⟩
  intro hfew
  have hless := (completed_le (step_cases hstep)).trans_lt hfew
  have hpasses := sourcedPasses_of_reading h.1.owned.filled.generation h.1.owned.reading
    hless
  exact traced_step (h.2 hless) hpasses (h.1.tracked hless) hstep

/-- **Where a published result comes from.**  In every run each published result is the
analysis of the fill that its generation numbers, whatever DMA has stored since; and when a
result has no loss flag, the results up to it are those of consecutive fills, none missing
and none repeated. -/
theorem published_provenance (hs : Reachable env s) (hfew : s.adc.completed < 2 ^ 32) :
    (∀ result ∈ publishedResults s.log, 1 ≤ result.generation.toNat ∧
      result.generation.toNat ≤ s.adc.completed ∧
      AnalysisOf env.spectrumAnalyzeQ15 (env.fillWords result.generation.toNat) result) ∧
    ∀ before result after, publishedResults s.log = before ++ result :: after →
      ¬ Flags.Any lossStatus result.status →
      ∃ first, (before ++ [result]).map (fun result => result.generation.toNat) =
        List.range' first (before.length + 1) := by
  have htraced := hs.traced hfew
  constructor
  · intro result hresult
    obtain ⟨hpos, hle, hanalysis⟩ := htraced.published result hresult
    exact ⟨hpos, hle, hanalysis⟩
  · intro before result after hsplit hclean
    have hstart : before ++ [result] <+: publishedResults s.log := by
      rw [hsplit]
      exact ⟨after, by simp⟩
    obtain ⟨first, hfirst⟩ :=
      htraced.unbroken _ hstart result (by simp) hclean
    refine ⟨first, ?_⟩
    rw [hfirst, List.length_append, List.length_singleton]

/-- The first result. -/
theorem published_provenance_silence : ∃ s result, Reachable silence s ∧
    s.adc.completed < 2 ^ 32 ∧ publishedResults s.log = [result] ∧
    AnalysisOf silence.spectrumAnalyzeQ15 (silence.fillWords result.generation.toNat) result := by
  obtain ⟨_, t, result, hrun, hpc, -, ht⟩ := run_publication silence (ready_init silence) rfl
  obtain ⟨block, since, first, second, -, hlog⟩ := ht.log
  have hreach : Reachable silence { t with
      dsp := .receiving, resultQueue := some result, healthMask := t.healthMask ||| healthDsp
      log := t.log ++ [.published result] ++ [.kicked healthDsp] } :=
    (Reachable.run ⟨[], rfl⟩ hrun).run (run_finish silence hpc)
  have hpublished : publishedResults (t.log ++ [.published result] ++ [.kicked healthDsp]) =
      [result] := by
    rw [hlog]
    rfl
  have hfew : t.adc.completed < 2 ^ 32 := by
    rw [ht.completed]
    decide
  exact ⟨_, result, hreach, hfew, hpublished, ((published_provenance hreach hfew).1 result
    (hpublished ▸ List.mem_singleton_self result)).2.2⟩

end Firmware

end SpectrumAnalyzer
