import SpectrumAnalyzer.Firmware.Ownership
import SpectrumAnalyzer.Lib.Ledger

/-!
# No block is lost silently

Blocks pass from the acquisition task through the queue to the DSP task and on to the
result queue.  Seen from far enough this is a pipeline that may lose items but then raises
a flag: `ledger` is that view, and `ledger_step` says that every step of the system is a
move of the pipeline.  The health monitor sees to it that generations enter one after the
other or a flag is raised.  Flags are never cleared, and a result copies them before it is
published.

## Main definitions

* `lossStatus` — the four flags that admit a loss.
* `Firmware.ledger` — the pipeline of generations.
* `Monitored`, `Complete` — what the monitor knows, and what a result may claim.
* `no_silent_loss` — a result without loss flags has no missing predecessor.
-/

namespace SpectrumAnalyzer

/-- The flags that admit the loss of a block. -/
def lossStatus : UInt32 :=
  statusBlockGap ||| statusAdcOverrun ||| statusFrameDropped ||| statusDmaStale

/-- The generation of a block that is handed out. -/
def Event.acquired? : Event → Option UInt32
  | .acquired block => some block.generation
  | _ => none

/-- The generation of a result that is offered to the result queue. -/
def Event.published? : Event → Option UInt32
  | .published result => some result.generation
  | _ => none

/-- The generations handed out by `platform_adc_wait_block`, in order. -/
def acquiredGenerations (log : List Event) : List UInt32 := log.filterMap Event.acquired?

/-- The generations offered to the result queue, in order. -/
def publishedGenerations (log : List Event) : List UInt32 := log.filterMap Event.published?

/-- The generation that `dsp_task` is at work on. -/
def DspPc.generation? : DspPc → Option UInt32
  | .received block => some block.generation
  | .firstPass block _ _ => some block.generation
  | .secondPass block _ _ _ => some block.generation
  | .unpacked block _ _ _ => some block.generation
  | .accepted block _ _ => some block.generation
  | .stale block => some block.generation
  | .analyzed result => some result.generation
  | .publishing result => some result.generation
  | _ => none

/-- The generation that `acquisition_task` holds. -/
def AcquisitionPc.generation? (pc : AcquisitionPc) : Option UInt32 :=
  pc.block?.map AdcDmaBlock.generation

/-- The block that the health monitor has not seen yet. -/
def AcquisitionPc.fresh? : AcquisitionPc → Option UInt32
  | .acquired block => some block.generation
  | _ => none

namespace Firmware

/-- The pipeline of generations. -/
def ledger (s : Firmware) : Ledger UInt32 where
  entered := acquiredGenerations s.log
  finished := publishedGenerations s.log
  inFlight := s.dsp.generation?.toList ++
    (s.blockQueue.map AdcDmaBlock.generation ++ s.acquisition.generation?.toList)
  lossy := Flags.Any lossStatus s.stickyStatus

variable {env : Environment} {s s' : Firmware}

theorem log_append_aside (log : List Event) {events : List Event} (h : ∀ e ∈ events, e.Aside) :
    acquiredGenerations (log ++ events) = acquiredGenerations log ∧
      publishedGenerations (log ++ events) = publishedGenerations log := by
  have hacquired : events.filterMap Event.acquired? = [] := by
    rw [List.filterMap_eq_nil_iff]
    intro e he
    cases e <;> first | rfl | exact (h _ he).elim
  have hpublished : events.filterMap Event.published? = [] := by
    rw [List.filterMap_eq_nil_iff]
    intro e he
    cases e <;> first | rfl | exact (h _ he).elim
  rw [acquiredGenerations, publishedGenerations, List.filterMap_append, List.filterMap_append,
    hacquired, hpublished, List.append_nil, List.append_nil]
  exact ⟨rfl, rfl⟩

theorem acquired_append (log : List Event) (e : Event) :
    acquiredGenerations (log ++ [e]) = acquiredGenerations log ++ e.acquired?.toList := by
  cases e <;> simp [acquiredGenerations, Event.acquired?]

theorem published_append (log : List Event) (e : Event) :
    publishedGenerations (log ++ [e]) = publishedGenerations log ++ e.published?.toList := by
  cases e <;> simp [publishedGenerations, Event.published?]

/-! ## The pipeline -/

/-- A step that moves no block, and raises flags at most. -/
theorem ledger_stay {events : List Event} {bits : UInt32} (hlog : s'.log = s.log ++ events)
    (haside : ∀ e ∈ events, e.Aside) (hdsp : s'.dsp.generation? = s.dsp.generation?)
    (hqueue : s'.blockQueue = s.blockQueue)
    (hacquisition : s'.acquisition.generation? = s.acquisition.generation?)
    (hstatus : s'.stickyStatus = s.stickyStatus ||| bits) : Ledger.Move s.ledger s'.ledger := by
  obtain ⟨hentered, hfinished⟩ := log_append_aside s.log haside
  refine .stay ?_ ?_ ?_ ?_
  · rw [ledger, ledger, hlog, hentered]
  · rw [ledger, ledger, hlog, hfinished]
  · rw [ledger, ledger, hdsp, hqueue, hacquisition]
  · intro h
    rw [ledger, hstatus]
    exact h.or_left bits

/-- A step that leaves the log and the flags alone. -/
theorem ledger_same (hlog : s'.log = s.log) (hdsp : s'.dsp.generation? = s.dsp.generation?)
    (hqueue : s'.blockQueue = s.blockQueue)
    (hacquisition : s'.acquisition.generation? = s.acquisition.generation?)
    (hstatus : s'.stickyStatus = s.stickyStatus) : Ledger.Move s.ledger s'.ledger := by
  have hlog' : s'.log = s.log ++ [] := by rw [hlog, List.append_nil]
  have hstatus' : s'.stickyStatus = s.stickyStatus ||| 0 := by rw [hstatus, UInt32.or_zero]
  exact ledger_stay hlog' (by simp) hdsp hqueue hacquisition hstatus'

theorem ledger_acquisition {now : UInt32} (hstep : AcquisitionStep now s s') :
    Ledger.Move s.ledger s'.ledger := by
  have hnone : ∀ e ∈ ([] : List Event), e.Aside := by simp
  have hsame : s.log = s.log ++ [] := (List.append_nil _).symm
  cases hstep with
  | timeout hpc => exact ledger_same rfl rfl rfl (by rw [hpc]; rfl) rfl
  | take hpc hn =>
      exact ledger_stay rfl (by simp [Event.Aside]) rfl rfl (by rw [hpc]; rfl) UInt32.or_zero.symm
  | load hpc => exact ledger_same rfl rfl rfl (by rw [hpc]; rfl) rfl
  | single hpc => exact ledger_same rfl rfl rfl (by rw [hpc]; rfl) rfl
  | store hpc => exact ledger_same rfl rfl rfl (by rw [hpc]; rfl) rfl
  | snapshot hpc =>
      refine .enter s.adc.completedGeneration ?_ ?_ ?_ id
      · exact acquired_append _ _
      · exact (published_append _ _).trans (List.append_nil _)
      · simp [ledger, hpc, AcquisitionPc.generation?, AcquisitionPc.block?, Adc.block]
  | check hpc => exact ledger_stay hsame hnone rfl rfl (by rw [hpc]; rfl) rfl
  | overrun hpc => exact ledger_same rfl rfl rfl (by rw [hpc]; rfl) rfl
  | noOverrun hpc => exact ledger_same rfl rfl rfl (by rw [hpc]; rfl) rfl
  | flag hpc => exact ledger_stay hsame hnone rfl rfl (by rw [hpc]; rfl) rfl
  | send hpc =>
      refine .stay rfl rfl ?_ id
      simp [ledger, hpc, AcquisitionPc.generation?, AcquisitionPc.block?]
  | full hpc => exact ledger_same rfl rfl rfl (by rw [hpc]; rfl) rfl
  | drop hpc =>
      have hdropped : Flags.Any lossStatus statusFrameDropped := by decide
      exact .lose (hdropped.or_right _)
  | kick hpc =>
      exact ledger_stay rfl (by simp [Event.Aside]) rfl rfl (by rw [hpc]; rfl) UInt32.or_zero.symm
  | resume hpc => exact ledger_stay hsame hnone rfl rfl (by rw [hpc]; rfl) rfl

theorem ledger_dsp (hstep : DspStep s s') : Ledger.Move s.ledger s'.ledger := by
  cases hstep with
  | idle hpc => exact .stay rfl rfl rfl id
  | receive hpc hqueue =>
      refine .stay ?_ ?_ ?_ id
      · exact (acquired_append _ _).trans (List.append_nil _)
      · exact (published_append _ _).trans (List.append_nil _)
      · simp [ledger, hpc, hqueue, DspPc.generation?]
  | begin hpc hgen => exact ledger_same rfl (by rw [hpc]; rfl) rfl rfl rfl
  | readFirst hpc hroom => exact ledger_same rfl (by rw [hpc]; rfl) rfl rfl rfl
  | lastFirst hpc hlast => exact ledger_same rfl (by rw [hpc]; rfl) rfl rfl rfl
  | readSecond hpc hroom => exact ledger_same rfl (by rw [hpc]; rfl) rfl rfl rfl
  | lastSecond hpc hlast => exact ledger_same rfl (by rw [hpc]; rfl) rfl rfl rfl
  | accept hpc hgen =>
      refine .stay ?_ ?_ ?_ id
      · exact (acquired_append _ _).trans (List.append_nil _)
      · exact (published_append _ _).trans (List.append_nil _)
      · simp [ledger, hpc, DspPc.generation?]
  | reject hpc =>
      refine ledger_same rfl ?_ rfl rfl rfl
      rcases hpc with hpc | ⟨_, _, _, hpc⟩
      · rw [hpc]
        rfl
      · rw [hpc]
        rfl
  | analyze hpc hgen =>
      exact ledger_same rfl (by rw [hpc]; exact congrArg some hgen) rfl rfl rfl
  | complete hpc hgen =>
      exact ledger_same rfl (by rw [hpc]; exact congrArg some hgen) rfl rfl rfl
  | @publish result hpc =>
      refine .finish result.generation ?_ ?_ ?_ id
      · exact (acquired_append _ _).trans (List.append_nil _)
      · exact published_append _ _
      · simp [ledger, hpc, DspPc.generation?]
  | flagStale hpc =>
      have hstale : Flags.Any lossStatus (statusDmaStale ||| statusFrameDropped) := by decide
      exact .lose (hstale.or_right _)
  | kick hpc =>
      exact ledger_stay rfl (by simp [Event.Aside]) (by rw [hpc]; rfl) rfl rfl UInt32.or_zero.symm

/-- **The firmware is a pipeline.**  Every step is a move of the ledger. -/
theorem ledger_step (hstep : Step env s s') : Ledger.Move s.ledger s'.ledger := by
  cases hstep with
  | store hroom => exact .stay rfl rfl rfl id
  | callback hfull => exact .stay rfl rfl rfl id
  | acquisition hstep => exact ledger_acquisition hstep
  | dsp hstep => exact ledger_dsp hstep
  | bystander hstep =>
      obtain ⟨events, hlog, haside⟩ := hstep.log
      obtain ⟨bits, hstatus⟩ := hstep.status
      exact ledger_stay hlog haside (by rw [hstep.dsp]) hstep.blockQueue
        (by rw [hstep.acquisition]) hstatus

/-! ## The health monitor -/

/-- The generations that the monitor has checked follow one another as long as no loss
flag is up, and it remembers the last. -/
structure Monitored (s : Firmware) (checked : List UInt32) : Prop where
  acquired : acquiredGenerations s.log = checked ++ s.acquisition.fresh?.toList
  initialized : checked ≠ [] → s.monitor.initialized ≠ 0
  last : ∀ g ∈ checked.getLast?, s.monitor.lastGeneration = g
  consecutive : ¬ Flags.Any lossStatus s.stickyStatus → Consecutive UInt32.toNat checked

/-- The generation of a completed fill is its number, before the counter wraps. -/
theorem toNat_generation_pos {a : Adc} {b : AdcDmaBlock} (h : a.Paired b)
    (hfew : a.completed < 2 ^ 32) : 0 < b.generation.toNat := by
  obtain ⟨n, hn, hle, hgen⟩ := h.generation
  rw [hgen, UInt32.toNat_ofNat']
  omega

/-- The check of a new block: it follows the last one, or a flag goes up. -/
theorem monitored_check {checked : List UInt32} {block : AdcDmaBlock}
    (h : Monitored s checked) (hpc : s.acquisition = .acquired block)
    (hpaired : s.adc.Paired block) (hfew : s.adc.completed < 2 ^ 32) :
    Monitored { s with
      acquisition := .checked block
      monitor := (acquisitionHealthCheck s.monitor block blockPeriodUs).2
      stickyStatus := s.stickyStatus ||| (acquisitionHealthCheck s.monitor block blockPeriodUs).1 }
      (checked ++ [block.generation]) := by
  have hframes : block.frames.toNat = analyzerFftSize := by
    rw [hpaired.frames]
    rfl
  obtain ⟨hlast, hinit⟩ := acquisitionHealthCheck_remembers s.monitor hframes blockPeriodUs
  have hfresh : s.acquisition.fresh? = some block.generation := by
    rw [hpc]
    rfl
  refine ⟨?_, ?_, ?_, ?_⟩
  · have hacquired := h.acquired
    rw [hfresh] at hacquired
    simpa [AcquisitionPc.fresh?] using hacquired
  · intro _
    rw [hinit]
    decide
  · intro g hg
    rw [List.getLast?_concat] at hg
    cases hg
    exact hlast
  · intro hclean
    rw [Flags.any_or, not_or] at hclean
    refine (h.consecutive hclean.1).snoc ?_
    intro g hg
    have hne : checked ≠ [] := by
      rintro rfl
      cases hg
    -- without a gap the generation is the next one
    have hdelta : block.generation - s.monitor.lastGeneration = 1 := by
      by_contra hgap
      have hflag := acquisitionHealthCheck_gap s.monitor hframes blockPeriodUs
        (h.initialized hne) hgap
      refine hclean.2 ?_
      have hsplit : lossStatus = statusBlockGap |||
          (statusAdcOverrun ||| statusFrameDropped ||| statusDmaStale) := by decide
      rw [hsplit]
      exact hflag.mask_or_left _
    have hpos := toNat_generation_pos hpaired hfew
    have hg' := h.last g hg
    have hnat := congrArg UInt32.toNat hdelta
    rw [hg', UInt32.toNat_sub, UInt32.toNat_one] at hnat
    have := g.toNat_lt
    have := block.generation.toNat_lt
    omega

/-- A step that hands the monitor nothing. -/
theorem Monitored.stay {checked : List UInt32} (h : Monitored s checked) {bits : UInt32}
    (hlog : acquiredGenerations s'.log = acquiredGenerations s.log)
    (hfresh : s'.acquisition.fresh? = s.acquisition.fresh?) (hmonitor : s'.monitor = s.monitor)
    (hstatus : s'.stickyStatus = s.stickyStatus ||| bits) : Monitored s' checked := by
  refine ⟨by rw [hlog, hfresh, h.acquired], ?_, ?_, ?_⟩
  · rw [hmonitor]
    exact h.initialized
  · rw [hmonitor]
    exact h.last
  · rw [hstatus, Flags.any_or, not_or]
    exact fun hclean => h.consecutive hclean.1

theorem monitored_acquisition {now : UInt32} {checked : List UInt32} (h : Monitored s checked)
    (howned : Owned env s) (hfew : s.adc.completed < 2 ^ 32) (hstep : AcquisitionStep now s s') :
    ∃ checked', Monitored s' checked' := by
  cases hstep with
  | timeout hpc => exact ⟨checked, h.stay rfl (by rw [hpc]; rfl) rfl UInt32.or_zero.symm⟩
  | take hpc hn =>
      have hlog := (acquired_append s.log (.taken s.adcNotifications)).trans (List.append_nil _)
      exact ⟨checked, h.stay hlog (by rw [hpc]; rfl) rfl UInt32.or_zero.symm⟩
  | load hpc => exact ⟨checked, h.stay rfl (by rw [hpc]; rfl) rfl UInt32.or_zero.symm⟩
  | single hpc => exact ⟨checked, h.stay rfl (by rw [hpc]; rfl) rfl UInt32.or_zero.symm⟩
  | store hpc => exact ⟨checked, h.stay rfl (by rw [hpc]; rfl) rfl UInt32.or_zero.symm⟩
  | snapshot hpc =>
      refine ⟨checked, ?_, h.initialized, h.last, h.consecutive⟩
      have hacquired := h.acquired
      rw [hpc] at hacquired
      rw [acquired_append, hacquired]
      exact congrArg (· ++ _) (List.append_nil _)
  | check hpc =>
      have hpaired := howned.acquisition _ (by rw [hpc]; rfl)
      exact ⟨_, monitored_check h hpc hpaired hfew⟩
  | overrun hpc => exact ⟨checked, h.stay rfl (by rw [hpc]; rfl) rfl UInt32.or_zero.symm⟩
  | noOverrun hpc => exact ⟨checked, h.stay rfl (by rw [hpc]; rfl) rfl UInt32.or_zero.symm⟩
  | flag hpc => exact ⟨checked, h.stay rfl (by rw [hpc]; rfl) rfl rfl⟩
  | send hpc => exact ⟨checked, h.stay rfl (by rw [hpc]; rfl) rfl UInt32.or_zero.symm⟩
  | full hpc => exact ⟨checked, h.stay rfl (by rw [hpc]; rfl) rfl UInt32.or_zero.symm⟩
  | drop hpc => exact ⟨checked, h.stay rfl (by rw [hpc]; rfl) rfl rfl⟩
  | kick hpc =>
      have hlog := (acquired_append s.log (.kicked healthAcquisition)).trans (List.append_nil _)
      exact ⟨checked, h.stay hlog (by rw [hpc]; rfl) rfl UInt32.or_zero.symm⟩
  | resume hpc => exact ⟨checked, h.stay rfl (by rw [hpc]; rfl) rfl rfl⟩

theorem monitored_dsp {checked : List UInt32} (h : Monitored s checked) (hstep : DspStep s s') :
    Monitored s' checked := by
  have hlog : ∀ e : Event, e.acquired? = none →
      acquiredGenerations (s.log ++ [e]) = acquiredGenerations s.log := by
    intro e he
    rw [acquired_append, he]
    exact List.append_nil _
  cases hstep with
  | receive => exact h.stay (hlog _ rfl) rfl rfl UInt32.or_zero.symm
  | accept => exact h.stay (hlog _ rfl) rfl rfl UInt32.or_zero.symm
  | publish => exact h.stay (hlog _ rfl) rfl rfl UInt32.or_zero.symm
  | kick => exact h.stay (hlog _ rfl) rfl rfl UInt32.or_zero.symm
  | flagStale => exact h.stay rfl rfl rfl rfl
  | _ => exact h.stay rfl rfl rfl UInt32.or_zero.symm

theorem monitored_step {checked : List UInt32} (h : Monitored s checked) (howned : Owned env s)
    (hfew : s.adc.completed < 2 ^ 32) (hstep : Step env s s') :
    ∃ checked', Monitored s' checked' := by
  cases hstep with
  | store hroom => exact ⟨checked, h.stay rfl rfl rfl UInt32.or_zero.symm⟩
  | callback hfull => exact ⟨checked, h.stay rfl rfl rfl UInt32.or_zero.symm⟩
  | acquisition hstep => exact monitored_acquisition h howned hfew hstep
  | dsp hstep => exact ⟨checked, monitored_dsp h hstep⟩
  | bystander hstep =>
      obtain ⟨events, hlog, haside⟩ := hstep.log
      obtain ⟨bits, hbits⟩ := hstep.status
      refine ⟨checked, h.stay ?_ (by rw [hstep.acquisition]) hstep.monitor hbits⟩
      rw [hlog, (log_append_aside s.log haside).1]

/-! ## Results -/

/-- What a result without loss flags may claim: every generation between the first block
and its own was published before. -/
def Complete (log : List Event) (result : SpectrumResult) : Prop :=
  ¬ Flags.Any lossStatus result.status →
    ∃ first, (acquiredGenerations log).head? = some first ∧
      ∀ n, first.toNat ≤ n → n < result.generation.toNat →
        ∃ g ∈ publishedGenerations log, g.toNat = n

theorem Complete.append {log events : List Event} {result : SpectrumResult}
    (h : Complete log result) : Complete (log ++ events) result := by
  intro hclean
  obtain ⟨first, hfirst, hall⟩ := h hclean
  refine ⟨first, ?_, ?_⟩
  · rw [acquiredGenerations, List.filterMap_append, List.head?_append_of_ne_nil, ← hfirst]
    · rfl
    · intro hnil
      rw [acquiredGenerations, hnil] at hfirst
      cases hfirst
  · intro n hn hlt
    obtain ⟨g, hg, hgn⟩ := hall n hn hlt
    refine ⟨g, ?_, hgn⟩
    rw [publishedGenerations, List.filterMap_append]
    exact List.mem_append_left _ hg

/-- When `status_get` finds no loss flag, the pipeline is complete. -/
theorem complete_of_clean {checked : List UInt32} {result result' : SpectrumResult}
    (hsound : s.ledger.Sound) (h : Monitored s checked) (hpc : s.dsp = .analyzed result)
    (hgen : result'.generation = result.generation)
    (hstatus : ∃ own, result'.status = result.status ||| s.stickyStatus ||| own) :
    Complete s.log result' := by
  intro hclean'
  obtain ⟨own, hown⟩ := hstatus
  have hclean : ¬ Flags.Any lossStatus s.stickyStatus := by
    intro hany
    rw [hown] at hclean'
    exact hclean' ((hany.or_right _).or_left _)
  have haccount : publishedGenerations s.log ++ ([result.generation] ++
      (s.blockQueue.map AdcDmaBlock.generation ++ s.acquisition.generation?.toList)) =
      checked ++ s.acquisition.fresh?.toList := by
    have hflow := hsound hclean
    simp only [ledger, hpc, DspPc.generation?, Option.toList_some] at hflow
    rw [hflow, h.acquired]
  -- the block that the monitor has not seen is behind the result
  obtain ⟨rest, hrest⟩ : ∃ rest,
      checked = publishedGenerations s.log ++ result.generation :: rest := by
    cases hfresh : s.acquisition with
    | acquired block =>
        refine ⟨s.blockQueue.map AdcDmaBlock.generation, ?_⟩
        rw [hfresh] at haccount
        rw [← List.append_assoc, ← List.append_assoc] at haccount
        exact (List.append_inj_left' haccount rfl).symm.trans (by simp)
    | _ =>
        rw [hfresh] at haccount
        exact ⟨_, ((List.append_nil checked).symm.trans haccount.symm).trans (by simp; rfl)⟩
  obtain ⟨first, hfirst⟩ : ∃ first, checked.head? = some first := by
    rw [hrest]
    cases publishedGenerations s.log with
    | nil => exact ⟨_, rfl⟩
    | cons g gs => exact ⟨_, rfl⟩
  have hne : checked ≠ [] := by
    rintro rfl
    cases hfirst
  refine ⟨first, ?_, ?_⟩
  · rw [h.acquired, List.head?_append_of_ne_nil _ hne, hfirst]
  · intro n hn hlt
    rw [hgen] at hlt
    have hchain := h.consecutive hclean
    rw [hrest] at hchain hfirst
    exact hchain.exists_of_lt hfirst hn hlt

/-! ## The invariant -/

/-- What holds as long as the generation counter has not gone round. -/
structure Tracked (s : Firmware) : Prop where
  sound : s.ledger.Sound
  monitored : ∃ checked, Monitored s checked
  publishing : ∀ result, s.dsp = .publishing result → Complete s.log result

theorem tracked_init : Tracked (init env) where
  sound := fun _ => rfl
  monitored := ⟨[], rfl, fun h => absurd rfl h, nofun, fun _ => List.isChain_nil⟩
  publishing := nofun

/-- The number of completed fills only grows. -/
theorem completed_le (hstep : Step env s s') : s.adc.completed ≤ s'.adc.completed := by
  cases hstep with
  | store => exact le_rfl
  | callback => exact Nat.le_succ _
  | acquisition hstep => cases hstep <;> exact le_rfl
  | dsp hstep => cases hstep <;> exact le_rfl
  | bystander hstep => exact hstep.adc.symm ▸ le_rfl

theorem acquisition_dsp {now : UInt32} (hstep : AcquisitionStep now s s') :
    s'.dsp = s.dsp ∧ ∃ events, s'.log = s.log ++ events := by
  have hsame : ∃ events, s.log = s.log ++ events := ⟨[], (List.append_nil _).symm⟩
  cases hstep with
  | take => exact ⟨rfl, _, rfl⟩
  | snapshot => exact ⟨rfl, _, rfl⟩
  | kick => exact ⟨rfl, _, rfl⟩
  | _ => exact ⟨rfl, hsame⟩

/-- A result about to be published is complete: it was when the status was read, and the
log has only grown since. -/
theorem publishing_step (h : Tracked s) (hstep : Step env s s') (result : SpectrumResult)
    (hpc : s'.dsp = .publishing result) : Complete s'.log result := by
  have hkeep : ∀ {events}, s'.dsp = s.dsp → s'.log = s.log ++ events → Complete s'.log result := by
    intro events hdsp hlog
    rw [hlog]
    exact (h.publishing result (hdsp ▸ hpc)).append
  cases hstep with
  | store => exact h.publishing result hpc
  | callback => exact h.publishing result hpc
  | acquisition hstep =>
      obtain ⟨hdsp, events, hlog⟩ := acquisition_dsp hstep
      exact hkeep hdsp hlog
  | dsp hstep =>
      cases hstep with
      | idle => exact h.publishing result hpc
      | complete hpc' hgen hstatus =>
          cases hpc
          obtain ⟨checked, hmonitored⟩ := h.monitored
          exact complete_of_clean (s := s) h.sound hmonitored hpc' hgen hstatus
      | _ => cases hpc
  | bystander hstep =>
      obtain ⟨events, hlog, -⟩ := hstep.log
      exact hkeep hstep.dsp hlog

theorem tracked_step (h : Tracked s) (howned : Owned env s) (hfew : s.adc.completed < 2 ^ 32)
    (hstep : Step env s s') : Tracked s' where
  sound := h.sound.move (ledger_step hstep)
  monitored := by
    obtain ⟨checked, hmonitored⟩ := h.monitored
    exact monitored_step hmonitored howned hfew hstep
  publishing := publishing_step h hstep

theorem Reachable.tracked (hs : Reachable env s) (hfew : s.adc.completed < 2 ^ 32) :
    Tracked s := by
  refine (hs.induction (I := fun s => Owned env s ∧ (s.adc.completed < 2 ^ 32 → Tracked s))
    ⟨owned_init, fun _ => tracked_init⟩ ?_).2 hfew
  intro s s' h hstep
  refine ⟨owned_step h.1 hstep, ?_⟩
  intro hfew
  have hless := (completed_le hstep).trans_lt hfew
  exact tracked_step (h.2 hless) h.1 hless hstep

/-! ## Publication -/

/-- **No block is lost silently.**  When `dsp_task` publishes a result, every generation
between the first block acquired and the result was published before, or the status of
the result has one of the flags that admit a loss. -/
theorem no_silent_loss {a : Action} {result : SpectrumResult} {first : UInt32}
    (hs : Reachable env s) (hstep : step env s a = some s')
    (hpublish : s'.log = s.log ++ [.published result]) (hfew : s.adc.completed < 2 ^ 32)
    (hfirst : (acquiredGenerations s.log).head? = some first) {generation : UInt32}
    (hafter : first < generation) (hbefore : generation < result.generation) :
    generation ∈ publishedGenerations s.log ∨ Flags.Any lossStatus result.status := by
  by_cases hclean : Flags.Any lossStatus result.status
  · exact .inr hclean
  have hpc : s.dsp = .publishing result := by
    cases logged_of_step (step_cases hstep) hpublish id with
    | published hpc => exact hpc
  obtain ⟨first', hfirst', hall⟩ := (hs.tracked hfew).publishing result hpc hclean
  obtain rfl : first = first' := Option.some.inj (hfirst.symm.trans hfirst')
  obtain ⟨g, hg, hgn⟩ := hall generation.toNat (UInt32.lt_iff_toNat_lt.mp hafter).le
    (UInt32.lt_iff_toNat_lt.mp hbefore)
  rw [UInt32.toNat_inj.mp hgn] at hg
  exact .inl hg

theorem acquired_of_published (h : Published s s') :
    acquiredGenerations s'.log = acquiredGenerations s.log ++ [s.adc.completedGeneration + 1] := by
  obtain ⟨block, since, first, second, hgeneration, hlog⟩ := h.log
  rw [hlog, ← hgeneration, acquiredGenerations, List.filterMap_append]
  rfl

/-- One block after the other. -/
theorem run_round (env : Environment) (h : Ready s) (hdsp : s.dsp = .receiving) :
    ∃ actions t, Transition.run (step env) s actions = some t ∧ Ready t ∧ t.dsp = .receiving ∧
      t.adc.completed = s.adc.completed + 1 ∧
      t.adc.completedGeneration = s.adc.completedGeneration + 1 ∧
      acquiredGenerations t.log =
        acquiredGenerations s.log ++ [s.adc.completedGeneration + 1] := by
  obtain ⟨actions, t, result, hrun, hpc, -, ht⟩ := run_publication env h hdsp
  have hfinish := run_finish env hpc
  refine ⟨_, _, (Transition.run_append_eq_some _).mpr ⟨t, hrun, hfinish⟩,
    ⟨ht.ready.position, ht.ready.acquisition, ht.ready.notifications, ht.ready.overruns,
      ht.ready.queue⟩, rfl, ht.completed, ht.generation, ?_⟩
  rw [acquired_append, acquired_append, acquired_of_published ht]
  exact (List.append_nil _).trans (List.append_nil _)

/-- The third of three blocks is published. -/
theorem no_silent_loss_silence :
    ∃ s s' result first, Reachable silence s ∧ step silence s (.dsp 0) = some s' ∧
      s'.log = s.log ++ [.published result] ∧ s.adc.completed < 2 ^ 32 ∧
      (acquiredGenerations s.log).head? = some first ∧ first < 2 ∧ 2 < result.generation ∧
      (2 ∈ publishedGenerations s.log ∨ Flags.Any lossStatus result.status) := by
  obtain ⟨_, t, hrun, hready, hdsp, hcompleted, hcurrent, hlog⟩ :=
    run_round silence (ready_init silence) rfl
  obtain ⟨_, t', hrun', hready', hdsp', hcompleted', hcurrent', hlog'⟩ :=
    run_round silence hready hdsp
  obtain ⟨_, s, result, hlast, hpc, hgeneration, hs⟩ := run_publication silence hready' hdsp'
  have hreach : Reachable silence s := ((Reachable.run ⟨[], rfl⟩ hrun).run hrun').run hlast
  have hstep : step silence s (.dsp 0) = some { s with
      dsp := .kicking, resultQueue := some result, log := s.log ++ [.published result] } := by
    simp only [step, dspStep, hpc]
  have hfew : s.adc.completed < 2 ^ 32 := by
    rw [hs.completed, hcompleted', hcompleted]
    decide
  have hfirst : (acquiredGenerations s.log).head? = some 1 := by
    rw [acquired_of_published hs, hlog', hlog]
    rfl
  have hthird : 2 < result.generation := by
    rw [hgeneration, hcurrent', hcurrent]
    decide
  exact ⟨s, _, result, 1, hreach, hstep, rfl, hfew, hfirst, by decide, hthird,
    no_silent_loss hreach hstep rfl hfew hfirst (by decide) hthird⟩

end Firmware

end SpectrumAnalyzer
