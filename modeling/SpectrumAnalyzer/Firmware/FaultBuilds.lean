import SpectrumAnalyzer.Firmware.Injection
import SpectrumAnalyzer.Host.LiveStream

/-!
# What holds in every build

No injected fault breaks the accounts of the firmware.  In every build each published result
is the analysis of one fill, as far as the build reads it; a result without loss flags closes
a chain of consecutive fills; and the host counts no error and no gap.

A build that freezes the ADC reads the first word of a block throughout.  To its readings the
invariant of the readings applies with `Environment.frozen` in place of the environment.

## Main definitions

* `Environment.frozen`, `FaultInject.seen` — the conversions that a build reads.
* `Kept` — who owns a half-buffer, in a build.
* `Injected.Sound` — the invariants of the firmware, in a build.
* `builds_keep_accounts` — every build, in every run.
-/

namespace SpectrumAnalyzer

/-- Conversions of which only the first of a fill is seen. -/
def Environment.frozen (env : Environment) : Environment :=
  { env with conversion := fun n _ => env.conversion n 0 }

/-- The conversions that a build reads. -/
def FaultInject.seen (fault : FaultInject) (env : Environment) : Environment :=
  if fault.freezeAdc then env.frozen else env

/-- What is known of blocks and buffer, and of what a build reads. -/
structure Kept (fault : FaultInject) (env : Environment) (s : Firmware) : Prop where
  blocks : Owned env { s with dsp := .receiving }
  dsp : ∀ b, s.dsp.block? = some b → s.adc.Paired b
  reading : Reading (fault.seen env) s.adc s.dsp

namespace Injected
variable {fault : FaultInject} {env : Environment} {s s' : Firmware}

theorem kept_init : Kept fault env (Firmware.init env) where
  blocks := Firmware.owned_init
  dsp := nofun
  reading := trivial

/-- A build that does not freeze the ADC owns its blocks as the firmware does. -/
theorem owned_of_kept (h : Kept fault env s) (hfreeze : fault.freezeAdc = false) :
    Owned env s where
  filled := h.blocks.filled
  notified := h.blocks.notified
  taken := h.blocks.taken
  acquisition := h.blocks.acquisition
  queue := h.blocks.queue
  dsp := h.dsp
  reading := by
    have hreading := h.reading
    rw [FaultInject.seen, hfreeze, if_neg Bool.false_ne_true] at hreading
    exact hreading

theorem kept_of_owned (h : Owned env s) (hfreeze : fault.freezeAdc = false) :
    Kept fault env s where
  blocks := ⟨h.filled, h.notified, h.taken, h.acquisition, h.queue, nofun, trivial⟩
  dsp := h.dsp
  reading := by
    rw [FaultInject.seen, hfreeze, if_neg Bool.false_ne_true]
    exact h.reading

/-! ## Blocks -/

/-- The acquisition task does not look at `dsp_task`. -/
theorem acquisitionStep_withDsp (now : UInt32) (s : Firmware) (pc : DspPc) :
    ({ s with dsp := pc } : Firmware).acquisitionStep now =
      { s.acquisitionStep now with dsp := pc } := by
  rw [Firmware.acquisitionStep, Firmware.acquisitionStep]
  cases s.acquisition with
  | waiting =>
      dsimp only
      split <;> rfl
  | taken n =>
      dsimp only
      split <;> rfl
  | checked block =>
      dsimp only
      split <;> rfl
  | sending block =>
      dsimp only
      split <;> rfl
  | _ => rfl

theorem acquisition_same {now : UInt32} (h : Firmware.AcquisitionStep now s s') :
    s'.adc = s.adc ∧ s'.dsp = s.dsp := by
  cases h <;> exact ⟨rfl, rfl⟩

/-- A step of the acquisition task. -/
theorem kept_acquisition (h : Kept fault env s) (now : UInt32) :
    Kept fault env (s.acquisitionStep now) := by
  have hspec := Firmware.acquisitionStep_spec now { s with dsp := .receiving }
  have hblocks := Firmware.owned_acquisition h.blocks hspec
  rw [acquisitionStep_withDsp] at hblocks
  obtain ⟨hadc, hdsp⟩ := acquisition_same (Firmware.acquisitionStep_spec now s)
  refine ⟨hblocks, ?_, ?_⟩
  · rw [hadc, hdsp]
    exact h.dsp
  · rw [hadc, hdsp]
    exact h.reading

theorem kept_bystander (h : Kept fault env s) (hstep : Firmware.Bystander s s') :
    Kept fault env s' where
  blocks := Firmware.owned_bystander h.blocks ⟨hstep.adc, hstep.adcNotifications, hstep.blockQueue,
    hstep.acquisition, hstep.monitor, rfl, hstep.status, hstep.log⟩
  dsp := by
    rw [hstep.adc, hstep.dsp]
    exact h.dsp
  reading := by
    rw [hstep.adc, hstep.dsp]
    exact h.reading

/-- Flags are raised. -/
theorem bystander_statusSet (bits : UInt32) (s : Firmware) :
    Firmware.Bystander s (s.statusSet bits) :=
  ⟨rfl, rfl, rfl, rfl, rfl, rfl, ⟨bits, rfl⟩, [], (List.append_nil _).symm, by simp⟩

/-- `telemetry_task` gives up a result. -/
theorem bystander_fail (bits : UInt32) (s : Firmware) :
    Firmware.Bystander s { s.statusSet bits with
      telemetry := .failed, sender := { s.sender with backpressure := true } } :=
  ⟨rfl, rfl, rfl, rfl, rfl, rfl, ⟨bits, rfl⟩, [], (List.append_nil _).symm, by simp⟩

/-- A step of `dsp_task` that reads no word. -/
theorem kept_dsp (h : Kept fault env s) (hstep : Firmware.DspStep s s')
    (hfirst : ∀ block since reads, s.dsp ≠ .firstPass block since reads)
    (hsecond : ∀ block since first reads, s.dsp ≠ .secondPass block since first reads) :
    Kept fault env s' := by
  have hblocks : ∀ {t : Firmware}, t.adc = s.adc → t.adcNotifications = s.adcNotifications →
      t.acquisition = s.acquisition → (∀ b ∈ t.blockQueue, b ∈ s.blockQueue) →
      Owned env { t with dsp := .receiving } := by
    intro t hadc hnotifications hacquisition hqueue
    refine ⟨hadc ▸ h.blocks.filled, ?_, ?_, ?_, ?_, nofun, trivial⟩
    · rw [hadc, hnotifications]
      exact h.blocks.notified
    · rw [hadc, hacquisition]
      exact h.blocks.taken
    · rw [hadc, hacquisition]
      exact h.blocks.acquisition
    · rw [hadc]
      exact fun b hb => h.blocks.queue b (hqueue b hb)
  have hsame : ∀ b ∈ s.blockQueue, b ∈ s.blockQueue := fun _ hb => hb
  cases hstep with
  | idle => exact h
  | @receive block rest hpc hqueue =>
      have hmem : ∀ b ∈ block :: rest, s.adc.Paired b := hqueue ▸ h.blocks.queue
      refine ⟨hblocks rfl rfl rfl ?_, ?_, trivial⟩
      · rw [hqueue]
        exact fun b hb => List.mem_cons_of_mem _ hb
      · intro b hb
        cases hb
        exact hmem block List.mem_cons_self
  | @begin block hpc hgen =>
      have hpaired := h.dsp block (by rw [hpc]; rfl)
      obtain ⟨n, hn, hle, -⟩ := hpaired.generation
      refine ⟨hblocks rfl rfl rfl hsame, ?_, ⟨hn.trans hle, le_rfl,
        hgen.symm.trans h.blocks.filled.generation⟩, by decide, fun _ => rfl⟩
      intro b hb
      cases hb
      exact hpaired
  | readFirst hpc => exact absurd hpc (hfirst _ _ _)
  | lastFirst hpc => exact absurd hpc (hfirst _ _ _)
  | readSecond hpc => exact absurd hpc (hsecond _ _ _ _)
  | lastSecond hpc => exact absurd hpc (hsecond _ _ _ _)
  | _ => exact ⟨hblocks rfl rfl rfl hsame, nofun, trivial⟩

/-- A step of the firmware that a build takes. -/
theorem kept_plain {i : Injected} {a : Firmware.Action} (h : Kept fault env i.system)
    (hplain : Plain fault i a) (hstep : Firmware.step env i.system a = some s') :
    Kept fault env s' := by
  by_cases hfreeze : fault.freezeAdc = false
  · exact kept_of_owned
        (Firmware.owned_step (owned_of_kept h hfreeze) (Firmware.step_cases hstep)) hfreeze
  cases Firmware.actionStep_of_step hstep with
  | dmaStore hroom =>
      exact ⟨Firmware.owned_store h.blocks hroom, fun b hb => (h.dsp b hb).mono le_rfl,
        h.reading.of_completed (Adc.completed_store _ _)⟩
  | adcCallback hfull =>
      exact ⟨Firmware.owned_callback h.blocks hfull, fun b hb => (h.dsp b hb).mono (Nat.le_succ _),
        h.reading.of_lt (Nat.lt_succ_self _)⟩
  | adcError => exact ⟨⟨h.blocks.filled, h.blocks.notified, h.blocks.taken, h.blocks.acquisition,
      h.blocks.queue, nofun, trivial⟩, h.dsp, h.reading⟩
  | acquisition =>
      cases hstep
      exact kept_acquisition h _
  | dsp hspec =>
      obtain ⟨hfirst, hsecond, -⟩ := hplain.2.1.resolve_left hfreeze
      exact kept_dsp h hspec hfirst hsecond
  | telemetry hspec => exact kept_bystander h (Firmware.bystander_telemetry hspec)
  | watchdog hspec => exact kept_bystander h (Firmware.bystander_watchdog hspec)

/-- One more reading of the first word of a fill. -/
theorem readFrozen_began {a : Adc} (hfilled : a.Filled env) {block : AdcDmaBlock} {since : ℕ}
    {reads : List UInt32} (hb : a.Paired block) (hbegan : Began a block since)
    (hsince : a.completed = since)
    (hreads : reads = (List.range reads.length).map (env.frozen.conversion since)) :
    a.readFrozen block reads =
      (List.range (reads.length + 1)).map (env.frozen.conversion since) := by
  subst hsince
  have hword : a.words block.packedSamples = env.conversion a.completed 0 := by
    have hlast := hfilled.last hbegan.pos 0 (by decide)
    rw [Nat.add_zero] at hlast
    rw [hb.half, hbegan.generation, halfOf_toNat_ofNat]
    exact hlast
  rw [List.range_succ, List.map_append, ← hreads, Adc.readFrozen, hword]
  rfl

/-- Every step of a build keeps the account of blocks and readings. -/
theorem kept_step {i i' : Injected} (h : Kept fault env i.system)
    (hstep : InjectedStep fault env i i') : Kept fault env i'.system := by
  have hseen : fault.freezeAdc = true → fault.seen env = env.frozen := by
    intro hfreeze
    rw [FaultInject.seen, if_pos hfreeze]
  have hreading : fault.freezeAdc = true → ∀ {pc}, i.system.dsp = pc →
      Reading env.frozen i.system.adc pc := by
    intro hfreeze pc hpc
    rw [← hpc, ← hseen hfreeze]
    exact h.reading
  cases hstep with
  | plain hplain hstep => exact kept_plain h hplain hstep
  | offer hn hpc hcount => exact kept_acquisition h _
  | drop hn hpc hcount =>
      exact ⟨⟨h.blocks.filled, h.blocks.notified, nofun, nofun, h.blocks.queue, nofun, trivial⟩,
        h.dsp, h.reading⟩
  | @readFirst block since reads hlife hfreeze hpc hroom =>
      obtain ⟨hbegan, hlen, hreads⟩ := hreading hfreeze hpc
      have hpaired := h.dsp block (by rw [hpc]; rfl)
      refine ⟨h.blocks, fun b hb => h.dsp b (by rw [hpc]; exact hb), ?_⟩
      rw [hseen hfreeze]
      refine ⟨hbegan, by rwa [Adc.length_readFrozen], fun hsince => ?_⟩
      rw [Adc.length_readFrozen]
      exact readFrozen_began h.blocks.filled hpaired hbegan hsince (hreads hsince)
  | @lastFirst block since reads hlife hfreeze hpc hlast =>
      obtain ⟨hbegan, hlen, hreads⟩ := hreading hfreeze hpc
      have hpaired := h.dsp block (by rw [hpc]; rfl)
      have hfull : reads.length + 1 = 1024 := by omega
      refine ⟨h.blocks, fun b hb => h.dsp b (by rw [hpc]; exact hb), ?_⟩
      rw [hseen hfreeze]
      refine ⟨hbegan, by decide, fun hsince => ⟨?_, rfl⟩⟩
      rw [readFrozen_began h.blocks.filled hpaired hbegan hsince (hreads hsince), hfull]
      rfl
  | @readSecond block since first reads hlife hfreeze hpc hroom =>
      obtain ⟨hbegan, hlen, hreads⟩ := hreading hfreeze hpc
      have hpaired := h.dsp block (by rw [hpc]; rfl)
      refine ⟨h.blocks, fun b hb => h.dsp b (by rw [hpc]; exact hb), ?_⟩
      rw [hseen hfreeze]
      refine ⟨hbegan, by rwa [Adc.length_readFrozen], fun hsince => ⟨(hreads hsince).1, ?_⟩⟩
      rw [Adc.length_readFrozen]
      exact readFrozen_began h.blocks.filled hpaired hbegan hsince (hreads hsince).2
  | @lastSecond block since first reads hlife hfreeze hpc hlast =>
      obtain ⟨hbegan, hlen, hreads⟩ := hreading hfreeze hpc
      have hpaired := h.dsp block (by rw [hpc]; rfl)
      have hfull : reads.length + 1 = 1024 := by omega
      refine ⟨h.blocks, fun b hb => h.dsp b (by rw [hpc]; exact hb), ?_⟩
      rw [hseen hfreeze]
      refine ⟨hbegan, fun hsince => ⟨(hreads hsince).1, ?_⟩⟩
      rw [readFrozen_began h.blocks.filled hpaired hbegan hsince (hreads hsince).2, hfull]
      rfl
  | complete hlife hfreeze hpc => exact ⟨h.blocks, nofun, trivial⟩
  | publish hlife hn hpc hcount => exact kept_dsp h (.publish hpc) (by simp [hpc]) (by simp [hpc])
  | last hlife hn hpc hcount => exact kept_dsp h (.publish hpc) (by simp [hpc]) (by simp [hpc])
  | stall hlife => exact kept_bystander h (bystander_statusSet _ _)
  | suspended hlife => exact h
  | @attempt result address rest written hn hpc hcount =>
      exact kept_bystander h
        (Firmware.bystander_telemetry (Firmware.telemetryStep_spec written i.system))
  | fail hn hpc hcount => exact kept_bystander h (bystander_fail _ _)

/-! ## Losses -/

theorem generation_of_block {pc : DspPc} {block : AdcDmaBlock} (h : pc.block? = some block) :
    pc.generation? = some block.generation := by
  cases pc <;> cases h <;> rfl

theorem monitored_bystander {checked : List UInt32} (h : Firmware.Monitored s checked)
    (hstep : Firmware.Bystander s s') : Firmware.Monitored s' checked := by
  obtain ⟨events, hlog, haside⟩ := hstep.log
  obtain ⟨bits, hbits⟩ := hstep.status
  refine h.stay ?_ (by rw [hstep.acquisition]) hstep.monitor hbits
  rw [hlog, (Firmware.log_append_aside s.log haside).1]

/-- The monitor does not look at `dsp_task` either. -/
theorem monitored_acquisitionStep {checked : List UInt32} (h : Firmware.Monitored s checked)
    (hblocks : Owned env { s with dsp := .receiving }) (hfew : s.adc.completed < 2 ^ 32)
    (now : UInt32) : ∃ checked', Firmware.Monitored (s.acquisitionStep now) checked' := by
  have hspec := Firmware.acquisitionStep_spec now { s with dsp := .receiving }
  rw [acquisitionStep_withDsp] at hspec
  obtain ⟨checked', h'⟩ := Firmware.monitored_acquisition (s := { s with dsp := .receiving })
    ⟨h.acquired, h.initialized, h.last, h.consecutive⟩ hblocks hfew hspec
  exact ⟨checked', h'.acquired, h'.initialized, h'.last, h'.consecutive⟩

theorem monitored_plain {checked : List UInt32} {a : Firmware.Action}
    (h : Firmware.Monitored s checked) (hblocks : Owned env { s with dsp := .receiving })
    (hfew : s.adc.completed < 2 ^ 32) (hstep : Firmware.step env s a = some s') :
    ∃ checked', Firmware.Monitored s' checked' := by
  cases Firmware.actionStep_of_step hstep with
  | dmaStore => exact ⟨checked, h.stay rfl rfl rfl UInt32.or_zero.symm⟩
  | adcCallback => exact ⟨checked, h.stay rfl rfl rfl UInt32.or_zero.symm⟩
  | adcError =>
      have hlog := (Firmware.acquired_append s.log .adcError).trans (List.append_nil _)
      exact ⟨checked, h.stay hlog rfl rfl UInt32.or_zero.symm⟩
  | acquisition =>
      cases hstep
      exact monitored_acquisitionStep h hblocks hfew _
  | dsp hspec => exact ⟨checked, Firmware.monitored_dsp h hspec⟩
  | telemetry hspec => exact ⟨checked, monitored_bystander h (Firmware.bystander_telemetry hspec)⟩
  | watchdog hspec => exact ⟨checked, monitored_bystander h (Firmware.bystander_watchdog hspec)⟩

theorem tracked_bystander (env : Environment) (h : Firmware.Tracked s)
    (hstep : Firmware.Bystander s s') : Firmware.Tracked s' := by
  have hcases : Firmware.Step env s s' := .bystander hstep
  obtain ⟨checked, hmonitored⟩ := h.monitored
  exact ⟨h.sound.move (Firmware.ledger_step hcases),
    ⟨checked, monitored_bystander hmonitored hstep⟩,
    Firmware.publishing_step h hcases⟩

theorem status_completeResult_or (result : SpectrumResult) (sticky bits : UInt32) :
    ∃ own, (completeResult result (sticky ||| bits)).status =
      result.status ||| sticky ||| own := by
  refine ⟨bits ||| spectrumHealthCheck
    { result with status := result.status ||| (sticky ||| bits) } dspDeadlineUs, ?_⟩
  simp only [completeResult, UInt32.or_assoc]

/-- **No move of a build loses a block silently.** -/
theorem tracked_move (h : Firmware.Tracked s) (hblocks : Owned env { s with dsp := .receiving })
    (hfew : s.adc.completed < 2 ^ 32) (hmove : Move env s s') : Firmware.Tracked s' := by
  obtain ⟨checked, hmonitored⟩ := h.monitored
  cases hmove with
  | plain hstep =>
      have hcases := Firmware.step_cases hstep
      exact ⟨h.sound.move (Firmware.ledger_step hcases),
        monitored_plain hmonitored hblocks hfew hstep, Firmware.publishing_step h hcases⟩
  | stay => exact h
  | drop hpc =>
      have hdropped : Flags.Any lossStatus (statusFrameDropped ||| statusFaultInjected) := by decide
      exact ⟨h.sound.move (.lose (hdropped.or_right _)),
        ⟨checked, hmonitored.stay rfl (by rw [hpc]; rfl) rfl rfl⟩, h.publishing⟩
  | @read block pc hpc hpc' =>
      have hsame : pc.generation? = s.dsp.generation? :=
        (generation_of_block hpc').trans (generation_of_block hpc).symm
      refine ⟨h.sound.move (Firmware.ledger_same rfl hsame rfl rfl rfl),
        ⟨checked, hmonitored.stay rfl rfl rfl UInt32.or_zero.symm⟩, ?_⟩
      rintro result rfl
      cases hpc'
  | @complete result hpc =>
      refine ⟨h.sound.move (Firmware.ledger_same rfl (by rw [hpc]; rfl) rfl rfl rfl),
        ⟨checked, hmonitored.stay rfl rfl rfl UInt32.or_zero.symm⟩, ?_⟩
      rintro result' ⟨⟩
      exact Firmware.complete_of_clean (s := s) h.sound hmonitored hpc rfl
        (status_completeResult_or _ _ _)
  | stall => exact tracked_bystander env h (bystander_statusSet _ _)
  | fail => exact tracked_bystander env h (bystander_fail _ _)

/-! ## Results and packets -/

theorem completed_le_move (hmove : Move env s s') : s.adc.completed ≤ s'.adc.completed := by
  cases hmove with
  | plain hstep => exact Firmware.completed_le (Firmware.step_cases hstep)
  | _ => exact le_rfl

theorem traced_move {words : ℕ → Vector UInt32 1024} (h : Firmware.Traced env words s)
    (hpasses : Firmware.SourcedPasses words s) (htracked : Firmware.Tracked s)
    (hmove : Move env s s') : Firmware.Traced env words s' := by
  cases hmove with
  | plain hstep => exact Firmware.traced_step h hpasses htracked hstep
  | stay => exact h
  | drop => exact h.pass le_rfl rfl rfl
  | @read block pc hpc hpc' =>
      refine h.restart le_rfl rfl ?_ ?_
      · intro m
        cases pc <;> first | exact trivial | cases hpc'
      · rintro result rfl
        cases hpc'
  | complete hpc =>
      exact Firmware.traced_complete h htracked hpc _ (status_completeResult_or _ _ _)
  | stall => exact h.pass le_rfl rfl rfl
  | fail => exact h.pass le_rfl rfl rfl

theorem transmitStep_move (hmove : Move env s s') : Firmware.TransmitStep s s' := by
  cases hmove with
  | plain hstep => exact Firmware.transmitStep_of_step hstep
  | fail => exact .pass rfl rfl rfl (.inr nofun) rfl rfl
  | _ => exact .pass rfl rfl rfl (.inl rfl) rfl rfl

/-! ## Every build -/

/-- The invariants of the firmware, in a build. -/
structure Sound (fault : FaultInject) (env : Environment) (s : Firmware) : Prop where
  kept : Kept fault env s
  tracked : s.adc.completed < 2 ^ 32 → Firmware.Tracked s
  traced : s.adc.completed < 2 ^ 32 → Firmware.Traced env (fault.seen env).fillWords s
  transmitted : ∃ outcomes, Firmware.Transmitted s outcomes

theorem sound_init : Sound fault env (Firmware.init env) where
  kept := kept_init
  tracked := fun _ => Firmware.tracked_init
  traced := fun _ => Firmware.traced_init _
  transmitted := ⟨[], Firmware.transmitted_init⟩

theorem sound_step {i i' : Injected} (h : Sound fault env i.system)
    (hstep : InjectedStep fault env i i') : Sound fault env i'.system := by
  have hmove := hstep.move
  have hle := completed_le_move hmove
  refine ⟨kept_step h.kept hstep, fun hfew => ?_, fun hfew => ?_, ?_⟩
  · exact tracked_move (h.tracked (by omega)) h.kept.blocks (by omega) hmove
  · have hpasses := Firmware.sourcedPasses_of_reading (s := i.system)
      h.kept.blocks.filled.generation h.kept.reading (by omega)
    exact traced_move (h.traced (by omega)) hpasses (h.tracked (by omega)) hmove
  · obtain ⟨outcomes, htransmitted⟩ := h.transmitted
    exact Firmware.transmitted_step htransmitted (transmitStep_move hmove)

theorem Reachable.sound {i : Injected} (hi : Reachable fault env i) : Sound fault env i.system := by
  obtain ⟨actions, hrun⟩ := hi
  exact Transition.run_invariant (step fault env) (I := fun i => Sound fault env i.system)
    (fun _ _ _ h hstep => sound_step h (injectedStep_of_step hstep)) sound_init hrun

/-- **Every build keeps the accounts.**  Whatever faults are injected, in every run each
published result is the analysis of one fill as the build reads it, a result without loss
flags closes a chain of consecutive fills, and the host that listens counts no error, no
loss, no duplicate and no packet out of order. -/
theorem builds_keep_accounts {i : Injected} (hi : Reachable fault env i)
    (hfew : i.system.adc.completed < 2 ^ 32) :
    (∀ result ∈ publishedResults i.system.log,
      AnalysisOf env.spectrumAnalyzeQ15 ((fault.seen env).fillWords result.generation.toNat)
        result) ∧
    (∀ before result after, publishedResults i.system.log = before ++ result :: after →
      ¬ Flags.Any lossStatus result.status →
      ∃ first, (before ++ [result]).map (fun result => result.generation.toNat) =
        List.range' first (before.length + 1)) ∧
    let host := Host.FrameDecoder.after i.system.sender.wire
    host.errors = 0 ∧ host.lost = 0 ∧ host.duplicates = 0 ∧ host.outOfOrder = 0 := by
  have hsound := hi.sound
  have htraced := hsound.traced hfew
  obtain ⟨outcomes, htransmitted⟩ := hsound.transmitted
  refine ⟨fun result hresult => (htraced.published result hresult).analysis, ?_, ?_⟩
  · intro before result after hsplit hclean
    have hstart : before ++ [result] <+: publishedResults i.system.log := by
      rw [hsplit]
      exact ⟨after, by simp⟩
    obtain ⟨first, hfirst⟩ := htraced.unbroken _ hstart result (by simp) hclean
    refine ⟨first, ?_⟩
    rw [hfirst, List.length_append, List.length_singleton]
  · rw [htransmitted.wire]
    exact Host.quiet_after (Host.numbered_packetsOfRun htransmitted.le 0)

/-- A frozen block of silence. -/
theorem builds_keep_accounts_freeze : ∃ i result, Reachable .freeze Firmware.silence i ∧
    result ∈ publishedResults i.system.log ∧
    AnalysisOf Firmware.silence.spectrumAnalyzeQ15
      ((FaultInject.freeze.seen Firmware.silence).fillWords result.generation.toNat) result ∧
    (Host.FrameDecoder.after i.system.sender.wire).errors = 0 := by
  obtain ⟨i, result, hi, hcompleted, hresult⟩ := run_frozenPublished Firmware.silence
  obtain ⟨hanalysis, -, herrors, -⟩ := builds_keep_accounts hi (by
    rw [hcompleted]
    decide)
  exact ⟨i, result, hi, hresult, hanalysis result hresult, herrors⟩

end Injected

end SpectrumAnalyzer
