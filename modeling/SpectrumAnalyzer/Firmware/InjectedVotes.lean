import SpectrumAnalyzer.Firmware.InjectedCounts

/-!
# Votes in a build

A vote takes progress in every build, so a fault that stops one task starves the watchdog.  A
suspended `dsp_task` votes no more, and there are two feeds at most behind its last result.
When at least each eighth packet is given up, no result is delivered whole: the watchdog is
never fed, although blocks are acquired and analyzed.

## Main definitions

* `Reachable.votes`, `Reachable.feeds` — votes and feeds, in every build.
* `Stalling` — the results of a build that suspends `dsp_task`.
* `stalls_after` — behind the last result.
* `Starved`, `short_failures_starve` — when each n-th packet is given up for small n.
-/

namespace SpectrumAnalyzer

theorem bit_mem_of_mem_voters {v : Voter} (hv : v ∈ voters) : v.bit ∈ voteBits := by
  have hbits : voters.map Voter.bit = voteBits := rfl
  rw [← hbits]
  exact List.mem_map_of_mem hv

namespace Injected
variable {fault : FaultInject} {env : Environment} {s s' : Firmware} {i i' : Injected}

/-! ## Votes take progress -/

theorem voteStep_move (hmove : Move env s s') : Firmware.VoteStep s s' := by
  have hquiet : ∀ {t : Firmware}, t.log = s.log → t.healthMask = s.healthMask →
      t.watchdog = s.watchdog → Firmware.VoteStep s t :=
    fun hlog hmask hwatchdog => .quiet [] (by simpa using hlog) nofun hmask hwatchdog
  cases hmove with
  | plain hstep => exact Firmware.voteStep_of_step hstep
  | _ => exact hquiet rfl rfl rfl

theorem votes_move (hmove : Move env s s') :
    ∃ events, s'.log = s.log ++ events ∧ ∀ v ∈ voters,
      events.count (.kicked v.bit) + (v.entitled s').toNat ≤
        (v.entitled s).toNat + events.countP v.progress := by
  have hquiet : ∀ {t : Firmware}, t.log = s.log →
      t.acquisition.entitled = s.acquisition.entitled → t.dsp.entitled = s.dsp.entitled →
      t.telemetry.entitled = s.telemetry.entitled →
      ∃ events, t.log = s.log ++ events ∧ ∀ v ∈ voters,
        events.count (.kicked v.bit) + (v.entitled t).toNat ≤
          (v.entitled s).toNat + events.countP v.progress := by
    intro t hlog hacquisition hdsp htelemetry
    refine ⟨[], by simpa using hlog, ?_⟩
    intro v hv
    have hentitled : v.entitled t = v.entitled s := by
      simp only [voters, List.mem_cons, List.not_mem_nil, or_false] at hv
      rcases hv with rfl | rfl | rfl
      · exact hacquisition
      · exact hdsp
      · exact htelemetry
    rw [hentitled, List.count_nil, List.countP_nil, Nat.zero_add, Nat.add_zero]
  have hblock : ∀ {pc : DspPc} {block}, pc.block? = some block → pc.entitled = true := by
    intro pc block h
    cases pc with
    | receiving => cases h
    | _ => rfl
  cases hmove with
  | plain hstep => exact Firmware.votes_step hstep
  | stay => exact hquiet rfl rfl rfl rfl
  | drop hpc => exact hquiet rfl (by rw [hpc]; rfl) rfl rfl
  | read hpc hpc' => exact hquiet rfl rfl ((hblock hpc').trans (hblock hpc).symm) rfl
  | complete hpc => exact hquiet rfl rfl (by rw [hpc]; rfl) rfl
  | stall => exact hquiet rfl rfl rfl rfl
  | fail hpc => exact hquiet rfl rfl rfl (by rw [hpc]; rfl)

/-- **Votes take progress** in every build. -/
theorem Reachable.votes (hi : Reachable fault env i) {v : Voter} (hv : v ∈ voters) :
    i.system.log.count (.kicked v.bit) + (v.entitled i.system).toNat ≤
      i.system.log.countP v.progress := by
  have hall : ∀ v ∈ voters, i.system.log.count (.kicked v.bit) + (v.entitled i.system).toNat ≤
      i.system.log.countP v.progress := by
    obtain ⟨actions, hrun⟩ := hi
    refine Transition.run_invariant (step fault env) (I := fun i => ∀ v ∈ voters,
      i.system.log.count (.kicked v.bit) + (v.entitled i.system).toNat ≤
        i.system.log.countP v.progress) ?_ ?_ hrun
    · intro i a i' h hstep v hv
      obtain ⟨events, hlog, hle⟩ := votes_move (injectedStep_of_step hstep).move
      have hbefore := h v hv
      have hmore := hle v hv
      rw [hlog, List.count_append, List.countP_append]
      omega
    · simp [voters, init, Firmware.init]
  exact hall v hv

/-- The feeds of a run are covered by what was pending and by the votes cast in it. -/
theorem feeds_run {bit : UInt32} (hbit : bit ∈ voteBits) {actions : List Firmware.Action}
    (hrun : Transition.run (step fault env) i actions = some i') :
    ∃ events, i'.system.log = i.system.log ++ events ∧
      events.count .fed + Firmware.pending bit i'.system ≤
        Firmware.pending bit i.system + events.count (.kicked bit) := by
  refine Transition.run_invariant (step fault env) (I := fun j =>
    ∃ events, j.system.log = i.system.log ++ events ∧
      events.count .fed + Firmware.pending bit j.system ≤
        Firmware.pending bit i.system + events.count (.kicked bit)) ?_
    ⟨[], (List.append_nil _).symm, by simp⟩ hrun
  rintro j a j' ⟨events, hlog, hle⟩ hstep
  obtain ⟨more, hmore, hle'⟩ :=
    Firmware.feeds_step hbit (voteStep_move (injectedStep_of_step hstep).move)
  refine ⟨events ++ more, by rw [hmore, hlog, List.append_assoc], ?_⟩
  rw [List.count_append, List.count_append]
  omega

/-- **Feeds take progress** in every build. -/
theorem Reachable.feeds (hi : Reachable fault env i) {v : Voter} (hv : v ∈ voters) :
    i.system.log.count .fed ≤ i.system.log.countP v.progress := by
  have hbit := bit_mem_of_mem_voters hv
  have hvotes := hi.votes hv
  obtain ⟨actions, hrun⟩ := hi
  obtain ⟨events, hlog, hle⟩ := feeds_run hbit hrun
  have hstart : Firmware.pending v.bit (init env).system = 0 := by
    simp [Firmware.pending, init, Firmware.init, Flags.Any, WatchdogPc.Deciding]
  rw [show (init env).system.log = [] from rfl, List.nil_append] at hlog
  rw [← hlog] at hle
  omega

/-! ## A suspended `dsp_task` -/

/-- The other steps publish nothing, and cast no vote for `dsp_task`. -/
theorem log_of_other_step {a : Firmware.Action} (ha : ∀ elapsedCycles, a ≠ .dsp elapsedCycles)
    (h : Firmware.step env s a = some s') :
    ∃ events, s'.log = s.log ++ events ∧ .kicked healthDsp ∉ events := by
  have hnil : ∀ {t : Firmware}, t.log = s.log →
      ∃ events, t.log = s.log ++ events ∧ .kicked healthDsp ∉ events :=
    fun hlog => ⟨[], by simpa using hlog, List.not_mem_nil⟩
  have hone : ∀ {t : Firmware} {e : Event}, t.log = s.log ++ [e] → e ≠ .kicked healthDsp →
      ∃ events, t.log = s.log ++ events ∧ .kicked healthDsp ∉ events :=
    fun hlog he => ⟨_, hlog, by simpa using he.symm⟩
  cases Firmware.actionStep_of_step h with
  | dmaStore => exact hnil rfl
  | adcCallback => exact hnil rfl
  | adcError => exact hone rfl (by simp)
  | acquisition hstep =>
      cases hstep with
      | take => exact hone rfl (by simp)
      | snapshot => exact hone rfl (by simp)
      | kick => exact hone rfl (by decide)
      | _ => exact hnil rfl
  | dsp => exact absurd rfl (ha _)
  | telemetry hstep =>
      cases hstep with
      | finish => exact hone rfl (by simp)
      | kick => exact hone rfl (by decide)
      | _ => exact hnil rfl
  | watchdog hstep =>
      cases hstep with
      | sample => exact hone rfl (by simp)
      | feed => exact hone rfl (by simp)
      | withhold => exact hnil rfl

/-- Once `dsp_task` is about to suspend itself, it neither publishes nor votes. -/
theorem stalled_step (hlife : i.dspLife ≠ .running) (h : InjectedStep fault env i i') :
    i'.dspLife ≠ .running ∧ publishedResults i'.system.log = publishedResults i.system.log ∧
      ∃ events, i'.system.log = i.system.log ++ events ∧ .kicked healthDsp ∉ events := by
  have hsame : ∃ events, i.system.log = i.system.log ++ events ∧ .kicked healthDsp ∉ events :=
    ⟨[], (List.append_nil _).symm, List.not_mem_nil⟩
  have hother : ∀ {a t}, (∀ elapsedCycles, a ≠ .dsp elapsedCycles) →
      Firmware.step env i.system a = some t →
      publishedResults t.log = publishedResults i.system.log ∧
        ∃ events, t.log = i.system.log ++ events ∧ .kicked healthDsp ∉ events :=
    fun ha h => ⟨(Firmware.dsp_of_other_step ha h).2, log_of_other_step ha h⟩
  cases h with
  | @plain a t hplain h =>
      refine ⟨hlife, hother ?_ h⟩
      rintro elapsedCycles rfl
      exact hlife hplain.1
  | @offer block now => exact ⟨hlife, hother (a := .acquisition now) nofun rfl⟩
  | @attempt result address rest written =>
      exact ⟨hlife, hother (a := .telemetry written) nofun rfl⟩
  | drop => exact ⟨hlife, rfl, hsame⟩
  | fail => exact ⟨hlife, rfl, hsame⟩
  | suspended => exact ⟨hlife, rfl, hsame⟩
  | stall => exact ⟨by simp, rfl, hsame⟩
  | readFirst h => exact absurd h hlife
  | lastFirst h => exact absurd h hlife
  | readSecond h => exact absurd h hlife
  | lastSecond h => exact absurd h hlife
  | complete h => exact absurd h hlife
  | publish h => exact absurd h hlife
  | last h => exact absurd h hlife

theorem stalled_run (hlife : i.dspLife ≠ .running) {actions : List Firmware.Action}
    (hrun : Transition.run (step fault env) i actions = some i') :
    publishedResults i'.system.log = publishedResults i.system.log ∧
      ∃ events, i'.system.log = i.system.log ++ events ∧ .kicked healthDsp ∉ events := by
  have hall := Transition.run_invariant (step fault env) (I := fun j => j.dspLife ≠ .running ∧
    publishedResults j.system.log = publishedResults i.system.log ∧
      ∃ events, j.system.log = i.system.log ++ events ∧ .kicked healthDsp ∉ events) ?_
    ⟨hlife, rfl, [], (List.append_nil _).symm, List.not_mem_nil⟩ hrun
  · exact hall.2
  · rintro j a j' ⟨hlife, hpublished, events, hlog, hevents⟩ hstep
    obtain ⟨hlife', hpublished', more, hmore, hmore'⟩ :=
      stalled_step hlife (injectedStep_of_step hstep)
    refine ⟨hlife', hpublished'.trans hpublished, events ++ more, ?_, ?_⟩
    · rw [hmore, hlog, List.append_assoc]
    · rw [List.mem_append]
      exact not_or.mpr ⟨hevents, hmore'⟩

/-- The watchdog is fed on votes that are left, and on no new one of `dsp_task`. -/
theorem few_feeds (hlife : i.dspLife ≠ .running) {actions : List Firmware.Action}
    (hrun : Transition.run (step fault env) i actions = some i') :
    ∃ events, i'.system.log = i.system.log ++ events ∧ .kicked healthDsp ∉ events ∧
      events.count .fed ≤ 2 := by
  have hbit : healthDsp ∈ voteBits := by simp
  obtain ⟨-, events, hlog, hceased⟩ := stalled_run hlife hrun
  obtain ⟨events', hlog', hle⟩ := feeds_run hbit hrun
  obtain rfl : events = events' := List.append_cancel_left (hlog.symm.trans hlog')
  rw [List.count_eq_zero.mpr hceased] at hle
  have htwo := (Firmware.pending_le healthDsp i.system).1
  exact ⟨events, hlog, hceased, by omega⟩

/-- The results are counted until the last of them. -/
structure Stalling (fault : FaultInject) (i : Injected) : Prop where
  processed : i.blocksProcessed = UInt32.ofNat (publishedResults i.system.log).length
  running : i.dspLife = .running →
    (publishedResults i.system.log).length < fault.dspStallAfterBlocks.toNat
  stalled : i.dspLife ≠ .running →
    (publishedResults i.system.log).length = fault.dspStallAfterBlocks.toNat

theorem Stalling.length_le (h : Stalling fault i) :
    (publishedResults i.system.log).length ≤ fault.dspStallAfterBlocks.toNat := by
  by_cases hlife : i.dspLife = .running
  · exact Nat.le_of_lt (h.running hlife)
  · exact (h.stalled hlife).le

theorem stalling_init (hn : 0 < fault.dspStallAfterBlocks) : Stalling fault (init env) :=
  ⟨rfl, fun _ => UInt32.lt_iff_toNat_lt.mp hn, fun h => absurd rfl h⟩

/-- What a step does to the results of a running `dsp_task`. -/
theorem published_step (hn : 0 < fault.dspStallAfterBlocks) (h : InjectedStep fault env i i')
    (hlife : i.dspLife = .running) :
    (publishedResults i'.system.log = publishedResults i.system.log ∧
      i'.blocksProcessed = i.blocksProcessed ∧ i'.dspLife = .running) ∨
    (publishedResults i'.system.log).length = (publishedResults i.system.log).length + 1 ∧
      i'.blocksProcessed = i.blocksProcessed + 1 ∧
      (i'.dspLife = .running ↔ i.blocksProcessed + 1 < fault.dspStallAfterBlocks) := by
  have hpublish : ∀ {result : SpectrumResult}, (publishedResults
      (i.system.log ++ [.published result])).length =
        (publishedResults i.system.log).length + 1 := by
    intro result
    rw [publishedResults_snoc]
    exact List.length_append
  have hother : ∀ {a t}, (∀ elapsedCycles, a ≠ .dsp elapsedCycles) →
      Firmware.step env i.system a = some t →
      publishedResults t.log = publishedResults i.system.log :=
    fun ha h => (Firmware.dsp_of_other_step ha h).2
  cases h with
  | @plain a t hplain h =>
      refine .inl ⟨?_, rfl, hlife⟩
      by_cases ha : ∀ elapsedCycles, a ≠ .dsp elapsedCycles
      · exact hother ha h
      simp only [not_forall, not_not] at ha
      obtain ⟨elapsedCycles, rfl⟩ := ha
      have hnot := hplain.2.2.resolve_left (UInt32.pos_iff_ne_zero.mp hn)
      cases Firmware.result_step h with
      | analyze hpc hfresh hlog => rw [hlog]
      | complete hpc hpc' hlog => rw [hlog]
      | publish hpc => exact absurd hpc (hnot _)
      | pass hpc hlog => exact hlog
  | @offer block now => exact .inl ⟨hother (a := .acquisition now) nofun rfl, rfl, hlife⟩
  | @attempt result address rest written =>
      exact .inl ⟨hother (a := .telemetry written) nofun rfl, rfl, hlife⟩
  | publish _ _ _ hcount => exact .inr ⟨hpublish, rfl, iff_of_true hlife hcount⟩
  | last _ _ _ hcount =>
      exact .inr ⟨hpublish, rfl, iff_of_false nofun (UInt32.not_lt.mpr hcount)⟩
  | stall h => cases hlife.symm.trans h
  | suspended h => cases hlife.symm.trans h
  | _ => exact .inl ⟨rfl, rfl, hlife⟩

theorem stalling_step (hn : 0 < fault.dspStallAfterBlocks) (h : Stalling fault i)
    (hstep : InjectedStep fault env i i') (hcounted : i.dspLife ≠ .running →
      i'.blocksProcessed = i.blocksProcessed) : Stalling fault i' := by
  by_cases hlife : i.dspLife = .running
  · have hroom := h.running hlife
    have hword := fault.dspStallAfterBlocks.toNat_lt
    rcases published_step hn hstep hlife with
      ⟨hpublished, hprocessed, hlife'⟩ | ⟨hlength, hprocessed, hlife'⟩
    · rw [← hpublished] at hroom
      refine ⟨?_, fun _ => hroom, fun hnot => absurd hlife' hnot⟩
      rw [hprocessed, h.processed, hpublished]
    · have hnext : (i.blocksProcessed + 1).toNat = (publishedResults i'.system.log).length := by
        rw [h.processed, hlength, UInt32.toNat_add, UInt32.toNat_ofNat', UInt32.toNat_one]
        omega
      rw [UInt32.lt_iff_toNat_lt, hnext] at hlife'
      refine ⟨?_, hlife'.mp, fun hnot => ?_⟩
      · rw [hprocessed, h.processed, hlength, UInt32.ofNat_add]
        rfl
      · have := mt hlife'.mpr hnot
        omega
  · obtain ⟨hlife', hpublished, -⟩ := stalled_step hlife hstep
    refine ⟨?_, fun hrunning => absurd hrunning hlife', fun _ => ?_⟩
    · rw [hcounted hlife, h.processed, hpublished]
    · rw [hpublished]
      exact h.stalled hlife

/-- A suspended task counts no more. -/
theorem processed_of_stalled (h : InjectedStep fault env i i') (hlife : i.dspLife ≠ .running) :
    i'.blocksProcessed = i.blocksProcessed := by
  cases h with
  | publish h => exact absurd h hlife
  | last h => exact absurd h hlife
  | _ => rfl

theorem Reachable.stalling (hi : Reachable fault env i) (hn : 0 < fault.dspStallAfterBlocks) :
    Stalling fault i := by
  obtain ⟨actions, hrun⟩ := hi
  refine Transition.run_invariant (step fault env) (I := Stalling fault) ?_ (stalling_init hn) hrun
  intro i a i' h hstep
  have hcases := injectedStep_of_step hstep
  exact stalling_step hn h hcases (processed_of_stalled hcases)

/-- **A suspended `dsp_task` starves the watchdog.**  A build that suspends `dsp_task` behind
its n-th result publishes n results at most.  Behind the n-th there is none in any run, the
task votes no more, and the watchdog is fed twice at most. -/
theorem stalls_after (hi : Reachable fault env i) (hn : 0 < fault.dspStallAfterBlocks) :
    (publishedResults i.system.log).length ≤ fault.dspStallAfterBlocks.toNat ∧
    ((publishedResults i.system.log).length = fault.dspStallAfterBlocks.toNat →
      ∀ actions i', Transition.run (step fault env) i actions = some i' →
        publishedResults i'.system.log = publishedResults i.system.log ∧
        ∃ events, i'.system.log = i.system.log ++ events ∧ .kicked healthDsp ∉ events ∧
          events.count .fed ≤ 2) := by
  have h := hi.stalling hn
  refine ⟨h.length_le, ?_⟩
  intro hlast actions i' hrun
  have hlife : i.dspLife ≠ .running := by
    intro hlife
    have := h.running hlife
    omega
  exact ⟨(stalled_run hlife hrun).1, few_feeds hlife hrun⟩

/-- A build that suspends `dsp_task` behind its first result publishes it. -/
theorem run_stalled : ∃ i, Reachable { FaultInject.freeze with dspStallAfterBlocks := 1 }
    Firmware.silence i ∧ 0 < (publishedResults i.system.log).length := by
  let fault : FaultInject := { FaultInject.freeze with dspStallAfterBlocks := 1 }
  obtain ⟨actions, t, result, -, hrun, hpc, -, -⟩ := run_frozen fault Firmware.silence rfl rfl
  have hpublish : ∃ i, step fault Firmware.silence { init Firmware.silence with system := t }
      (.dsp 0) = some i ∧ i.system.log = t.log ++ [.published result] := by
    simp [step, dspStep, dspRunning, Firmware.dspStep, init, hpc, fault]
  obtain ⟨i, hpublish, hlog⟩ := hpublish
  refine ⟨i, ⟨_, (Transition.run_append_eq_some _).mpr
    ⟨_, hrun, Transition.run_singleton _ hpublish⟩⟩, ?_⟩
  rw [hlog, publishedResults_snoc, List.length_append]
  exact Nat.succ_pos _

/-- `dsp_task` is suspended behind its first result. -/
theorem stalls_after_first : ∃ i, Reachable
      { FaultInject.freeze with dspStallAfterBlocks := 1 } Firmware.silence i ∧
    (publishedResults i.system.log).length = 1 ∧
    ∀ actions i', Transition.run
        (step { FaultInject.freeze with dspStallAfterBlocks := 1 } Firmware.silence) i actions =
        some i' →
      publishedResults i'.system.log = publishedResults i.system.log := by
  obtain ⟨i, hi, hpos⟩ := run_stalled
  obtain ⟨hle, hlast⟩ := stalls_after hi (by decide)
  have hone : (publishedResults i.system.log).length = 1 := by
    have hle' : (publishedResults i.system.log).length ≤ 1 := hle
    omega
  exact ⟨i, hi, hone, fun actions i' hrun => (hlast hone actions i' hrun).1⟩

/-! ## Packets that are given up -/

theorem countP_isDelivered (log : List Event) :
    log.countP Event.isDelivered = (deliveredResults log).length := by
  rw [deliveredResults, List.length_filterMap_eq_countP]
  refine congrArg (List.countP · log) (funext fun e => ?_)
  cases e <;> rfl

/-- The counter between two packets that are given up. -/
theorem toNat_succ_mod {count n : UInt32} (h : (count + 1) % n ≠ 0) :
    (count + 1).toNat % n.toNat = count.toNat % n.toNat + 1 := by
  have hcount := count.toNat_lt
  have hroom : count.toNat + 1 < 2 ^ 32 := by
    by_contra hfull
    have hzero : count + 1 = 0 := by
      rw [← UInt32.toNat_inj, UInt32.toNat_add, UInt32.toNat_one, UInt32.toNat_zero]
      omega
    exact h (by rw [hzero, UInt32.zero_mod])
  have hsucc : (count + 1).toNat = count.toNat + 1 := by
    rw [UInt32.toNat_add, UInt32.toNat_one, Nat.mod_eq_of_lt hroom]
  rw [Ne, ← UInt32.toNat_inj, UInt32.toNat_mod, UInt32.toNat_zero, hsucc] at h
  rw [hsucc]
  have hdiv : (count.toNat + 1) / n.toNat = count.toNat / n.toNat := by
    rw [Nat.succ_div, if_neg (mt Nat.dvd_iff_mod_eq_zero.mp h), Nat.add_zero]
  have hbefore := Nat.div_add_mod count.toNat n.toNat
  have hafter := Nat.div_add_mod (count.toNat + 1) n.toNat
  rw [hdiv] at hafter
  omega

/-- A turn of the loop that has sent `k` packets is `k` behind a packet that was given up. -/
structure Starved (fault : FaultInject) (i : Injected) : Prop where
  sending : ∀ result todo, i.system.telemetry = .sending result todo → ∃ sent, plan = sent ++ todo ∧
    sent.length ≤ i.framesAttempted.toNat % fault.uartFailEveryNFrames.toNat
  delivered : deliveredResults i.system.log = []

theorem starved_init : Starved fault (init env) := ⟨nofun, rfl⟩

theorem Starved.not_finished (h : Starved fault i) (hn : 0 < fault.uartFailEveryNFrames)
    (hle : fault.uartFailEveryNFrames ≤ 8) (result : SpectrumResult) :
    i.system.telemetry ≠ .sending result [] := by
  intro hpc
  obtain ⟨sent, hplan, hsent⟩ := h.sending result [] hpc
  have hall : sent.length = 8 := by
    rw [List.append_nil] at hplan
    rw [← hplan]
    rfl
  have hlt := Nat.mod_lt i.framesAttempted.toNat (UInt32.lt_iff_toNat_lt.mp hn)
  have hbound : fault.uartFailEveryNFrames.toNat ≤ 8 := UInt32.le_iff_toNat_le.mp hle
  omega

theorem starved_step {w : ℕ} (hn : 0 < fault.uartFailEveryNFrames)
    (hle : fault.uartFailEveryNFrames ≤ 8) (h : Starved fault i) (hstep : SendMove fault i i' w)
    (htransmit : Firmware.TransmitStep i.system i'.system) : Starved fault i' := by
  have hnot := h.not_finished hn hle
  refine ⟨?_, ?_⟩
  · intro result todo hr
    cases hstep with
    | pass hframes hsender htelemetry =>
        rw [hframes]
        exact h.sending result todo (htelemetry.symm.trans hr)
    | begin hframes hsender hpc hpc' =>
        cases hpc'.symm.trans hr
        exact ⟨[], rfl, Nat.zero_le _⟩
    | finish hframes hsender hpc hpc' => cases hpc'.symm.trans hr
    | rest hframes hsender hpc hpc' => cases hpc'.symm.trans hr
    | @attempt result' address rest hframes hcount hwrites hpc hpc' =>
        rcases hpc' with hpc' | hpc'
        · cases hpc'.symm.trans hr
          obtain ⟨sent, hplan, hsent⟩ := h.sending _ _ hpc
          refine ⟨sent ++ [address], by rw [hplan, List.append_assoc]; rfl, ?_⟩
          rw [hframes, toNat_succ_mod hcount, List.length_append, List.length_singleton]
          omega
        · cases hpc'.symm.trans hr
    | fail hframes hcount hwrites hflag hpc hpc' => cases hpc'.symm.trans hr
  · cases htransmit with
    | offer hpublished hdelivered => rw [hdelivered, h.delivered]
    | take hlog => rw [hlog, h.delivered]
    | send hlog => rw [hlog, h.delivered]
    | finish hlog hqueue hpc => exact absurd hpc (hnot _)
    | pass hpublished hdelivered => rw [hdelivered, h.delivered]

/-- **Short failures starve the watchdog.**  When at least each eighth packet is given up, no
result is ever delivered whole, and in no run is the watchdog fed. -/
theorem short_failures_starve (hi : Reachable fault env i) (hn : 0 < fault.uartFailEveryNFrames)
    (hle : fault.uartFailEveryNFrames ≤ 8) :
    deliveredResults i.system.log = [] ∧ i.system.log.count .fed = 0 := by
  have hstarved : Starved fault i := by
    obtain ⟨actions, hrun⟩ := hi
    refine Transition.run_invariant (step fault env) (I := Starved fault) ?_ starved_init hrun
    intro i a i' h hstep
    exact starved_step hn hle h (sendMove_of_step hn hstep)
      (transmitStep_move (injectedStep_of_step hstep).move)
  refine ⟨hstarved.delivered, ?_⟩
  have hfeeds := hi.feeds (v := ⟨healthTelemetry, Event.isDelivered, fun s =>
    s.telemetry.entitled⟩) (by simp [voters])
  rw [countP_isDelivered, hstarved.delivered] at hfeeds
  exact Nat.le_zero.mp hfeeds

/-- Attempts that are not given up, when no call fails. -/
theorem run_attempts (env : Environment) (hn : 0 < fault.uartFailEveryNFrames)
    {result : SpectrumResult} {todo : List (Fin 2 × Fin 4)}
    (hpc : i.system.telemetry = .sending result todo) {n : ℕ} (hle : n ≤ todo.length)
    (hkept : ∀ k < n, (i.framesAttempted + UInt32.ofNat (k + 1)) % fault.uartFailEveryNFrames ≠ 0) :
    ∃ sender, Transition.run (step fault env) i (List.replicate n (.telemetry true)) =
      some { i with
        framesAttempted := i.framesAttempted + UInt32.ofNat n
        system := { i.system with
          telemetry := .sending result (todo.drop n), sender := sender } } := by
  induction n generalizing i todo with
  | zero =>
      refine ⟨i.system.sender, ?_⟩
      have hzero : i.framesAttempted + UInt32.ofNat 0 = i.framesAttempted := UInt32.add_zero _
      rw [hzero, List.drop_zero, ← hpc]
      rfl
  | succ n ih =>
      obtain ⟨address, rest, rfl⟩ := List.exists_cons_of_length_pos (by omega : 0 < todo.length)
      have hone : (i.framesAttempted + 1) % fault.uartFailEveryNFrames ≠ 0 :=
        hkept 0 (Nat.succ_pos n)
      have hstep : ∃ sender, step fault env i (.telemetry true) = some { i with
          framesAttempted := i.framesAttempted + 1
          system := { i.system with telemetry := .sending result rest, sender := sender } } := by
        simp only [step, telemetryStep, hpc, gt_iff_lt, hn, if_true, if_neg hone,
          Firmware.telemetryStep, sendChunk_eq]
        exact ⟨_, rfl⟩
      obtain ⟨sender, hstep⟩ := hstep
      have hshift : ∀ k, i.framesAttempted + 1 + UInt32.ofNat k =
          i.framesAttempted + UInt32.ofNat (k + 1) := by
        intro k
        rw [UInt32.add_assoc, UInt32.ofNat_add, UInt32.add_comm 1]
        rfl
      obtain ⟨sender', hrun⟩ := ih (i := { i with
          framesAttempted := i.framesAttempted + 1
          system := { i.system with telemetry := .sending result rest, sender := sender } })
        rfl (Nat.le_of_succ_le_succ hle) fun k hk => by
          rw [hshift]
          exact hkept (k + 1) (by omega)
      rw [hshift] at hrun
      exact ⟨sender', (Transition.run_cons_eq_some _).mpr ⟨_, hstep, hrun⟩⟩

/-- An attempt that is given up. -/
theorem step_giveUp (env : Environment) (hn : 0 < fault.uartFailEveryNFrames)
    {result : SpectrumResult} {address : Fin 2 × Fin 4} {rest : List (Fin 2 × Fin 4)}
    (hpc : i.system.telemetry = .sending result (address :: rest))
    (hlast : (i.framesAttempted + 1) % fault.uartFailEveryNFrames = 0) :
    ∃ i', step fault env i (.telemetry true) = some i' ∧
      i'.framesAttempted = i.framesAttempted + 1 ∧ i'.system.telemetry = .failed := by
  refine ⟨_, rfl, ?_⟩
  simp [telemetryStep, hpc, gt_iff_lt, hn, hlast]

/-- The last packet of a result is given up behind seven that were sent. -/
theorem short_failures_starve_eighth : ∃ i, Reachable
      { FaultInject.freeze with uartFailEveryNFrames := 8 } Firmware.silence i ∧
    i.framesAttempted = 8 ∧ i.system.telemetry = .failed ∧
    deliveredResults i.system.log = [] ∧ i.system.log.count .fed = 0 := by
  let fault : FaultInject := { FaultInject.freeze with uartFailEveryNFrames := 8 }
  have hn : 0 < fault.uartFailEveryNFrames := by decide
  obtain ⟨actions, i, result, hrun, -, hframes, htelemetry⟩ :=
    run_sending fault Firmware.silence rfl rfl rfl
  obtain ⟨sender, hsent⟩ := run_attempts Firmware.silence hn htelemetry (n := 7) (by decide) (by
    rw [hframes]
    decide)
  rw [hframes] at hsent
  have hlast : ((0 : UInt32) + UInt32.ofNat 7 + 1) % 8 = 0 := by decide
  obtain ⟨i', hfail, hframes', hfailed⟩ := step_giveUp Firmware.silence hn
    (i := { i with
      framesAttempted := 0 + UInt32.ofNat 7
      system := { i.system with
        telemetry := .sending result (plan.drop 7), sender := sender } }) rfl hlast
  have hreach : Reachable fault Firmware.silence i' := ⟨_, (Transition.run_append_eq_some _).mpr
    ⟨_, hrun, (Transition.run_append_eq_some _).mpr
      ⟨_, hsent, Transition.run_singleton _ hfail⟩⟩⟩
  obtain ⟨hdelivered, hfed⟩ := short_failures_starve hreach hn (by decide)
  exact ⟨i', hreach, hframes', hfailed, hdelivered, hfed⟩

end Injected

end SpectrumAnalyzer
