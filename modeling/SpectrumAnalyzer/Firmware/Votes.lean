import SpectrumAnalyzer.Firmware.Ownership

/-!
# Votes for the watchdog

`health_mask` collects the votes of three tasks, and `watchdog_task` samples and clears it
in one critical section before it decides whether to feed.  A vote takes progress: a task
that has voted has to acquire, dequeue or deliver something before it votes again.  So no
task can carry more feeds than it has progressed.

The feed itself is outside the critical section.  A task may vote for the last time
between a sample and the feed that follows from it, and that vote can carry one feed more.

## Main definitions

* `VoteStep` — what a step does to votes, mask and watchdog.
* `Window` — the events since the mask was last cleared.
* `FedOnVotes` — all tasks had voted in the window that was sampled.
* `pending` — the feeds that the votes of a task can still carry.
* `watchdog_fed_on_progress` — every feed, in every run.
-/

namespace SpectrumAnalyzer

/-- The bits of the tasks that vote. -/
def voteBits : List UInt32 := [healthAcquisition, healthDsp, healthTelemetry]

@[simp] theorem mem_voteBits {bit : UInt32} :
    bit ∈ voteBits ↔ bit = healthAcquisition ∨ bit = healthDsp ∨ bit = healthTelemetry := by
  simp [voteBits]

/-- An event of the mask or of the watchdog. -/
def Event.isVote : Event → Bool
  | .kicked _ => true
  | .cleared => true
  | .fed => true
  | _ => false

namespace Firmware
variable {env : Environment} {s s' : Firmware}

/-- What a step does to votes, mask and watchdog. -/
inductive VoteStep (s s' : Firmware) : Prop where
  | quiet (events : List Event) (hlog : s'.log = s.log ++ events)
      (hquiet : ∀ e ∈ events, e.isVote = false) (hmask : s'.healthMask = s.healthMask)
      (hwatchdog : s'.watchdog = s.watchdog)
  | vote {bit : UInt32} (hbit : bit ∈ voteBits) (hlog : s'.log = s.log ++ [.kicked bit])
      (hmask : s'.healthMask = s.healthMask ||| bit) (hwatchdog : s'.watchdog = s.watchdog)
  | sample (hpc : s.watchdog = .waiting) (hlog : s'.log = s.log ++ [.cleared])
      (hmask : s'.healthMask = 0) (hwatchdog : s'.watchdog = .observed s.healthMask)
  | feed {mask : UInt32} (hpc : s.watchdog = .observed mask)
      (hfull : mask &&& healthRequired = healthRequired) (hlog : s'.log = s.log ++ [.fed])
      (hmask : s'.healthMask = s.healthMask) (hwatchdog : s'.watchdog = .waiting)
  | withhold (hlog : s'.log = s.log) (hmask : s'.healthMask = s.healthMask)
      (hwatchdog : s'.watchdog = .waiting)

theorem voteStep_of_step {a : Action} (h : step env s a = some s') : VoteStep s s' := by
  have hsame : ∀ {t : Firmware}, t.log = s.log → t.healthMask = s.healthMask →
      t.watchdog = s.watchdog → VoteStep s t :=
    fun hlog hmask hwatchdog => .quiet [] (by simpa using hlog) nofun hmask hwatchdog
  have hone : ∀ {t : Firmware} {e : Event}, t.log = s.log ++ [e] → e.isVote = false →
      t.healthMask = s.healthMask → t.watchdog = s.watchdog → VoteStep s t :=
    fun hlog he hmask hwatchdog => .quiet _ hlog (by simpa using he) hmask hwatchdog
  cases actionStep_of_step h with
  | dmaStore => exact hsame rfl rfl rfl
  | adcCallback => exact hsame rfl rfl rfl
  | adcError => exact hone rfl rfl rfl rfl
  | acquisition hstep =>
      cases hstep with
      | take => exact hone rfl rfl rfl rfl
      | snapshot => exact hone rfl rfl rfl rfl
      | kick => exact .vote (by simp) rfl rfl rfl
      | _ => exact hsame rfl rfl rfl
  | dsp hstep =>
      cases hstep with
      | receive => exact hone rfl rfl rfl rfl
      | accept => exact hone rfl rfl rfl rfl
      | publish => exact hone rfl rfl rfl rfl
      | kick => exact .vote (by simp) rfl rfl rfl
      | _ => exact hsame rfl rfl rfl
  | telemetry hstep =>
      cases hstep with
      | finish => exact hone rfl rfl rfl rfl
      | kick => exact .vote (by simp) rfl rfl rfl
      | _ => exact hsame rfl rfl rfl
  | watchdog hstep =>
      cases hstep with
      | sample hpc => exact .sample hpc rfl rfl rfl
      | feed hpc hfull => exact .feed hpc hfull rfl rfl rfl
      | withhold => exact .withhold rfl rfl rfl

end Firmware

/-! ## Feeds that are still possible -/

/-- The watchdog has sampled all votes and is about to feed. -/
def WatchdogPc.Deciding : WatchdogPc → Prop
  | .waiting => False
  | .observed mask => mask &&& healthRequired = healthRequired

instance (pc : WatchdogPc) : Decidable pc.Deciding :=
  match pc with
  | .waiting => inferInstanceAs (Decidable False)
  | .observed _ => inferInstanceAs (Decidable (_ = _))

/-- A full mask has every vote. -/
theorem any_of_full {mask bit : UInt32} (hbit : bit ∈ voteBits)
    (hfull : mask &&& healthRequired = healthRequired) : Flags.Any bit mask := by
  have hrequired : healthRequired &&& bit = bit ∧ bit ≠ 0 := by
    rcases mem_voteBits.mp hbit with rfl | rfl | rfl <;> decide
  rw [Flags.Any, ← hrequired.1, ← UInt32.and_assoc, hfull, hrequired.1]
  exact hrequired.2

theorem any_bit_iff {bit bit' : UInt32} (hbit : bit ∈ voteBits) (hbit' : bit' ∈ voteBits) :
    Flags.Any bit bit' ↔ bit = bit' := by
  rcases mem_voteBits.mp hbit with rfl | rfl | rfl <;>
    rcases mem_voteBits.mp hbit' with rfl | rfl | rfl <;> decide

namespace Firmware
variable {env : Environment} {s s' : Firmware}

/-- The feeds that the votes of a task can still carry. -/
def pending (bit : UInt32) (s : Firmware) : ℕ :=
  (if Flags.Any bit s.healthMask then 1 else 0) + if s.watchdog.Deciding then 1 else 0

/-- **One step.**  A feed uses up a vote of every task. -/
theorem feeds_step {bit : UInt32} (hbit : bit ∈ voteBits) (h : VoteStep s s') :
    ∃ events, s'.log = s.log ++ events ∧
      events.count .fed + pending bit s' ≤ pending bit s + events.count (.kicked bit) := by
  cases h with
  | quiet events hlog hquiet hmask hwatchdog =>
      refine ⟨events, hlog, ?_⟩
      have hfed : events.count .fed = 0 := by
        rw [List.count_eq_zero]
        intro hmem
        cases hquiet _ hmem
      rw [hfed, pending, pending, hmask, hwatchdog]
      omega
  | @vote bit' hbit' hlog hmask hwatchdog =>
      refine ⟨_, hlog, ?_⟩
      rw [pending, pending, hmask, hwatchdog]
      simp only [Flags.any_or, any_bit_iff hbit hbit']
      by_cases heq : bit = bit'
      · simp [heq]
        omega
      · simp [heq, Ne.symm heq]
  | sample hpc hlog hmask hwatchdog =>
      refine ⟨_, hlog, ?_⟩
      have hempty : ¬ Flags.Any bit 0 := by simp [Flags.Any]
      rw [pending, pending, hmask, hwatchdog, hpc, if_neg hempty]
      by_cases hfull : s.healthMask &&& healthRequired = healthRequired
      · simp [WatchdogPc.Deciding, hfull, any_of_full hbit hfull]
      · simp [WatchdogPc.Deciding, hfull]
  | feed hpc hfull hlog hmask hwatchdog =>
      refine ⟨_, hlog, ?_⟩
      rw [pending, pending, hmask, hwatchdog, hpc]
      simp [WatchdogPc.Deciding, hfull]
      omega
  | withhold hlog hmask hwatchdog =>
      refine ⟨[], by simpa using hlog, ?_⟩
      rw [pending, pending, hmask, hwatchdog]
      simp [WatchdogPc.Deciding]

/-- **A run.**  Its feeds are covered by what was pending and by the votes cast in it. -/
theorem feeds_run {bit : UInt32} (hbit : bit ∈ voteBits) {actions : List Action}
    (hrun : Transition.run (step env) s actions = some s') :
    ∃ events, s'.log = s.log ++ events ∧
      events.count .fed + pending bit s' ≤ pending bit s + events.count (.kicked bit) := by
  refine Transition.run_invariant (step env) (I := fun t => ∃ events, t.log = s.log ++ events ∧
    events.count .fed + pending bit t ≤ pending bit s + events.count (.kicked bit)) ?_
    ⟨[], (List.append_nil _).symm, by simp⟩ hrun
  rintro t a t' ⟨events, hlog, hle⟩ hstep
  obtain ⟨more, hmore, hle'⟩ := feeds_step hbit (voteStep_of_step hstep)
  refine ⟨events ++ more, by rw [hmore, hlog, List.append_assoc], ?_⟩
  rw [List.count_append, List.count_append]
  omega

end Firmware

/-! ## Votes take progress -/

/-- What entitles `acquisition_task` to a vote. -/
@[simp] def Event.isAcquired : Event → Bool
  | .acquired _ => true
  | _ => false

/-- What entitles `dsp_task` to a vote. -/
@[simp] def Event.isReceived : Event → Bool
  | .received _ => true
  | _ => false

/-- What entitles `telemetry_task` to a vote. -/
@[simp] def Event.isDelivered : Event → Bool
  | .delivered _ => true
  | _ => false

/-- Behind `platform_adc_wait_block`, before the vote. -/
@[simp] def AcquisitionPc.entitled : AcquisitionPc → Bool
  | .acquired _ => true
  | .checked _ => true
  | .flagging _ => true
  | .sending _ => true
  | .dropping _ => true
  | .kicking => true
  | _ => false

/-- Behind the queue, before the vote. -/
@[simp] def DspPc.entitled : DspPc → Bool
  | .receiving => false
  | _ => true

/-- Behind the last packet, before the vote. -/
@[simp] def TelemetryPc.entitled : TelemetryPc → Bool
  | .kicking => true
  | _ => false

/-- A task that votes, its progress, and whether it is entitled to a vote. -/
structure Voter where
  bit : UInt32
  progress : Event → Bool
  entitled : Firmware → Bool

/-- The three tasks. -/
def voters : List Voter :=
  [⟨healthAcquisition, Event.isAcquired, fun s => s.acquisition.entitled⟩,
    ⟨healthDsp, Event.isReceived, fun s => s.dsp.entitled⟩,
    ⟨healthTelemetry, Event.isDelivered, fun s => s.telemetry.entitled⟩]

namespace Firmware
variable {env : Environment} {s s' : Firmware}

/-- **One step.**  A vote uses up the entitlement that progress has earned. -/
theorem votes_step {a : Action} (h : step env s a = some s') :
    ∃ events, s'.log = s.log ++ events ∧ ∀ v ∈ voters,
      events.count (.kicked v.bit) + (v.entitled s').toNat ≤
        (v.entitled s).toNat + events.countP v.progress := by
  have hvoters : ∀ {P : Voter → Prop}, (∀ v ∈ voters, P v) ↔
      P ⟨healthAcquisition, Event.isAcquired, fun s => s.acquisition.entitled⟩ ∧
      P ⟨healthDsp, Event.isReceived, fun s => s.dsp.entitled⟩ ∧
      P ⟨healthTelemetry, Event.isDelivered, fun s => s.telemetry.entitled⟩ := by
    intro P
    simp [voters]
  have hquiet : ∀ {t : Firmware}, t.log = s.log → t.acquisition.entitled = s.acquisition.entitled →
      t.dsp.entitled = s.dsp.entitled → t.telemetry.entitled = s.telemetry.entitled →
      ∃ events, t.log = s.log ++ events ∧ ∀ v ∈ voters,
        events.count (.kicked v.bit) + (v.entitled t).toNat ≤
          (v.entitled s).toNat + events.countP v.progress := by
    intro t hlog hacquisition hdsp htelemetry
    refine ⟨[], by simpa using hlog, hvoters.mpr ?_⟩
    simp only [hacquisition, hdsp, htelemetry, List.count_nil, List.countP_nil, Nat.zero_add,
      Nat.add_zero, le_refl, and_self]
  cases actionStep_of_step h with
  | dmaStore => exact hquiet rfl rfl rfl rfl
  | adcCallback => exact hquiet rfl rfl rfl rfl
  | adcError => exact ⟨_, rfl, hvoters.mpr (by simp)⟩
  | acquisition hstep =>
      cases hstep with
      | take hpc => exact ⟨_, rfl, hvoters.mpr (by simp [hpc])⟩
      | snapshot hpc => exact ⟨_, rfl, hvoters.mpr (by simp [hpc])⟩
      | kick hpc => exact ⟨_, rfl, hvoters.mpr (by simp +decide [healthKick, hpc])⟩
      | _ => exact hquiet rfl (by simp [*]) rfl rfl
  | dsp hstep =>
      cases hstep with
      | idle => exact hquiet rfl rfl rfl rfl
      | receive hpc => exact ⟨_, rfl, hvoters.mpr (by simp [hpc])⟩
      | accept hpc => exact ⟨_, rfl, hvoters.mpr (by simp [hpc])⟩
      | publish hpc => exact ⟨_, rfl, hvoters.mpr (by simp [hpc])⟩
      | kick hpc => exact ⟨_, rfl, hvoters.mpr (by simp +decide [healthKick, hpc])⟩
      | reject hpc =>
          refine hquiet rfl rfl ?_ rfl
          rcases hpc with hpc | ⟨since, first, second, hpc⟩ <;> simp [hpc]
      | _ => exact hquiet rfl rfl (by simp [*]) rfl
  | telemetry hstep =>
      cases hstep with
      | idle => exact hquiet rfl rfl rfl rfl
      | finish hpc => exact ⟨_, rfl, hvoters.mpr (by simp [hpc])⟩
      | kick hpc => exact ⟨_, rfl, hvoters.mpr (by simp +decide [healthKick, hpc])⟩
      | _ => exact hquiet rfl rfl rfl (by simp [*])
  | watchdog hstep =>
      cases hstep with
      | sample => exact ⟨_, rfl, hvoters.mpr (by simp)⟩
      | feed => exact ⟨_, rfl, hvoters.mpr (by simp)⟩
      | withhold => exact hquiet rfl rfl rfl rfl

theorem Reachable.votes_le (hs : Reachable env s) {v : Voter} (hv : v ∈ voters) :
    s.log.count (.kicked v.bit) ≤ s.log.countP v.progress := by
  obtain ⟨actions, hrun⟩ := hs
  have hall : ∀ v ∈ voters,
      s.log.count (.kicked v.bit) + (v.entitled s).toNat ≤ s.log.countP v.progress := by
    refine Transition.run_invariant (step env) (I := fun s => ∀ v ∈ voters,
      s.log.count (.kicked v.bit) + (v.entitled s).toNat ≤ s.log.countP v.progress) ?_ ?_ hrun
    · intro s a s' h hstep v hv
      obtain ⟨events, hlog, hle⟩ := votes_step hstep
      have hbefore := h v hv
      have hmore := hle v hv
      rw [hlog, List.count_append, List.countP_append]
      omega
    · simp [voters, init]
  have hone := hall v hv
  omega

theorem Reachable.feeds_le (hs : Reachable env s) {v : Voter} (hv : v ∈ voters) :
    s.log.count .fed ≤ s.log.countP v.progress := by
  have hbit : v.bit ∈ voteBits := by
    have hbits : voters.map Voter.bit = voteBits := rfl
    rw [← hbits]
    exact List.mem_map_of_mem hv
  have hvotes := hs.votes_le hv
  obtain ⟨actions, hrun⟩ := hs
  obtain ⟨events, hlog, hle⟩ := feeds_run hbit hrun
  have hstart : pending v.bit (init env) = 0 := by
    simp [pending, init, Flags.Any, WatchdogPc.Deciding]
  rw [show (init env).log = [] from rfl, List.nil_append] at hlog
  rw [← hlog] at hle
  omega

/-! ## The window behind a feed -/

/-- The events since the mask was last cleared, or since the start. -/
def Window (log votes : List Event) : Prop :=
  ∃ before, log = before ++ votes ∧ .cleared ∉ votes ∧
    (before = [] ∨ before.getLast? = some .cleared)

theorem Window.snoc {log votes events : List Event} (h : Window log votes)
    (hevents : .cleared ∉ events) : Window (log ++ events) (votes ++ events) := by
  obtain ⟨before, rfl, hvotes, hbefore⟩ := h
  exact ⟨before, List.append_assoc _ _ _, by simp [hvotes, hevents], hbefore⟩

theorem Window.cleared (log : List Event) : Window (log ++ [.cleared]) [] :=
  ⟨log ++ [.cleared], (List.append_nil _).symm, nofun, .inr (by simp)⟩

/-- The mask was last cleared when it had collected votes of the tasks of `bits`, all cast
since the clearing before. -/
def Sampled (bits : List UInt32) (log : List Event) : Prop :=
  ∃ earlier votes after, log = earlier ++ .cleared :: after ∧ .cleared ∉ after ∧
    Window earlier votes ∧ ∀ bit ∈ bits, .kicked bit ∈ votes

theorem Sampled.snoc {bits : List UInt32} {log events : List Event} (h : Sampled bits log)
    (hevents : .cleared ∉ events) : Sampled bits (log ++ events) := by
  obtain ⟨earlier, votes, after, rfl, hafter, hwindow, hvotes⟩ := h
  exact ⟨earlier, votes, after ++ events, by simp, by simp [hafter, hevents], hwindow, hvotes⟩

/-- What mask, sample and past feeds rest on. -/
structure Counted (s : Firmware) : Prop where
  mask : ∃ votes, Window s.log votes ∧
    ∀ bit ∈ voteBits, Flags.Any bit s.healthMask → .kicked bit ∈ votes
  sample : s.watchdog.Deciding → Sampled voteBits s.log
  feeds : ∀ past future, s.log = past ++ .fed :: future → Sampled voteBits past

/-- A feed in a longer log is the last event, or was in the log before. -/
theorem fed_split {log events past future : List Event}
    (h : log ++ events = past ++ .fed :: future) :
    (∃ future', log = past ++ .fed :: future') ∨ ∃ front back, past = log ++ front ∧
      events = front ++ .fed :: back := by
  rcases List.append_eq_append_iff.mp h with ⟨front, hpast, hevents⟩ | ⟨middle, hlog, hrest⟩
  · exact .inr ⟨front, future, hpast, hevents⟩
  · cases middle with
    | nil => exact .inr ⟨[], future, by simpa using hlog.symm, by simpa using hrest.symm⟩
    | cons e middle =>
        obtain ⟨rfl, -⟩ := List.cons.inj hrest
        exact .inl ⟨middle, hlog⟩

/-- A step that adds no feed leaves the past of every feed alone. -/
theorem Counted.feeds_snoc (h : Counted s) {events : List Event} (hfed : .fed ∉ events)
    (past future : List Event) (hsplit : s.log ++ events = past ++ .fed :: future) :
    Sampled voteBits past := by
  rcases fed_split hsplit with ⟨future', hlog⟩ | ⟨front, back, -, hevents⟩
  · exact h.feeds past future' hlog
  · exact absurd (hevents ▸ by simp) hfed

theorem counted_init : Counted (init env) where
  mask := ⟨[], ⟨[], rfl, nofun, .inl rfl⟩, by simp [init, Flags.Any]⟩
  sample := nofun
  feeds := by
    intro past future h
    cases past <;> cases h

/-- **One step** keeps account of the votes. -/
theorem counted_step (h : Counted s) (hstep : VoteStep s s') : Counted s' := by
  obtain ⟨votes, hwindow, hvotes⟩ := h.mask
  cases hstep with
  | quiet events hlog hquiet hmask hwatchdog =>
      have hcleared : .cleared ∉ events := by
        intro hmem
        cases hquiet _ hmem
      have hfed : .fed ∉ events := by
        intro hmem
        cases hquiet _ hmem
      refine ⟨⟨votes ++ events, ?_, ?_⟩, ?_, ?_⟩
      · rw [hlog]
        exact hwindow.snoc hcleared
      · rw [hmask]
        exact fun bit hbit hany => List.mem_append_left _ (hvotes bit hbit hany)
      · rw [hlog, hwatchdog]
        exact fun hdeciding => (h.sample hdeciding).snoc hcleared
      · rw [hlog]
        exact h.feeds_snoc hfed
  | @vote bit' hbit' hlog hmask hwatchdog =>
      refine ⟨⟨votes ++ [.kicked bit'], ?_, ?_⟩, ?_, ?_⟩
      · rw [hlog]
        exact hwindow.snoc (by simp)
      · rw [hmask]
        intro bit hbit hany
        rcases Flags.any_or.mp hany with hold | hnew
        · exact List.mem_append_left _ (hvotes bit hbit hold)
        · rw [(any_bit_iff hbit hbit').mp hnew]
          exact List.mem_append_right _ List.mem_cons_self
      · rw [hlog, hwatchdog]
        exact fun hdeciding => (h.sample hdeciding).snoc (by simp)
      · rw [hlog]
        exact h.feeds_snoc (by simp)
  | sample hpc hlog hmask hwatchdog =>
      refine ⟨⟨[], ?_, ?_⟩, ?_, ?_⟩
      · rw [hlog]
        exact Window.cleared s.log
      · rw [hmask]
        exact fun bit _ hany => absurd hany (by simp [Flags.Any])
      · -- the votes that the mask stood for are those of the window now closed
        rw [hlog, hwatchdog]
        exact fun hfull => ⟨s.log, votes, [], rfl, List.not_mem_nil, hwindow,
          fun bit hbit => hvotes bit hbit (any_of_full hbit hfull)⟩
      · rw [hlog]
        exact h.feeds_snoc (by simp)
  | feed hpc hfull hlog hmask hwatchdog =>
      have hsampled : Sampled voteBits s.log := by
        refine h.sample ?_
        rw [hpc]
        exact hfull
      refine ⟨⟨votes ++ [.fed], ?_, ?_⟩, ?_, ?_⟩
      · rw [hlog]
        exact hwindow.snoc (by simp)
      · rw [hmask]
        exact fun bit hbit hany => List.mem_append_left _ (hvotes bit hbit hany)
      · rw [hwatchdog]
        exact False.elim
      · rw [hlog]
        intro past future hsplit
        rcases fed_split hsplit with ⟨future', hold⟩ | ⟨front, back, hpast, hevents⟩
        · exact h.feeds past future' hold
        · cases front with
          | nil => rwa [hpast, List.append_nil]
          | cons e front => simp at hevents
  | withhold hlog hmask hwatchdog =>
      refine ⟨⟨votes, ?_, ?_⟩, ?_, ?_⟩
      · rwa [hlog]
      · rwa [hmask]
      · rw [hwatchdog]
        exact False.elim
      · rw [hlog]
        exact h.feeds

theorem Reachable.counted (hs : Reachable env s) : Counted s := by
  obtain ⟨actions, hrun⟩ := hs
  exact Transition.run_invariant (step env)
    (fun _ _ _ h hstep => counted_step h (voteStep_of_step hstep)) counted_init hrun

/-! ## Delivered results -/

/-- A result counts as delivered when all of its packets were accepted. -/
structure Sent (s : Firmware) : Prop where
  sending : ∀ result todo, s.telemetry = .sending result todo → ∃ sent, plan = sent ++ todo ∧
    ∀ address ∈ sent, writeAt result true address ∈ s.sender.writes
  delivered : ∀ result, .delivered result ∈ s.log →
    ∀ channel, SpectrumAnalyzer.Delivered s.sender.writes result channel

theorem sent_telemetry {written : Bool} (h : Sent s) (hstep : TelemetryStep written s s') :
    Sent s' := by
  cases hstep with
  | idle => exact h
  | begin =>
      refine ⟨?_, h.delivered⟩
      intro r todo hr
      cases hr
      exact ⟨[], rfl, nofun⟩
  | @finish result hpc =>
      refine ⟨nofun, ?_⟩
      intro r hr
      rcases List.mem_append.mp hr with hr | hr
      · exact h.delivered r hr
      · obtain rfl : r = result := by simpa using hr
        obtain ⟨sent, hplan, hwrites⟩ := h.sending r [] hpc
        rw [List.append_nil] at hplan
        intro channel chunk
        have hall : ∀ channel chunk, (channel, chunk) ∈ plan := by decide
        exact hwrites _ (hplan ▸ hall channel chunk)
  | @send result address rest sender hpc hsent =>
      rw [sendChunk_eq] at hsent
      cases written with
      | false => cases hsent
      | true =>
          cases hsent
          refine ⟨?_, ?_⟩
          · intro r todo hr
            cases hr
            obtain ⟨sent, hplan, hwrites⟩ := h.sending _ _ hpc
            refine ⟨sent ++ [address], by rw [hplan, List.append_assoc]; rfl, ?_⟩
            intro a ha
            rcases List.mem_append.mp ha with ha | ha
            · exact List.mem_append_left _ (hwrites a ha)
            · rw [List.mem_singleton.mp ha]
              exact List.mem_append_right _ List.mem_cons_self
          · exact fun r hr channel chunk =>
              List.mem_append_left _ (h.delivered r hr channel chunk)
  | @fail result address rest sender hpc hsent =>
      refine ⟨nofun, ?_⟩
      rw [sendChunk_eq] at hsent
      cases written with
      | true => cases hsent
      | false =>
          cases hsent
          exact fun r hr channel chunk =>
            List.mem_append_left _ (h.delivered r hr channel chunk)
  | flag => exact ⟨nofun, h.delivered⟩
  | kick => exact ⟨nofun, fun r hr => h.delivered r (by simpa [healthKick] using hr)⟩

theorem sent_step {a : Action} (h : Sent s) (hstep : step env s a = some s') : Sent s' := by
  have hsame : ∀ {t : Firmware}, t.telemetry = s.telemetry → t.sender = s.sender →
      (∀ result, .delivered result ∈ t.log → .delivered result ∈ s.log) → Sent t := by
    intro t htelemetry hsender hlog
    refine ⟨?_, ?_⟩
    · rw [htelemetry, hsender]
      exact h.sending
    · rw [hsender]
      exact fun result hresult => h.delivered result (hlog result hresult)
  cases actionStep_of_step hstep with
  | dmaStore => exact hsame rfl rfl (by simp)
  | adcCallback => exact hsame rfl rfl (by simp)
  | adcError => exact hsame rfl rfl (by simp)
  | acquisition hstep =>
      cases hstep <;> exact hsame rfl rfl (by simp [healthKick])
  | dsp hstep =>
      cases hstep <;> exact hsame rfl rfl (by simp [healthKick])
  | telemetry hstep => exact sent_telemetry h hstep
  | watchdog hstep =>
      cases hstep <;> exact hsame rfl rfl (by simp)

theorem sent_init : Sent (init env) where
  sending := nofun
  delivered := by simp [init]

theorem Reachable.sent (hs : Reachable env s) : Sent s := by
  obtain ⟨actions, hrun⟩ := hs
  exact Transition.run_invariant (step env) (fun _ _ _ => sent_step) sent_init hrun

/-! ## Every run -/

theorem pending_le (bit : UInt32) (s : Firmware) :
    pending bit s ≤ 2 ∧ (¬ s.watchdog.Deciding → pending bit s ≤ 1) := by
  rw [pending]
  constructor
  · split <;> split <;> omega
  · intro h
    rw [if_neg h]
    split <;> omega

/-- **The watchdog is fed on progress only.**  Each of the three tasks had voted in the
window that a feed rests on.  There are at most as many feeds as acquired blocks, dequeued
blocks and delivered results, whose packets were all accepted.  When a task has ceased to
vote there is at most one more feed, or two if the first was decided before. -/
theorem watchdog_fed_on_progress (hs : Reachable env s) :
    (∀ past future, s.log = past ++ .fed :: future → Sampled voteBits past) ∧
    s.log.count .fed ≤ s.log.countP Event.isAcquired ∧
    s.log.count .fed ≤ s.log.countP Event.isReceived ∧
    s.log.count .fed ≤ s.log.countP Event.isDelivered ∧
    (∀ result, .delivered result ∈ s.log →
      ∀ channel, SpectrumAnalyzer.Delivered s.sender.writes result channel) ∧
    ∀ bit ∈ voteBits, ∀ actions s', Transition.run (step env) s actions = some s' →
      ∃ events, s'.log = s.log ++ events ∧ (.kicked bit ∉ events →
        events.count .fed ≤ 2 ∧ (¬ s.watchdog.Deciding → events.count .fed ≤ 1)) := by
  refine ⟨hs.counted.feeds, hs.feeds_le (.head _), hs.feeds_le (.tail _ (.head _)),
    hs.feeds_le (.tail _ (.tail _ (.head _))), hs.sent.delivered, ?_⟩
  intro bit hbit actions s' hrun
  obtain ⟨events, hlog, hle⟩ := feeds_run hbit hrun
  refine ⟨events, hlog, ?_⟩
  intro hceased
  obtain ⟨htwo, hone⟩ := pending_le bit s
  rw [List.count_eq_zero.mpr hceased] at hle
  refine ⟨by omega, ?_⟩
  intro hdeciding
  have := hone hdeciding
  omega

/-! ## A vote between sample and feed -/

/-- A published result is delivered, and two tasks vote. -/
theorem run_delivered (env : Environment) {t : Firmware} {result : SpectrumResult}
    (hpc : t.dsp = .publishing result) (htelemetry : t.telemetry = .waiting) :
    ∃ sender, Transition.run (step env) t
        ([.dsp 0, .dsp 0] ++ List.replicate 11 (.telemetry true)) = some { t with
      dsp := .receiving
      telemetry := .waiting
      resultQueue := none
      sender := sender
      healthMask := t.healthMask ||| healthDsp ||| healthTelemetry
      log := t.log ++ [.published result, .kicked healthDsp, .delivered result,
        .kicked healthTelemetry] } := by
  have hfinish := run_finish env hpc
  obtain ⟨sender, hrun⟩ := run_transmission env (s := { t with
    dsp := .receiving, resultQueue := some result, healthMask := t.healthMask ||| healthDsp
    log := t.log ++ [.published result] ++ [.kicked healthDsp] }) htelemetry rfl
  refine ⟨sender, (Transition.run_append_eq_some _).mpr ⟨_, hfinish, ?_⟩⟩
  simpa using hrun

theorem step_sample (env : Environment) {s : Firmware} (hpc : s.watchdog = .waiting) :
    step env s .watchdog = some { s with
      watchdog := .observed s.healthMask, healthMask := 0, log := s.log ++ [.cleared] } := by
  simp [step, watchdogStep, hpc]

theorem step_feed (env : Environment) {s : Firmware} {mask : UInt32}
    (hpc : s.watchdog = .observed mask) (hfull : mask &&& healthRequired = healthRequired) :
    step env s .watchdog = some { s with watchdog := .waiting, log := s.log ++ [.fed] } := by
  simp [step, watchdogStep, hpc, hfull]

/-- `acquisition_task` votes for the last time between a sample and its feed. -/
theorem run_late_vote : ∃ s actions s' events, Reachable silence s ∧
    .kicked healthAcquisition ∈ s.log ∧ Transition.run (step silence) s actions = some s' ∧
    s'.log = s.log ++ events ∧ .kicked healthAcquisition ∉ events ∧ events.count .fed = 2 := by
  have hfull : 0 ||| healthAcquisition ||| healthDsp ||| healthTelemetry = healthRequired := by
    decide
  -- the first block, and a sample that finds all votes
  obtain ⟨_, t, result, hpublication, hpc, -, ht⟩ :=
    run_publication silence (ready_init silence) rfl
  have hready := ht.ready
  obtain ⟨sender, hdelivered⟩ := run_delivered silence hpc ht.downstream.telemetry
  have hmask : t.healthMask = 0 ||| healthAcquisition := ht.votes
  rw [hmask, hfull] at hdelivered
  have hsample := step_sample silence (s := { t with
    dsp := .receiving, telemetry := .waiting, resultQueue := none, sender := sender
    healthMask := healthRequired
    log := t.log ++ [.published result, .kicked healthDsp, .delivered result,
      .kicked healthTelemetry] }) ht.downstream.watchdog
  have hreach := ((Reachable.run ⟨[], rfl⟩ hpublication).run hdelivered).snoc hsample
  -- the second block arrives before the feed
  obtain ⟨_, u, result', hpublication', hpc', -, hu⟩ := run_publication silence
    (s := { t with
      dsp := .receiving, telemetry := .waiting, resultQueue := none, sender := sender
      healthMask := 0, watchdog := .observed healthRequired
      log := t.log ++ [.published result, .kicked healthDsp, .delivered result,
        .kicked healthTelemetry] ++ [.cleared] })
    ⟨hready.position, hready.acquisition, hready.notifications, hready.overruns, hready.queue⟩ rfl
  have hfeed := step_feed silence hu.downstream.watchdog (by decide)
  obtain ⟨sender', hdelivered'⟩ := run_delivered silence
    (t := { u with watchdog := .waiting, log := u.log ++ [.fed] }) hpc' hu.downstream.telemetry
  have hall : u.healthMask ||| healthDsp ||| healthTelemetry = healthRequired := by
    rw [hu.votes]
    exact hfull
  have hsample' := step_sample silence (s := { u with
    dsp := .receiving, telemetry := .waiting, resultQueue := none, sender := sender'
    healthMask := u.healthMask ||| healthDsp ||| healthTelemetry, watchdog := .waiting
    log := u.log ++ [.fed] ++ [.published result', .kicked healthDsp, .delivered result',
      .kicked healthTelemetry] }) rfl
  have hfeed' := step_feed silence (s := { u with
    dsp := .receiving, telemetry := .waiting, resultQueue := none, sender := sender'
    healthMask := 0
    watchdog := .observed (u.healthMask ||| healthDsp ||| healthTelemetry)
    log := u.log ++ [.fed] ++ [.published result', .kicked healthDsp, .delivered result',
      .kicked healthTelemetry] ++ [.cleared] }) rfl (by rw [hall]; decide)
  obtain ⟨block, since, first, second, -, hlog⟩ := hu.log
  refine ⟨u, _, _, [.fed, .published result', .kicked healthDsp, .delivered result',
    .kicked healthTelemetry, .cleared, .fed], hreach.run hpublication', ?_,
    (Transition.run_cons_eq_some _).mpr ⟨_, hfeed, (Transition.run_append_eq_some _).mpr
      ⟨_, hdelivered', (Transition.run_cons_eq_some _).mpr ⟨_, hsample',
        Transition.run_singleton _ hfeed'⟩⟩⟩, ?_, ?_, ?_⟩
  · rw [hlog]
    simp
  · simp
  · simp +decide
  · simp

/-- A run with two feeds. -/
theorem watchdog_fed_on_progress_late : ∃ s, Reachable silence s ∧ 2 ≤ s.log.count .fed ∧
    (∀ past future, s.log = past ++ .fed :: future → Sampled voteBits past) ∧
    2 ≤ s.log.countP Event.isDelivered := by
  obtain ⟨s, actions, s', events, hs, -, hrun, hlog, -, htwo⟩ := run_late_vote
  have hfeeds : 2 ≤ s'.log.count .fed := by
    rw [hlog, List.count_append]
    omega
  obtain ⟨hsampled, -, -, hdelivered, -⟩ := watchdog_fed_on_progress (hs.run hrun)
  exact ⟨s', hs.run hrun, hfeeds, hsampled, hfeeds.trans hdelivered⟩

/-- Two feeds follow the last vote of a task. -/
theorem fed_twice_after_last_vote :
    ¬ ∀ env s bit actions s' events, Reachable env s → bit ∈ voteBits → .kicked bit ∈ s.log →
      Transition.run (step env) s actions = some s' → s'.log = s.log ++ events →
      .kicked bit ∉ events → events.count .fed ≤ 1 := by
  intro h
  obtain ⟨s, actions, s', events, hs, hkicked, hrun, hlog, hceased, htwo⟩ := run_late_vote
  have hone := h silence s healthAcquisition actions s' events hs (.head _) hkicked hrun hlog
    hceased
  omega

end Firmware

end SpectrumAnalyzer
