import SpectrumAnalyzer.Firmware.Board
import SpectrumAnalyzer.Firmware.InjectedVotes
import SpectrumAnalyzer.Firmware.Recovery

/-!
# What the watchdog guarantees

Between two resets the board is the firmware beside a timer that a feed loads anew.  A feed
takes the votes of three tasks, and a vote takes progress, so a board that goes on without a
reset makes progress; and a build that suspends `dsp_task` is reset, however its other tasks
are scheduled.

## Main definitions

* `Injected.feeds_of_run` — feeds and votes of a run.
* `runs_countdown` — between two resets.
* `progress_of_ticks` — a board that is not reset makes progress.
* `stalled_is_reset` — a build that suspends `dsp_task` is reset.
-/

namespace SpectrumAnalyzer

namespace Injected
variable {fault : FaultInject} {env : Environment} {i i' : Injected}

/-! ## Feeds and votes of a run -/

theorem watchdog_of_acquisition (now : UInt32) :
    (i.acquisitionStep fault now).system.watchdog = i.system.watchdog := by
  have hplain : (i.system.acquisitionStep now).watchdog = i.system.watchdog := by
    have h := Firmware.acquisitionStep_spec now i.system
    generalize i.system.acquisitionStep now = s' at h
    cases h <;> rfl
  rw [acquisitionStep]
  split
  · split
    · dsimp only
      split
      · rfl
      · exact hplain
    · exact hplain
  · exact hplain

theorem watchdog_of_dsp (elapsedCycles : UInt32) :
    (i.dspStep fault env elapsedCycles).system.watchdog = i.system.watchdog := by
  have hplain : (i.system.dspStep env elapsedCycles).watchdog = i.system.watchdog := by
    have h := Firmware.dspStep_spec env elapsedCycles i.system
    generalize i.system.dspStep env elapsedCycles = s' at h
    cases h <;> rfl
  rw [dspStep]
  cases i.dspLife with
  | stalling => rfl
  | suspended => rfl
  | running =>
      dsimp only
      rw [dspRunning]
      cases i.system.dsp with
      | firstPass block since reads =>
          dsimp only
          split
          · split <;> rfl
          · exact hplain
      | secondPass block since first reads =>
          dsimp only
          split
          · split <;> rfl
          · exact hplain
      | analyzed result =>
          dsimp only
          split
          · rfl
          · exact hplain
      | publishing result =>
          dsimp only
          split
          · split <;> exact hplain
          · exact hplain
      | _ => exact hplain

theorem watchdog_of_telemetry (written : Bool) :
    (i.telemetryStep fault written).system.watchdog = i.system.watchdog := by
  have hplain : (i.system.telemetryStep written).watchdog = i.system.watchdog := by
    have h := Firmware.telemetryStep_spec written i.system
    generalize i.system.telemetryStep written = s' at h
    cases h <;> rfl
  rw [telemetryStep]
  split
  · split
    · dsimp only
      split
      · rfl
      · exact hplain
    · exact hplain
  · exact hplain

theorem watchdog_of_step {a : Firmware.Action} (ha : a ≠ .watchdog)
    (h : step fault env i a = some i') : i'.system.watchdog = i.system.watchdog := by
  cases a with
  | acquisition now =>
      cases h
      exact watchdog_of_acquisition now
  | dsp elapsedCycles =>
      cases h
      exact watchdog_of_dsp elapsedCycles
  | telemetry written =>
      cases h
      exact watchdog_of_telemetry written
  | watchdog => exact absurd rfl ha
  | adcError =>
      cases h
      rfl
  | dmaStore =>
      obtain ⟨s', hs', rfl⟩ := Option.map_eq_some_iff.mp h
      obtain ⟨-, ⟨⟩⟩ := Option.ite_none_right_eq_some.mp hs'
      rfl
  | adcCallback =>
      obtain ⟨s', hs', rfl⟩ := Option.map_eq_some_iff.mp h
      obtain ⟨-, ⟨⟩⟩ := Option.ite_none_right_eq_some.mp hs'
      rfl

/-- A feed is logged when the watchdog is fed, and only then. -/
theorem fed_of_step {a : Firmware.Action} (h : step fault env i a = some i') :
    ∃ events, i'.system.log = i.system.log ++ events ∧
      events.count .fed = if i.Feeds a then 1 else 0 := by
  by_cases ha : a = .watchdog
  · subst ha
    cases h
    have hspec := Firmware.watchdogStep_spec i.system
    simp only [Feeds, true_and]
    generalize i.system.watchdogStep = s' at hspec
    cases hspec with
    | sample hpc => exact ⟨[.cleared], rfl, by simp [hpc, WatchdogPc.Deciding]⟩
    | feed hpc hfull => exact ⟨[.fed], rfl, by simp [hpc, WatchdogPc.Deciding, hfull]⟩
    | withhold hpc hfull =>
        exact ⟨[], (List.append_nil _).symm, by simp [hpc, WatchdogPc.Deciding, hfull]⟩
  · have hsame := watchdog_of_step ha h
    rw [if_neg fun hfeeds => ha hfeeds.1]
    cases voteStep_move (injectedStep_of_step h).move with
    | quiet events hlog hquiet =>
        refine ⟨events, hlog, List.count_eq_zero.mpr fun hmem => ?_⟩
        exact Bool.noConfusion (hquiet _ hmem)
    | vote hbit hlog => exact ⟨_, hlog, by simp⟩
    | sample hpc hlog => exact ⟨_, hlog, by simp⟩
    | feed hpc hfull hlog hmask hwatchdog => cases hpc.symm.trans (hsame.symm.trans hwatchdog)
    | withhold hlog => exact ⟨[], by simpa using hlog, rfl⟩

/-- **Feeds and votes of a run.**  The feeds are those that are logged, and the votes take
progress. -/
theorem feeds_of_run {actions : List Firmware.Action}
    (hrun : Transition.run (step fault env) i actions = some i') :
    ∃ events, i'.system.log = i.system.log ++ events ∧
      events.count .fed = Countdown.loadsOf (step fault env) Feeds i actions ∧
      ∀ v ∈ voters, events.count (.kicked v.bit) + (v.entitled i'.system).toNat ≤
        (v.entitled i.system).toNat + events.countP v.progress := by
  induction actions generalizing i with
  | nil =>
      cases hrun
      exact ⟨[], (List.append_nil _).symm, rfl, fun v _ => by simp⟩
  | cons a actions ih =>
      obtain ⟨j, hj, hrest⟩ := (Transition.run_cons_eq_some _).mp hrun
      obtain ⟨first, hfirst, hfed⟩ := fed_of_step hj
      obtain ⟨first', hfirst', hvotes⟩ := votes_move (injectedStep_of_step hj).move
      obtain rfl : first = first' := List.append_cancel_left (hfirst.symm.trans hfirst')
      obtain ⟨rest, hlog, hfeds, hvotes'⟩ := ih hrest
      refine ⟨first ++ rest, by rw [hlog, hfirst, List.append_assoc], ?_, ?_⟩
      · rw [List.count_append, hfed, hfeds, Countdown.loadsOf, Countdown.loadsOf, Transition.tally,
          hj, Option.elim_some]
      · intro v hv
        have hone := hvotes v hv
        have hmore := hvotes' v hv
        rw [List.count_append, List.countP_append]
        omega

end Injected

namespace Board
variable {σ : Type*} {hardware : Hardware σ} {fault : FaultInject} {b b' : Board σ} {o o' : Boot}

/-! ## Between two resets -/

/-- The ticks that a load of IWDG lasts. -/
def iwdgTicks : ℕ := iwdgReload + 1

theorem starts_step {a : Action} (hstep : step hardware fault b a = some b') :
    b.starts ≤ b'.starts ∧ (b.boot = none → b'.boot ≠ none → b.starts < b'.starts) := by
  cases boardStep_of_step hstep with
  | start => exact ⟨Nat.le_succ _, fun _ _ => Nat.lt_succ_self _⟩
  | work hboot => exact ⟨le_rfl, fun hnone => by simp [hboot] at hnone⟩
  | watchdogStart hboot => exact ⟨le_rfl, fun hnone => by simp [hboot] at hnone⟩
  | tick hboot => exact ⟨le_rfl, fun hnone => by simp [hboot] at hnone⟩
  | expire => exact ⟨le_rfl, fun _ h => absurd rfl h⟩
  | powerReset => exact ⟨le_rfl, fun _ h => absurd rfl h⟩
  | pinReset => exact ⟨le_rfl, fun _ h => absurd rfl h⟩

/-- Only a start takes the board out of reset. -/
theorem starts_run {actions : List Action}
    (hrun : Transition.run (step hardware fault) b actions = some b') :
    b.starts ≤ b'.starts ∧ (b.boot = none → b'.boot ≠ none → b.starts < b'.starts) := by
  induction actions generalizing b with
  | nil =>
      cases hrun
      exact ⟨le_rfl, fun hnone hsome => absurd hnone hsome⟩
  | cons a actions ih =>
      obtain ⟨t, ht, hrest⟩ := (Transition.run_cons_eq_some _).mp hrun
      obtain ⟨hle, hstart⟩ := starts_step ht
      obtain ⟨hle', hstart'⟩ := ih hrest
      refine ⟨hle.trans hle', fun hnone hsome => ?_⟩
      by_cases hboot : t.boot = none
      · exact Nat.lt_of_le_of_lt hle (hstart' hboot hsome)
      · exact Nat.lt_of_lt_of_le (hstart hnone hboot) hle'

/-- The ticks among the actions. -/
def ticks (actions : List Action) : ℕ :=
  actions.countP fun a => match a with
    | .tick => true
    | _ => false

section Documented
variable (hdocumented : hardware.Documented)
include hdocumented

/-- **Between two resets** the board is the firmware beside a timer. -/
theorem runs_countdown {actions : List Action}
    (hrun : Transition.run (step hardware fault) b actions = some b')
    (hstarts : b'.starts = b.starts) {left : ℕ} (hboot : b.boot = some o)
    (hguarded : o.guarded = true) (hreload : hardware.reload b.hardware = iwdgReload)
    (hcounter : hardware.counter b.hardware = some left) (hboot' : b'.boot = some o') :
    ∃ left' timed,
      Transition.run (Countdown.step (Injected.step fault o.env) Injected.Feeds iwdgTicks)
        ⟨o.system, left + 1⟩ timed = some ⟨o'.system, left' + 1⟩ ∧
      Countdown.ticks timed = ticks actions := by
  induction actions generalizing b o left with
  | nil =>
      cases hrun
      cases hboot.symm.trans hboot'
      exact ⟨left, [], rfl, rfl⟩
  | cons a actions ih =>
      obtain ⟨t, ht, hrest⟩ := (Transition.run_cons_eq_some _).mp hrun
      obtain ⟨hle, -⟩ := starts_step ht
      obtain ⟨hle', hstart'⟩ := starts_run hrest
      -- the board is not reset
      have hrunning : t.boot ≠ none := by
        intro hnone
        have := hstart' hnone (by simp [hboot'])
        omega
      have hsame : b'.starts = t.starts := by omega
      cases boardStep_of_step ht with
      | start hnone => simp [hboot] at hnone
      | @work p a system hp hsystem =>
          cases hboot.symm.trans hp
          have hloaded : hardware.reload
                (if o.system.Feeds a then hardware.iwdgRefresh b.hardware else b.hardware) =
                iwdgReload ∧
              hardware.counter
                (if o.system.Feeds a then hardware.iwdgRefresh b.hardware else b.hardware) =
                some (if o.system.Feeds a then iwdgReload else left) := by
            split
            · rw [hdocumented.reload_refresh, hdocumented.counter_refresh _ (by simp [hcounter]),
                hreload]
              exact ⟨rfl, rfl⟩
            · exact ⟨hreload, hcounter⟩
          obtain ⟨left', timed, htimed, hticks⟩ :=
            ih hrest hsame rfl hguarded hloaded.1 hloaded.2
          refine ⟨left', .work a :: timed, ?_, ?_⟩
          · refine (Transition.run_cons_eq_some _).mpr ⟨_, ?_, htimed⟩
            simp only [Countdown.step, hsystem, Option.map_some, iwdgTicks]
            split <;> rfl
          · simp [Countdown.ticks, Countdown.Action.work?, ticks] at hticks ⊢
            exact hticks
      | watchdogStart hp hnot =>
          cases hboot.symm.trans hp
          exact absurd (hguarded.symm.trans hnot) (by decide)
      | expire => exact absurd rfl hrunning
      | tick hp hexpired =>
          cases left with
          | zero =>
              exact absurd (hexpired.symm.trans (hdocumented.expires _ hcounter))
                Bool.false_ne_true
          | succ left =>
              obtain ⟨left', timed, htimed, hticks⟩ := ih hrest hsame hboot hguarded
                ((hdocumented.reload_tick _).trans hreload) (hdocumented.counter_tick _ _ hcounter)
              refine ⟨left', .tick :: timed, ?_, ?_⟩
              · refine (Transition.run_cons_eq_some _).mpr ⟨_, ?_, htimed⟩
                simp [Countdown.step]
              · simp [Countdown.ticks, Countdown.Action.work?, ticks] at hticks ⊢
                exact hticks
      | powerReset => exact absurd rfl hrunning
      | pinReset => exact absurd rfl hrunning

/-- Many ticks without a reset take many feeds. -/
theorem feeds_of_ticks (hb : Reachable hardware fault b) {actions : List Action}
    (hrun : Transition.run (step hardware fault) b actions = some b')
    (hstarts : b'.starts = b.starts) (hboot : b.boot = some o) (hguarded : o.guarded = true)
    (hboot' : b'.boot = some o') {n : ℕ} (hn : iwdgTicks * n ≤ ticks actions) :
    ∃ as, Transition.run (Injected.step fault o.env) o.system as = some o'.system ∧
      n ≤ Countdown.loadsOf (Injected.step fault o.env) Injected.Feeds o.system as := by
  obtain ⟨hreload, left, hle, hcounter⟩ := (hb.sound hdocumented).guarded o hboot hguarded
  obtain ⟨left', timed, htimed, hticks⟩ :=
    runs_countdown hdocumented hrun hstarts hboot hguarded hreload hcounter hboot'
  exact ⟨_, Countdown.run_system htimed, Countdown.le_loadsOf (s := ⟨o.system, left + 1⟩)
    (Nat.succ_pos left) (Nat.succ_le_succ hle) htimed (hticks ▸ hn)⟩

/-- **A board that is not reset makes progress.**  When IWDG, once started, ticks 1001 n times
between two states without a reset, each task that votes has made progress n - 3 times at
least: blocks were acquired, taken from the queue, and results delivered. -/
theorem progress_of_ticks (hb : Reachable hardware fault b) {actions : List Action}
    (hrun : Transition.run (step hardware fault) b actions = some b')
    (hstarts : b'.starts = b.starts) (hboot : b.boot = some o) (hguarded : o.guarded = true)
    (hboot' : b'.boot = some o') {n : ℕ} (hn : 1001 * n ≤ ticks actions) :
    ∃ events, o'.system.system.log = o.system.system.log ++ events ∧
      ∀ v ∈ voters, n ≤ events.countP v.progress + 3 := by
  obtain ⟨as, hsystem, hfeeds⟩ :=
    feeds_of_ticks hdocumented hb hrun hstarts hboot hguarded hboot' hn
  obtain ⟨events, hlog, hfed, hvotes⟩ := Injected.feeds_of_run hsystem
  refine ⟨events, hlog, ?_⟩
  intro v hv
  have hbit := bit_mem_of_mem_voters hv
  obtain ⟨events', hlog', hcovered⟩ := Injected.feeds_run hbit hsystem
  obtain rfl : events = events' := List.append_cancel_left (hlog.symm.trans hlog')
  have hpending := (Firmware.pending_le v.bit o.system.system).1
  have hentitled := Bool.toNat_le (v.entitled o.system.system)
  have hvote := hvotes v hv
  omega

/-- **A build that suspends `dsp_task` is reset.**  From its last result on IWDG, once started,
ticks less than 3003 times before it resets the board. -/
theorem stalled_is_reset (hb : Reachable hardware fault b) (hn : 0 < fault.dspStallAfterBlocks)
    {actions : List Action} (hrun : Transition.run (step hardware fault) b actions = some b')
    (hstarts : b'.starts = b.starts) (hboot : b.boot = some o) (hguarded : o.guarded = true)
    (hboot' : b'.boot = some o')
    (hlast : (publishedResults o.system.system.log).length = fault.dspStallAfterBlocks.toNat) :
    ticks actions < 3003 := by
  by_contra hlong
  have hthree : iwdgTicks * 3 ≤ ticks actions := Nat.not_lt.mp hlong
  obtain ⟨as, hsystem, hfeeds⟩ :=
    feeds_of_ticks hdocumented hb hrun hstarts hboot hguarded hboot' hthree
  have hlife : o.system.dspLife ≠ .running := by
    intro hlife
    have hfew := (((hb.sound hdocumented).system o hboot).stalling hn).running hlife
    omega
  obtain ⟨events, hlog, -, htwo⟩ := Injected.few_feeds hlife hsystem
  obtain ⟨events', hlog', hfed, -⟩ := Injected.feeds_of_run hsystem
  obtain rfl : events = events' := List.append_cancel_left (hlog.symm.trans hlog')
  omega

end Documented

/-! ## Boards that go on -/

theorem ticks_append (as bs : List Action) : ticks (as ++ bs) = ticks as + ticks bs :=
  List.countP_append

theorem ticks_works (actions : List Firmware.Action) : ticks (actions.map .work) = 0 := by
  rw [ticks, List.countP_eq_zero]
  intro a ha
  obtain ⟨c, -, rfl⟩ := List.mem_map.mp ha
  exact Bool.false_ne_true

/-- **A reset is never due.**  Whatever state a board without faults is in, its tasks can go on
in such a way that it is not reset. -/
theorem run_ticks {b : Board Registers} {flag : Bool} {left : ℕ}
    (hs : Firmware.Reachable o.env o.system.system) (hlife : o.system.dspLife = .running)
    (hboot : b.boot = some o) (hguarded : o.guarded = true)
    (hhardware : b.hardware = ⟨flag, iwdgReload, some left⟩) (n : ℕ) :
    ∃ actions b' o', Transition.run (step registers .none) b actions = some b' ∧
      b'.starts = b.starts ∧ b'.boot = some o' ∧ ticks actions = n := by
  induction n generalizing b o left with
  | zero => exact ⟨[], b, o, rfl, rfl, hboot, rfl⟩
  | succ n ih =>
      obtain ⟨feeding, t, events, hrun, hlog, hfed⟩ := Firmware.exists_feed hs
      have hsystem := Injected.run_none (s := o.system) hlife hrun
      have hloads : Countdown.loadsOf (Injected.step .none o.env) Injected.Feeds o.system feeding
          ≠ 0 := by
        obtain ⟨events', hlog', hcount, -⟩ := Injected.feeds_of_run hsystem
        obtain rfl : events = events' := List.append_cancel_left (hlog.symm.trans hlog')
        rw [← hcount]
        exact Nat.ne_of_gt (List.count_pos_iff.mpr hfed)
      have hworks := run_works registers hboot hguarded hsystem
      rw [hhardware, registers_refresh, if_neg hloads] at hworks
      let next : Boot := { o with system := { o.system with system := t } }
      have htick : step registers .none { b with
          hardware := ⟨flag, iwdgReload, some iwdgReload⟩, boot := some next } .tick =
            some { b with
              hardware := ⟨flag, iwdgReload, some (iwdgReload - 1)⟩, boot := some next } := by
        simp [step, registers, iwdgReload]
      obtain ⟨actions, b', o', hrest, hstarts, hboot', hticks⟩ := ih
        (b := { b with
          hardware := ⟨flag, iwdgReload, some (iwdgReload - 1)⟩, boot := some next })
        (o := next) (hs.run hrun) hlife rfl hguarded rfl
      refine ⟨feeding.map .work ++ .tick :: actions, b', o',
        (Transition.run_append_eq_some _).mpr ⟨_, hworks,
          (Transition.run_cons_eq_some _).mpr ⟨_, htick, hrest⟩⟩, hstarts, hboot', ?_⟩
      have hone : ticks (.tick :: actions) = ticks actions + 1 := by simp [ticks]
      rw [ticks_append, ticks_works, hone, hticks, Nat.zero_add]

/-- The board goes on for 4004 ticks. -/
theorem progress_of_ticks_silence : ∃ (b b' : Board Registers) (o o' : Boot) (events : List Event),
    Reachable registers .none b ∧ b.boot = some o ∧ o.guarded = true ∧
      b'.boot = some o' ∧ b'.starts = b.starts ∧
      o'.system.system.log = o.system.system.log ++ events ∧
      ∀ v ∈ voters, 1 ≤ events.countP v.progress := by
  have hb : Transition.run (step registers .none) (init registers)
      [.start Firmware.silence, .watchdogStart] = some (started Firmware.silence [.power] 1) :=
    run_start Firmware.silence rfl rfl
  have hs : Firmware.Reachable Firmware.silence (Firmware.init Firmware.silence) := ⟨[], rfl⟩
  obtain ⟨actions, b', o', hrun, hstarts, hboot', hticks⟩ :=
    run_ticks (b := started Firmware.silence [.power] 1)
      (o := ⟨Firmware.silence, [.power], .init Firmware.silence, true⟩) hs rfl rfl rfl rfl 4004
  obtain ⟨events, hlog, hprogress⟩ := progress_of_ticks registers_documented ⟨_, hb⟩ hrun hstarts
    rfl rfl hboot' (n := 4) hticks.ge
  refine ⟨_, b', _, o', events, ⟨_, hb⟩, rfl, rfl, hboot', hstarts, hlog, ?_⟩
  intro v hv
  have := hprogress v hv
  omega

/-- Behind its only result the board does not go on for 3003 ticks. -/
theorem stalled_is_reset_first : ∃ b o, Reachable registers
      { FaultInject.freeze with dspStallAfterBlocks := 1 } b ∧ b.boot = some o ∧
    o.guarded = true ∧ (publishedResults o.system.system.log).length = 1 ∧
    ∀ actions b', Transition.run
      (step registers { FaultInject.freeze with dspStallAfterBlocks := 1 }) b actions = some b' →
      b'.starts = b.starts → b'.boot ≠ none → ticks actions < 3003 := by
  let fault : FaultInject := { FaultInject.freeze with dspStallAfterBlocks := 1 }
  obtain ⟨i, ⟨actions, hrun⟩, hpos⟩ := Injected.run_stalled
  have hstart : Transition.run (step registers fault) (init registers)
      [.start Firmware.silence, .watchdogStart] = some (started Firmware.silence [.power] 1) :=
    run_start Firmware.silence rfl rfl
  have hworks := run_works registers (b := started Firmware.silence [.power] 1)
    rfl rfl hrun
  have hb := (Transition.run_append_eq_some _).mpr ⟨_, hstart, hworks⟩
  have hlast : (publishedResults i.system.log).length = 1 := by
    have hle := (Injected.Reachable.stalling ⟨actions, hrun⟩ (by decide)).length_le
    exact Nat.le_antisymm hle hpos
  refine ⟨_, _, ⟨_, hb⟩, rfl, rfl, hlast, ?_⟩
  intro later b' hlater hstarts hboot'
  obtain ⟨o', ho'⟩ := Option.ne_none_iff_exists'.mp hboot'
  exact stalled_is_reset registers_documented ⟨_, hb⟩ (by decide) hlater hstarts rfl rfl ho' hlast

end Board

end SpectrumAnalyzer
