import SpectrumAnalyzer.Firmware.StartUp
import SpectrumAnalyzer.Firmware.Votes
import SpectrumAnalyzer.Lib.Countdown
import SpectrumAnalyzer.Platform.Iwdg

/-!
# The board

`watchdog_task` starts IWDG, and IWDG resets the board unless it is fed.  Behind each reset
`platform_init` reads whether IWDG was the cause, clears that flag, and `app_start` starts the
firmware afresh.  Nothing is known of how fast the tasks run against the ticks of IWDG, and of
IWDG and the reset flags no more than what is documented.

## Main definitions

* `Board`, `Board.step` — the board between and across resets.
* `BoardStep`, `boardStep_of_step` — what a step of the board can do.
* `ByWatchdog`, `Sound` — the causes of resets, and what is known of the board.
* `reset_cause_reported` — what a result says about the resets before it.
-/

namespace SpectrumAnalyzer

/-- `hiwdg.Init.Prescaler`. -/
def iwdgPrescaler : ℕ := 32

/-- `hiwdg.Init.Reload`. -/
def iwdgReload : ℕ := 1000

/-- The firmware since its start: what it was given, the resets between the start before and
this one, and whether `watchdog_task` has started IWDG. -/
structure Boot where
  env : Environment
  resets : List Reset
  system : Injected
  guarded : Bool

/-- The board: the peripherals, the resets since the last start, the number of starts, and the
firmware unless the board is in reset. -/
structure Board (σ : Type*) where
  hardware : σ
  resets : List Reset
  starts : ℕ
  boot : Option Boot

/-- The step calls `platform_watchdog_feed`. -/
def Injected.Feeds (i : Injected) (a : Firmware.Action) : Prop :=
  a = .watchdog ∧ i.system.watchdog.Deciding

instance : DecidableRel Injected.Feeds := fun _ _ => inferInstanceAs (Decidable (_ ∧ _))

namespace Board

/-- What can happen to the board. -/
inductive Action where
  /-- `platform_init` and `app_start`, in surroundings that may have changed. -/
  | start (env : Environment)
  /-- A step of the DMA, of a callback or of a task. -/
  | work (a : Firmware.Action)
  /-- `platform_watchdog_start`, at the start of `watchdog_task`. -/
  | watchdogStart
  /-- A tick of IWDG. -/
  | tick
  | powerReset
  | pinReset

section Hardware
variable {σ : Type*} (hardware : Hardware σ)

/-- A reset of the board. -/
def reset (cause : Reset) (b : Board σ) : Board σ :=
  { b with
    hardware := hardware.reset cause b.hardware, resets := b.resets ++ [cause], boot := none }

/-- One step of the board. -/
def step (fault : FaultInject) (b : Board σ) : Action → Option (Board σ)
  | .start env =>
      match b.boot with
      | some _ => none
      | none =>
          let env := { env with watchdogReset := hardware.iwdgrst b.hardware }
          some {
            hardware := hardware.clearResetFlags b.hardware
            resets := []
            starts := b.starts + 1
            boot := some ⟨env, b.resets, .init env, false⟩ }
  | .work a =>
      match b.boot with
      | none => none
      | some o =>
          -- `watchdog_task` enters its loop behind `platform_watchdog_start`
          if a = .watchdog ∧ o.guarded = false then none
          else (Injected.step fault o.env o.system a).map fun system =>
            { b with
              hardware :=
                if o.system.Feeds a then hardware.iwdgRefresh b.hardware else b.hardware
              boot := some { o with system := system } }
  | .watchdogStart =>
      match b.boot with
      | none => none
      | some o =>
          if o.guarded = false then
            some { b with
              hardware := hardware.iwdgInit iwdgPrescaler iwdgReload b.hardware
              boot := some { o with guarded := true } }
          else none
  | .tick =>
      match b.boot with
      | none => none
      | some _ =>
          let ticked := hardware.iwdgTick b.hardware
          if ticked.2 then some (reset hardware .iwdg { b with hardware := ticked.1 })
          else some { b with hardware := ticked.1 }
  | .powerReset => some (b.reset hardware .power)
  | .pinReset => some (b.reset hardware .pin)

/-- The board as power comes up. -/
def init : Board σ := ⟨hardware.powerUp, [.power], 0, none⟩

/-- A state that some run of the board reaches. -/
def Reachable (fault : FaultInject) (b : Board σ) : Prop :=
  ∃ actions, Transition.run (step hardware fault) (init hardware) actions = some b

/-- What a step of the board can do. -/
inductive BoardStep (fault : FaultInject) (b : Board σ) : Action → Board σ → Prop where
  | start {env : Environment} (hboot : b.boot = none) : BoardStep fault b (.start env)
      ⟨hardware.clearResetFlags b.hardware, [], b.starts + 1,
        some ⟨{ env with watchdogReset := hardware.iwdgrst b.hardware }, b.resets,
          .init { env with watchdogReset := hardware.iwdgrst b.hardware }, false⟩⟩
  | work {o : Boot} {a : Firmware.Action} {system : Injected} (hboot : b.boot = some o)
      (h : Injected.step fault o.env o.system a = some system) :
      BoardStep fault b (.work a) { b with
        hardware := if o.system.Feeds a then hardware.iwdgRefresh b.hardware else b.hardware
        boot := some { o with system := system } }
  | watchdogStart {o : Boot} (hboot : b.boot = some o) (hguarded : o.guarded = false) :
      BoardStep fault b .watchdogStart { b with
        hardware := hardware.iwdgInit iwdgPrescaler iwdgReload b.hardware
        boot := some { o with guarded := true } }
  | expire {o : Boot} (hboot : b.boot = some o)
      (hexpired : (hardware.iwdgTick b.hardware).2 = true) :
      BoardStep fault b .tick
        (reset hardware .iwdg { b with hardware := (hardware.iwdgTick b.hardware).1 })
  | tick {o : Boot} (hboot : b.boot = some o)
      (hexpired : (hardware.iwdgTick b.hardware).2 = false) :
      BoardStep fault b .tick { b with hardware := (hardware.iwdgTick b.hardware).1 }
  | powerReset : BoardStep fault b .powerReset (b.reset hardware .power)
  | pinReset : BoardStep fault b .pinReset (b.reset hardware .pin)

end Hardware

variable {σ : Type*} {hardware : Hardware σ} {fault : FaultInject} {b b' : Board σ} {o o' : Boot}

theorem boardStep_of_step {a : Action} (h : step hardware fault b a = some b') :
    BoardStep hardware fault b a b' := by
  cases a with
  | start env =>
      rw [step] at h
      split at h
      · cases h
      · next hboot =>
          cases h
          exact .start hboot
  | work a =>
      rw [step] at h
      split at h
      · cases h
      · next o hboot =>
          obtain ⟨-, h⟩ := Option.ite_none_left_eq_some.mp h
          obtain ⟨system, hsystem, rfl⟩ := Option.map_eq_some_iff.mp h
          exact .work hboot hsystem
  | watchdogStart =>
      rw [step] at h
      split at h
      · cases h
      · next o hboot =>
          obtain ⟨hguarded, ⟨⟩⟩ := Option.ite_none_right_eq_some.mp h
          exact .watchdogStart hboot hguarded
  | tick =>
      rw [step] at h
      split at h
      · cases h
      · next o hboot =>
          dsimp only at h
          split at h
          · next hexpired =>
              cases h
              exact .expire hboot hexpired
          · next hexpired =>
              cases h
              exact .tick hboot (Bool.eq_false_of_not_eq_true hexpired)
  | powerReset =>
      cases h
      exact .powerReset
  | pinReset =>
      cases h
      exact .pinReset

/-! ## Causes of resets -/

/-- IWDG has reset the board, and power has not come up since. -/
def ByWatchdog (resets : List Reset) : Prop :=
  ∃ before after, resets = before ++ .iwdg :: after ∧ .power ∉ after

theorem byWatchdog_snoc {resets : List Reset} {r : Reset} :
    ByWatchdog (resets ++ [r]) ↔ r = .iwdg ∨ r = .pin ∧ ByWatchdog resets := by
  constructor
  · rintro ⟨before, after, hsplit, hpower⟩
    rcases List.eq_nil_or_concat after with rfl | ⟨after, last, rfl⟩
    · obtain ⟨-, hlast⟩ := List.append_inj' hsplit rfl
      exact .inl (List.singleton_inj.mp hlast)
    · rw [List.concat_eq_append, ← List.cons_append, ← List.append_assoc] at hsplit
      obtain ⟨hresets, hlast⟩ := List.append_inj' hsplit rfl
      obtain rfl := List.singleton_inj.mp hlast
      simp only [List.concat_eq_append, List.mem_append, List.mem_singleton, not_or] at hpower
      cases r with
      | power => exact absurd rfl hpower.2
      | pin => exact .inr ⟨rfl, before, after, hresets, hpower.1⟩
      | iwdg => exact .inl rfl
  · rintro (rfl | ⟨rfl, before, after, rfl, hpower⟩)
    · exact ⟨resets, [], rfl, List.not_mem_nil⟩
    · exact ⟨before, after ++ [.pin], by simp, by simpa using hpower⟩

/-- What is known of the board and of the firmware on it. -/
structure Sound (hardware : Hardware σ) (fault : FaultInject) (b : Board σ) : Prop where
  iwdgrst : hardware.iwdgrst b.hardware = true ↔ ByWatchdog b.resets
  system : ∀ o, b.boot = some o → Injected.Reachable fault o.env o.system
  watchdogReset : ∀ o, b.boot = some o → (o.env.watchdogReset = true ↔ ByWatchdog o.resets)
  guarded : ∀ o, b.boot = some o → o.guarded = true →
    hardware.reload b.hardware = iwdgReload ∧
      ∃ left ≤ iwdgReload, hardware.counter b.hardware = some left

theorem sound_of_reset (hflag : hardware.iwdgrst b.hardware = true ↔ ByWatchdog b.resets)
    (hboot : b.boot = none) : Sound hardware fault b := by
  refine ⟨hflag, ?_, ?_, ?_⟩ <;> intro o ho <;> simp [hboot] at ho

section Documented
variable (hdocumented : hardware.Documented)
include hdocumented

theorem sound_init : Sound hardware fault (init hardware) := by
  refine sound_of_reset ⟨fun h => ?_, fun h => ?_⟩ rfl
  · exact absurd (hdocumented.iwdgrst_powerUp.symm.trans h) Bool.false_ne_true
  · have hpower : ByWatchdog ([] ++ [.power]) := h
    rcases byWatchdog_snoc.mp hpower with h | ⟨h, -⟩ <;> cases h

theorem sound_reset (hflag : hardware.iwdgrst b.hardware = true ↔ ByWatchdog b.resets)
    (cause : Reset) : Sound hardware fault (b.reset hardware cause) := by
  refine sound_of_reset ?_ rfl
  rw [reset, byWatchdog_snoc, ← hflag]
  cases cause with
  | power => simp [hdocumented.iwdgrst_power]
  | pin => simp [hdocumented.iwdgrst_pin]
  | iwdg => simp [hdocumented.iwdgrst_iwdg]

theorem sound_step {a : Action} (h : Sound hardware fault b)
    (hstep : step hardware fault b a = some b') : Sound hardware fault b' := by
  cases boardStep_of_step hstep with
  | @start env hboot =>
      refine ⟨?_, ?_, ?_, ?_⟩
      · rw [hdocumented.iwdgrst_clear]
        exact ⟨nofun, fun ⟨before, after, hsplit, _⟩ => by simp at hsplit⟩
      · intro o ho
        obtain rfl := Option.some.inj ho
        exact ⟨[], rfl⟩
      · intro o ho
        obtain rfl := Option.some.inj ho
        exact h.iwdgrst
      · intro o ho hguarded
        obtain rfl := Option.some.inj ho
        cases hguarded
  | @work o a system hboot hsystem =>
      refine ⟨?_, ?_, ?_, ?_⟩
      · dsimp only
        split
        · rw [hdocumented.iwdgrst_refresh]
          exact h.iwdgrst
        · exact h.iwdgrst
      · intro p hp
        obtain rfl := Option.some.inj hp
        obtain ⟨actions, hrun⟩ := h.system o hboot
        exact ⟨actions ++ [a], (Transition.run_append_eq_some _).mpr
          ⟨_, hrun, Transition.run_singleton _ hsystem⟩⟩
      · intro p hp
        obtain rfl := Option.some.inj hp
        exact h.watchdogReset o hboot
      · intro p hp hguarded
        obtain rfl := Option.some.inj hp
        obtain ⟨hreload, left, hle, hleft⟩ := h.guarded o hboot hguarded
        dsimp only
        split
        · rw [hdocumented.reload_refresh, hdocumented.counter_refresh _ (by simp [hleft]), hreload]
          exact ⟨rfl, iwdgReload, le_rfl, rfl⟩
        · exact ⟨hreload, left, hle, hleft⟩
  | @watchdogStart o hboot hguarded =>
      refine ⟨?_, ?_, ?_, ?_⟩
      · rw [hdocumented.iwdgrst_init]
        exact h.iwdgrst
      · intro p hp
        obtain rfl := Option.some.inj hp
        exact h.system o hboot
      · intro p hp
        obtain rfl := Option.some.inj hp
        exact h.watchdogReset o hboot
      · intro p hp _
        exact ⟨hdocumented.reload_init _ _ _, iwdgReload, le_rfl, hdocumented.counter_init _ _ _⟩
  | expire =>
      refine sound_reset hdocumented ?_ .iwdg
      rw [hdocumented.iwdgrst_tick]
      exact h.iwdgrst
  | @tick o hboot hexpired =>
      refine ⟨?_, h.system, h.watchdogReset, ?_⟩
      · rw [hdocumented.iwdgrst_tick]
        exact h.iwdgrst
      · intro p hp hguarded
        obtain ⟨hreload, left, hle, hleft⟩ := h.guarded p hp hguarded
        refine ⟨(hdocumented.reload_tick _).trans hreload, ?_⟩
        cases left with
        | zero =>
            exact absurd (hexpired.symm.trans (hdocumented.expires _ hleft)) Bool.false_ne_true
        | succ left => exact ⟨left, Nat.le_of_succ_le hle, hdocumented.counter_tick _ _ hleft⟩
  | powerReset => exact sound_reset hdocumented h.iwdgrst .power
  | pinReset => exact sound_reset hdocumented h.iwdgrst .pin

theorem Reachable.sound (hb : Reachable hardware fault b) : Sound hardware fault b := by
  obtain ⟨actions, hrun⟩ := hb
  exact Transition.run_invariant (step hardware fault)
    (fun _ _ _ => sound_step hdocumented) (sound_init hdocumented) hrun

/-- **The cause of the last resets is reported.**  The results of a run of the firmware carry
`WATCHDOG_RESET` if IWDG has reset the board since the start before, and power has not come up
since, and only then. -/
theorem reset_cause_reported (hb : Reachable hardware fault b) (hboot : b.boot = some o)
    {result : SpectrumResult} (hresult : result ∈ publishedResults o.system.system.log) :
    Flags.Any statusWatchdogReset result.status ↔ ByWatchdog o.resets := by
  have h := hb.sound hdocumented
  have hflag : Flags.Any statusWatchdogReset o.env.bootStatus ↔ o.env.watchdogReset = true := by
    rw [Environment.bootStatus]
    cases o.env.watchdogReset <;> cases o.env.testSignal <;> decide
  rw [Injected.start_flags (h.system o hboot) (by decide) (by decide) hresult, hflag,
    h.watchdogReset o hboot]

end Documented

/-! ## Runs of the board -/

variable (hardware) in
/-- The firmware runs on the board. -/
theorem run_works (hboot : b.boot = some o) (hguarded : o.guarded = true)
    {actions : List Firmware.Action} {i : Injected}
    (hrun : Transition.run (Injected.step fault o.env) o.system actions = some i) :
    Transition.run (step hardware fault) b (actions.map .work) = some { b with
      hardware := hardware.iwdgRefresh^[Countdown.loadsOf (Injected.step fault o.env)
        Injected.Feeds o.system actions] b.hardware
      boot := some { o with system := i } } := by
  induction actions generalizing b o with
  | nil =>
      cases hrun
      have hloads : Countdown.loadsOf (Injected.step fault o.env) Injected.Feeds o.system [] = 0 :=
        rfl
      rw [hloads, Function.iterate_zero_apply, ← hboot]
      rfl
  | cons a actions ih =>
      obtain ⟨j, hj, hrest⟩ := (Transition.run_cons_eq_some _).mp hrun
      let next : Board σ := { b with
        hardware := if o.system.Feeds a then hardware.iwdgRefresh b.hardware else b.hardware
        boot := some { o with system := j } }
      have hstep : step hardware fault b (.work a) = some next := by
        simp [step, hboot, hguarded, hj, next]
      have hlater := ih (b := next) (o := { o with system := j }) rfl hguarded hrest
      refine (Transition.run_cons_eq_some _).mpr ⟨_, hstep, hlater.trans ?_⟩
      have hloads : Countdown.loadsOf (Injected.step fault o.env) Injected.Feeds o.system
          (a :: actions) = (if o.system.Feeds a then 1 else 0) +
            Countdown.loadsOf (Injected.step fault o.env) Injected.Feeds j actions := by
        simp only [Countdown.loadsOf, Transition.tally, hj, Option.elim_some]
      rw [hloads]
      by_cases hfeeds : o.system.Feeds a
      · rw [if_pos hfeeds, Nat.add_comm, Function.iterate_add_apply]
        simp [next, hfeeds]
      · simp [next, hfeeds]

/-- IWDG expires. -/
theorem run_expire {b : Board Registers} {flag : Bool} {left : ℕ} (hboot : b.boot = some o)
    (hhardware : b.hardware = ⟨flag, iwdgReload, some left⟩) :
    Transition.run (step registers fault) b (List.replicate (left + 1) .tick) =
      some (b.reset registers .iwdg) := by
  induction left generalizing b with
  | zero =>
      refine Transition.run_singleton _ ?_
      simp [step, hboot, hhardware, registers, reset]
  | succ left ih =>
      have hstep : step registers fault b .tick =
          some { b with hardware := ⟨flag, iwdgReload, some left⟩ } := by
        simp [step, hboot, hhardware, registers]
      have hlater := ih (b := { b with hardware := ⟨flag, iwdgReload, some left⟩ }) hboot rfl
      rw [List.replicate_succ]
      refine (Transition.run_cons_eq_some _).mpr ⟨_, hstep, hlater.trans ?_⟩
      simp [reset, hhardware, registers]

/-- The board with the firmware started in it and IWDG with it. -/
def started (env : Environment) (resets : List Reset) (starts : ℕ) : Board Registers :=
  ⟨⟨false, iwdgReload, some iwdgReload⟩, [], starts, some ⟨env, resets, .init env, true⟩⟩

/-- The firmware with IWDG started. -/
theorem run_start (env : Environment) {b : Board Registers} (hboot : b.boot = none)
    (hflag : b.hardware.iwdgrst = env.watchdogReset) :
    Transition.run (step registers fault) b [.start env, .watchdogStart] =
      some (started env b.resets (b.starts + 1)) := by
  have henv : { env with watchdogReset := registers.iwdgrst b.hardware } = env := by
    rw [show registers.iwdgrst b.hardware = env.watchdogReset from hflag]
  simp only [Transition.run, step, hboot, henv, Option.bind_some, if_true]
  rfl

/-- A result is published. -/
theorem exists_published (env : Environment) : ∃ actions i result,
    Transition.run (Injected.step .none env) (.init env) actions = some i ∧
      result ∈ publishedResults i.system.log := by
  obtain ⟨actions, t, result, hrun, hpc, -, -⟩ :=
    Firmware.run_publication env (Firmware.ready_init env) rfl
  have hwhole := (Transition.run_append_eq_some _).mpr ⟨t, hrun, Firmware.run_finish env hpc⟩
  refine ⟨_, _, result, Injected.run_none (s := .init env) rfl hwhole, ?_⟩
  rw [publishedResults_snoc, publishedResults_snoc]
  simp [Event.result?]

/-- A watchdog reset shows in a result behind it. -/
theorem reset_cause_reported_silence : ∃ b o result, Reachable registers .none b ∧
    b.boot = some o ∧ o.resets = [.iwdg] ∧ result ∈ publishedResults o.system.system.log ∧
    Flags.Any statusWatchdogReset result.status := by
  let env : Environment := { Firmware.silence with watchdogReset := true }
  let running := started Firmware.silence [.power] 1
  have hfirst : Transition.run (step registers .none) (init registers)
      [.start Firmware.silence, .watchdogStart] = some running :=
    run_start Firmware.silence rfl rfl
  have hexpire : Transition.run (step registers .none) running (List.replicate 1001 .tick) =
      some (running.reset registers .iwdg) := run_expire rfl rfl
  have hagain : Transition.run (step registers .none) (running.reset registers .iwdg)
      [.start env, .watchdogStart] = some (started env [.iwdg] 2) := run_start env rfl rfl
  obtain ⟨actions, i, result, hrun, hresult⟩ := exists_published env
  have hworks := run_works registers (b := started env [.iwdg] 2) rfl rfl hrun
  have hb := (Transition.run_append_eq_some _).mpr ⟨_, hfirst,
    (Transition.run_append_eq_some _).mpr ⟨_, hexpire,
      (Transition.run_append_eq_some _).mpr ⟨_, hagain, hworks⟩⟩⟩
  refine ⟨_, _, result, ⟨_, hb⟩, rfl, rfl, hresult, ?_⟩
  rw [reset_cause_reported registers_documented ⟨_, hb⟩ rfl hresult]
  exact ⟨[], [], rfl, List.not_mem_nil⟩

end Board

end SpectrumAnalyzer
