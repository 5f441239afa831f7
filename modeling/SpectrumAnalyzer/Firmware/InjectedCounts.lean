import SpectrumAnalyzer.Firmware.InjectedFaults

/-!
# Faults by the count

Two options of `app_config.h` count: blocks until one is dropped, packets until one is given
up.  The counters are words of 32 bits, so the counts below are exact as long as they fit.

## Main definitions

* `withoutEvery` — a list without each n-th item.
* `Firmware.queued` — the blocks that have come as far as the queue.
* `OfferMove`, `Thinned` — what becomes of the blocks that are acquired.
* `SendMove`, `Failing` — what becomes of the packets.
* `drops_every_nth`, `fails_every_nth` — the two options, in every run.
-/

namespace SpectrumAnalyzer

/-- The list without each `n`-th item, counted from one. -/
def withoutEvery {α : Type*} (n : ℕ) (xs : List α) : List α :=
  ((xs.zipIdx 1).filter fun p => p.2 % n ≠ 0).map Prod.fst

theorem withoutEvery_snoc {α : Type*} (n : ℕ) (xs : List α) (x : α) :
    withoutEvery n (xs ++ [x]) =
      withoutEvery n xs ++ if (xs.length + 1) % n = 0 then [] else [x] := by
  rw [withoutEvery, withoutEvery, List.zipIdx_append, List.filter_append, List.map_append]
  congr 1
  by_cases h : (xs.length + 1) % n = 0
  · simp [h, Nat.add_comm 1]
  · simp [h, Nat.add_comm 1]

/-- A block that `acquisition_task` has acquired and not yet offered to the queue. -/
def AcquisitionPc.unsent? : AcquisitionPc → Option UInt32
  | .acquired block => some block.generation
  | .checked block => some block.generation
  | .flagging block => some block.generation
  | .sending block => some block.generation
  | _ => none

namespace Firmware
variable {s s' : Firmware}

/-- The generations that have come as far as the block queue. -/
def queued (s : Firmware) : List UInt32 :=
  publishedGenerations s.log ++
    (s.dsp.generation?.toList ++ s.blockQueue.map AdcDmaBlock.generation)

theorem queued_congr (hlog : publishedGenerations s'.log = publishedGenerations s.log)
    (hdsp : s'.dsp.generation? = s.dsp.generation?) (hqueue : s'.blockQueue = s.blockQueue) :
    s'.queued = s.queued := by
  rw [queued, queued, hlog, hdsp, hqueue]

theorem queued_sublist (hlog : publishedGenerations s'.log = publishedGenerations s.log)
    (hdsp : s'.dsp.generation? = s.dsp.generation?) (hqueue : s'.blockQueue = s.blockQueue) :
    (s'.queued).Sublist s.queued := by
  rw [queued_congr hlog hdsp hqueue]

theorem published_append_other (log : List Event) {e : Event} (h : e.published? = none) :
    publishedGenerations (log ++ [e]) = publishedGenerations log := by
  rw [published_append, h]
  exact List.append_nil _

/-- `dsp_task` passes the blocks on in order, and may lose some. -/
theorem queued_dsp (h : DspStep s s') : (s'.queued).Sublist s.queued := by
  have hsame : ∀ {t : Firmware}, t.queued = s.queued → (t.queued).Sublist s.queued := by
    intro t ht
    rw [ht]
  cases h with
  | idle => exact List.Sublist.refl _
  | @receive block rest hpc hqueue =>
      refine hsame ?_
      rw [queued, queued, published_append_other s.log rfl, hpc, hqueue]
      rfl
  | begin hpc => exact hsame (queued_congr rfl (by rw [hpc]; rfl) rfl)
  | readFirst hpc => exact hsame (queued_congr rfl (by rw [hpc]; rfl) rfl)
  | lastFirst hpc => exact hsame (queued_congr rfl (by rw [hpc]; rfl) rfl)
  | readSecond hpc => exact hsame (queued_congr rfl (by rw [hpc]; rfl) rfl)
  | lastSecond hpc => exact hsame (queued_congr rfl (by rw [hpc]; rfl) rfl)
  | accept hpc =>
      exact hsame (queued_congr (published_append_other s.log rfl) (by rw [hpc]; rfl) rfl)
  | reject hpc =>
      refine hsame (queued_congr rfl ?_ rfl)
      rcases hpc with hpc | ⟨since, first, second, hpc⟩
      · rw [hpc]
        rfl
      · rw [hpc]
        rfl
  | analyze hpc hgen => exact hsame (queued_congr rfl (by rw [hpc]; exact congrArg some hgen) rfl)
  | complete hpc hgen => exact hsame (queued_congr rfl (by rw [hpc]; exact congrArg some hgen) rfl)
  | @publish result hpc =>
      refine hsame ?_
      rw [queued, queued, published_append, hpc]
      simp [Event.published?, DspPc.generation?]
  | @flagStale block hpc =>
      rw [queued, queued, hpc]
      exact (List.sublist_cons_self _ _).append_left _
  | kick hpc =>
      exact hsame (queued_congr (published_append_other s.log rfl) (by rw [hpc]; rfl) rfl)

/-- While it offers no block, `acquisition_task` moves none. -/
theorem queued_acquisition {now : UInt32} (h : AcquisitionStep now s s')
    (hnot : ∀ block, s.acquisition ≠ .sending block) :
    s'.queued = s.queued ∧ ∃ generations,
      acquiredGenerations s'.log = acquiredGenerations s.log ++ generations ∧
        s'.acquisition.unsent?.toList = s.acquisition.unsent?.toList ++ generations := by
  have hnone : ∀ {e : Event}, e.acquired? = none →
      acquiredGenerations (s.log ++ [e]) = acquiredGenerations s.log ++ [] := by
    intro e he
    rw [acquired_append, he]
    rfl
  have hnil : acquiredGenerations s.log = acquiredGenerations s.log ++ [] :=
    (List.append_nil _).symm
  cases h with
  | take hpc =>
      exact ⟨queued_congr (published_append_other s.log rfl) rfl rfl, [], hnone rfl,
        by rw [hpc]; rfl⟩
  | snapshot hpc =>
      exact ⟨queued_congr (published_append_other s.log rfl) rfl rfl, _, acquired_append _ _,
        by rw [hpc]; rfl⟩
  | kick hpc =>
      exact ⟨queued_congr (published_append_other s.log rfl) rfl rfl, [], hnone rfl,
        by rw [hpc]; rfl⟩
  | send hpc => exact absurd hpc (hnot _)
  | full hpc => exact absurd hpc (hnot _)
  | timeout hpc => exact ⟨rfl, [], hnil, by rw [hpc]; rfl⟩
  | load hpc => exact ⟨rfl, [], hnil, by rw [hpc]; rfl⟩
  | single hpc => exact ⟨rfl, [], hnil, by rw [hpc]; rfl⟩
  | store hpc => exact ⟨rfl, [], hnil, by rw [hpc]; rfl⟩
  | check hpc => exact ⟨rfl, [], hnil, by rw [hpc]; rfl⟩
  | overrun hpc => exact ⟨rfl, [], hnil, by rw [hpc]; rfl⟩
  | noOverrun hpc => exact ⟨rfl, [], hnil, by rw [hpc]; rfl⟩
  | flag hpc => exact ⟨rfl, [], hnil, by rw [hpc]; rfl⟩
  | drop hpc => exact ⟨rfl, [], hnil, by rw [hpc]; rfl⟩
  | resume hpc => exact ⟨rfl, [], hnil, by rw [hpc]; rfl⟩

theorem acquired_dsp (h : DspStep s s') :
    acquiredGenerations s'.log = acquiredGenerations s.log := by
  have hnone : ∀ {e : Event}, e.acquired? = none →
      acquiredGenerations (s.log ++ [e]) = acquiredGenerations s.log := by
    intro e he
    rw [acquired_append, he]
    exact List.append_nil _
  cases h with
  | receive => exact hnone rfl
  | accept => exact hnone rfl
  | publish => exact hnone rfl
  | kick => exact hnone rfl
  | _ => rfl

end Firmware

namespace Injected
variable {fault : FaultInject} {env : Environment} {i i' : Injected}

/-! ## Blocks -/

/-- What a step does with the blocks that `acquisition_task` has acquired. -/
inductive OfferMove (fault : FaultInject) (i i' : Injected) : Prop where
  | pass (generations : List UInt32)
      (hacquired : acquiredGenerations i'.system.log =
        acquiredGenerations i.system.log ++ generations)
      (hunsent : i'.system.acquisition.unsent?.toList =
        i.system.acquisition.unsent?.toList ++ generations)
      (hqueued : (i'.system.queued).Sublist i.system.queued)
      (hseen : i'.blocksSeen = i.blocksSeen)
  | handle {block : AdcDmaBlock} (hpc : i.system.acquisition = .sending block)
      (hacquired : acquiredGenerations i'.system.log = acquiredGenerations i.system.log)
      (hunsent : i'.system.acquisition.unsent? = none)
      (hqueued : (i'.system.queued).Sublist (i.system.queued ++
        if (i.blocksSeen + 1) % fault.dropEveryNBlocks = 0 then [] else [block.generation]))
      (hseen : i'.blocksSeen = i.blocksSeen + 1)
      (hflags : (i.blocksSeen + 1) % fault.dropEveryNBlocks = 0 →
        Flags.Any statusFrameDropped i'.system.stickyStatus ∧
          Flags.Any statusFaultInjected i'.system.stickyStatus)

/-- A step that `acquisition_task` has no part in. -/
theorem offerMove_same
    (hacquired : acquiredGenerations i'.system.log = acquiredGenerations i.system.log)
    (hacquisition : i'.system.acquisition = i.system.acquisition)
    (hqueued : (i'.system.queued).Sublist i.system.queued)
    (hseen : i'.blocksSeen = i.blocksSeen) : OfferMove fault i i' :=
  .pass [] (by rw [hacquired, List.append_nil]) (by rw [hacquisition, List.append_nil]) hqueued
    hseen

theorem offerMove_bystander (hstep : Firmware.Bystander i.system i'.system)
    (hseen : i'.blocksSeen = i.blocksSeen) : OfferMove fault i i' := by
  obtain ⟨events, hlog, haside⟩ := hstep.log
  obtain ⟨hacquired, hpublished⟩ := Firmware.log_append_aside i.system.log haside
  rw [← hlog] at hacquired hpublished
  refine offerMove_same hacquired hstep.acquisition ?_ hseen
  rw [Firmware.queued_congr hpublished (by rw [hstep.dsp]) hstep.blockQueue]

theorem offerMove_dsp (hstep : Firmware.DspStep i.system i'.system)
    (hacquisition : i'.system.acquisition = i.system.acquisition)
    (hseen : i'.blocksSeen = i.blocksSeen) : OfferMove fault i i' :=
  offerMove_same (Firmware.acquired_dsp hstep) hacquisition (Firmware.queued_dsp hstep) hseen

/-- `dsp_task` does not look at `acquisition_task`. -/
theorem acquisition_of_dsp {s s' : Firmware} (h : Firmware.DspStep s s') :
    s'.acquisition = s.acquisition := by
  cases h <;> rfl

theorem offerMove_offer {block : AdcDmaBlock} {now : UInt32}
    (hpc : i.system.acquisition = .sending block)
    (hcount : (i.blocksSeen + 1) % fault.dropEveryNBlocks ≠ 0) :
    OfferMove fault i { i with
      blocksSeen := i.blocksSeen + 1, system := i.system.acquisitionStep now } := by
  rw [Firmware.acquisitionStep, hpc]
  dsimp only
  split
  · refine .handle hpc rfl rfl ?_ rfl (fun h => absurd h hcount)
    rw [if_neg hcount]
    have hqueued : i.system.queued ++ [block.generation] = Firmware.queued { i.system with
        acquisition := .kicking, blockQueue := i.system.blockQueue ++ [block] } := by
      simp [Firmware.queued]
    rw [hqueued]
  · refine .handle hpc rfl rfl ?_ rfl (fun h => absurd h hcount)
    exact List.sublist_append_left _ _

theorem offerMove_of_step (hn : 0 < fault.dropEveryNBlocks) (h : InjectedStep fault env i i') :
    OfferMove fault i i' := by
  have hread : ∀ {block : AdcDmaBlock} {pc : DspPc}, i.system.dsp.block? = some block →
      pc.block? = some block →
      OfferMove fault i { i with system := { i.system with dsp := pc } } := by
    intro block pc hpc hpc'
    refine offerMove_same rfl rfl (Firmware.queued_sublist rfl ?_ rfl) rfl
    exact (generation_of_block hpc').trans (generation_of_block hpc).symm
  cases h with
  | @plain a t hplain h =>
      cases Firmware.actionStep_of_step h with
      | dmaStore => exact offerMove_same rfl rfl (List.Sublist.refl _) rfl
      | adcCallback => exact offerMove_same rfl rfl (List.Sublist.refl _) rfl
      | adcError =>
          have hacquired := (Firmware.acquired_append i.system.log .adcError).trans
            (List.append_nil _)
          have hpublished := Firmware.published_append_other i.system.log (e := .adcError) rfl
          exact offerMove_same hacquired rfl (Firmware.queued_sublist hpublished rfl rfl) rfl
      | acquisition hspec =>
          have hnot := hplain.resolve_left (UInt32.pos_iff_ne_zero.mp hn)
          obtain ⟨hqueued, generations, hacquired, hunsent⟩ :=
            Firmware.queued_acquisition hspec hnot
          exact .pass generations hacquired hunsent (hqueued ▸ List.Sublist.refl _) rfl
      | dsp hspec => exact offerMove_dsp hspec (acquisition_of_dsp hspec) rfl
      | telemetry hspec => exact offerMove_bystander (Firmware.bystander_telemetry hspec) rfl
      | watchdog hspec => exact offerMove_bystander (Firmware.bystander_watchdog hspec) rfl
  | offer _ hpc hcount => exact offerMove_offer hpc hcount
  | drop _ hpc hcount =>
      refine .handle hpc rfl rfl (List.sublist_append_left _ _) rfl fun _ => ⟨?_, ?_⟩
      · exact Flags.Any.or_right (by decide) _
      · exact Flags.Any.or_right (by decide) _
  | readFirst _ _ hpc => exact hread (by rw [hpc]; rfl) rfl
  | lastFirst _ _ hpc => exact hread (by rw [hpc]; rfl) rfl
  | readSecond _ _ hpc => exact hread (by rw [hpc]; rfl) rfl
  | lastSecond _ _ hpc => exact hread (by rw [hpc]; rfl) rfl
  | complete _ _ hpc =>
      exact offerMove_same rfl rfl (Firmware.queued_sublist rfl (by rw [hpc]; rfl) rfl) rfl
  | publish _ _ hpc => exact offerMove_dsp (.publish hpc) rfl rfl
  | last _ _ hpc => exact offerMove_dsp (.publish hpc) rfl rfl
  | stall => exact offerMove_bystander (bystander_statusSet _ _) rfl
  | suspended => exact offerMove_same rfl rfl (List.Sublist.refl _) rfl
  | @attempt result address rest written =>
      exact offerMove_bystander
        (Firmware.bystander_telemetry (Firmware.telemetryStep_spec written i.system)) rfl
  | fail => exact offerMove_bystander (bystander_fail _ _) rfl

/-- The blocks that were offered so far, or dropped in their turn. -/
structure Thinned (fault : FaultInject) (i : Injected) (handled : List UInt32) : Prop where
  acquired : acquiredGenerations i.system.log =
    handled ++ i.system.acquisition.unsent?.toList
  seen : i.blocksSeen = UInt32.ofNat handled.length
  queued : (i.system.queued).Sublist (withoutEvery fault.dropEveryNBlocks.toNat handled)
  flagged : fault.dropEveryNBlocks.toNat ≤ handled.length →
    Flags.Any statusFrameDropped i.system.stickyStatus ∧
      Flags.Any statusFaultInjected i.system.stickyStatus

theorem thinned_init (hn : 0 < fault.dropEveryNBlocks) : Thinned fault (init env) [] where
  acquired := rfl
  seen := rfl
  queued := List.Sublist.refl _
  flagged := by
    intro hle
    have hpos := UInt32.lt_iff_toNat_lt.mp hn
    exact absurd hle (Nat.not_le.mpr hpos)

/-- The counter of the blocks is exact. -/
theorem count_mod {count n : UInt32} {seen : ℕ} (hcount : count = UInt32.ofNat seen)
    (hfew : seen + 1 < 2 ^ 32) : (count + 1) % n = 0 ↔ (seen + 1) % n.toNat = 0 := by
  have hsum : (count + 1).toNat = seen + 1 := by
    rw [hcount, UInt32.toNat_add, UInt32.toNat_ofNat', UInt32.toNat_one]
    omega
  rw [← UInt32.toNat_inj, UInt32.toNat_mod, hsum, UInt32.toNat_zero]

theorem thinned_step {handled : List UInt32} (hn : 0 < fault.dropEveryNBlocks)
    (h : Thinned fault i handled) (hfew : (acquiredGenerations i'.system.log).length < 2 ^ 32)
    (hstep : InjectedStep fault env i i') : ∃ handled', Thinned fault i' handled' := by
  obtain ⟨bits, hsticky, -⟩ := sticky_move hstep.move
  have hkept : fault.dropEveryNBlocks.toNat ≤ handled.length →
      Flags.Any statusFrameDropped i'.system.stickyStatus ∧
        Flags.Any statusFaultInjected i'.system.stickyStatus := by
    intro hle
    rw [hsticky]
    exact ⟨(h.flagged hle).1.or_left _, (h.flagged hle).2.or_left _⟩
  cases offerMove_of_step hn hstep with
  | pass generations hacquired hunsent hqueued hseen =>
      refine ⟨handled, ?_, hseen.trans h.seen, hqueued.trans h.queued, hkept⟩
      rw [hacquired, hunsent, h.acquired, List.append_assoc]
  | @handle block hpc hacquired hunsent hqueued hseen hflags =>
      have hall : acquiredGenerations i.system.log = handled ++ [block.generation] := by
        rw [h.acquired, hpc]
        rfl
      rw [hacquired, hall, List.length_append, List.length_singleton] at hfew
      have hcount := count_mod (n := fault.dropEveryNBlocks) h.seen hfew
      refine ⟨handled ++ [block.generation], ?_, ?_, ?_, ?_⟩
      · rw [hacquired, hunsent, hall]
        exact (List.append_nil _).symm
      · rw [hseen, h.seen, List.length_append, List.length_singleton, UInt32.ofNat_add]
        rfl
      · rw [withoutEvery_snoc]
        simp only [← hcount]
        exact hqueued.trans (h.queued.append_right _)
      · rw [List.length_append, List.length_singleton]
        intro hle
        -- at the latest the n-th block was dropped
        by_cases hlast : fault.dropEveryNBlocks.toNat ≤ handled.length
        · exact hkept hlast
        · refine hflags (hcount.mpr ?_)
          rw [show handled.length + 1 = fault.dropEveryNBlocks.toNat by omega, Nat.mod_self]

theorem acquired_le_step (hn : 0 < fault.dropEveryNBlocks) (hstep : InjectedStep fault env i i') :
    (acquiredGenerations i.system.log).length ≤ (acquiredGenerations i'.system.log).length := by
  cases offerMove_of_step hn hstep with
  | pass generations hacquired =>
      rw [hacquired, List.length_append]
      exact Nat.le_add_right _ _
  | handle hpc hacquired => rw [hacquired]

/-- **Each n-th block is dropped.**  In a build that drops each n-th block, what is published
are blocks as they were acquired without each n-th, in that order, and from the n-th block on
the losses are admitted and marked. -/
theorem drops_every_nth (hi : Reachable fault env i) (hn : 0 < fault.dropEveryNBlocks)
    (hfew : (acquiredGenerations i.system.log).length < 2 ^ 32) :
    (publishedGenerations i.system.log).Sublist
      (withoutEvery fault.dropEveryNBlocks.toNat (acquiredGenerations i.system.log)) ∧
    (fault.dropEveryNBlocks.toNat < (acquiredGenerations i.system.log).length →
      Flags.Any statusFrameDropped i.system.stickyStatus ∧
        Flags.Any statusFaultInjected i.system.stickyStatus) := by
  have hthinned : (acquiredGenerations i.system.log).length < 2 ^ 32 →
      ∃ handled, Thinned fault i handled := by
    obtain ⟨actions, hrun⟩ := hi
    refine Transition.run_invariant (step fault env) (I := fun i =>
      (acquiredGenerations i.system.log).length < 2 ^ 32 → ∃ handled, Thinned fault i handled) ?_
      (fun _ => ⟨[], thinned_init hn⟩) hrun
    intro i a i' h hstep hfew
    have hcases := injectedStep_of_step hstep
    obtain ⟨handled, hhandled⟩ := h ((acquired_le_step hn hcases).trans_lt hfew)
    exact thinned_step hn hhandled hfew hcases
  obtain ⟨handled, h⟩ := hthinned hfew
  have hpublished : (publishedGenerations i.system.log).Sublist
      (withoutEvery fault.dropEveryNBlocks.toNat handled) :=
    (List.sublist_append_left _ _).trans h.queued
  have hlength : (i.system.acquisition.unsent?.toList).length ≤ 1 := by
    cases i.system.acquisition.unsent? <;> simp
  refine ⟨?_, ?_⟩
  · rw [h.acquired]
    cases i.system.acquisition.unsent? with
    | none =>
        rw [Option.toList_none, List.append_nil]
        exact hpublished
    | some generation =>
        rw [Option.toList_some, withoutEvery_snoc]
        exact hpublished.trans (List.sublist_append_left _ _)
  · intro hle
    rw [h.acquired, List.length_append] at hle
    exact h.flagged (by omega)

/-- The first block is dropped. -/
theorem drops_every_nth_first : ∃ i, Reachable { FaultInject.none with dropEveryNBlocks := 1 }
      Firmware.silence i ∧ (acquiredGenerations i.system.log).length = 1 ∧
    (publishedGenerations i.system.log).Sublist
      (withoutEvery 1 (acquiredGenerations i.system.log)) := by
  let fault : FaultInject := { FaultInject.none with dropEveryNBlocks := 1 }
  obtain ⟨a, htake, -⟩ := run_firstTake fault Firmware.silence
  have hdrop : ∃ i, Transition.run (step fault Firmware.silence)
      { init Firmware.silence with system := { Firmware.init Firmware.silence with
        adc := a, acquisition := .taken 1, log := [.taken 1] } }
      (List.replicate 5 (.acquisition 0)) = some i ∧
      acquiredGenerations i.system.log = [(a.block 0).generation] := by
    simp [Transition.run, List.replicate, step, acquisitionStep, Firmware.acquisitionStep,
      Firmware.statusSet, init, Firmware.init, fault, acquiredGenerations]
    rfl
  obtain ⟨i, hrun, hacquired⟩ := hdrop
  have hlength : (acquiredGenerations i.system.log).length = 1 := by rw [hacquired]; rfl
  have hi : Reachable fault Firmware.silence i :=
    ⟨_, (Transition.run_append_eq_some _).mpr ⟨_, htake, hrun⟩⟩
  obtain ⟨hsublist, -⟩ := drops_every_nth hi (by decide) (by
    rw [hlength]
    decide)
  exact ⟨i, hi, hlength, hsublist⟩

/-! ## Packets -/

/-- Whether a step is an attempt to send a packet. -/
def attempts (i : Injected) : Firmware.Action → ℕ
  | .telemetry _ =>
      match i.system.telemetry with
      | .sending _ (_ :: _) => 1
      | _ => 0
  | _ => 0

/-- What a step does with the packets, if it is an attempt to send one or is not. -/
inductive SendMove (fault : FaultInject) (i i' : Injected) : ℕ → Prop where
  | pass (hframes : i'.framesAttempted = i.framesAttempted)
      (hsender : i'.system.sender = i.system.sender)
      (htelemetry : i'.system.telemetry = i.system.telemetry) : SendMove fault i i' 0
  | begin {result : SpectrumResult} (hframes : i'.framesAttempted = i.framesAttempted)
      (hsender : i'.system.sender = i.system.sender) (hpc : i.system.telemetry = .waiting)
      (hpc' : i'.system.telemetry = .sending result plan) : SendMove fault i i' 0
  | finish {result : SpectrumResult} (hframes : i'.framesAttempted = i.framesAttempted)
      (hsender : i'.system.sender = i.system.sender)
      (hpc : i.system.telemetry = .sending result [])
      (hpc' : i'.system.telemetry = .kicking) : SendMove fault i i' 0
  | rest (hframes : i'.framesAttempted = i.framesAttempted)
      (hsender : i'.system.sender = i.system.sender)
      (hpc : i.system.telemetry = .failed →
        Flags.Any statusUartBackpressure i'.system.stickyStatus)
      (hpc' : i'.system.telemetry = .waiting) : SendMove fault i i' 0
  | attempt {result : SpectrumResult} {address : Fin 2 × Fin 4} {todo : List (Fin 2 × Fin 4)}
      (hframes : i'.framesAttempted = i.framesAttempted + 1)
      (hcount : (i.framesAttempted + 1) % fault.uartFailEveryNFrames ≠ 0)
      (hwrites : i'.system.sender.writes.length = i.system.sender.writes.length + 1)
      (hpc : i.system.telemetry = .sending result (address :: todo))
      (hpc' : i'.system.telemetry = .sending result todo ∨ i'.system.telemetry = .failed) :
      SendMove fault i i' 1
  | fail (hframes : i'.framesAttempted = i.framesAttempted + 1)
      (hcount : (i.framesAttempted + 1) % fault.uartFailEveryNFrames = 0)
      (hwrites : i'.system.sender.writes = i.system.sender.writes)
      (hflag : Flags.Any statusFaultInjected i'.system.stickyStatus)
      (hpc : ∃ result address todo, i.system.telemetry = .sending result (address :: todo))
      (hpc' : i'.system.telemetry = .failed) : SendMove fault i i' 1

/-- A call of the UART is recorded, whatever becomes of it. -/
theorem sendMove_attempt {result : SpectrumResult} {address : Fin 2 × Fin 4}
    {todo : List (Fin 2 × Fin 4)} (hpc : i.system.telemetry = .sending result (address :: todo))
    (hcount : (i.framesAttempted + 1) % fault.uartFailEveryNFrames ≠ 0) (written : Bool) :
    SendMove fault i { i with
      framesAttempted := i.framesAttempted + 1, system := i.system.telemetryStep written } 1 := by
  have hsent : ∃ sender : Sender, sender.writes.length = i.system.sender.writes.length + 1 ∧
      i.system.telemetryStep written = { i.system with
        telemetry := if written then .sending result todo else .failed, sender := sender } := by
    simp only [Firmware.telemetryStep, hpc, sendChunk_eq]
    cases written with
    | true => exact ⟨_, List.length_append, rfl⟩
    | false => exact ⟨_, List.length_append, rfl⟩
  obtain ⟨sender, hwrites, hstep⟩ := hsent
  rw [hstep]
  refine .attempt rfl hcount hwrites hpc ?_
  cases written with
  | true => exact .inl rfl
  | false => exact .inr rfl

theorem sendMove_telemetry (hn : 0 < fault.uartFailEveryNFrames) (written : Bool) (i : Injected) :
    SendMove fault i (i.telemetryStep fault written) (attempts i (.telemetry written)) := by
  rw [telemetryStep, attempts]
  cases hpc : i.system.telemetry with
  | waiting =>
      dsimp only
      rw [Firmware.telemetryStep, hpc]
      dsimp only
      cases i.system.resultQueue with
      | none => exact .pass rfl rfl rfl
      | some result => exact .begin rfl rfl hpc rfl
  | sending result todo =>
      cases todo with
      | nil =>
          dsimp only
          rw [Firmware.telemetryStep, hpc]
          exact .finish rfl rfl hpc rfl
      | cons address todo =>
          dsimp only
          rw [if_pos hn]
          split
          · next hcount =>
              exact .fail rfl hcount rfl (Flags.Any.or_right (by decide) _) ⟨_, _, _, hpc⟩ rfl
          · next hcount => exact sendMove_attempt hpc hcount written
  | failed =>
      dsimp only
      rw [Firmware.telemetryStep, hpc]
      exact .rest rfl rfl (fun _ => Flags.Any.or_right (by decide) _) rfl
  | kicking =>
      dsimp only
      rw [Firmware.telemetryStep, hpc]
      exact .rest rfl rfl (by simp [hpc]) rfl

/-- The other tasks have no part in the transmission. -/
theorem sender_of_acquisition {now : UInt32} {s s' : Firmware}
    (h : Firmware.AcquisitionStep now s s') :
    s'.sender = s.sender ∧ s'.telemetry = s.telemetry := by
  cases h <;> exact ⟨rfl, rfl⟩

theorem sender_of_dsp {s s' : Firmware} (h : Firmware.DspStep s s') :
    s'.sender = s.sender ∧ s'.telemetry = s.telemetry := by
  cases h <;> exact ⟨rfl, rfl⟩

theorem sender_of_watchdog {s s' : Firmware} (h : Firmware.WatchdogStep s s') :
    s'.sender = s.sender ∧ s'.telemetry = s.telemetry := by
  cases h <;> exact ⟨rfl, rfl⟩

theorem sendMove_acquisition (now : UInt32) (i : Injected) :
    SendMove fault i (i.acquisitionStep fault now) 0 := by
  have hplain : ∀ seen, SendMove fault i { i with
      blocksSeen := seen, system := i.system.acquisitionStep now } 0 := by
    intro seen
    obtain ⟨hsender, htelemetry⟩ :=
      sender_of_acquisition (Firmware.acquisitionStep_spec now i.system)
    exact .pass rfl hsender htelemetry
  rw [acquisitionStep]
  cases hpc : i.system.acquisition with
  | sending block =>
      dsimp only
      split
      · split
        · exact .pass rfl rfl rfl
        · exact hplain _
      · exact hplain _
  | _ => exact hplain _

theorem sendMove_dsp (elapsedCycles : UInt32) (i : Injected) :
    SendMove fault i (i.dspStep fault env elapsedCycles) 0 := by
  obtain ⟨hsender, htelemetry⟩ :=
    sender_of_dsp (Firmware.dspStep_spec env elapsedCycles i.system)
  rw [dspStep]
  cases i.dspLife with
  | stalling => exact .pass rfl rfl rfl
  | suspended => exact .pass rfl rfl rfl
  | running =>
      dsimp only
      rw [dspRunning]
      cases i.system.dsp with
      | firstPass block since reads =>
          dsimp only
          split
          · split <;> exact .pass rfl rfl rfl
          · exact .pass rfl hsender htelemetry
      | secondPass block since first reads =>
          dsimp only
          split
          · split <;> exact .pass rfl rfl rfl
          · exact .pass rfl hsender htelemetry
      | analyzed result =>
          dsimp only
          split
          · exact .pass rfl rfl rfl
          · exact .pass rfl hsender htelemetry
      | publishing result =>
          dsimp only
          split
          · split <;> exact .pass rfl hsender htelemetry
          · exact .pass rfl hsender htelemetry
      | _ => exact .pass rfl hsender htelemetry

theorem sendMove_of_step (hn : 0 < fault.uartFailEveryNFrames) {a : Firmware.Action}
    (h : step fault env i a = some i') : SendMove fault i i' (attempts i a) := by
  have hother : ∀ {a}, (Firmware.step env i.system a).map
        (fun system => { i with system := system }) = some i' →
      (∀ t, Firmware.step env i.system a = some t →
        t.sender = i.system.sender ∧ t.telemetry = i.system.telemetry) →
      SendMove fault i i' 0 := by
    intro a h hsame
    obtain ⟨t, ht, ⟨⟩⟩ := Option.map_eq_some_iff.mp h
    exact .pass rfl (hsame t ht).1 (hsame t ht).2
  cases a with
  | acquisition now =>
      cases h
      exact sendMove_acquisition now i
  | dsp elapsedCycles =>
      cases h
      exact sendMove_dsp elapsedCycles i
  | telemetry written =>
      cases h
      exact sendMove_telemetry hn written i
  | dmaStore =>
      refine hother (a := .dmaStore) h fun t ht => ?_
      obtain ⟨-, ⟨⟩⟩ := Option.ite_none_right_eq_some.mp ht
      exact ⟨rfl, rfl⟩
  | adcCallback =>
      refine hother (a := .adcCallback) h fun t ht => ?_
      obtain ⟨-, ⟨⟩⟩ := Option.ite_none_right_eq_some.mp ht
      exact ⟨rfl, rfl⟩
  | adcError =>
      refine hother (a := .adcError) h fun t ht => ?_
      cases ht
      exact ⟨rfl, rfl⟩
  | watchdog =>
      refine hother (a := .watchdog) h fun t ht => ?_
      cases ht
      exact sender_of_watchdog (Firmware.watchdogStep_spec i.system)

/-- What is known behind `n` attempts. -/
structure Failing (fault : FaultInject) (i : Injected) (n : ℕ) : Prop where
  frames : i.framesAttempted = UInt32.ofNat n
  writes : i.system.sender.writes.length + n / fault.uartFailEveryNFrames.toNat = n
  injected : fault.uartFailEveryNFrames.toNat ≤ n →
    Flags.Any statusFaultInjected i.system.stickyStatus
  backpressure : fault.uartFailEveryNFrames.toNat ≤ n →
    Flags.Any statusUartBackpressure i.system.stickyStatus ∨ i.system.telemetry = .failed

theorem failing_init (hn : 0 < fault.uartFailEveryNFrames) : Failing fault (init env) 0 := by
  have hpos : 0 < fault.uartFailEveryNFrames.toNat := UInt32.lt_iff_toNat_lt.mp hn
  refine ⟨rfl, ?_, fun h => by omega, fun h => by omega⟩
  rw [Nat.zero_div]
  rfl

theorem failing_step {n w : ℕ} (h : Failing fault i n)
    (hfew : n + w < 2 ^ 32)
    (hsticky : ∃ bits, i'.system.stickyStatus = i.system.stickyStatus ||| bits)
    (hstep : SendMove fault i i' w) : Failing fault i' (n + w) := by
  obtain ⟨bits, hsticky⟩ := hsticky
  have hinjected : fault.uartFailEveryNFrames.toNat ≤ n →
      Flags.Any statusFaultInjected i'.system.stickyStatus := by
    intro hle
    rw [hsticky]
    exact (h.injected hle).or_left _
  have hbackpressure : fault.uartFailEveryNFrames.toNat ≤ n →
      Flags.Any statusUartBackpressure i'.system.stickyStatus ∨ i.system.telemetry = .failed := by
    intro hle
    rcases h.backpressure hle with hflag | hfailed
    · rw [hsticky]
      exact .inl (hflag.or_left _)
    · exact .inr hfailed
  have hcount : n + 1 < 2 ^ 32 → ((i.framesAttempted + 1) % fault.uartFailEveryNFrames = 0 ↔
      fault.uartFailEveryNFrames.toNat ∣ n + 1) := by
    intro hroom
    rw [count_mod h.frames hroom, Nat.dvd_iff_mod_eq_zero]
  cases hstep with
  | pass hframes hsender htelemetry =>
      refine ⟨hframes.trans h.frames, by rw [hsender]; exact h.writes, hinjected, ?_⟩
      rw [htelemetry]
      exact hbackpressure
  | begin hframes hsender hpc hpc' =>
      refine ⟨hframes.trans h.frames, by rw [hsender]; exact h.writes, hinjected, fun hle => ?_⟩
      exact .inl ((hbackpressure hle).resolve_right (by simp [hpc]))
  | finish hframes hsender hpc hpc' =>
      refine ⟨hframes.trans h.frames, by rw [hsender]; exact h.writes, hinjected, fun hle => ?_⟩
      exact .inl ((hbackpressure hle).resolve_right (by simp [hpc]))
  | rest hframes hsender hpc hpc' =>
      refine ⟨hframes.trans h.frames, by rw [hsender]; exact h.writes, hinjected, fun hle => ?_⟩
      exact .inl ((hbackpressure hle).elim id hpc)
  | attempt hframes hmod hwrites hpc hpc' =>
      have hnot : ¬ fault.uartFailEveryNFrames.toNat ∣ n + 1 := mt (hcount hfew).mpr hmod
      have hold : fault.uartFailEveryNFrames.toNat ≤ n + 1 →
          fault.uartFailEveryNFrames.toNat ≤ n := by
        intro hle
        rcases Nat.lt_or_eq_of_le hle with hlt | heq
        · omega
        · exact absurd (heq ▸ Nat.dvd_refl _) hnot
      have hdiv : (n + 1) / fault.uartFailEveryNFrames.toNat =
          n / fault.uartFailEveryNFrames.toNat := by
        rw [Nat.succ_div, if_neg hnot, Nat.add_zero]
      have hsum := h.writes
      refine ⟨?_, by rw [hwrites, hdiv]; omega, fun hle => hinjected (hold hle), fun hle => ?_⟩
      · rw [hframes, h.frames, UInt32.ofNat_add]
        rfl
      · exact .inl ((hbackpressure (hold hle)).resolve_right (by simp [hpc]))
  | fail hframes hmod hwrites hflag hpc hpc' =>
      have hdvd := (hcount hfew).mp hmod
      have hdiv : (n + 1) / fault.uartFailEveryNFrames.toNat =
          n / fault.uartFailEveryNFrames.toNat + 1 := by
        rw [Nat.succ_div, if_pos hdvd]
      have hsum := h.writes
      refine ⟨?_, by rw [hwrites, hdiv]; omega, fun _ => hflag, fun _ => .inr hpc'⟩
      rw [hframes, h.frames, UInt32.ofNat_add]
      rfl

/-- **Each n-th packet is given up.**  In a build that fails each n-th packet, all other
attempts call the UART, and from the n-th attempt on the failures are marked and admitted,
the last as soon as `telemetry_task` goes on. -/
theorem fails_every_nth {actions : List Firmware.Action} (hn : 0 < fault.uartFailEveryNFrames)
    (hrun : Transition.run (step fault env) (init env) actions = some i)
    (hfew : Transition.tally (step fault env) attempts (init env) actions < 2 ^ 32) :
    let n := Transition.tally (step fault env) attempts (init env) actions
    i.system.sender.writes.length + n / fault.uartFailEveryNFrames.toNat = n ∧
    (fault.uartFailEveryNFrames.toNat ≤ n →
      Flags.Any statusFaultInjected i.system.stickyStatus ∧
        (Flags.Any statusUartBackpressure i.system.stickyStatus ∨
          i.system.telemetry = .failed)) := by
  have hfailing := Transition.run_tally (step fault env) attempts
    (R := fun i n => n < 2 ^ 32 → Failing fault i n) ?_ (fun _ => failing_init hn) hrun
  · rw [Nat.zero_add] at hfailing
    have h := hfailing hfew
    exact ⟨h.writes, fun hle => ⟨h.injected hle, h.backpressure hle⟩⟩
  · intro i a i' n h hstep hroom
    obtain ⟨bits, hsticky, -⟩ := sticky_move (injectedStep_of_step hstep).move
    exact failing_step (h (by omega)) hroom ⟨bits, hsticky⟩ (sendMove_of_step hn hstep)

/-- The first frozen block is published, and its first packet is due. -/
theorem run_sending (fault : FaultInject) (env : Environment) (hdrop : fault.dropEveryNBlocks = 0)
    (hfreeze : fault.freezeAdc = true) (hstall : fault.dspStallAfterBlocks = 0) :
    ∃ actions i result, Transition.run (step fault env) (init env) actions = some i ∧
      Transition.tally (step fault env) attempts (init env) actions = 0 ∧
      i.framesAttempted = 0 ∧ i.system.telemetry = .sending result plan := by
  obtain ⟨actions, t, result, hothers, hrun, hpc, -, htelemetry⟩ :=
    run_frozen fault env hdrop hfreeze
  let published : Firmware := { t with
    dsp := .kicking, resultQueue := some result, log := t.log ++ [.published result] }
  have hpublish : step fault env { init env with system := t } (.dsp 0) =
      some { init env with system := published } := by
    simp [step, dspStep, dspRunning, Firmware.dspStep, init, hpc, hstall, published]
  have hbegin : step fault env { init env with system := published } (.telemetry true) =
      some { init env with system := { published with
        telemetry := .sending result plan, resultQueue := none } } := by
    simp only [step, telemetryStep, Firmware.telemetryStep, published, htelemetry]
  have hlast : Transition.tally (step fault env) attempts { init env with system := t }
      [.dsp 0, .telemetry true] = 0 := by
    rw [Transition.tally, hpublish, Option.elim_some, Transition.tally, hbegin, Option.elim_some,
      Transition.tally]
    simp only [attempts, published, htelemetry]
  have hnone : Transition.tally (step fault env) attempts (init env) actions = 0 := by
    have halways : Transition.Always (step fault env)
        (fun _ a => ∀ written, a ≠ .telemetry written) (init env) actions :=
      Transition.always_of_forall _ (fun a ha _ => hothers a ha) _
    refine Transition.tally_eq_zero _ ?_ halways
    intro i a ha
    cases a with
    | telemetry written => exact absurd rfl (ha written)
    | _ => rfl
  refine ⟨actions ++ [.dsp 0, .telemetry true], _, result,
    (Transition.run_append_eq_some _).mpr ⟨_, hrun, (Transition.run_cons_eq_some _).mpr
      ⟨_, hpublish, Transition.run_singleton _ hbegin⟩⟩, ?_, rfl, rfl⟩
  rw [Transition.tally_append _ _ hrun, hnone, hlast]

/-- The first packet is given up. -/
theorem fails_every_nth_first : ∃ i actions, Transition.run
      (step { FaultInject.freeze with uartFailEveryNFrames := 1 } Firmware.silence)
      (init Firmware.silence) actions = some i ∧
    i.system.sender.writes.length = 0 ∧ Flags.Any statusFaultInjected i.system.stickyStatus := by
  let fault : FaultInject := { FaultInject.freeze with uartFailEveryNFrames := 1 }
  obtain ⟨actions, i, result, hrun, hnone, -, htelemetry⟩ :=
    run_sending fault Firmware.silence rfl rfl rfl
  have hfail : step fault Firmware.silence i (.telemetry true) =
      some (i.telemetryStep fault true) := rfl
  have hall := (Transition.run_append_eq_some _).mpr
    ⟨_, hrun, Transition.run_singleton (step fault Firmware.silence) hfail⟩
  have hcount : Transition.tally (step fault Firmware.silence) attempts (init Firmware.silence)
      (actions ++ [.telemetry true]) = 1 := by
    rw [Transition.tally_append _ _ hrun, hnone, Transition.tally, hfail, Option.elim_some,
      Transition.tally, attempts, htelemetry]
    rfl
  have hn : 0 < fault.uartFailEveryNFrames := by decide
  have h := fails_every_nth hn hall (by
    rw [hcount]
    decide)
  rw [hcount] at h
  have hwrites : (i.telemetryStep fault true).system.sender.writes.length + 1 / 1 = 1 := h.1
  exact ⟨_, _, hall, by omega, (h.2 le_rfl).1⟩

end Injected

end SpectrumAnalyzer
