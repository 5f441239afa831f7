import SpectrumAnalyzer.Firmware.Health
import SpectrumAnalyzer.Lib.Machine
import SpectrumAnalyzer.Lib.Neighbours

/-!
# Continuity of the acquired blocks

`acquisition_health_check` over a whole run of calls, some of which it rejects.  What the
monitor holds is a function of the blocks it has accepted: the last one, what neighbouring
generations leave out, and how many of the intervals are off the expected period.  All
three are kept modulo `2 ^ 32`.

The model of a call takes no block where the source may be given a null pointer, for the
block or for its samples.

## Main definitions

* `acquisitionHealthCall` — one call, with a block that may be missing.
* `missed`, `OffBeat` — what the monitor counts between two blocks, in exact arithmetic.
* `AcquisitionHealth.ofBlocks` — the monitor that has accepted these blocks.
* `acquisitionHealth_final` — the run of the monitor.
* `continuity_account` — the account that it keeps.
-/

namespace SpectrumAnalyzer

/-- A call of `acquisition_health_check`; `none` is a block or a sample pointer that is null. -/
def acquisitionHealthCall (expectedPeriodUs : UInt32) :
    Machine AcquisitionHealth (Option AdcDmaBlock) UInt32
  | monitor, none => (monitor, statusNumericFault)
  | monitor, some block => (acquisitionHealthCheck monitor block expectedPeriodUs).swap

/-- The block of a valid call. -/
def validBlock (call : Option AdcDmaBlock) : Option AdcDmaBlock :=
  call.filter fun block => block.frames.toNat = analyzerFftSize

/-- The generations lost between two blocks; a repeated generation counts as one. -/
def missed (last block : AdcDmaBlock) : ℕ :=
  if 0 < serialDelta last.generation block.generation then
    serialDelta last.generation block.generation - 1
  else 1

/-- The interval between two blocks is off the expected period by more than the tolerance. -/
def OffBeat (expectedPeriodUs : UInt32) (last block : AdcDmaBlock) : Prop :=
  ((expectedPeriodUs.toNat / 20 + 1 : ℕ) : ℤ) <
    |(serialDelta last.timestampUs block.timestampUs : ℤ) - expectedPeriodUs.toNat|

instance (expectedPeriodUs : UInt32) (last block : AdcDmaBlock) :
    Decidable (OffBeat expectedPeriodUs last block) := inferInstanceAs (Decidable (_ < _))

/-- Two blocks do not follow one another as expected. -/
def BlockGap (expectedPeriodUs : UInt32) (last block : AdcDmaBlock) : Prop :=
  serialDelta last.generation block.generation ≠ 1 ∨ OffBeat expectedPeriodUs last block

instance (expectedPeriodUs : UInt32) (last block : AdcDmaBlock) :
    Decidable (BlockGap expectedPeriodUs last block) := inferInstanceAs (Decidable (_ ∨ _))

/-- All that was missed between neighbouring blocks. -/
def totalMissed (blocks : List AdcDmaBlock) : ℕ :=
  ((neighbours blocks).map fun p => missed p.1 p.2).sum

/-- The intervals that are off the expected period. -/
def totalOffBeat (expectedPeriodUs : UInt32) (blocks : List AdcDmaBlock) : ℕ :=
  (neighbours blocks).countP fun p => OffBeat expectedPeriodUs p.1 p.2

/-- The monitor that has accepted these blocks. -/
def AcquisitionHealth.ofBlocks (expectedPeriodUs : UInt32) (blocks : List AdcDmaBlock) :
    AcquisitionHealth :=
  match blocks.getLast? with
  | none => acquisitionHealthInit
  | some last =>
      { lastGeneration := last.generation
        lastTimestampUs := last.timestampUs
        droppedBlocks := UInt32.ofNat (totalMissed blocks)
        timingFaults := UInt32.ofNat (totalOffBeat expectedPeriodUs blocks)
        initialized := 1 }

theorem AcquisitionHealth.ofBlocks_of_getLast? (expectedPeriodUs : UInt32)
    {blocks : List AdcDmaBlock} {last : AdcDmaBlock} (h : blocks.getLast? = some last) :
    AcquisitionHealth.ofBlocks expectedPeriodUs blocks =
      ⟨last.generation, last.timestampUs, UInt32.ofNat (totalMissed blocks),
        UInt32.ofNat (totalOffBeat expectedPeriodUs blocks), 1⟩ := by
  rw [ofBlocks, h]

theorem AcquisitionHealth.droppedBlocks_ofBlocks (expectedPeriodUs : UInt32)
    (blocks : List AdcDmaBlock) :
    (AcquisitionHealth.ofBlocks expectedPeriodUs blocks).droppedBlocks =
      UInt32.ofNat (totalMissed blocks) := by
  rw [ofBlocks]
  cases hlast : blocks.getLast? with
  | none =>
      rw [List.getLast?_eq_none_iff.mp hlast]
      rfl
  | some last => rfl

theorem AcquisitionHealth.timingFaults_ofBlocks (expectedPeriodUs : UInt32)
    (blocks : List AdcDmaBlock) :
    (AcquisitionHealth.ofBlocks expectedPeriodUs blocks).timingFaults =
      UInt32.ofNat (totalOffBeat expectedPeriodUs blocks) := by
  rw [ofBlocks]
  cases hlast : blocks.getLast? with
  | none =>
      rw [List.getLast?_eq_none_iff.mp hlast]
      rfl
  | some last => rfl

theorem totalMissed_snoc (blocks : List AdcDmaBlock) (block : AdcDmaBlock) :
    totalMissed (blocks ++ [block]) =
      totalMissed blocks + (blocks.getLast?.elim 0 (missed · block)) := by
  rw [totalMissed, neighbours_snoc, List.map_append, List.sum_append]
  cases blocks.getLast? <;> simp [totalMissed]

theorem totalOffBeat_snoc (expectedPeriodUs : UInt32) (blocks : List AdcDmaBlock)
    (block : AdcDmaBlock) :
    totalOffBeat expectedPeriodUs (blocks ++ [block]) =
      totalOffBeat expectedPeriodUs blocks +
        (blocks.getLast?.elim 0 fun last =>
          if OffBeat expectedPeriodUs last block then 1 else 0) := by
  rw [totalOffBeat, neighbours_snoc, List.countP_append]
  cases blocks.getLast? with
  | none => simp [totalOffBeat]
  | some last => simp [totalOffBeat, List.countP_cons]

/-! ## One call -/

/-- What the source adds for a difference other than one. -/
theorem ofNat_missed {delta : UInt32} (h : delta ≠ 1) :
    (if delta > 1 then delta - 1 else 1) =
      UInt32.ofNat (if 0 < delta.toNat then delta.toNat - 1 else 1) := by
  have hne : delta.toNat ≠ 1 := fun hone => h (UInt32.toNat_inj.mp hone)
  by_cases hgt : delta > 1
  · have hlt : 1 < delta.toNat := UInt32.lt_iff_toNat_lt.mp hgt
    rw [if_pos hgt, if_pos (by omega), UInt32.ofNat_sub (by omega), UInt32.ofNat_toNat]
    rfl
  · have hle : ¬ 1 < delta.toNat := fun hlt => hgt (UInt32.lt_iff_toNat_lt.mpr hlt)
    rw [if_neg hgt, if_neg (by omega)]
    rfl

/-- The generation check adds what was missed. -/
theorem checkGeneration_eq (monitor : AcquisitionHealth) {last block : AdcDmaBlock}
    (hlast : monitor.lastGeneration = last.generation) (status : UInt32) :
    checkGeneration monitor block status =
      (if serialDelta last.generation block.generation ≠ 1 then status ||| statusBlockGap
        else status,
        { monitor with
          droppedBlocks := monitor.droppedBlocks + UInt32.ofNat (missed last block) }) := by
  have hdelta := toNat_sub_eq_serialDelta last.generation block.generation
  have hone : block.generation - last.generation = 1 ↔
      serialDelta last.generation block.generation = 1 := by
    rw [← hdelta, ← UInt32.toNat_inj]
    rfl
  rw [checkGeneration, hlast]
  by_cases h : block.generation - last.generation = 1
  · have hmissed : missed last block = 0 := by
      rw [missed, hone.mp h]
      rfl
    rw [if_neg (not_not_intro h), if_neg (not_not_intro (hone.mp h)), hmissed, ← hlast]
    simp
  · rw [if_pos h, if_pos (mt hone.mpr h), ofNat_missed h, missed, hdelta, ← hlast]

/-- The timing check counts an interval that is off the expected period. -/
theorem checkTiming_eq {expectedPeriodUs : UInt32}
    (he : expectedPeriodUs.toNat + 2 * (expectedPeriodUs.toNat / 20 + 1) < 2 ^ 32)
    (monitor : AcquisitionHealth) (last : AdcDmaBlock) {block : AdcDmaBlock}
    (hlast : monitor.lastTimestampUs = last.timestampUs) (status : UInt32) :
    checkTiming monitor block expectedPeriodUs status =
      if OffBeat expectedPeriodUs last block then
        (status ||| statusBlockGap, { monitor with timingFaults := monitor.timingFaults + 1 })
      else (status, monitor) := by
  have helapsed := toNat_sub_eq_serialDelta last.timestampUs block.timestampUs
  have hbound := serialDelta_lt last.timestampUs block.timestampUs
  have htolerance : (expectedPeriodUs / 20 + 1).toNat = expectedPeriodUs.toNat / 20 + 1 := by
    rw [UInt32.toNat_add, UInt32.toNat_div]
    exact Nat.mod_eq_of_lt (by simp only [UInt32.reduceToNat]; omega)
  rw [checkTiming, hlast]
  refine if_congr ?_ rfl rfl
  rw [OffBeat, lt_abs, UInt32.lt_iff_toNat_lt, gt_iff_lt, UInt32.lt_iff_toNat_lt,
    UInt32.toNat_add _ (expectedPeriodUs / 20 + 1), UInt32.toNat_add _ (expectedPeriodUs / 20 + 1),
    htolerance, helapsed]
  omega

/-- Both checks of a block that follows another. -/
theorem checks_eq {expectedPeriodUs : UInt32}
    (he : expectedPeriodUs.toNat + 2 * (expectedPeriodUs.toNat / 20 + 1) < 2 ^ 32)
    (monitor : AcquisitionHealth) {last block : AdcDmaBlock}
    (hgeneration : monitor.lastGeneration = last.generation)
    (htimestamp : monitor.lastTimestampUs = last.timestampUs) :
    checkTiming (checkGeneration monitor block statusAdcRunning).2 block expectedPeriodUs
        (checkGeneration monitor block statusAdcRunning).1 =
      (if BlockGap expectedPeriodUs last block then statusAdcRunning ||| statusBlockGap
        else statusAdcRunning,
        { monitor with
          droppedBlocks := monitor.droppedBlocks + UInt32.ofNat (missed last block)
          timingFaults := monitor.timingFaults +
            UInt32.ofNat (if OffBeat expectedPeriodUs last block then 1 else 0) }) := by
  rw [checkGeneration_eq monitor hgeneration]
  refine (checkTiming_eq he _ last (by exact htimestamp) _).trans ?_
  by_cases hbeat : OffBeat expectedPeriodUs last block
  · have hgap : BlockGap expectedPeriodUs last block := .inr hbeat
    have hor : (if serialDelta last.generation block.generation ≠ 1 then
        statusAdcRunning ||| statusBlockGap else statusAdcRunning) ||| statusBlockGap =
          statusAdcRunning ||| statusBlockGap := by
      split
      · decide
      · rfl
    rw [if_pos hbeat, if_pos hgap, if_pos hbeat, hor]
    rfl
  · have hgap : BlockGap expectedPeriodUs last block ↔
        serialDelta last.generation block.generation ≠ 1 := or_iff_left hbeat
    rw [if_neg hbeat, if_neg hbeat, if_congr hgap rfl rfl, show UInt32.ofNat 0 = 0 from rfl,
      UInt32.add_zero]

/-! ## The run -/

/-- The status of an accepted block, given the one before it. -/
def continuityStatus (expectedPeriodUs : UInt32) (last : Option AdcDmaBlock)
    (block : AdcDmaBlock) : UInt32 :=
  if ∃ l ∈ last, BlockGap expectedPeriodUs l block then statusAdcRunning ||| statusBlockGap
  else statusAdcRunning

theorem any_continuityStatus {expectedPeriodUs : UInt32} {last : Option AdcDmaBlock}
    {block : AdcDmaBlock} :
    Flags.Any statusBlockGap (continuityStatus expectedPeriodUs last block) ↔
      ∃ l ∈ last, BlockGap expectedPeriodUs l block := by
  rw [continuityStatus]
  split
  · next h => exact iff_of_true (by decide) h
  · next h => exact iff_of_false (by decide) h

theorem continuityStatus_ne_fault {expectedPeriodUs : UInt32} {last : Option AdcDmaBlock}
    {block : AdcDmaBlock} :
    continuityStatus expectedPeriodUs last block ≠ statusNumericFault := by
  rw [continuityStatus]
  split
  · decide
  · decide

section Run
variable {expectedPeriodUs : UInt32}
  (he : expectedPeriodUs.toNat + 2 * (expectedPeriodUs.toNat / 20 + 1) < 2 ^ 32)
include he

/-- **One accepted block.** -/
theorem acquisitionHealthCheck_ofBlocks (blocks : List AdcDmaBlock) {block : AdcDmaBlock}
    (hframes : block.frames.toNat = analyzerFftSize) :
    acquisitionHealthCheck (.ofBlocks expectedPeriodUs blocks) block expectedPeriodUs =
      (continuityStatus expectedPeriodUs blocks.getLast? block,
        .ofBlocks expectedPeriodUs (blocks ++ [block])) := by
  rw [acquisitionHealthCheck, if_neg (not_not_intro hframes)]
  cases hlast : blocks.getLast? with
  | none =>
      rw [List.getLast?_eq_none_iff] at hlast
      subst hlast
      rfl
  | some last =>
      have hmonitor := AcquisitionHealth.ofBlocks_of_getLast? expectedPeriodUs hlast
      have hblock := AcquisitionHealth.ofBlocks_of_getLast? expectedPeriodUs
        (show (blocks ++ [block]).getLast? = some block by simp)
      rw [totalMissed_snoc, totalOffBeat_snoc, hlast] at hblock
      rw [hblock, hmonitor]
      dsimp only
      rw [if_pos (by exact of_decide_eq_true rfl), checks_eq he _ rfl rfl, continuityStatus]
      simp only [Option.mem_some_iff, exists_eq_left', Option.elim_some, UInt32.ofNat_add]

/-- **One call.** -/
theorem acquisitionHealthCall_ofBlocks (blocks : List AdcDmaBlock) {call : Option AdcDmaBlock}
    {block : AdcDmaBlock} (hcall : validBlock call = some block) :
    acquisitionHealthCall expectedPeriodUs (.ofBlocks expectedPeriodUs blocks) call =
      (.ofBlocks expectedPeriodUs (blocks ++ [block]),
        continuityStatus expectedPeriodUs blocks.getLast? block) := by
  obtain ⟨rfl, hframes⟩ := Option.filter_eq_some_iff.mp hcall
  rw [acquisitionHealthCall, acquisitionHealthCheck_ofBlocks he blocks (of_decide_eq_true hframes)]
  rfl

omit he in
/-- A rejected call changes nothing. -/
theorem acquisitionHealthCall_rejected (monitor : AcquisitionHealth) {call : Option AdcDmaBlock}
    (hcall : validBlock call = none) :
    acquisitionHealthCall expectedPeriodUs monitor call = (monitor, statusNumericFault) := by
  cases call with
  | none => rfl
  | some block =>
      have hframes : ¬ block.frames.toNat = analyzerFftSize := by
        simpa [validBlock, Option.filter_eq_none_iff] using hcall
      rw [acquisitionHealthCall, acquisitionHealthCheck, if_pos hframes]
      rfl

/-- **A run** of the monitor, from its initial state. -/
theorem acquisitionHealth_final (calls : List (Option AdcDmaBlock)) :
    Machine.final (acquisitionHealthCall expectedPeriodUs) acquisitionHealthInit calls =
      .ofBlocks expectedPeriodUs (calls.filterMap validBlock) := by
  refine Machine.final_induction _ (P := fun calls monitor =>
    monitor = AcquisitionHealth.ofBlocks expectedPeriodUs (calls.filterMap validBlock)) rfl ?_ calls
  intro calls call ih
  rw [ih, List.filterMap_append]
  cases hcall : validBlock call with
  | none => simp [acquisitionHealthCall_rejected _ hcall, hcall]
  | some block => simp [acquisitionHealthCall_ofBlocks he _ hcall, hcall]

end Run

/-! ## Generations that are not wrapped -/

/-- Blocks with these generations, modulo `2 ^ 32`. -/
def Numbered (blocks : List AdcDmaBlock) (generations : List ℕ) : Prop :=
  blocks.map AdcDmaBlock.generation = generations.map UInt32.ofNat

/-- Generations that increase by less than the modulus are missed one by one. -/
theorem totalMissed_of_numbered {blocks : List AdcDmaBlock} {first : ℕ} {later : List ℕ}
    (hnumbered : Numbered blocks (first :: later))
    (hchain : (first :: later).IsChain fun m n => m < n ∧ n < m + 2 ^ 32) :
    totalMissed blocks + (first + later.length) =
      (first :: later).getLast (List.cons_ne_nil _ _) := by
  have hskipped : ∀ p ∈ neighbours (first :: later),
      (if 0 < serialDelta (UInt32.ofNat p.1) (UInt32.ofNat p.2) then
        serialDelta (UInt32.ofNat p.1) (UInt32.ofNat p.2) - 1 else 1) = p.2 - p.1 - 1 := by
    intro p hp
    obtain ⟨hlt, hnear⟩ := forall_neighbours hchain p hp
    rw [serialDelta_ofNat hlt.le hnear, if_pos (by omega)]
  have hmissed : (neighbours blocks).map (fun p => missed p.1 p.2) =
      (neighbours (first :: later)).map fun p => p.2 - p.1 - 1 := by
    calc (neighbours blocks).map (fun p => missed p.1 p.2)
        = (neighbours (blocks.map AdcDmaBlock.generation)).map (fun p =>
            if 0 < serialDelta p.1 p.2 then serialDelta p.1 p.2 - 1 else 1) := by
          rw [neighbours_map, List.map_map]
          rfl
      _ = (neighbours (first :: later)).map (fun p =>
            if 0 < serialDelta (UInt32.ofNat p.1) (UInt32.ofNat p.2) then
              serialDelta (UInt32.ofNat p.1) (UInt32.ofNat p.2) - 1 else 1) := by
          rw [hnumbered, neighbours_map, List.map_map]
          rfl
      _ = _ := List.map_congr_left hskipped
  rw [totalMissed, hmissed]
  exact sum_skipped (hchain.imp fun _ _ h => h.1)

/-- **Acquisition continuity accounting.**  After any calls the counters are what the
accepted blocks lack and how often they are off the beat, modulo `2 ^ 32`; the next call
reports a gap exactly when its block does not follow the last accepted one as expected, and
a rejected call changes nothing. -/
theorem continuity_account {expectedPeriodUs : UInt32}
    (he : expectedPeriodUs.toNat + 2 * (expectedPeriodUs.toNat / 20 + 1) < 2 ^ 32)
    (calls : List (Option AdcDmaBlock)) :
    let blocks := calls.filterMap validBlock
    let monitor :=
      Machine.final (acquisitionHealthCall expectedPeriodUs) acquisitionHealthInit calls
    monitor.droppedBlocks.toNat = totalMissed blocks % 2 ^ 32 ∧
      (∀ first later, Numbered blocks (first :: later) →
        ((first :: later).IsChain fun m n => m < n ∧ n < m + 2 ^ 32) →
        (totalMissed blocks : ℤ) =
          ((first :: later).getLast (List.cons_ne_nil _ _) - first : ℤ) - later.length) ∧
      monitor.timingFaults.toNat = totalOffBeat expectedPeriodUs blocks % 2 ^ 32 ∧
      (∀ call, (acquisitionHealthCall expectedPeriodUs monitor call).2 = statusNumericFault ↔
        validBlock call = none) ∧
      (∀ call, validBlock call = none →
        (acquisitionHealthCall expectedPeriodUs monitor call).1 = monitor) ∧
      ∀ call block, validBlock call = some block →
        (Flags.Any statusBlockGap (acquisitionHealthCall expectedPeriodUs monitor call).2 ↔
          ∃ last ∈ blocks.getLast?, serialDelta last.generation block.generation ≠ 1 ∨
            OffBeat expectedPeriodUs last block) := by
  intro blocks monitor
  have hmonitor : monitor = .ofBlocks expectedPeriodUs blocks := acquisitionHealth_final he calls
  refine ⟨?_, ?_, ?_, ?_, ?_, ?_⟩
  · rw [hmonitor, AcquisitionHealth.droppedBlocks_ofBlocks, UInt32.toNat_ofNat']
  · intro first later hnumbered hchain
    have htotal := totalMissed_of_numbered hnumbered hchain
    omega
  · rw [hmonitor, AcquisitionHealth.timingFaults_ofBlocks, UInt32.toNat_ofNat']
  · intro call
    cases hcall : validBlock call with
    | none => exact iff_of_true (by rw [acquisitionHealthCall_rejected monitor hcall]) rfl
    | some block =>
        rw [hmonitor, acquisitionHealthCall_ofBlocks he blocks hcall]
        exact iff_of_false continuityStatus_ne_fault (Option.some_ne_none block)
  · intro call hcall
    rw [acquisitionHealthCall_rejected monitor hcall]
  · intro call block hcall
    rw [hmonitor, acquisitionHealthCall_ofBlocks he blocks hcall]
    exact any_continuityStatus

/-- One gap, as the acquisition task may see it. -/
theorem continuity_account_gap :
    (Machine.final (acquisitionHealthCall 10240) acquisitionHealthInit
        [some ⟨0, 10000, 1, 1024⟩, none, some ⟨0, 30480, 3, 1024⟩]).droppedBlocks.toNat = 1 :=
  (continuity_account (by decide) _).1.trans (by decide)

/-! ## The counter of timing faults wraps -/

/-- Every interval between equal blocks is off the beat if one is. -/
theorem totalOffBeat_replicate {expectedPeriodUs : UInt32} {block : AdcDmaBlock}
    (h : OffBeat expectedPeriodUs block block) (n : ℕ) :
    totalOffBeat expectedPeriodUs (List.replicate (n + 1) block) = n := by
  rw [totalOffBeat, neighbours_replicate, List.countP_replicate, if_pos (by simpa using h)]

theorem timingFaults_replicate {expectedPeriodUs : UInt32}
    (he : expectedPeriodUs.toNat + 2 * (expectedPeriodUs.toNat / 20 + 1) < 2 ^ 32)
    (block : AdcDmaBlock) (hframes : block.frames.toNat = analyzerFftSize)
    (h : OffBeat expectedPeriodUs block block) (n : ℕ) :
    ((List.replicate (n + 1) (some block)).filterMap validBlock =
        List.replicate (n + 1) block) ∧
      (Machine.final (acquisitionHealthCall expectedPeriodUs) acquisitionHealthInit
        (List.replicate (n + 1) (some block))).timingFaults.toNat = n % 2 ^ 32 := by
  have hblock : validBlock (some block) = some block := by
    simpa [validBlock] using hframes
  have hblocks := List.filterMap_replicate_of_some hblock (n := n + 1)
  rw [acquisitionHealth_final he, hblocks, AcquisitionHealth.timingFaults_ofBlocks,
    totalOffBeat_replicate h, UInt32.toNat_ofNat']
  exact ⟨rfl, rfl⟩

/-- `2 ^ 32` intervals off the beat, and a counter that is back at zero. -/
theorem timing_faults_wrap :
    totalOffBeat 10240
        ((List.replicate (2 ^ 32 + 1) (some ⟨0, 0, 0, 1024⟩)).filterMap validBlock) = 2 ^ 32 ∧
      (Machine.final (acquisitionHealthCall 10240) acquisitionHealthInit
        (List.replicate (2 ^ 32 + 1) (some ⟨0, 0, 0, 1024⟩))).timingFaults.toNat = 0 := by
  have hbeat : OffBeat 10240 ⟨0, 0, 0, 1024⟩ ⟨0, 0, 0, 1024⟩ := by decide
  obtain ⟨hblocks, hfaults⟩ :=
    timingFaults_replicate (by decide) ⟨0, 0, 0, 1024⟩ (by decide) hbeat (2 ^ 32)
  rw [hblocks, hfaults, totalOffBeat_replicate hbeat]
  exact ⟨rfl, Nat.mod_self _⟩

end SpectrumAnalyzer
