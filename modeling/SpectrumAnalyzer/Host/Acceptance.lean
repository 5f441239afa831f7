import SpectrumAnalyzer.Firmware.CleanRuns
import SpectrumAnalyzer.Host.LiveStream

/-!
# What the acceptance tools accept

`loopback_check.py` and `endurance_check.py` ask of every frame that it is valid, shows no
fault flag and no lost block; `capture_loopback_evidence.py` asks for one status word.  Of a
run without a fault they accept every frame whose own signal passes, and no other.

## Main definitions

* `loopbackAccepts`, `enduranceAccepts`, `captureAccepts` — what the tools ask of a frame.
* `frames_accepted` — the frames of a clean run.
-/

namespace SpectrumAnalyzer

/-- A result whose own signal passes all checks. -/
structure SpectrumResult.Sound (result : SpectrumResult) : Prop where
  channel : ∀ channel : Fin 2, (result.channel.get channel).Passes adcSampleRateHz
  inTime : result.processingUs ≤ dspDeadlineUs
  numeric : ¬ Flags.Any statusNumericFault result.status

/-! ## Status words -/

/-- The flags that a result raises when its own signal fails. -/
def failedStatus : UInt32 :=
  statusDspDeadline ||| statusSignalWeak ||| statusAdcClipping ||| statusSignalFrozen |||
    statusNumericFault

/-- A sound signal is valid and raises no other flag of its own. -/
theorem sound_iff {result : SpectrumResult} (h : Graded result) : result.Sound ↔
    Flags.Any statusSignalValid result.status ∧ ¬ Flags.Any failedStatus result.status := by
  have hvalid : Flags.Any statusSignalValid result.status ↔
      ∀ channel : Fin 2, (result.channel.get channel).Passes adcSampleRateHz := by
    rw [h.valid]
    exact forall_congr' fun channel => passes_iff.symm
  simp only [failedStatus, Flags.any_mask_or, not_or]
  constructor
  · intro hsound
    have hpasses := fun channel => passes_iff.mp (hsound.channel channel)
    refine ⟨hvalid.mpr hsound.channel, ⟨⟨⟨?_, ?_⟩, ?_⟩, ?_⟩, hsound.numeric⟩
    · rw [h.deadline]
      exact UInt32.not_lt.mpr hsound.inTime
    · rw [h.weak]
      rintro ⟨channel, hweak⟩
      exact absurd (hpasses channel).1 (UInt16.not_le.mpr hweak)
    · rw [h.clipping]
      rintro ⟨channel, hclipped | hpeak⟩
      · exact hclipped (hpasses channel).2.1
      · exact absurd (hpasses channel).2.2.1 (UInt16.not_lt.mpr hpeak)
    · rw [h.frozen]
      rintro ⟨channel, hflat⟩
      obtain ⟨j, k, hspan⟩ := (hpasses channel).2.2.2.1
      have := hflat j k
      omega
  · rintro ⟨hpasses, ⟨⟨⟨hdeadline, -⟩, -⟩, -⟩, hnumeric⟩
    rw [h.deadline] at hdeadline
    exact ⟨hvalid.mp hpasses, UInt32.not_lt.mp hdeadline, hnumeric⟩

namespace Host

/-- `FAULT_MASK` of the tools. -/
def faultMask : UInt32 := 0x7FFFFFFF &&& ~~~(1 ||| 2 ||| 512)

/-- `loopback_check.py` of the status of a frame and its lost blocks. -/
def loopbackAccepts (frame : SpectrumFrame) : Prop :=
  frame.status &&& 2 ≠ 0 ∧ frame.status &&& faultMask.toNat = 0 ∧ frame.droppedBlocks = 0

/-- `endurance_check.py` of the same, and of the processing time. -/
def enduranceAccepts (frame : SpectrumFrame) : Prop :=
  loopbackAccepts frame ∧ ¬ frame.processingUs ≥ 9000

/-- `capture_loopback_evidence.py`. -/
def captureAccepts (frame : SpectrumFrame) : Prop :=
  frame.status = 0x203 ∧ frame.droppedBlocks = 0

instance (frame : SpectrumFrame) : Decidable (loopbackAccepts frame) :=
  inferInstanceAs (Decidable (_ ∧ _))

instance (frame : SpectrumFrame) : Decidable (enduranceAccepts frame) :=
  inferInstanceAs (Decidable (_ ∧ _))

instance (frame : SpectrumFrame) : Decidable (captureAccepts frame) :=
  inferInstanceAs (Decidable (_ ∧ _))

section Result
variable {env : Environment} {result : SpectrumResult}

theorem loopbackAccepts_frameOf (channel : Fin 2) : loopbackAccepts (frameOf result channel) ↔
    Flags.Any statusSignalValid result.status ∧ ¬ Flags.Any faultMask result.status ∧
      result.droppedBlocks = 0 := by
  have hmask : ∀ mask : UInt32, result.status.toNat &&& mask.toNat = 0 ↔
      result.status &&& mask = 0 := by
    intro mask
    rw [← UInt32.toNat_and, ← UInt32.toNat_inj]
    rfl
  rw [loopbackAccepts, Flags.Any, Flags.Any, not_not, ← hmask faultMask, Ne, Ne,
    ← hmask statusSignalValid, ← UInt32.toNat_inj]
  rfl

/-- The lasting flags among the faults are down. -/
theorem any_faultMask (h : Spotless env result) (hboot : env.watchdogReset = false) :
    Flags.Any faultMask result.status ↔ Flags.Any failedStatus result.status := by
  have hsplit : faultMask = failedStatus ||| (faultMask &&& ~~~transientStatus) := by decide
  have hlasting : ¬ Flags.Any (faultMask &&& ~~~transientStatus) result.status := by
    rw [h.lasting _ (by decide), Environment.bootStatus, hboot]
    cases env.testSignal <;> decide
  rw [hsplit, Flags.any_mask_or]
  exact or_iff_left hlasting

theorem loopbackAccepts_iff (h : Spotless env result) (hgraded : Graded result)
    (hboot : env.watchdogReset = false) (channel : Fin 2) :
    loopbackAccepts (frameOf result channel) ↔ result.Sound := by
  rw [loopbackAccepts_frameOf, any_faultMask h hboot, sound_iff hgraded,
    and_iff_left h.droppedBlocks]

theorem captureAccepts_iff (h : Spotless env result) (hgraded : Graded result)
    (hboot : env.watchdogReset = false) (htest : env.testSignal = true) (channel : Fin 2) :
    captureAccepts (frameOf result channel) ↔ result.Sound := by
  have hstart : env.bootStatus ||| statusAdcRunning = statusTestSignal ||| statusAdcRunning := by
    rw [Environment.bootStatus, hboot, htest]
    rfl
  have hdropped : (frameOf result channel).droppedBlocks = 0 :=
    congrArg UInt32.toNat h.droppedBlocks
  have hstatus : (frameOf result channel).status = 0x203 ↔ result.status = 0x203 := by
    rw [← UInt32.toNat_inj]
    rfl
  rw [captureAccepts, and_iff_left hdropped, hstatus, sound_iff hgraded]
  constructor
  · intro heq
    rw [heq]
    decide
  · rintro ⟨hvalid, hfailed⟩
    apply Flags.eq_of_any_bit
    intro i hi
    by_cases htransient : Flags.Any (1 <<< UInt32.ofNat i) transientStatus
    · have hbit : ∀ i < 32, Flags.Any (1 <<< UInt32.ofNat i) transientStatus →
          1 <<< UInt32.ofNat i = statusSignalValid ∨
            failedStatus ||| 1 <<< UInt32.ofNat i = failedStatus ∧
              ¬ Flags.Any (1 <<< UInt32.ofNat i) 0x203 := by decide
      rcases hbit i hi htransient with heq | ⟨heq, hnone⟩
      · rw [heq]
        exact iff_of_true hvalid (by decide)
      · rw [← heq, Flags.any_mask_or, not_or] at hfailed
        exact iff_of_false hfailed.2 hnone
    · have hbit : ∀ i < 32, ¬ Flags.Any (1 <<< UInt32.ofNat i) transientStatus →
          (Flags.Any (1 <<< UInt32.ofNat i) (statusTestSignal ||| statusAdcRunning) ↔
            Flags.Any (1 <<< UInt32.ofNat i) 0x203) := by decide
      rw [h.lasting _ htransient, hstart]
      exact hbit i hi htransient

end Result

/-- **What the tools accept of a clean run.**  When no step gives rise to a fault and the last
reset was not the watchdog's, the frames on the host show no lost block, `loopback_check.py`
accepts exactly those whose own signal is sound, `endurance_check.py` these except at 9000
microseconds, and with the test signal on `capture_loopback_evidence.py` the same. -/
theorem frames_accepted {env : Environment} {s : Firmware} {actions : List Firmware.Action}
    (hrun : Transition.run (Firmware.step env) (Firmware.init env) actions = some s)
    (hclean : Transition.Always (Firmware.step env) Firmware.Clean (Firmware.init env) actions)
    (hdistinct : ((publishedResults s.log).map SpectrumResult.timestampUs).Nodup)
    (hboot : env.watchdogReset = false) {frame : SpectrumFrame}
    (hframe : frame ∈ framesFrom s.sender.wire) :
    ∃ result ∈ publishedResults s.log, ∃ channel, frame = frameOf result channel ∧
      (loopbackAccepts frame ↔ result.Sound) ∧
      (enduranceAccepts frame ↔ result.Sound ∧ result.processingUs ≠ 9000) ∧
      (env.testSignal = true → (captureAccepts frame ↔ result.Sound)) := by
  have hs : Firmware.Reachable env s := ⟨actions, hrun⟩
  obtain ⟨result, hresult, channel, rfl⟩ := exists_result_of_mem_frames hs hdistinct hframe
  have hspotless := (Firmware.flawless_run hrun hclean).published result hresult
  have hgraded := (hs.lasting.published result hresult).1
  have hloopback := loopbackAccepts_iff hspotless hgraded hboot channel
  refine ⟨result, hresult, channel, rfl, hloopback, ?_,
    fun htest => captureAccepts_iff hspotless hgraded hboot htest channel⟩
  rw [enduranceAccepts, hloopback]
  refine and_congr_right fun hsound => ?_
  have hle : result.processingUs.toNat ≤ 9000 := UInt32.le_iff_toNat_le.mp hsound.inTime
  have hfield : (frameOf result channel).processingUs = result.processingUs.toNat := rfl
  have hnine : (9000 : UInt32).toNat = 9000 := rfl
  rw [hfield, Ne, ← UInt32.toNat_inj, hnine]
  omega

/-- The frame of a clean run with the test signal. -/
theorem frames_accepted_silence : ∃ (s : Firmware) (frame : SpectrumFrame)
    (result : SpectrumResult),
    Firmware.Reachable { Firmware.silence with testSignal := true } s ∧
      frame ∈ framesFrom s.sender.wire ∧ (loopbackAccepts frame ↔ result.Sound) ∧
      (captureAccepts frame ↔ result.Sound) := by
  obtain ⟨actions, s, result, hrun, hclean, hpublished, hdelivered⟩ :=
    Firmware.run_clean { Firmware.silence with testSignal := true }
  have hdistinct : ((publishedResults s.log).map SpectrumResult.timestampUs).Nodup := by
    rw [hpublished]
    exact List.nodup_singleton _
  have hframe := frame_mem_of_delivered ⟨actions, hrun⟩ hdistinct hdelivered 0
  obtain ⟨shown, -, channel, -, hloopback, -, hcapture⟩ :=
    frames_accepted hrun hclean hdistinct rfl hframe
  exact ⟨s, _, shown, ⟨actions, hrun⟩, hframe, hloopback, hcapture rfl⟩

end Host

end SpectrumAnalyzer
