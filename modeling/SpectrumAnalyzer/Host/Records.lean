import Mathlib.Algebra.Field.Rat
import SpectrumAnalyzer.Host.Histories

/-!
# From bytes to records

The loop of `main`: every chunk that the decoder yields is pushed into the assembler, and
every frame that comes of it is turned into a summary, into one row for each bin and into
one row for each sample of the preview.  Any exception ends the run.

Only one is possible.  A body of the right length always unpacks, and four indices below
four are one of each; but nothing checks the sampling rate before `waveform_records`
divides by it.

## Main definitions

* `record`, `spectrumRecords`, `waveformRecords` — the rows of a frame.
* `Monitor`, `Monitor.run` — the loop, with the exceptions that it may raise.
* `Completes` — a chunk that finds the rest of its spectrum.
* `Rows.Whole`, `Monitor.run_spec` — how every run ends, and what it writes.
* `monitor_survives_iff` — the streams that raise nothing.
-/

namespace SpectrumAnalyzer.Host

/-! ## The rows of a frame -/

def fftSize : ℕ := 1024
def previewSamples : ℕ := 128

/-- What the tool may raise: `struct.error` from an unpacking, `KeyError` from
`parts[index]`, and `ZeroDivisionError`. -/
inductive Exception where
  | struct
  | key
  | zeroDivision
  deriving DecidableEq, Repr

/-- The operator `/`, without rounding. -/
def trueDivide (x : ℚ) (y : ℕ) : Except Exception ℚ :=
  if y = 0 then .error .zeroDivision else .ok (x / y)

/-- `SpectrumFrame.bin_hz`. -/
def SpectrumFrame.binHz (frame : SpectrumFrame) : ℚ := frame.sampleRateHz / fftSize

/-- A row of `record`. -/
structure Record where
  timestampUs : ℕ
  channel : ℕ
  sampleRateHz : ℕ
  rmsQ15 : ℕ
  peakQ15 : ℕ
  dominantMillihz : ℕ
  processingUs : ℕ
  droppedBlocks : ℕ
  status : ℕ
  deriving DecidableEq, Repr

/-- A row of `spectrum_records`. -/
structure SpectrumRecord where
  timestampUs : ℕ
  channel : ℕ
  bin : ℕ
  frequencyHz : ℚ
  magnitudeU8 : ℕ
  deriving DecidableEq, Repr

/-- A row of `waveform_records`. -/
structure WaveformRecord where
  timestampUs : ℕ
  channel : ℕ
  sample : ℕ
  timeUs : ℚ
  amplitudeQ15 : ℤ
  deriving DecidableEq, Repr

/-- `record`. -/
def record (frame : SpectrumFrame) : Record where
  timestampUs := frame.timestampUs
  channel := frame.channel
  sampleRateHz := frame.sampleRateHz
  rmsQ15 := frame.rmsQ15
  peakQ15 := frame.peakQ15
  dominantMillihz := frame.dominantMillihz
  processingUs := frame.processingUs
  droppedBlocks := frame.droppedBlocks
  status := frame.status

/-- `spectrum_records`. -/
def spectrumRecords (frame : SpectrumFrame) : List SpectrumRecord :=
  frame.magnitudesU8.zipIdx.map fun bin =>
    ⟨frame.timestampUs, frame.channel, bin.2, bin.2 * frame.binHz, bin.1⟩

/-- `waveform_records`. -/
def waveformRecords (frame : SpectrumFrame) : Except Exception (List WaveformRecord) :=
  let sampleStep : ℚ := fftSize / previewSamples
  frame.previewQ15.zipIdx.mapM fun sample => do
    let timeUs ← trueDivide (sample.2 * sampleStep * 1000000) frame.sampleRateHz
    return ⟨frame.timestampUs, frame.channel, sample.2, timeUs, sample.1⟩

/-- With a sampling rate there is a row for every sample. -/
theorem waveformRecords_of_ne_zero {frame : SpectrumFrame} (h : frame.sampleRateHz ≠ 0) :
    ∃ rows, waveformRecords frame = .ok rows ∧ rows.length = frame.previewQ15.length := by
  let row (sample : ℤ × ℕ) : WaveformRecord :=
    ⟨frame.timestampUs, frame.channel, sample.2,
      sample.2 * (fftSize / previewSamples) * 1000000 / frame.sampleRateHz, sample.1⟩
  have hrows : waveformRecords frame = .ok (frame.previewQ15.zipIdx.map row) := by
    rw [waveformRecords]
    simp only [trueDivide, if_neg h]
    exact List.mapM_pure
  exact ⟨_, hrows, by rw [List.length_map, List.length_zipIdx]⟩

/-- Without one the first row raises. -/
theorem waveformRecords_of_eq_zero {frame : SpectrumFrame} (h : frame.sampleRateHz = 0)
    (hne : frame.previewQ15 ≠ []) : waveformRecords frame = .error .zeroDivision := by
  obtain ⟨first, rest, hpreview⟩ := List.exists_cons_of_ne_nil hne
  rw [waveformRecords, hpreview, List.zipIdx_cons, List.mapM_cons]
  simp only [trueDivide, if_pos h]
  rfl

/-! ## The loop -/

/-- The rows of one frame. -/
structure Rows where
  summary : Record
  spectrum : List SpectrumRecord
  waveform : List WaveformRecord
  deriving DecidableEq, Repr

/-- All three of a frame. -/
def rowsOf (frame : SpectrumFrame) : Except Exception Rows := do
  let waveform ← waveformRecords frame
  return ⟨record frame, spectrumRecords frame, waveform⟩

/-- A row for each bin and each sample of a whole frame. -/
structure Rows.Whole (rows : Rows) : Prop where
  spectrum : rows.spectrum.length = 512
  waveform : rows.waveform.length = 128

theorem rowsOf_of_ne_zero {frame : SpectrumFrame} (h : frame.sampleRateHz ≠ 0)
    (hmagnitudes : frame.magnitudesU8.length = 512) (hpreview : frame.previewQ15.length = 128) :
    ∃ rows, rowsOf frame = .ok rows ∧ rows.Whole := by
  obtain ⟨waveform, hwaveform, hlength⟩ := waveformRecords_of_ne_zero h
  refine ⟨⟨record frame, spectrumRecords frame, waveform⟩, ?_, ?_, hlength.trans hpreview⟩
  · rw [rowsOf, hwaveform]
    rfl
  · rw [← hmagnitudes]
    simp [spectrumRecords]

theorem rowsOf_of_eq_zero {frame : SpectrumFrame} (h : frame.sampleRateHz = 0)
    (hne : frame.previewQ15 ≠ []) : rowsOf frame = .error .zeroDivision := by
  rw [rowsOf, waveformRecords_of_eq_zero h hne]
  rfl

/-- `decoder` and `assembler` of `main`. -/
structure Monitor where
  decoder : FrameDecoder
  assembler : SpectrumAssembler
  deriving DecidableEq

namespace Monitor

def init : Monitor := ⟨.init, .init⟩

/-- The body of the inner loop of `main`. -/
def pushChunk (m : Monitor) (chunk : SpectrumChunk) : Except Exception (Monitor × Option Rows) :=
  match m.assembler.push chunk with
  | (_, .raised) => .error .key
  | (a, .none) => .ok ({ m with assembler := a }, none)
  | (a, .frame frame) => do
      let rows ← rowsOf frame
      return ({ m with assembler := a }, some rows)

/-- One byte of the stream. -/
def readByte (m : Monitor) (byte : UInt8) : Except Exception (Monitor × Option Rows) :=
  match m.decoder.feedByte byte with
  | (_, .raised) => .error .struct
  | (d, .silent) => .ok ({ m with decoder := d }, none)
  | (d, .yielded chunk) => pushChunk { m with decoder := d } chunk

/-- The loops of `main` over a stream.  It may be read in pieces of any size. -/
def run (bytes : List UInt8) : Except Exception (Monitor × List (Option Rows)) :=
  Machine.attempt readByte init bytes

section Exits
variable {m : Monitor} {c : SpectrumChunk} {b : UInt8}

theorem pushChunk_none (h : (m.assembler.push c).2 = .none) :
    m.pushChunk c = .ok (⟨m.decoder, (m.assembler.push c).1⟩, none) := by
  rw [pushChunk]
  generalize m.assembler.push c = r at h ⊢
  cases r
  cases h
  rfl

theorem pushChunk_frame {frame : SpectrumFrame} (h : (m.assembler.push c).2 = .frame frame) :
    m.pushChunk c = do
      let rows ← rowsOf frame
      return (⟨m.decoder, (m.assembler.push c).1⟩, some rows) := by
  rw [pushChunk]
  generalize m.assembler.push c = r at h ⊢
  cases r
  cases h
  rfl

theorem readByte_silent (h : (m.decoder.feedByte b).2 = .silent) :
    m.readByte b = .ok (⟨(m.decoder.feedByte b).1, m.assembler⟩, none) := by
  rw [readByte]
  generalize m.decoder.feedByte b = r at h ⊢
  cases r
  cases h
  rfl

theorem readByte_yielded (h : (m.decoder.feedByte b).2 = .yielded c) :
    m.readByte b = pushChunk ⟨(m.decoder.feedByte b).1, m.assembler⟩ c := by
  rw [readByte]
  generalize m.decoder.feedByte b = r at h ⊢
  cases r
  cases h
  rfl

theorem run_snoc (bytes : List UInt8) (b : UInt8) :
    run (bytes ++ [b]) = do
      let r ← run bytes
      let last ← r.1.readByte b
      return (last.1, r.2 ++ [last.2]) := Machine.attempt_snoc readByte init bytes b

end Exits

end Monitor

/-! ## Completing a spectrum -/

namespace SpectrumAssembler

variable {a : SpectrumAssembler} {c : SpectrumChunk}

/-- The chunk finds the other three of its spectrum, all with its own header values. -/
def Completes (a : SpectrumAssembler) (c : SpectrumChunk) : Prop :=
  ∃ parts, a.pending.get? c.key = some parts ∧
    (∀ d ∈ parts.values, d.invariant = c.invariant) ∧ ∀ i < 4, i ≠ c.chunkIndex → i ∈ parts.keys

/-- A group with every index below four is complete. -/
theorem size_eq_four {parts : Dict ℕ SpectrumChunk} (hindex : ∀ i ∈ parts.keys, i < 4)
    (hall : ∀ i < 4, i ∈ parts.keys) : parts.size = 4 := by
  have hperm : parts.keys.Perm (List.range 4) := by
    rw [List.perm_ext_iff_of_nodup parts.nodup_keys List.nodup_range]
    intro i
    rw [List.mem_range]
    exact ⟨hindex i, hall i⟩
  rw [← Dict.length_keys, hperm.length_eq, List.length_range]

/-- Such a chunk emits the frame. -/
theorem push_completes (ha : Sound a) (hc : c.chunkIndex < 4) (h : Completes a c) :
    ∃ chunk : ℕ → SpectrumChunk,
      (a.push c).2 = .frame (assemble (chunk 0) ((List.range 4).map chunk)) ∧
      ∀ i < 4, (chunk i).invariant = c.invariant ∧
        (chunk i = c ∨ ∃ parts, a.pending.get? c.key = some parts ∧ chunk i ∈ parts.values) := by
  obtain ⟨parts, hget, hagree, hall⟩ := h
  have hsame : ∀ {parts'}, a.pending.get? c.key = some parts' → parts' = parts :=
    fun hget' => Option.some_inj.mp (hget'.symm.trans hget)
  have hpush := push_cases ha hc
  generalize a.push c = r at hpush ⊢
  cases hpush with
  | opened hnew hroom => exact absurd (Dict.mem_keys_of_get? hget) hnew
  | evicted oldest hnew hfull hold => exact absurd (Dict.mem_keys_of_get? hget) hnew
  | rejected parts' reference hget' href hne =>
      obtain rfl := hsame hget'
      exact absurd (hagree reference href).symm hne
  | joined parts' reference hget' href heq hsize =>
      obtain rfl := hsame hget'
      refine absurd (size_eq_four ((ha.groups _ _ hget).keys_lt hc) ?_) hsize
      intro i hi
      by_cases hindex : i = c.chunkIndex
      · exact Dict.mem_keys_set.mpr (.inl hindex)
      · exact Dict.mem_keys_set.mpr (.inr (hall i hi hindex))
  | completed parts' reference chunk hget' href heq hsize hchunk =>
      obtain rfl := hsame hget'
      refine ⟨chunk, rfl, ?_⟩
      intro i hi
      rcases Dict.eq_or_mem_values_of_set ((Dict.mem_values_iff _ _).mpr ⟨i, hchunk i hi⟩) with
        hown | hmem
      · exact ⟨congrArg SpectrumChunk.invariant hown, .inl hown⟩
      · exact ⟨hagree _ hmem, .inr ⟨_, hget, hmem⟩⟩

/-- Any other chunk emits nothing. -/
theorem push_not_completes (ha : Sound a) (hc : c.chunkIndex < 4) (h : ¬ Completes a c) :
    (a.push c).2 = .none := by
  have hpush := push_cases ha hc
  generalize a.push c = r at hpush ⊢
  cases hpush with
  | completed parts reference chunk hget href heq hsize hchunk =>
      refine absurd ⟨parts, hget, ?_, ?_⟩ h
      · intro d hd
        exact ((ha.groups _ _ hget).agrees d hd reference href).trans heq.symm
      · intro i hi hne
        have hheld := hchunk i hi
        rw [Dict.get?_set_of_ne _ hne] at hheld
        exact Dict.mem_keys_of_get? hheld
  | _ => rfl

/-- The fourth chunk of an orderly spectrum. -/
theorem completes_orderly {key : ℕ × ℕ} {c : ℕ → SpectrumChunk} (hc : Orderly key c) :
    Completes (after ((List.range 3).map c)) (c 3) := by
  have hpartial := final_partial (a := init) hc List.not_mem_nil (n := 2) (by decide)
  refine ⟨group c 3, ?_, ?_, ?_⟩
  · rw [hc.key_eq 3 (by decide), after, hpartial.1]
    exact Dict.get?_set_self _ _ _
  · intro d hd
    rw [values_group] at hd
    obtain ⟨i, hi, rfl⟩ := List.mem_map.mp hd
    have hlt := List.mem_range.mp hi
    rw [hc.invariant_eq i (by omega), hc.invariant_eq 3 (by decide)]
  · intro i hi hne
    rw [hc.chunkIndex_eq 3 (by decide)] at hne
    rw [keys_group, List.mem_range]
    omega

/-- The chunk completes a spectrum that has no sampling rate. -/
def Fatal (a : SpectrumAssembler) (c : SpectrumChunk) : Prop := c.sampleRateHz = 0 ∧ Completes a c

/-- No chunk of a history is fatal where it arrives. -/
def Harmless (chunks : List SpectrumChunk) : Prop :=
  ∀ history c future, chunks = history ++ c :: future → ¬ Fatal (after history) c

theorem harmless_nil : Harmless [] := by
  intro history c future h
  simp at h

/-- What is harmless was harmless before. -/
theorem Harmless.of_append {chunks more : List SpectrumChunk} (h : Harmless (chunks ++ more)) :
    Harmless chunks := by
  intro history c future hsplit
  exact h history c (future ++ more) (by rw [hsplit, List.append_assoc, List.cons_append])

theorem harmless_snoc (chunks : List SpectrumChunk) (c : SpectrumChunk) :
    Harmless (chunks ++ [c]) ↔ Harmless chunks ∧ ¬ Fatal (after chunks) c := by
  constructor
  · exact fun h => ⟨h.of_append, h chunks c [] rfl⟩
  · intro h history d future hsplit
    rcases List.eq_nil_or_concat future with rfl | ⟨front, last, rfl⟩
    · obtain ⟨rfl, hlast⟩ := List.append_inj' hsplit rfl
      rw [← List.singleton_inj.mp hlast]
      exact h.2
    · rw [List.concat_eq_append, ← List.cons_append, ← List.append_assoc] at hsplit
      exact h.1 history d front (List.append_inj' hsplit rfl).1

end SpectrumAssembler

/-! ## The chunks of a stream -/

open Framing

/-- The chunks that `decode_raw` returns for the complete pieces of a stream. -/
def receivedChunks (bytes : List UInt8) : List SpectrumChunk :=
  (Cut.of telemetrySof bytes).closed.filterMap
    (accept telemetryCode fun body => (decodeRaw body).toOption)

theorem yields_received (bytes : List UInt8) :
    Machine.yields FrameDecoder.feedByte FeedOutcome.chunk? FrameDecoder.init bytes =
      receivedChunks bytes := by
  rw [FrameDecoder.yields_feed FrameDecoder.idle_init, receivedChunks, funext hostCheck_eq]

theorem received_snoc (bytes : List UInt8) (b : UInt8) :
    receivedChunks (bytes ++ [b]) =
      receivedChunks bytes ++ ((FrameDecoder.after bytes).feedByte b).2.chunk?.toList := by
  rw [← yields_received, ← yields_received, Machine.yields_snoc]
  rfl

theorem decoded_received {bytes : List UInt8} {c : SpectrumChunk} (hc : c ∈ receivedChunks bytes) :
    Decoded c := by
  obtain ⟨piece, -, haccept⟩ := List.mem_filterMap.mp hc
  rw [accept] at haccept
  split at haccept
  · next body _ =>
      refine ⟨body, ?_⟩
      cases hraw : decodeRaw body with
      | error e =>
          rw [hraw] at haccept
          cases haccept
      | ok d =>
          rw [hraw] at haccept
          cases haccept
          rfl
  · cases haccept

/-! ## Every run -/

namespace Monitor

open SpectrumAssembler

/-- The state after a stream that raises nothing. -/
def after (bytes : List UInt8) : Monitor :=
  ⟨FrameDecoder.after bytes, SpectrumAssembler.after (receivedChunks bytes)⟩

/-- A frame of decoded chunks is whole. -/
theorem lengths_assemble {chunk : ℕ → SpectrumChunk} (h : ∀ i < 4, Decoded (chunk i)) :
    (assemble (chunk 0) ((List.range 4).map chunk)).magnitudesU8.length = 512 ∧
      (assemble (chunk 0) ((List.range 4).map chunk)).previewQ15.length = 128 := by
  have hmagnitudes : ∀ i < 4, (chunk i).magnitudesU8.length = 128 := fun i hi => (h i hi).lengths.1
  have hpreview : ∀ i < 4, (chunk i).previewQ15.length = 32 := fun i hi => (h i hi).lengths.2
  simp [assemble, List.range_succ, hmagnitudes, hpreview]

/-- A decoded chunk, pushed behind decoded chunks. -/
theorem pushChunk_spec {history : List SpectrumChunk} (hhistory : ∀ d ∈ history, Decoded d)
    {c : SpectrumChunk} (hc : Decoded c) (d : FrameDecoder) :
    (¬ Fatal (SpectrumAssembler.after history) c →
      ∃ rows, pushChunk ⟨d, SpectrumAssembler.after history⟩ c =
        .ok (⟨d, SpectrumAssembler.after (history ++ [c])⟩, rows) ∧ ∀ r ∈ rows, r.Whole) ∧
    (Fatal (SpectrumAssembler.after history) c →
      pushChunk ⟨d, SpectrumAssembler.after history⟩ c = .error .zeroDivision) := by
  have hindex : ∀ e ∈ history, e.chunkIndex < 4 := fun e he => (hhistory e he).chunkIndex_lt
  have hsound := sound_after hindex
  rw [after_snoc]
  by_cases hcompletes : Completes (SpectrumAssembler.after history) c
  · obtain ⟨chunk, hframe, hchunk⟩ := push_completes hsound hc.chunkIndex_lt hcompletes
    have hdecoded : ∀ i < 4, Decoded (chunk i) := by
      intro i hi
      rcases (hchunk i hi).2 with hown | ⟨parts, hget, hmem⟩
      · exact hown ▸ hc
      · exact hhistory _ (mem_history hindex hget hmem)
    obtain ⟨hmagnitudes, hpreview⟩ := lengths_assemble hdecoded
    have hrate : (assemble (chunk 0) ((List.range 4).map chunk)).sampleRateHz = c.sampleRateHz :=
      congrArg (fun values => values.2.1) (hchunk 0 (by decide)).1
    rw [pushChunk_frame (m := ⟨d, SpectrumAssembler.after history⟩) hframe]
    constructor
    · intro hnot
      have hne : c.sampleRateHz ≠ 0 := fun hzero => hnot ⟨hzero, hcompletes⟩
      obtain ⟨rows, hrows, hwhole⟩ :=
        rowsOf_of_ne_zero (hrate.trans_ne hne) hmagnitudes hpreview
      rw [hrows]
      exact ⟨some rows, rfl, fun r hr => Option.some_inj.mp hr ▸ hwhole⟩
    · intro hfatal
      rw [rowsOf_of_eq_zero (hrate.trans hfatal.1) (List.ne_nil_of_length_eq_add_one hpreview)]
      rfl
  · have hnone := push_not_completes hsound hc.chunkIndex_lt hcompletes
    have hpush := pushChunk_none (m := ⟨d, SpectrumAssembler.after history⟩) hnone
    exact ⟨fun _ => ⟨none, hpush, by simp⟩, fun hfatal => absurd hfatal.2 hcompletes⟩

/-- One byte of a stream that has raised nothing yet. -/
theorem readByte_spec {bytes : List UInt8} (hharmless : Harmless (receivedChunks bytes))
    (b : UInt8) :
    (Harmless (receivedChunks (bytes ++ [b])) →
      ∃ rows, (after bytes).readByte b = .ok (after (bytes ++ [b]), rows) ∧
        ∀ r ∈ rows, r.Whole) ∧
    (¬ Harmless (receivedChunks (bytes ++ [b])) →
      (after bytes).readByte b = .error .zeroDivision) := by
  have hdecoder : FrameDecoder.after (bytes ++ [b]) = ((FrameDecoder.after bytes).feedByte b).1 :=
    Machine.final_snoc _ _ _ _
  have hreceived := received_snoc bytes b
  have hafter : after (bytes ++ [b]) = ⟨((FrameDecoder.after bytes).feedByte b).1,
      SpectrumAssembler.after (receivedChunks (bytes ++ [b]))⟩ := by rw [after, hdecoder]
  rw [hafter]
  cases houtcome : ((FrameDecoder.after bytes).feedByte b).2 with
  | raised => exact absurd houtcome (FrameDecoder.not_raised bytes b)
  | silent =>
      simp only [houtcome, FeedOutcome.chunk?, Option.toList_none, List.append_nil] at hreceived
      have hread := readByte_silent (m := after bytes) houtcome
      rw [hreceived]
      exact ⟨fun _ => ⟨none, hread, by simp⟩, fun h => absurd hharmless h⟩
  | yielded c =>
      simp only [houtcome, FeedOutcome.chunk?, Option.toList_some] at hreceived
      have hdecoded : ∀ d ∈ receivedChunks bytes ++ [c], Decoded d :=
        fun d hd => decoded_received (hreceived ▸ hd)
      rw [List.forall_mem_append, List.forall_mem_singleton] at hdecoded
      obtain ⟨hgoes, hraises⟩ := pushChunk_spec hdecoded.1 hdecoded.2
        ((FrameDecoder.after bytes).feedByte b).1
      rw [hreceived, harmless_snoc, readByte_yielded (m := after bytes) houtcome]
      exact ⟨fun h => hgoes h.2, fun h => hraises (not_not.mp fun hnot => h ⟨hharmless, hnot⟩)⟩

/-- **Every run** ends in one of two ways: with the rows of whole frames, or with a division
by zero. -/
theorem run_spec (bytes : List UInt8) :
    (Harmless (receivedChunks bytes) →
      ∃ rows, run bytes = .ok (after bytes, rows) ∧ ∀ r, some r ∈ rows → r.Whole) ∧
    (¬ Harmless (receivedChunks bytes) → run bytes = .error .zeroDivision) := by
  induction bytes using List.reverseRecOn with
  | nil => exact ⟨fun _ => ⟨[], rfl, by simp⟩, fun h => absurd harmless_nil h⟩
  | append_singleton bytes b ih =>
      rw [run_snoc]
      by_cases hharmless : Harmless (receivedChunks bytes)
      · obtain ⟨rows, hrows, hwhole⟩ := ih.1 hharmless
        obtain ⟨hgoes, hraises⟩ := readByte_spec hharmless b
        have hlast : (run bytes >>= fun r => r.1.readByte b >>= fun last =>
            return (last.1, r.2 ++ [last.2])) = (after bytes).readByte b >>= fun last =>
              return (last.1, rows ++ [last.2]) := by
          rw [hrows]
          rfl
        rw [hlast]
        constructor
        · intro h
          obtain ⟨row, hrow, hlast⟩ := hgoes h
          rw [hrow]
          refine ⟨rows ++ [row], rfl, ?_⟩
          intro r hr
          rcases List.mem_append.mp hr with hr | hr
          · exact hwhole r hr
          · exact hlast r (List.mem_singleton.mp hr).symm
        · intro h
          rw [hraises h]
          rfl
      · -- the run has ended before, and what is added to the stream comes too late
        rw [ih.2 hharmless]
        refine ⟨fun h => ?_, fun _ => rfl⟩
        rw [received_snoc] at h
        exact absurd h.of_append hharmless

end Monitor

open SpectrumAssembler

/-- **The streams that raise nothing.**  A stream raises if and only if, of the chunks that
`decode_raw` returns for its complete pieces, some chunk with sampling rate zero arrives when
its group holds the other three with the same header values.  The exception is then the
division by zero, never a missing index or a failed unpacking. -/
theorem monitor_survives_iff (bytes : List UInt8) :
    ((∃ outcome, Monitor.run bytes = .ok outcome) ↔
      ∀ history c future, receivedChunks bytes = history ++ c :: future →
        ¬ (c.sampleRateHz = 0 ∧ Completes (SpectrumAssembler.after history) c)) ∧
    ∀ e, Monitor.run bytes = .error e → e = .zeroDivision := by
  obtain ⟨hok, herror⟩ := Monitor.run_spec bytes
  by_cases hharmless : Harmless (receivedChunks bytes)
  · obtain ⟨rows, hrun, -⟩ := hok hharmless
    refine ⟨⟨fun _ => hharmless, fun _ => ⟨_, hrun⟩⟩, ?_⟩
    intro e he
    rw [hrun] at he
    cases he
  · have hrun := herror hharmless
    refine ⟨⟨?_, fun h => absurd h hharmless⟩, ?_⟩
    · rintro ⟨outcome, houtcome⟩
      rw [hrun] at houtcome
      cases houtcome
    · intro e he
      rw [hrun] at he
      cases he
      rfl

/-- The four packets of a channel of silence, which has no sampling rate. -/
theorem monitor_raises :
    Monitor.run ((packetsOf .zero 0 (plan.take 4)).flatMap Packet.wire) = .error .zeroDivision ∧
      ¬ ∀ bytes, ∃ outcome, Monitor.run bytes = .ok outcome := by
  have hreceived : receivedChunks ((packetsOf .zero 0 (plan.take 4)).flatMap Packet.wire) =
      (List.range 3).map (chunksOf .zero 0 0) ++ [chunksOf .zero 0 0 3] := by
    rw [← yields_received, yields_wires, chunks_packetsOf _ _ (by decide)]
    rfl
  have hcompletes := completes_orderly (orderly_chunksOf .zero 0 0)
  have hraises := (Monitor.run_spec _).2 fun hharmless =>
    hharmless _ _ [] hreceived ⟨rfl, hcompletes⟩
  refine ⟨hraises, ?_⟩
  intro h
  obtain ⟨outcome, houtcome⟩ := h _
  rw [hraises] at houtcome
  cases houtcome

end SpectrumAnalyzer.Host
