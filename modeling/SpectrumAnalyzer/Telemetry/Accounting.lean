import SpectrumAnalyzer.Lib.Faults
import SpectrumAnalyzer.Telemetry.Receiver

/-!
# The fault counters of the firmware decoder

The firmware keeps bodies of at most 236 bytes.  Under that policy the decoder's view
and its five fault counters are the library's functions of the stream, the counters
modulo `2 ^ 32`.

## Main definitions

* `BodyFault` — why `decode_body` refuses a body.
* `firmwarePolicy` — what the firmware keeps and what it says of it.
* `TelemetryDecoderStats.fault` — the counter of a kind of fault.
* `fault_decoderAfter` — the counters after a stream.
* `balance_decoderAfter` — the four counters of faults against the one of answers.
-/

namespace SpectrumAnalyzer

open Framing TelemetryDecoder

/-- Why a complete body is refused. -/
inductive BodyFault where
  | crc
  | format
  deriving DecidableEq, Repr

/-- Why a result of `decode_body` is a refusal. -/
def RawResult.fault : RawResult → Option BodyFault
  | .ok _ => none
  | .badCrc => some .crc
  | .badFormat => some .format

/-- Why a delimiter refuses the body it closes.  An empty body is not looked at. -/
def judgeBody (bytes : List UInt8) : Option BodyFault :=
  if bytes = [] then none else (decodeBytes bytes).fault

/-- The firmware keeps what fits its buffer. -/
def firmwarePolicy : Policy UInt8 BodyFault where
  keeps := fun body => body.length ≤ 236
  judge := judgeBody
  keeps_nil := by simp
  keeps_of_snoc := by
    intro body x h
    rw [List.length_append, List.length_singleton] at h
    omega
  decidableKeeps := fun _ => inferInstance

/-- The counter of a kind of fault. -/
def TelemetryDecoderStats.fault (s : TelemetryDecoderStats) : Fault BodyFault → UInt32
  | .overlong => s.overflowErrors
  | .escape => s.escapeErrors
  | .refused .crc => s.crcErrors
  | .refused .format => s.formatErrors

theorem firmware_keeps {body : List UInt8} : firmwarePolicy.keeps body ↔ body.length ≤ 236 :=
  Iff.rfl

/-- Counters that wrap at `2 ^ 32`. -/
def wrapping : Counter UInt32 where
  cast := UInt32.ofNat
  cast_add := UInt32.ofNat_add
  add_zero := fun n => by simp

/-- Storing a byte, or the charge for a body that is too long. -/
theorem storeByte_charged {d : TelemetryDecoder} (hesc : d.escaped = false)
    (hdrop : d.dropping = false) (hlen : d.length ≤ 236) (b : UInt8) :
    (storeByte d b).1.view = firmwarePolicy.shown (.body (d.held ++ [b])) ∧
      wrapping.Charges d.stats.fault (storeByte d b).1.stats.fault none
        (firmwarePolicy.openFault (.body (d.held ++ [b]))) ∧
      (storeByte d b).1.stats.resyncEvents = d.stats.resyncEvents := by
  have hheld := length_held hlen
  rw [storeByte]
  split
  · next hfull =>
      have hkeeps : ¬ firmwarePolicy.keeps (d.held ++ [b]) := by
        rw [firmware_keeps, List.length_append, List.length_singleton]
        omega
      rw [Policy.shown, Policy.openFault, if_neg hkeeps, if_neg hkeeps]
      refine ⟨by simp [view], .bump rfl ?_, rfl⟩
      rintro (_ | _ | _ | _) h <;> first | rfl | exact absurd rfl h
  · next hroom =>
      have hkeeps : firmwarePolicy.keeps (d.held ++ [b]) := by
        rw [firmware_keeps, List.length_append, List.length_singleton]
        omega
      rw [Policy.shown, Policy.openFault, if_pos hkeeps, if_pos hkeeps]
      refine ⟨?_, .unchanged (fun _ => rfl) fun _ => rfl, rfl⟩
      simp only [view, hdrop, hesc, held, Bool.false_eq_true, if_false]
      rw [Bytes.take_set]

/-- A byte other than the delimiter, and what it adds to the counters. -/
theorem feed_data_charged {d : TelemetryDecoder} (hd : d.WellFormed) {b : UInt8}
    (hb : b ≠ telemetrySof) {t : Scan UInt8} (ht : d.view = firmwarePolicy.shown t) :
    (telemetryDecoderFeed d b).1.view = firmwarePolicy.shown (telemetryCode.next t b) ∧
      wrapping.Charges d.stats.fault (telemetryDecoderFeed d b).1.stats.fault
        (firmwarePolicy.openFault t) (firmwarePolicy.openFault (telemetryCode.next t b)) ∧
      (telemetryDecoderFeed d b).1.stats.resyncEvents = d.stats.resyncEvents := by
  by_cases hdrop : d.dropping = true
  · have hview : d.view = none := by simp [view, hdrop]
    obtain ⟨k, hk⟩ := firmwarePolicy.exists_openFault (ht.symm.trans hview)
    have hnext := firmwarePolicy.openFault_next telemetryCode hk b
    rw [feed_dropping hb hdrop, hview]
    refine ⟨?_, .unchanged (fun _ => rfl) (by simp [hk]), rfl⟩
    exact (firmwarePolicy.shown_of_openFault hnext).symm
  have hdrop : d.dropping = false := by simpa using hdrop
  by_cases hesc : d.escaped = true
  · have hview : d.view = some (d.held, true) := by simp [view, hdrop, hesc]
    obtain ⟨ht, hkeeps⟩ := firmwarePolicy.shown_eq_pending.mp (ht.symm.trans hview)
    subst ht
    have hopen : firmwarePolicy.openFault (.pending d.held) = none := if_pos hkeeps
    rw [hopen]
    by_cases hm : telemetryCode.Masked b
    · rw [feed_pair hdrop hesc hm, telemetryCode.next_pair hm]
      exact storeByte_charged (d := { d with escaped := false }) rfl hdrop hd.length_le _
    · have hbad : firmwarePolicy.openFault (.bad d.held) = some .escape := if_pos hkeeps
      rw [feed_bad_pair hb hdrop hesc hm, telemetryCode.next_bad_pair hm, hbad]
      refine ⟨by simp [view, Policy.shown], .bump rfl ?_, rfl⟩
      rintro (_ | _ | _ | _) h <;> first | rfl | exact absurd rfl h
  have hesc : d.escaped = false := by simpa using hesc
  have hview : d.view = some (d.held, false) := by simp [view, hdrop, hesc]
  obtain ⟨ht, hkeeps⟩ := firmwarePolicy.shown_eq_body.mp (ht.symm.trans hview)
  subst ht
  have hopen : firmwarePolicy.openFault (.body d.held) = none := if_pos hkeeps
  rw [hopen]
  by_cases he : b = telemetryEsc
  · subst he
    have hnext : telemetryCode.next (.body d.held) telemetryEsc = .pending d.held :=
      telemetryCode.next_esc _
    rw [feed_escape hdrop hesc, hnext]
    refine ⟨?_, .unchanged (fun _ => rfl) fun _ => if_pos hkeeps, rfl⟩
    rw [firmwarePolicy.shown_eq_pending.mpr ⟨rfl, hkeeps⟩]
    simp [view, hdrop, held]
  · have hp : ¬ telemetryCode.Special b := not_or.mpr ⟨hb, he⟩
    rw [feed_plain hdrop hesc hp, telemetryCode.next_plain hp]
    exact storeByte_charged hesc hdrop hd.length_le b

/-! ## The delimiter -/

theorem judgeBody_nil : judgeBody [] = none := if_pos rfl

/-- What `decode_body` says of the decoder's buffer. -/
theorem judgeBody_held {d : TelemetryDecoder} (hlen : d.length ≤ 236) (h0 : d.length ≠ 0) :
    judgeBody d.held = (decodeBody d.body d.length).fault := by
  have hheld := length_held hlen
  have hne : d.held ≠ [] := fun h => h0 (by rw [← hheld, h, List.length_nil])
  rw [judgeBody, if_neg hne, decodeBytes_held hlen]

theorem stats_countSequence (d : TelemetryDecoder) (sequence : UInt16) :
    (∀ k, (countFrame (countSequence d sequence)).stats.fault k = d.stats.fault k) ∧
      (countFrame (countSequence d sequence)).stats.resyncEvents = d.stats.resyncEvents := by
  have h := faults_countSequence d sequence
  simp only [TelemetryDecoderStats.faults, List.cons.injEq, and_true] at h
  obtain ⟨hcrc, hformat, hoverflow, hescape, hresync⟩ := h
  refine ⟨?_, hresync⟩
  rintro (_ | _ | _ | _)
  · exact hoverflow
  · exact hescape
  · exact hcrc
  · exact hformat

/-- The delimiter, and what it adds to the counters. -/
theorem feed_sof_charged {d : TelemetryDecoder} (hd : d.WellFormed) {t : Scan UInt8}
    (ht : d.view = firmwarePolicy.shown t) :
    wrapping.Charges d.stats.fault (telemetryDecoderFeed d telemetrySof).1.stats.fault
        (firmwarePolicy.openFault t) (firmwarePolicy.closedFault t) ∧
      (telemetryDecoderFeed d telemetrySof).1.stats.resyncEvents = d.stats.resyncEvents +
        UInt32.ofNat (if (firmwarePolicy.closedFault t).isSome then 1 else 0) := by
  rw [feed_sof_eq]
  by_cases hesc : d.escaped = true
  · have hdrop := hd.not_dropping hesc
    have hview : d.view = some (d.held, true) := by simp [view, hdrop, hesc]
    obtain ⟨rfl, hkeeps⟩ := firmwarePolicy.shown_eq_pending.mp (ht.symm.trans hview)
    have hopen : firmwarePolicy.openFault (.pending d.held) = none := if_pos hkeeps
    have hclosed : firmwarePolicy.closedFault (.pending d.held) = some .escape := if_pos hkeeps
    rw [hopen, hclosed]
    simp only [feedSof, hesc, if_true]
    refine ⟨.bump rfl ?_, rfl⟩
    rintro (_ | _ | _ | _) h <;> first | rfl | exact absurd rfl h
  have hesc : d.escaped = false := by simpa using hesc
  by_cases hdrop : d.dropping = true
  · have hview : d.view = none := by simp [view, hdrop]
    obtain ⟨k, hk⟩ := firmwarePolicy.exists_openFault (ht.symm.trans hview)
    rw [hk, firmwarePolicy.closedFault_of_openFault hk]
    simp only [feedSof, hesc, hdrop, if_true, Bool.false_eq_true, if_false]
    exact ⟨.unchanged (fun _ => rfl) (by simp), rfl⟩
  have hdrop : d.dropping = false := by simpa using hdrop
  have hview : d.view = some (d.held, false) := by simp [view, hdrop, hesc]
  obtain ⟨rfl, hkeeps⟩ := firmwarePolicy.shown_eq_body.mp (ht.symm.trans hview)
  have hopen : firmwarePolicy.openFault (.body d.held) = none := if_pos hkeeps
  have hclosed : firmwarePolicy.closedFault (.body d.held) = (judgeBody d.held).map .refused :=
    if_pos hkeeps
  rw [hopen, hclosed]
  by_cases hlen : d.length = 0
  · have hheld : d.held = [] := by simp [held, hlen]
    rw [hheld, judgeBody_nil]
    simp only [feedSof, hesc, hdrop, hlen, if_true, Bool.false_eq_true, if_false]
    exact ⟨.unchanged (fun _ => rfl) fun _ => rfl, by simp⟩
  · rw [judgeBody_held hd.length_le hlen, feedSof_body hesc hdrop hlen]
    cases decodeBody d.body d.length with
    | badCrc =>
        refine ⟨.bump rfl ?_, rfl⟩
        rintro (_ | _ | _ | _) h <;> first | rfl | exact absurd rfl h
    | badFormat =>
        refine ⟨.bump rfl ?_, rfl⟩
        rintro (_ | _ | _ | _) h <;> first | rfl | exact absurd rfl h
    | ok chunk =>
        obtain ⟨hfault, hresync⟩ := stats_countSequence { d with length := 0 } chunk.sequence
        exact ⟨.unchanged hfault fun _ => rfl, by rw [hresync]; simp [RawResult.fault]⟩

/-- The firmware decoder as an auditor. -/
def telemetryAuditor :
    Auditor telemetryCode firmwarePolicy wrapping TelemetryDecoder TelemetryDecodeResult where
  step := telemetryDecoderFeed
  Inv := TelemetryDecoder.WellFormed
  view := TelemetryDecoder.view
  fault := fun d => d.stats.fault
  resync := fun d => d.stats.resyncEvents
  data := by
    intro d b t hd hb ht
    have hlong : ∀ body, ¬ firmwarePolicy.keeps body → 236 < body.length := by
      intro _ h
      rw [firmware_keeps] at h
      omega
    have hrep : Represents 236 d.view t := ht ▸ firmwarePolicy.represents_shown hlong t
    exact ⟨(feed_data hd hb hrep).1, feed_data_charged hd hb ht⟩
  delimiter := fun d t hd ht =>
    ⟨(feed_sof hd).1.wellFormed, (feed_sof hd).1.view, feed_sof_charged hd ht⟩

/-- **The fault counters of the firmware.**  After any stream each counter is the number
of pieces charged with its kind of fault, modulo `2 ^ 32`. -/
theorem fault_decoderAfter (bytes : List UInt8) :
    (decoderAfter bytes).view =
        firmwarePolicy.shown (telemetryCode.scan (Cut.of telemetrySof bytes).rest) ∧
      (∀ k, (decoderAfter bytes).stats.fault k =
        UInt32.ofNat (firmwarePolicy.faultCount telemetryCode bytes k)) ∧
      (decoderAfter bytes).stats.resyncEvents =
        UInt32.ofNat (firmwarePolicy.resyncCount telemetryCode bytes) := by
  have h := (telemetryAuditor.run_spec idle_init.wellFormed idle_init.view (m := fun _ => 0)
    (n := 0) (by rintro (_ | _ | _ | _) <;> rfl) rfl bytes).2
  simp only [Nat.zero_add] at h
  exact h

/-! ## The books -/

/-- The kinds of fault, in the order of the counters. -/
def faultKinds : List (Fault BodyFault) := [.refused .crc, .refused .format, .overlong, .escape]

theorem count_faultKinds (k : Fault BodyFault) : faultKinds.count k = 1 := by
  rcases k with _ | _ | _ | _ <;> rfl

/-- A charge stands against the open piece exactly while its bytes are dropped. -/
theorem dropping_iff_openFault (bytes : List UInt8) :
    (decoderAfter bytes).dropping = true ↔ (firmwarePolicy.openFault
      (telemetryCode.scan (Cut.of telemetrySof bytes).rest)).isSome = true := by
  obtain ⟨hview, -, -⟩ := fault_decoderAfter bytes
  rw [Option.isSome_iff_ne_none, ← Policy.shown_eq_none_iff, ← hview, view]
  split
  · next h => simp [h]
  · next h => simp [h]

/-- All charges together: the answered ones, and the one that is still to be answered. -/
theorem sum_faultCount_decoderAfter (bytes : List UInt8) :
    (faultKinds.map (firmwarePolicy.faultCount telemetryCode bytes)).sum =
      firmwarePolicy.resyncCount telemetryCode bytes +
        if (decoderAfter bytes).dropping then 1 else 0 := by
  rw [if_congr (dropping_iff_openFault bytes) rfl rfl]
  exact firmwarePolicy.sum_faultCount telemetryCode count_faultKinds bytes

/-- **The books of the firmware.**  Every fault is counted in one class and answered by
one resynchronisation, at once or at the delimiter that ends the dropped piece. -/
theorem balance_decoderAfter (bytes : List UInt8) :
    (decoderAfter bytes).stats.crcErrors + (decoderAfter bytes).stats.formatErrors +
        (decoderAfter bytes).stats.overflowErrors + (decoderAfter bytes).stats.escapeErrors =
      (decoderAfter bytes).stats.resyncEvents + if (decoderAfter bytes).dropping then 1 else 0 := by
  obtain ⟨-, hfault, hresync⟩ := fault_decoderAfter bytes
  have hsum := congrArg UInt32.ofNat (sum_faultCount_decoderAfter bytes)
  simp only [faultKinds, List.map_cons, List.map_nil, List.sum_cons, List.sum_nil, Nat.add_zero,
    UInt32.ofNat_add, ← UInt32.add_assoc, ← hfault, ← hresync] at hsum
  refine Eq.trans hsum ?_
  split <;> rfl

/-- A decoder that drops holds no byte. -/
def DropsAll (d : TelemetryDecoder) : Prop := d.dropping = true → d.length = 0

theorem dropsAll_countSequence {d : TelemetryDecoder} (h : d.dropping = false)
    (sequence : UInt16) : DropsAll (countFrame (countSequence d sequence)) := by
  obtain ⟨-, -, hdrop, -⟩ := countSequence_frame d sequence
  intro hd
  rw [hdrop, h] at hd
  cases hd

theorem dropsAll_storeByte {d : TelemetryDecoder} (h : d.dropping = false) (b : UInt8) :
    DropsAll (storeByte d b).1 := by
  rw [storeByte]
  split
  · exact fun _ => rfl
  · intro hd
    rw [h] at hd
    cases hd

theorem dropsAll_feedSof {d : TelemetryDecoder} (h : DropsAll d) : DropsAll (feedSof d).1 := by
  rw [feedSof]
  split
  · exact fun _ => rfl
  split
  · exact fun _ => rfl
  next hdrop =>
  split
  · exact h
  split
  · exact fun _ => rfl
  · exact fun _ => rfl
  · exact dropsAll_countSequence (d := { d with length := 0 }) (Bool.eq_false_iff.mpr hdrop) _

/-- One byte keeps the buffer of a dropping decoder empty. -/
theorem dropsAll_feed {d : TelemetryDecoder} (h : DropsAll d) (b : UInt8) :
    DropsAll (telemetryDecoderFeed d b).1 := by
  rw [telemetryDecoderFeed]
  split
  · exact dropsAll_feedSof h
  split
  · exact h
  next hdrop =>
  have hdrop := Bool.eq_false_iff.mpr hdrop
  split
  · split
    · exact fun _ => rfl
    · exact dropsAll_storeByte (d := { d with escaped := false }) hdrop _
  split
  · exact h
  · exact dropsAll_storeByte hdrop b

theorem dropsAll_decoderAfter (bytes : List UInt8) : DropsAll (decoderAfter bytes) :=
  Machine.final_invariant telemetryDecoderFeed (I := DropsAll) (fun _ b h => dropsAll_feed h b)
    (fun _ => rfl) bytes

end SpectrumAnalyzer
