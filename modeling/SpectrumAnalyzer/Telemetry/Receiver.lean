import SpectrumAnalyzer.Lib.Deframer
import SpectrumAnalyzer.Telemetry.Decoder
import SpectrumAnalyzer.Telemetry.Wire

/-!
# The firmware decoder as a receiver

One lemma for each exit of `telemetry_decoder_feed`, and from them the two facts the
library asks of a receiver: a byte other than the delimiter follows the ideal scan, and
the delimiter delivers the open body.  `telemetryDeframer` packages these, so everything
the library says about receivers holds of `telemetryDecoderFeed`.

## Main definitions

* `TelemetryDecoder.WellFormed` — the invariant of the decoder's flags and length.
* `checkBody` — `decode_body` as a test on a list of bytes.
* `TelemetryDecoderStats.faults` — the counters of rejected input.
* `telemetryDeframer` — the firmware decoder as a receiver.
* `decoderAfter` — the decoder after a stream.
-/

namespace SpectrumAnalyzer

open Framing

/-! ## One byte of the decoder -/

namespace TelemetryDecoder

/-- The flags exclude each other, and the length stays within the buffer. -/
structure WellFormed (d : TelemetryDecoder) : Prop where
  exclusive : ¬ (d.escaped = true ∧ d.dropping = true)
  length_le : d.length ≤ 236

theorem WellFormed.not_dropping {d : TelemetryDecoder} (hd : d.WellFormed)
    (hesc : d.escaped = true) : d.dropping = false :=
  Bool.eq_false_iff.mpr fun hdrop => hd.exclusive ⟨hesc, hdrop⟩

/-- What the decoder holds of the open piece. -/
def view (d : TelemetryDecoder) : View UInt8 :=
  if d.dropping then none else some (d.held, d.escaped)

theorem Idle.wellFormed {d : TelemetryDecoder} (h : d.Idle) : d.WellFormed :=
  ⟨by simp [h.2.1], by simp [h.1]⟩

theorem Idle.view {d : TelemetryDecoder} (h : d.Idle) : d.view = some ([], false) := by
  simp [TelemetryDecoder.view, held, h.1, h.2.1, h.2.2]

theorem length_held {d : TelemetryDecoder} (h : d.length ≤ 236) : d.held.length = d.length := by
  simp [held, h]

end TelemetryDecoder

open TelemetryDecoder

/-- Storing a byte either extends the body or gives up on a body that is too long. -/
theorem storeByte_spec {d : TelemetryDecoder} (hesc : d.escaped = false)
    (hdrop : d.dropping = false) (hlen : d.length ≤ 236) (b : UInt8) :
    (storeByte d b).1.WellFormed ∧ (storeByte d b).2.chunk? = none ∧
      Represents 236 (storeByte d b).1.view (.body (d.held ++ [b])) := by
  rw [storeByte]
  split
  · next hfull =>
      refine ⟨⟨by simp [hesc], by simp⟩, rfl, ?_⟩
      have hheld := length_held hlen
      simp [view, Represents]
      omega
  · next hroom =>
      refine ⟨⟨by simp [hesc], by simp only; omega⟩, rfl, ?_⟩
      simp only [view, hdrop, hesc, Represents, held, Bool.false_eq_true, if_false]
      rw [Bytes.take_set]

/-! The exits of `telemetry_decoder_feed` for a byte that is not the delimiter. -/

section Exits
variable {d : TelemetryDecoder} {b : UInt8}

theorem feed_dropping (hb : b ≠ telemetrySof) (hdrop : d.dropping = true) :
    telemetryDecoderFeed d b = (d, .none) := by
  simp [telemetryDecoderFeed, hb, hdrop]

theorem feed_bad_pair (hb : b ≠ telemetrySof) (hdrop : d.dropping = false)
    (hesc : d.escaped = true) (hm : ¬ telemetryCode.Masked b) :
    telemetryDecoderFeed d b =
      ({ d with
          stats := { d.stats with escapeErrors := d.stats.escapeErrors + 1 }
          dropping := true
          escaped := false
          length := 0 }, .error) := by
  have hbad := not_masked_iff.mp hm
  simp [telemetryDecoderFeed, hb, hdrop, hesc, hbad]

theorem feed_pair (hdrop : d.dropping = false) (hesc : d.escaped = true)
    (hm : telemetryCode.Masked b) :
    telemetryDecoderFeed d b = storeByte { d with escaped := false } (b ^^^ 0x20) := by
  have hb : b ≠ telemetrySof := fun h => hm.not_special (.inl h)
  have hok : ¬ (b ≠ telemetrySof ^^^ 0x20 ∧ b ≠ telemetryEsc ^^^ 0x20) := fun h =>
    not_masked_iff.mpr h hm
  simp only [telemetryDecoderFeed, hb, hdrop, hesc, hok, if_false, if_true, Bool.false_eq_true]

theorem feed_escape (hdrop : d.dropping = false) (hesc : d.escaped = false) :
    telemetryDecoderFeed d telemetryEsc = ({ d with escaped := true }, .none) := by
  simp [telemetryDecoderFeed, hdrop, hesc, telemetryEsc, telemetrySof]

theorem feed_plain (hdrop : d.dropping = false) (hesc : d.escaped = false)
    (hp : ¬ telemetryCode.Special b) : telemetryDecoderFeed d b = storeByte d b := by
  have hb : b ≠ telemetrySof := fun h => hp (.inl h)
  have he : b ≠ telemetryEsc := fun h => hp (.inr h)
  simp [telemetryDecoderFeed, hb, he, hdrop, hesc]

end Exits

/-- A byte other than the delimiter makes the decoder follow the ideal receiver. -/
theorem feed_data {d : TelemetryDecoder} (hd : d.WellFormed) {b : UInt8}
    (hb : b ≠ telemetrySof) {t : Scan UInt8} (ht : Represents 236 d.view t) :
    (telemetryDecoderFeed d b).1.WellFormed ∧ (telemetryDecoderFeed d b).2.chunk? = none ∧
      Represents 236 (telemetryDecoderFeed d b).1.view (telemetryCode.next t b) := by
  by_cases hdrop : d.dropping = true
  · have hview : d.view = none := by simp [view, hdrop]
    rw [feed_dropping hb hdrop]
    rw [hview] at ht
    exact ⟨hd, rfl, hview ▸ ht.gave_up b⟩
  have hdrop : d.dropping = false := by simpa using hdrop
  by_cases hesc : d.escaped = true
  · have ht : t = .pending d.held := by simpa [view, hdrop, hesc, Represents] using ht
    subst ht
    by_cases hm : telemetryCode.Masked b
    · rw [feed_pair hdrop hesc hm, telemetryCode.next_pair hm]
      exact storeByte_spec (d := { d with escaped := false }) rfl hdrop hd.length_le _
    · rw [feed_bad_pair hb hdrop hesc hm, telemetryCode.next_bad_pair hm]
      exact ⟨⟨by simp, by simp⟩, rfl, by simp [view, Represents]⟩
  have hesc : d.escaped = false := by simpa using hesc
  have ht : t = .body d.held := by simpa [view, hdrop, hesc, Represents] using ht
  subst ht
  by_cases he : b = telemetryEsc
  · subst he
    have hlen := hd.length_le
    have hnext : telemetryCode.next (.body d.held) telemetryEsc = .pending d.held :=
      telemetryCode.next_esc _
    rw [feed_escape hdrop hesc, hnext]
    exact ⟨⟨by simp [hdrop], hlen⟩, rfl, by simp [view, hdrop, Represents, held]⟩
  · have hp : ¬ telemetryCode.Special b := not_or.mpr ⟨hb, he⟩
    rw [feed_plain hdrop hesc hp, telemetryCode.next_plain hp]
    exact storeByte_spec hesc hdrop hd.length_le b

/-! ## The delimiter -/

/-- `decode_body` on a list of bytes. -/
def decodeBytes (bytes : List UInt8) : RawResult :=
  if h : bytes.length = 236 then decodeBody ⟨bytes.toArray, by simpa using h⟩ 236 else .badFormat

theorem decodeBytes_toList (body : Vector UInt8 236) :
    decodeBytes body.toList = decodeBody body 236 := by
  have hbody : (⟨body.toList.toArray, by simp⟩ : Vector UInt8 236) = body := by
    apply Vector.toList_inj.mp
    rfl
  rw [decodeBytes]
  rw [dif_pos (by simp), hbody]

theorem decodeBytes_of_length {bytes : List UInt8} (h : bytes.length ≠ 236) :
    decodeBytes bytes = .badFormat := dif_neg h

/-- The chunk of a good body. -/
def RawResult.chunk? : RawResult → Option SpectrumChunk
  | .ok chunk => some chunk
  | _ => none

/-- The chunk a list of body bytes carries, if the decoder accepts it. -/
def checkBody (bytes : List UInt8) : Option SpectrumChunk := (decodeBytes bytes).chunk?

theorem checkBody_toList (body : Vector UInt8 236) :
    checkBody body.toList = (decodeBody body 236).chunk? := by
  rw [checkBody, decodeBytes_toList]

theorem checkBody_eq_some_iff {bytes : List UInt8} {c : SpectrumChunk} :
    checkBody bytes = some c ↔ c.WellFormed ∧ bytes = layout c := by
  by_cases h : bytes.length = 236
  · let body : Vector UInt8 236 := ⟨bytes.toArray, by simpa using h⟩
    have hbody : body.toList = bytes := rfl
    rw [← hbody, checkBody_toList]
    have hiff : decodeBody body 236 = .ok c ↔
        236 = 236 ∧ c.WellFormed ∧ body.toList = layout c := decodeBody_eq_ok_iff
    constructor
    · intro hc
      cases hok : decodeBody body 236 with
      | ok chunk =>
          rw [hok] at hc
          cases hc
          exact (hiff.mp hok).2
      | badCrc =>
          rw [hok] at hc
          cases hc
      | badFormat =>
          rw [hok] at hc
          cases hc
    · intro hc
      rw [hiff.mpr ⟨rfl, hc⟩]
      rfl
  · rw [checkBody, decodeBytes_of_length h]
    simp only [RawResult.chunk?, reduceCtorEq, false_iff, not_and]
    intro _ hl
    exact h (by rw [hl, length_layout])

theorem length_of_checkBody {bytes : List UInt8} {c : SpectrumChunk}
    (h : checkBody bytes = some c) : bytes.length = 236 := by
  rw [(checkBody_eq_some_iff.mp h).2, length_layout]

theorem checkBody_raw (p : Packet) : checkBody p.raw.toList = some p.chunk := by
  rw [checkBody_toList, p.decodeBody_raw]
  rfl

theorem checkBody_nil : checkBody [] = none := by
  rw [checkBody, decodeBytes_of_length (by decide)]
  rfl

/-- What `decode_body` makes of the decoder's buffer. -/
theorem decodeBytes_held {d : TelemetryDecoder} (h : d.length ≤ 236) :
    decodeBytes d.held = decodeBody d.body d.length := by
  by_cases hl : d.length = 236
  · have hheld : d.held = d.body.toList := by
      rw [held, hl, List.take_of_length_le (by simp)]
    rw [hheld, decodeBytes_toList, hl]
  · have hheld := length_held h
    rw [decodeBytes_of_length (by rwa [hheld]), decodeBody, if_pos hl]

theorem checkBody_held {d : TelemetryDecoder} (h : d.length ≤ 236) :
    checkBody d.held = (decodeBody d.body d.length).chunk? := by
  rw [checkBody, decodeBytes_held h]

theorem feed_sof_eq (d : TelemetryDecoder) :
    telemetryDecoderFeed d telemetrySof = feedSof d := by
  simp [telemetryDecoderFeed]

/-- A delimiter that closes a body: the three outcomes of `decode_body`. -/
theorem feedSof_body {d : TelemetryDecoder} (hesc : d.escaped = false)
    (hdrop : d.dropping = false) (hlen : d.length ≠ 0) :
    feedSof d =
      match decodeBody d.body d.length with
      | .badCrc => (countRejected { d with length := 0 } true, .error)
      | .badFormat => (countRejected { d with length := 0 } false, .error)
      | .ok chunk =>
          (countFrame (countSequence { d with length := 0 } chunk.sequence), .frame chunk) := by
  have hesc' : ¬ d.escaped = true := by simp [hesc]
  have hdrop' : ¬ d.dropping = true := by simp [hdrop]
  exact (if_neg hesc').trans ((if_neg hdrop').trans (if_neg hlen))

/-- The counters of rejected input. -/
def TelemetryDecoderStats.faults (s : TelemetryDecoderStats) : List UInt32 :=
  [s.crcErrors, s.formatErrors, s.overflowErrors, s.escapeErrors, s.resyncEvents]

/-- The sequence accounting touches neither the open piece nor the fault counters. -/
theorem countSequence_frame (d : TelemetryDecoder) (sequence : UInt16) :
    (countFrame (countSequence d sequence)).length = d.length ∧
      (countFrame (countSequence d sequence)).escaped = d.escaped ∧
      (countFrame (countSequence d sequence)).dropping = d.dropping ∧
      (countFrame (countSequence d sequence)).stats.faults = d.stats.faults := by
  rw [countSequence]
  split
  · dsimp only
    split
    · exact ⟨rfl, rfl, rfl, rfl⟩
    · split <;> exact ⟨rfl, rfl, rfl, rfl⟩
  · exact ⟨rfl, rfl, rfl, rfl⟩

theorem idle_countSequence {d : TelemetryDecoder} (h : d.Idle) (sequence : UInt16) :
    (countFrame (countSequence d sequence)).Idle := by
  obtain ⟨hlength, hescaped, hdropping, -⟩ := countSequence_frame d sequence
  exact ⟨hlength.trans h.1, hescaped.trans h.2.1, hdropping.trans h.2.2⟩

theorem faults_countSequence (d : TelemetryDecoder) (sequence : UInt16) :
    (countFrame (countSequence d sequence)).stats.faults = d.stats.faults :=
  (countSequence_frame d sequence).2.2.2

/-- A delimiter delivers the open body and leaves the decoder idle. -/
theorem feed_sof {d : TelemetryDecoder} (hd : d.WellFormed) :
    (telemetryDecoderFeed d telemetrySof).1.Idle ∧
      (telemetryDecoderFeed d telemetrySof).2.chunk? = close checkBody d.view := by
  rw [feed_sof_eq]
  by_cases hesc : d.escaped = true
  · have hdrop := hd.not_dropping hesc
    simp [feedSof, hesc, hdrop, view, close, Idle, TelemetryDecodeResult.chunk?]
  have hesc : d.escaped = false := by simpa using hesc
  by_cases hdrop : d.dropping = true
  · simp [feedSof, hesc, hdrop, view, close, Idle, TelemetryDecodeResult.chunk?]
  have hdrop : d.dropping = false := by simpa using hdrop
  by_cases hlen : d.length = 0
  · have hheld : d.held = [] := by simp [held, hlen]
    simp [feedSof, hesc, hdrop, hlen, view, close, Idle, TelemetryDecodeResult.chunk?, hheld,
      checkBody_nil]
  have hclose : close checkBody d.view = checkBody d.held := by simp [view, hdrop, hesc, close]
  have hidle : ({ d with length := 0 } : TelemetryDecoder).Idle := ⟨rfl, hesc, hdrop⟩
  rw [hclose, checkBody_held hd.length_le, feedSof_body hesc hdrop hlen]
  cases decodeBody d.body d.length with
  | badCrc => exact ⟨hidle, rfl⟩
  | badFormat => exact ⟨hidle, rfl⟩
  | ok chunk => exact ⟨idle_countSequence hidle chunk.sequence, rfl⟩

/-- The firmware decoder is a receiver for the byte code. -/
def telemetryDeframer :
    Deframer telemetryCode 236 checkBody TelemetryDecoder TelemetryDecodeResult where
  step := telemetryDecoderFeed
  emit := TelemetryDecodeResult.chunk?
  Inv := TelemetryDecoder.WellFormed
  view := TelemetryDecoder.view
  data := fun _ _ _ hd hb ht => feed_data hd hb ht
  delimiter := fun _ hd =>
    ⟨(feed_sof hd).1.wellFormed, (feed_sof hd).2, (feed_sof hd).1.view⟩

theorem Idle.fresh {d : TelemetryDecoder} (h : d.Idle) : telemetryDeframer.Fresh d :=
  ⟨h.wellFormed, h.view⟩

/-- The chunks an idle decoder returns from a stream. -/
theorem yields_feed {d : TelemetryDecoder} (hd : d.Idle) (bytes : List UInt8) :
    Machine.yields telemetryDecoderFeed TelemetryDecodeResult.chunk? d bytes =
      (Cut.of telemetrySof bytes).closed.filterMap (accept telemetryCode checkBody) :=
  telemetryDeframer.yields_eq (fun _ _ h => length_of_checkBody h) (Idle.fresh hd) bytes

theorem TelemetryDecodeResult.chunk?_eq_some_iff {r : TelemetryDecodeResult} {c : SpectrumChunk} :
    r.chunk? = some c ↔ r = .frame c := by
  cases r <;> simp [TelemetryDecodeResult.chunk?]

theorem mem_yields_feed {d : TelemetryDecoder} {bytes : List UInt8} {c : SpectrumChunk} :
    c ∈ Machine.yields telemetryDecoderFeed TelemetryDecodeResult.chunk? d bytes ↔
      .frame c ∈ Machine.outputs telemetryDecoderFeed d bytes := by
  simp only [Machine.yields, List.mem_filterMap, TelemetryDecodeResult.chunk?_eq_some_iff,
    exists_eq_right]

theorem wellFormed_final {d : TelemetryDecoder} (hd : d.Idle) (bytes : List UInt8) :
    (Machine.final telemetryDecoderFeed d bytes).WellFormed :=
  (telemetryDeframer.run_spec (fun _ _ h => length_of_checkBody h) (Idle.fresh hd) bytes).1

/-- The decoder after a stream, counted from `telemetry_decoder_init`. -/
def decoderAfter (history : List UInt8) : TelemetryDecoder :=
  Machine.final telemetryDecoderFeed telemetryDecoderInit history

theorem idle_init : telemetryDecoderInit.Idle := by decide

theorem wellFormed_decoderAfter (history : List UInt8) : (decoderAfter history).WellFormed :=
  wellFormed_final idle_init history

end SpectrumAnalyzer
