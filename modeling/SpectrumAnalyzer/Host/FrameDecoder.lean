import SpectrumAnalyzer.Host.Packet
import SpectrumAnalyzer.Telemetry.Accounting

/-!
# The host frame decoder

`FrameDecoder.feed`, one byte at a time.  The decoder keeps its state between calls, so
a stream may be cut into calls anywhere.  The two paths that append to the buffer differ:
a plain byte is appended only while the buffer holds fewer than 236 bytes, an unescaped
one always.  `hostPolicy` is the policy that comes of it.

## Main definitions

* `FrameDecoder`, `FrameDecoder.feedByte` — the decoder and one byte of `feed`.
* `hostPolicy` — what the host keeps.
* `hostDeframer`, `hostAuditor` — the host decoder as a receiver and as an auditor.
* `FrameDecoder.after` — the decoder after a stream.
-/

namespace SpectrumAnalyzer.Host

open Framing

/-- `FrameDecoder`. -/
structure FrameDecoder where
  buffer : List UInt8
  escaped : Bool
  dropping : Bool
  frames : ℕ
  errors : ℕ
  crcErrors : ℕ
  formatErrors : ℕ
  overflowErrors : ℕ
  escapeErrors : ℕ
  resyncEvents : ℕ
  lost : ℕ
  duplicates : ℕ
  outOfOrder : ℕ
  lastSequence : Option ℕ
  deriving DecidableEq, Repr

/-- What one byte makes the generator do. -/
inductive FeedOutcome where
  | silent
  | yielded (chunk : SpectrumChunk)
  | raised
  deriving DecidableEq, Repr

/-- The chunk handed to the consumer, if any. -/
def FeedOutcome.chunk? : FeedOutcome → Option SpectrumChunk
  | .yielded chunk => some chunk
  | _ => none

namespace FrameDecoder

/-- `FrameDecoder.__init__`. -/
def init : FrameDecoder := ⟨[], false, false, 0, 0, 0, 0, 0, 0, 0, 0, 0, 0, none⟩

/-- The sequence accounting of an accepted frame. -/
def countSequence (d : FrameDecoder) (sequence : ℕ) : FrameDecoder :=
  match d.lastSequence with
  | some last =>
      let delta : ℕ := (((sequence : ℤ) - last) % 0x10000).toNat
      if delta = 0 then { d with duplicates := d.duplicates + 1 }
      else if delta < 0x8000 then
        { d with lost := d.lost + (delta - 1), lastSequence := some sequence }
      else { d with outOfOrder := d.outOfOrder + 1 }
  | none => { d with lastSequence := some sequence }

/-- What follows a rejected body. -/
def countRejected (d : FrameDecoder) (crc : Bool) : FrameDecoder :=
  if crc then
    { d with
      errors := d.errors + 1, crcErrors := d.crcErrors + 1, resyncEvents := d.resyncEvents + 1 }
  else
    { d with
      errors := d.errors + 1
      formatErrors := d.formatErrors + 1
      resyncEvents := d.resyncEvents + 1 }

/-- The branch for a delimiter. -/
def feedSof (d : FrameDecoder) : FrameDecoder × FeedOutcome :=
  if d.escaped then
    ({ d with
        escaped := false
        buffer := []
        errors := d.errors + 1
        escapeErrors := d.escapeErrors + 1
        resyncEvents := d.resyncEvents + 1 }, .silent)
  else if d.dropping then
    ({ d with dropping := false, buffer := [], resyncEvents := d.resyncEvents + 1 }, .silent)
  else if d.buffer = [] then (d, .silent)
  else
    match decodeRaw d.buffer with
    | .error .crc => ({ countRejected d true with buffer := [] }, .silent)
    | .error (.format _) => ({ countRejected d false with buffer := [] }, .silent)
    | .error .struct => (d, .raised)
    | .ok chunk =>
        ({ countSequence d chunk.sequence with frames := d.frames + 1, buffer := [] },
          .yielded chunk)

/-- One byte of `FrameDecoder.feed`. -/
def feedByte (d : FrameDecoder) (byte : UInt8) : FrameDecoder × FeedOutcome :=
  if byte = telemetrySof then d.feedSof
  else if d.dropping then (d, .silent)
  else if d.escaped then
    if byte ≠ telemetrySof ^^^ 0x20 ∧ byte ≠ telemetryEsc ^^^ 0x20 then
      ({ d with
          escaped := false
          buffer := []
          dropping := true
          errors := d.errors + 1
          escapeErrors := d.escapeErrors + 1 }, .silent)
    else ({ d with buffer := d.buffer ++ [byte ^^^ 0x20], escaped := false }, .silent)
  else if byte = telemetryEsc then ({ d with escaped := true }, .silent)
  else if d.buffer.length < rawLength then ({ d with buffer := d.buffer ++ [byte] }, .silent)
  else
    ({ d with
        buffer := []
        dropping := true
        errors := d.errors + 1
        overflowErrors := d.overflowErrors + 1 }, .silent)

/-- The counter of a kind of fault. -/
def fault (d : FrameDecoder) : Fault BodyFault → ℕ
  | .overlong => d.overflowErrors
  | .escape => d.escapeErrors
  | .refused .crc => d.crcErrors
  | .refused .format => d.formatErrors

/-- What the decoder holds of the open piece. -/
def view (d : FrameDecoder) : View UInt8 :=
  if d.dropping then none else some (d.buffer, d.escaped)

/-- The decoder after a stream. -/
def after (history : List UInt8) : FrameDecoder := Machine.final feedByte init history

end FrameDecoder

/-! ## The policy of the host -/

/-- Beyond 236 bytes the host keeps only what was sent escaped. -/
def hostPolicy : Policy UInt8 BodyFault where
  keeps := fun body => ∀ x ∈ body.drop 236, telemetryCode.Special x
  judge := judgeBody
  keeps_nil := by simp
  keeps_of_snoc := fun body x h y hy => h y (by
    rw [List.drop_append]
    exact List.mem_append_left _ hy)
  decidableKeeps := fun body => List.decidableBAll telemetryCode.Special (body.drop 236)

theorem host_keeps {body : List UInt8} :
    hostPolicy.keeps body ↔ ∀ x ∈ body.drop 236, telemetryCode.Special x := Iff.rfl

theorem host_keeps_of_length {body : List UInt8} (h : body.length ≤ 236) :
    hostPolicy.keeps body := by
  rw [host_keeps, List.drop_eq_nil_of_le h]
  simp

/-- A kept body stays kept by an escaped byte, and by a plain byte while there is room. -/
theorem host_keeps_snoc {body : List UInt8} (h : hostPolicy.keeps body) (x : UInt8) :
    hostPolicy.keeps (body ++ [x]) ↔ telemetryCode.Special x ∨ body.length < 236 := by
  by_cases hroom : body.length < 236
  · have hlen : (body ++ [x]).length ≤ 236 := by
      rw [List.length_append, List.length_singleton]
      omega
    simp [host_keeps_of_length hlen, hroom]
  · have hdrop : (body ++ [x]).drop 236 = body.drop 236 ++ [x] := by
      rw [List.drop_append_of_le_length (by omega)]
    rw [host_keeps, hdrop, List.forall_mem_append]
    simp only [List.mem_singleton, forall_eq, hroom, or_false]
    exact and_iff_right h

/-! ## What the host makes of a body -/

/-- A nonempty body gets the same verdict from host and firmware. -/
theorem reads_bytes {bytes : List UInt8} (hne : bytes ≠ []) :
    ∃ r, Reads r (decodeRaw bytes) ∧ judgeBody bytes = r.fault ∧
      ∀ c, checkBody bytes = some c ↔ r = .ok c := by
  by_cases hl : bytes.length = 236
  · let body : Vector UInt8 236 := ⟨bytes.toArray, by simpa using hl⟩
    have hbody : body.toList = bytes := rfl
    refine ⟨decodeBody body 236, ?_, ?_, ?_⟩
    · have h := reads_decodeRaw body 236 le_rfl
      rwa [hbody, List.take_of_length_le hl.le] at h
    · rw [judgeBody, if_neg hne, ← hbody, decodeBytes_toList]
    · intro c
      rw [← hbody, checkBody_toList]
      cases decodeBody body 236 <;> simp [RawResult.chunk?]
  · refine ⟨.badFormat, ?_, ?_, ?_⟩
    · rw [decodeRaw_of_length hl]
      exact .badFormat _
    · rw [judgeBody, if_neg hne, decodeBytes_of_length hl]
    · intro c
      rw [checkBody, decodeBytes_of_length hl]
      simp [RawResult.chunk?]

/-- The chunk the host takes from a body. -/
def hostCheck (bytes : List UInt8) : Option SpectrumChunk := (checkBody bytes).map ofFirmware

/-- It is the one that `decode_raw` returns, if it returns. -/
theorem hostCheck_eq (bytes : List UInt8) : hostCheck bytes = (decodeRaw bytes).toOption := by
  by_cases hne : bytes = []
  · subst hne
    rw [decodeRaw_of_length (by decide), hostCheck, checkBody_nil]
    rfl
  · obtain ⟨r, hreads, -, hcheck⟩ := reads_bytes hne
    have hnone : (∀ c, r ≠ .ok c) → hostCheck bytes = none := by
      intro hr
      rw [hostCheck, Option.map_eq_none_iff, Option.eq_none_iff_forall_ne_some]
      exact fun c hc => hr c ((hcheck c).mp hc)
    generalize decodeRaw bytes = raw at hreads
    cases hreads with
    | ok c =>
        rw [hostCheck, (hcheck c).mpr rfl]
        rfl
    | badCrc => exact hnone (by simp)
    | badFormat message => exact hnone (by simp)

namespace FrameDecoder

/-! ## One byte of the decoder -/

section Exits
variable {d : FrameDecoder} {b : UInt8}

theorem feed_sof (d : FrameDecoder) : d.feedByte telemetrySof = d.feedSof := by
  simp [feedByte]

theorem feed_dropping (hb : b ≠ telemetrySof) (hdrop : d.dropping = true) :
    d.feedByte b = (d, .silent) := by
  simp [feedByte, hb, hdrop]

theorem feed_bad_pair (hb : b ≠ telemetrySof) (hdrop : d.dropping = false)
    (hesc : d.escaped = true) (hm : ¬ telemetryCode.Masked b) :
    d.feedByte b =
      ({ d with
          escaped := false
          buffer := []
          dropping := true
          errors := d.errors + 1
          escapeErrors := d.escapeErrors + 1 }, .silent) := by
  have hbad := not_masked_iff.mp hm
  simp [feedByte, hb, hdrop, hesc, hbad]

theorem feed_pair (hdrop : d.dropping = false) (hesc : d.escaped = true)
    (hm : telemetryCode.Masked b) :
    d.feedByte b = ({ d with buffer := d.buffer ++ [b ^^^ 0x20], escaped := false }, .silent) := by
  have hb : b ≠ telemetrySof := fun h => hm.not_special (.inl h)
  have hok : ¬ (b ≠ telemetrySof ^^^ 0x20 ∧ b ≠ telemetryEsc ^^^ 0x20) := fun h =>
    not_masked_iff.mpr h hm
  simp only [feedByte, hb, hdrop, hesc, hok, if_false, if_true, Bool.false_eq_true]

theorem feed_escape (hdrop : d.dropping = false) (hesc : d.escaped = false) :
    d.feedByte telemetryEsc = ({ d with escaped := true }, .silent) := by
  simp [feedByte, hdrop, hesc, telemetryEsc, telemetrySof]

theorem feed_plain (hdrop : d.dropping = false) (hesc : d.escaped = false)
    (hp : ¬ telemetryCode.Special b) :
    d.feedByte b =
      if d.buffer.length < 236 then ({ d with buffer := d.buffer ++ [b] }, .silent)
      else
        ({ d with
            buffer := []
            dropping := true
            errors := d.errors + 1
            overflowErrors := d.overflowErrors + 1 }, .silent) := by
  have hb : b ≠ telemetrySof := fun h => hp (.inl h)
  have he : b ≠ telemetryEsc := fun h => hp (.inr h)
  simp only [feedByte, hb, he, hdrop, hesc, rawLength, if_false, Bool.false_eq_true]

end Exits

/-- The flags exclude each other, a decoder that drops holds nothing, and what it holds
is what the policy keeps. -/
structure WellFormed (d : FrameDecoder) : Prop where
  exclusive : ¬ (d.escaped = true ∧ d.dropping = true)
  buffer_of_dropping : d.dropping = true → d.buffer = []
  keeps : hostPolicy.keeps d.buffer

theorem WellFormed.not_dropping {d : FrameDecoder} (hd : d.WellFormed)
    (hesc : d.escaped = true) : d.dropping = false :=
  Bool.eq_false_iff.mpr fun hdrop => hd.exclusive ⟨hesc, hdrop⟩

/-- Counters that do not wrap. -/
def unbounded : Counter ℕ where
  cast := id
  cast_add := fun _ _ => rfl
  add_zero := fun _ => rfl

theorem feed_data {d : FrameDecoder} (hd : d.WellFormed) {b : UInt8} (hb : b ≠ telemetrySof)
    {t : Scan UInt8} (ht : d.view = hostPolicy.shown t) :
    (d.feedByte b).1.WellFormed ∧
      (d.feedByte b).1.view = hostPolicy.shown (telemetryCode.next t b) ∧
      unbounded.Charges d.fault (d.feedByte b).1.fault (hostPolicy.openFault t)
        (hostPolicy.openFault (telemetryCode.next t b)) ∧
      (d.feedByte b).1.resyncEvents = d.resyncEvents := by
  by_cases hdrop : d.dropping = true
  · have hview : d.view = none := by simp [view, hdrop]
    obtain ⟨k, hk⟩ := hostPolicy.exists_openFault (ht.symm.trans hview)
    have hnext := hostPolicy.openFault_next telemetryCode hk b
    rw [feed_dropping hb hdrop, hview]
    refine ⟨hd, ?_, .unchanged (fun _ => rfl) (by simp [hk]), rfl⟩
    exact (hostPolicy.shown_of_openFault hnext).symm
  have hdrop : d.dropping = false := by simpa using hdrop
  by_cases hesc : d.escaped = true
  · have hview : d.view = some (d.buffer, true) := by simp [view, hdrop, hesc]
    obtain ⟨ht, hkeeps⟩ := hostPolicy.shown_eq_pending.mp (ht.symm.trans hview)
    subst ht
    have hopen : hostPolicy.openFault (.pending d.buffer) = none := if_pos hkeeps
    rw [hopen]
    by_cases hm : telemetryCode.Masked b
    · have hkeeps' : hostPolicy.keeps (d.buffer ++ [telemetryCode.mask b]) :=
        (host_keeps_snoc hkeeps _).mpr (.inl (telemetryCode.special_mask hm))
      rw [feed_pair hdrop hesc hm, telemetryCode.next_pair hm]
      refine ⟨⟨by simp, by simp [hdrop], hkeeps'⟩, ?_, .unchanged (fun _ => rfl) fun _ =>
        if_pos hkeeps', rfl⟩
      rw [hostPolicy.shown_eq_body.mpr ⟨rfl, hkeeps'⟩]
      simp [view, hdrop, telemetryCode]
    · have hbad : hostPolicy.openFault (.bad d.buffer) = some .escape := if_pos hkeeps
      rw [feed_bad_pair hb hdrop hesc hm, telemetryCode.next_bad_pair hm, hbad]
      refine ⟨⟨by simp, by simp, hostPolicy.keeps_nil⟩, by simp [view, Policy.shown],
        .bump rfl ?_, rfl⟩
      rintro (_ | _ | _ | _) h <;> first | rfl | exact absurd rfl h
  have hesc : d.escaped = false := by simpa using hesc
  have hview : d.view = some (d.buffer, false) := by simp [view, hdrop, hesc]
  obtain ⟨ht, hkeeps⟩ := hostPolicy.shown_eq_body.mp (ht.symm.trans hview)
  subst ht
  have hopen : hostPolicy.openFault (.body d.buffer) = none := if_pos hkeeps
  rw [hopen]
  by_cases he : b = telemetryEsc
  · subst he
    have hnext : telemetryCode.next (.body d.buffer) telemetryEsc = .pending d.buffer :=
      telemetryCode.next_esc _
    rw [feed_escape hdrop hesc, hnext]
    refine ⟨⟨by simp [hdrop], by simp [hdrop], hkeeps⟩, ?_, .unchanged (fun _ => rfl) fun _ =>
      if_pos hkeeps, rfl⟩
    rw [hostPolicy.shown_eq_pending.mpr ⟨rfl, hkeeps⟩]
    simp [view, hdrop]
  have hp : ¬ telemetryCode.Special b := not_or.mpr ⟨hb, he⟩
  rw [feed_plain hdrop hesc hp, telemetryCode.next_plain hp]
  by_cases hroom : d.buffer.length < 236
  · have hkeeps' : hostPolicy.keeps (d.buffer ++ [b]) :=
      (host_keeps_snoc hkeeps _).mpr (.inr hroom)
    rw [if_pos hroom]
    refine ⟨⟨by simp [hesc], by simp [hdrop], hkeeps'⟩, ?_, .unchanged (fun _ => rfl) fun _ =>
      if_pos hkeeps', rfl⟩
    rw [hostPolicy.shown_eq_body.mpr ⟨rfl, hkeeps'⟩]
    simp [view, hdrop, hesc]
  · have hkeeps' : ¬ hostPolicy.keeps (d.buffer ++ [b]) := fun h =>
      ((host_keeps_snoc hkeeps _).mp h).elim hp hroom
    have hlong : hostPolicy.openFault (.body (d.buffer ++ [b])) = some .overlong :=
      if_neg hkeeps'
    have hshown : hostPolicy.shown (.body (d.buffer ++ [b])) = none := if_neg hkeeps'
    rw [if_neg hroom, hlong, hshown]
    refine ⟨⟨by simp [hesc], by simp, hostPolicy.keeps_nil⟩, by simp [view], .bump rfl ?_, rfl⟩
    rintro (_ | _ | _ | _) h <;> first | rfl | exact absurd rfl h

/-- `errors` is the sum of the counters by kind. -/
def Summed (d : FrameDecoder) : Prop :=
  d.errors = d.crcErrors + d.formatErrors + d.overflowErrors + d.escapeErrors

/-- The sequence accounting touches neither the flags nor the fault counters. -/
theorem countSequence_frame (d : FrameDecoder) (sequence : ℕ) :
    (d.countSequence sequence).escaped = d.escaped ∧
      (d.countSequence sequence).dropping = d.dropping ∧
      (∀ k, (d.countSequence sequence).fault k = d.fault k) ∧
      (d.countSequence sequence).resyncEvents = d.resyncEvents ∧
      (d.countSequence sequence).errors = d.errors := by
  rw [countSequence]
  split
  · dsimp only
    split
    · exact ⟨rfl, rfl, fun k => by rcases k with _ | _ | _ | _ <;> rfl, rfl, rfl⟩
    split
    · exact ⟨rfl, rfl, fun k => by rcases k with _ | _ | _ | _ <;> rfl, rfl, rfl⟩
    · exact ⟨rfl, rfl, fun k => by rcases k with _ | _ | _ | _ <;> rfl, rfl, rfl⟩
  · exact ⟨rfl, rfl, fun k => by rcases k with _ | _ | _ | _ <;> rfl, rfl, rfl⟩

theorem summed_countSequence {d : FrameDecoder} (h : d.Summed) (sequence : ℕ) :
    (d.countSequence sequence).Summed := by
  obtain ⟨-, -, hfault, -, herrors⟩ := countSequence_frame d sequence
  have hcrc := hfault (.refused .crc)
  have hformat := hfault (.refused .format)
  have hoverflow := hfault .overlong
  have hescape := hfault .escape
  simp only [fault] at hcrc hformat hoverflow hescape
  rw [Summed, herrors, hcrc, hformat, hoverflow, hescape]
  exact h

theorem summed_feedSof {d : FrameDecoder} (h : d.Summed) : d.feedSof.1.Summed := by
  have hadd := h
  rw [Summed] at hadd
  rw [feedSof]
  split
  · simp only [Summed]
    omega
  split
  · exact h
  split
  · exact h
  split
  · simp only [countRejected, Summed, if_true]
    omega
  · simp only [countRejected, Summed, Bool.false_eq_true, if_false]
    omega
  · exact h
  · exact summed_countSequence h _

/-- A byte other than the delimiter yields nothing.  It moves the open piece, or charges
it with one fault and starts to drop. -/
theorem feed_data_cases {d : FrameDecoder} {b : UInt8} (hb : b ≠ telemetrySof) :
    (d.feedByte b).2 = .silent ∧
      ((∃ buffer escaped,
          (d.feedByte b).1 = { d with buffer := buffer, escaped := escaped }) ∨
        (d.feedByte b).1 =
          { d with
            escaped := false
            buffer := []
            dropping := true
            errors := d.errors + 1
            escapeErrors := d.escapeErrors + 1 } ∨
        (d.feedByte b).1 =
          { d with
            buffer := []
            dropping := true
            errors := d.errors + 1
            overflowErrors := d.overflowErrors + 1 }) := by
  by_cases hdrop : d.dropping = true
  · rw [feed_dropping hb hdrop]
    exact ⟨rfl, .inl ⟨d.buffer, d.escaped, rfl⟩⟩
  have hdrop : d.dropping = false := by simpa using hdrop
  by_cases hesc : d.escaped = true
  · by_cases hm : telemetryCode.Masked b
    · rw [feed_pair hdrop hesc hm]
      exact ⟨rfl, .inl ⟨_, _, rfl⟩⟩
    · rw [feed_bad_pair hb hdrop hesc hm]
      exact ⟨rfl, .inr (.inl rfl)⟩
  have hesc : d.escaped = false := by simpa using hesc
  by_cases he : b = telemetryEsc
  · subst he
    rw [feed_escape hdrop hesc]
    exact ⟨rfl, .inl ⟨d.buffer, true, rfl⟩⟩
  · rw [feed_plain hdrop hesc (not_or.mpr ⟨hb, he⟩)]
    split
    · exact ⟨rfl, .inl ⟨_, d.escaped, rfl⟩⟩
    · exact ⟨rfl, .inr (.inr rfl)⟩

theorem silent_of_data {d : FrameDecoder} {b : UInt8} (hb : b ≠ telemetrySof) :
    (d.feedByte b).2 = .silent :=
  (feed_data_cases hb).1

/-- One byte keeps the sum. -/
theorem summed_feedByte {d : FrameDecoder} (h : d.Summed) (b : UInt8) :
    (d.feedByte b).1.Summed := by
  by_cases hb : b = telemetrySof
  · rw [hb, feed_sof]
    exact summed_feedSof h
  have hadd := h
  rw [Summed] at hadd
  obtain ⟨buffer, escaped, hmove⟩ | hcharge | hcharge := (feed_data_cases (d := d) hb).2
  · rw [hmove]
    exact h
  · rw [hcharge]
    simp only [Summed]
    omega
  · rw [hcharge]
    simp only [Summed]
    omega

/-! ## The delimiter -/

/-- Waiting for the first byte of a frame. -/
def Idle (d : FrameDecoder) : Prop := d.buffer = [] ∧ d.escaped = false ∧ d.dropping = false

theorem Idle.wellFormed {d : FrameDecoder} (h : d.Idle) : d.WellFormed :=
  ⟨by simp [h.2.1], fun _ => h.1, by rw [h.1]; exact hostPolicy.keeps_nil⟩

theorem Idle.view {d : FrameDecoder} (h : d.Idle) : d.view = some ([], false) := by
  simp [FrameDecoder.view, h.1, h.2.1, h.2.2]

/-- A delimiter that closes a body: it is delivered or charged, whatever `decode_raw` says. -/
theorem feedSof_body_charged {d : FrameDecoder} (hesc : d.escaped = false)
    (hdrop : d.dropping = false) (hempty : d.buffer ≠ []) :
    d.feedSof.1.Idle ∧ d.feedSof.2.chunk? = hostCheck d.buffer ∧ d.feedSof.2 ≠ .raised ∧
      unbounded.Charges d.fault d.feedSof.1.fault none
        ((judgeBody d.buffer).map .refused) ∧
      d.feedSof.1.resyncEvents = d.resyncEvents +
        unbounded.cast (if ((judgeBody d.buffer).map Fault.refused).isSome then 1 else 0) := by
  obtain ⟨r, hreads, hjudge, hcheck⟩ := reads_bytes hempty
  have hchunk : checkBody d.buffer = none ∨ ∃ c, r = .ok c := by
    cases hc : checkBody d.buffer with
    | none => exact .inl rfl
    | some c => exact .inr ⟨c, (hcheck c).mp hc⟩
  rw [hjudge]
  rw [feedSof]
  simp only [hesc, hdrop, hempty, Bool.false_eq_true, if_false]
  generalize hraw : decodeRaw d.buffer = raw at hreads
  cases hreads with
  | ok c =>
      obtain ⟨hescaped, hdropping, hfault, hresync, -⟩ :=
        countSequence_frame d (ofFirmware c).sequence
      refine ⟨⟨rfl, hescaped.trans hesc, hdropping.trans hdrop⟩, ?_, by simp,
        .unchanged ?_ fun _ => rfl, hresync⟩
      · rw [hostCheck, (hcheck c).mpr rfl]
        rfl
      · intro k
        rw [← hfault k]
        rcases k with _ | _ | _ | _ <;> rfl
  | badCrc =>
      refine ⟨⟨rfl, hesc, hdrop⟩, ?_, by simp, .bump rfl ?_, rfl⟩
      · rw [hostCheck, hchunk.resolve_right (by simp)]
        rfl
      · rintro (_ | _ | _ | _) h <;> first | rfl | exact absurd rfl h
  | badFormat message =>
      refine ⟨⟨rfl, hesc, hdrop⟩, ?_, by simp, .bump rfl ?_, rfl⟩
      · rw [hostCheck, hchunk.resolve_right (by simp)]
        rfl
      · rintro (_ | _ | _ | _) h <;> first | rfl | exact absurd rfl h

/-- A delimiter delivers the open body, charges it, and leaves the decoder idle. -/
theorem feed_sof_charged {d : FrameDecoder} (hd : d.WellFormed) {t : Scan UInt8}
    (ht : d.view = hostPolicy.shown t) :
    d.feedSof.1.Idle ∧ d.feedSof.2.chunk? = close hostCheck d.view ∧ d.feedSof.2 ≠ .raised ∧
      unbounded.Charges d.fault d.feedSof.1.fault (hostPolicy.openFault t)
        (hostPolicy.closedFault t) ∧
      d.feedSof.1.resyncEvents = d.resyncEvents +
        unbounded.cast (if (hostPolicy.closedFault t).isSome then 1 else 0) := by
  by_cases hesc : d.escaped = true
  · have hdrop := hd.not_dropping hesc
    have hview : d.view = some (d.buffer, true) := by simp [view, hdrop, hesc]
    obtain ⟨rfl, hkeeps⟩ := hostPolicy.shown_eq_pending.mp (ht.symm.trans hview)
    have hopen : hostPolicy.openFault (.pending d.buffer) = none := if_pos hkeeps
    have hclosed : hostPolicy.closedFault (.pending d.buffer) = some .escape := if_pos hkeeps
    rw [hopen, hclosed, hview]
    simp only [feedSof, hesc, if_true]
    refine ⟨⟨rfl, rfl, hdrop⟩, rfl, by simp, .bump rfl ?_, rfl⟩
    rintro (_ | _ | _ | _) h <;> first | rfl | exact absurd rfl h
  have hesc : d.escaped = false := by simpa using hesc
  by_cases hdrop : d.dropping = true
  · have hview : d.view = none := by simp [view, hdrop]
    obtain ⟨k, hk⟩ := hostPolicy.exists_openFault (ht.symm.trans hview)
    rw [hk, hostPolicy.closedFault_of_openFault hk, hview]
    simp only [feedSof, hesc, hdrop, if_true, Bool.false_eq_true, if_false]
    exact ⟨⟨rfl, rfl, rfl⟩, rfl, by simp, .unchanged (fun _ => rfl) (by simp), rfl⟩
  have hdrop : d.dropping = false := by simpa using hdrop
  have hview : d.view = some (d.buffer, false) := by simp [view, hdrop, hesc]
  obtain ⟨rfl, hkeeps⟩ := hostPolicy.shown_eq_body.mp (ht.symm.trans hview)
  have hopen : hostPolicy.openFault (.body d.buffer) = none := if_pos hkeeps
  have hclosed : hostPolicy.closedFault (.body d.buffer) = (judgeBody d.buffer).map .refused :=
    if_pos hkeeps
  have hclose : close hostCheck d.view = hostCheck d.buffer := by rw [hview]; rfl
  rw [hopen, hclosed, hclose]
  by_cases hempty : d.buffer = []
  · rw [hempty, judgeBody_nil]
    simp only [feedSof, hesc, hdrop, hempty, if_true, Bool.false_eq_true, if_false]
    exact ⟨⟨hempty, hesc, hdrop⟩, by simp [FeedOutcome.chunk?, hostCheck, checkBody_nil], by simp,
      .unchanged (fun _ => rfl) fun _ => rfl, rfl⟩
  · exact feedSof_body_charged hesc hdrop hempty

end FrameDecoder

/-! ## The host decoder as a receiver -/

/-- The host decoder as an auditor. -/
def hostAuditor :
    Auditor telemetryCode hostPolicy FrameDecoder.unbounded FrameDecoder FeedOutcome where
  step := FrameDecoder.feedByte
  Inv := FrameDecoder.WellFormed
  view := FrameDecoder.view
  fault := FrameDecoder.fault
  resync := FrameDecoder.resyncEvents
  data := fun _ _ _ hd hb ht => FrameDecoder.feed_data hd hb ht
  delimiter := by
    intro d t hd ht
    obtain ⟨hidle, -, -, hfault, hresync⟩ := FrameDecoder.feed_sof_charged hd ht
    change (d.feedByte telemetrySof).1.WellFormed ∧ _ ∧ _ ∧ _
    rw [FrameDecoder.feed_sof]
    exact ⟨hidle.wellFormed, hidle.view, hfault, hresync⟩

theorem host_long_of_not_keeps {body : List UInt8} (h : ¬ hostPolicy.keeps body) :
    236 < body.length := by
  by_contra hl
  exact h (host_keeps_of_length (by omega))

namespace FrameDecoder

/-- A decoder that holds a piece shows what the policy shows of it. -/
theorem WellFormed.view_eq_shown {d : FrameDecoder} (hd : d.WellFormed)
    (hdrop : d.dropping = false) {t : Scan UInt8} (ht : Represents 236 d.view t) :
    d.view = hostPolicy.shown t := by
  have hkeeps := hd.keeps
  by_cases hesc : d.escaped = true
  · have hview : d.view = some (d.buffer, true) := by simp [view, hdrop, hesc]
    rw [hview] at ht ⊢
    exact (hostPolicy.shown_eq_pending.mpr ⟨ht, hkeeps⟩).symm
  · have hview : d.view = some (d.buffer, false) := by simp [view, hdrop, hesc]
    rw [hview] at ht ⊢
    exact (hostPolicy.shown_eq_body.mpr ⟨ht, hkeeps⟩).symm

theorem WellFormed.exists_shown {d : FrameDecoder} (hd : d.WellFormed) :
    ∃ t, d.view = hostPolicy.shown t := by
  by_cases hdrop : d.dropping = true
  · exact ⟨.bad [], by simp [view, hdrop, Policy.shown]⟩
  have hdrop : d.dropping = false := by simpa using hdrop
  by_cases hesc : d.escaped = true
  · exact ⟨.pending d.buffer, hd.view_eq_shown hdrop (by simp [view, hdrop, hesc, Represents])⟩
  · exact ⟨.body d.buffer, hd.view_eq_shown hdrop (by simp [view, hdrop, hesc, Represents])⟩

end FrameDecoder

/-- The host decoder is a receiver for the byte code. -/
def hostDeframer : Deframer telemetryCode 236 hostCheck FrameDecoder FeedOutcome where
  step := FrameDecoder.feedByte
  emit := FeedOutcome.chunk?
  Inv := FrameDecoder.WellFormed
  view := FrameDecoder.view
  data := by
    intro d b t hd hb ht
    have hsilent := FrameDecoder.silent_of_data (d := d) hb
    by_cases hdrop : d.dropping = true
    · have hview : d.view = none := by simp [FrameDecoder.view, hdrop]
      rw [FrameDecoder.feed_dropping hb hdrop]
      exact ⟨hd, rfl, hview ▸ (hview ▸ ht).gave_up b⟩
    · obtain ⟨hinv, hview, -⟩ := FrameDecoder.feed_data hd hb
        (hd.view_eq_shown (by simpa using hdrop) ht)
      refine ⟨hinv, by rw [hsilent]; rfl, ?_⟩
      rw [hview]
      exact hostPolicy.represents_shown (fun _ h => host_long_of_not_keeps h) _
  delimiter := by
    intro d hd
    obtain ⟨t, ht⟩ := hd.exists_shown
    obtain ⟨hidle, hchunk, -⟩ := FrameDecoder.feed_sof_charged hd ht
    change (d.feedByte telemetrySof).1.WellFormed ∧ (d.feedByte telemetrySof).2.chunk? = _ ∧ _
    rw [FrameDecoder.feed_sof]
    exact ⟨hidle.wellFormed, hchunk, hidle.view⟩

theorem length_of_hostCheck {bytes : List UInt8} {c : SpectrumChunk}
    (h : hostCheck bytes = some c) : bytes.length = 236 := by
  obtain ⟨c', hc', -⟩ := Option.map_eq_some_iff.mp h
  exact length_of_checkBody hc'

namespace FrameDecoder

theorem idle_init : init.Idle := ⟨rfl, rfl, rfl⟩

/-- The chunks an idle decoder yields from a stream. -/
theorem yields_feed {d : FrameDecoder} (hd : d.Idle) (bytes : List UInt8) :
    Machine.yields feedByte FeedOutcome.chunk? d bytes =
      (Cut.of telemetrySof bytes).closed.filterMap (accept telemetryCode hostCheck) :=
  hostDeframer.yields_eq (fun _ _ h => length_of_hostCheck h) ⟨hd.wellFormed, hd.view⟩ bytes

/-- **The fault counters of the host.**  After any stream each counter is the number of
pieces charged with its kind of fault. -/
theorem fault_after (bytes : List UInt8) :
    (after bytes).WellFormed ∧
      (after bytes).view =
        hostPolicy.shown (telemetryCode.scan (Cut.of telemetrySof bytes).rest) ∧
      (∀ k, (after bytes).fault k = hostPolicy.faultCount telemetryCode bytes k) ∧
      (after bytes).resyncEvents = hostPolicy.resyncCount telemetryCode bytes := by
  have h := hostAuditor.run_spec idle_init.wellFormed idle_init.view (m := fun _ => 0) (n := 0)
    (by rintro (_ | _ | _ | _) <;> rfl) rfl bytes
  simp only [Nat.zero_add] at h
  exact h

theorem summed_after (bytes : List UInt8) : (after bytes).Summed :=
  Machine.final_invariant feedByte (I := Summed) (fun _ b h => summed_feedByte h b)
    (show init.Summed from rfl) bytes

/-- A charge stands against the open piece exactly while its bytes are dropped. -/
theorem dropping_iff_openFault (bytes : List UInt8) :
    (after bytes).dropping = true ↔ (hostPolicy.openFault
      (telemetryCode.scan (Cut.of telemetrySof bytes).rest)).isSome = true := by
  obtain ⟨-, hview, -⟩ := fault_after bytes
  rw [Option.isSome_iff_ne_none, ← Policy.shown_eq_none_iff, ← hview, view]
  split
  · next h => simp [h]
  · next h => simp [h]

/-- **The books of the host.**  They balance as those of the firmware do. -/
theorem balance_after (bytes : List UInt8) :
    (after bytes).crcErrors + (after bytes).formatErrors + (after bytes).overflowErrors +
        (after bytes).escapeErrors =
      (after bytes).resyncEvents + if (after bytes).dropping then 1 else 0 := by
  obtain ⟨-, -, hfault, hresync⟩ := fault_after bytes
  have hsum := hostPolicy.sum_faultCount telemetryCode count_faultKinds bytes
  simp only [faultKinds, List.map_cons, List.map_nil, List.sum_cons, List.sum_nil, Nat.add_zero,
    ← Nat.add_assoc, ← hfault, ← hresync] at hsum
  rw [if_congr (dropping_iff_openFault bytes) rfl rfl]
  exact hsum

/-- No byte of any stream makes the generator raise. -/
theorem not_raised (bytes : List UInt8) (b : UInt8) :
    ((after bytes).feedByte b).2 ≠ .raised := by
  by_cases hb : b = telemetrySof
  · obtain ⟨hwf, hview, -⟩ := fault_after bytes
    rw [hb, feed_sof]
    exact (feed_sof_charged hwf hview).2.2.1
  · simp [silent_of_data hb]

end FrameDecoder

end SpectrumAnalyzer.Host
