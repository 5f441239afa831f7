import SpectrumAnalyzer.Host.FrameDecoder
import SpectrumAnalyzer.Telemetry.Sequence

/-!
# Two decoders of one stream

The firmware and the host decoder deliver the same chunks and count them alike: both
deliver the accepted pieces of the stream, and both accounts are functions of what is
delivered.  Between delimiters the two states may differ, and nothing here looks at them.

## Main definitions

* `HostAccount` — the part of the host decoder that counts frames.
* `SameAccount` — equal accounts, the firmware's modulo `2 ^ 32`.
* `decoders_agree` — agreement on what is delivered.
* `FirmwareAnswered`, `HostAnswered` — the flags and the fault counters of both.
-/

namespace SpectrumAnalyzer.Host

open Framing

/-! ## Agreement on frames -/

/-- The fields of the host decoder that count frames and compare sequence numbers. -/
structure HostAccount where
  lastSequence : Option ℕ
  frames : ℕ
  lost : ℕ
  duplicates : ℕ
  outOfOrder : ℕ
  deriving DecidableEq, Repr

/-- The account of a decoder. -/
def FrameDecoder.account (d : FrameDecoder) : HostAccount :=
  ⟨d.lastSequence, d.frames, d.lost, d.duplicates, d.outOfOrder⟩

/-- One accepted frame. -/
def HostAccount.count (a : HostAccount) (sequence : ℕ) : HostAccount :=
  let a := { a with frames := a.frames + 1 }
  match a.lastSequence with
  | none => { a with lastSequence := some sequence }
  | some last =>
      let delta : ℕ := (((sequence : ℤ) - last) % 0x10000).toNat
      if delta = 0 then { a with duplicates := a.duplicates + 1 }
      else if delta < 0x8000 then
        { a with lastSequence := some sequence, lost := a.lost + (delta - 1) }
      else { a with outOfOrder := a.outOfOrder + 1 }

namespace FrameDecoder

theorem account_countSequence (d : FrameDecoder) (sequence : ℕ) :
    ({ d.countSequence sequence with frames := d.frames + 1, buffer := [] } :
      FrameDecoder).account = d.account.count sequence := by
  simp only [countSequence, HostAccount.count, account]
  cases hlast : d.lastSequence with
  | none => rfl
  | some last =>
      dsimp only
      split
      · rfl
      · split <;> rfl

theorem account_feedSof (d : FrameDecoder) :
    d.feedSof.1.account =
      d.feedSof.2.chunk?.elim d.account fun c => d.account.count c.sequence := by
  by_cases hesc : d.escaped = true
  · simp [feedSof, hesc, FeedOutcome.chunk?, account]
  by_cases hdrop : d.dropping = true
  · simp [feedSof, hesc, hdrop, FeedOutcome.chunk?, account]
  by_cases hempty : d.buffer = []
  · simp [feedSof, hesc, hdrop, hempty, FeedOutcome.chunk?]
  rw [feedSof]
  simp only [hesc, hdrop, hempty, Bool.false_eq_true, if_false]
  split
  · rfl
  · rfl
  · rfl
  · exact account_countSequence _ _

/-- One byte: the account moves with the chunk that is yielded. -/
theorem account_feedByte (d : FrameDecoder) (b : UInt8) :
    (d.feedByte b).1.account =
      (d.feedByte b).2.chunk?.elim d.account fun c => d.account.count c.sequence := by
  by_cases hb : b = telemetrySof
  · rw [hb, feed_sof]
    exact account_feedSof d
  rw [silent_of_data hb]
  obtain ⟨buffer, escaped, hmove⟩ | hcharge | hcharge := (feed_data_cases (d := d) hb).2
  · rw [hmove]
    rfl
  · rw [hcharge]
    rfl
  · rw [hcharge]
    rfl

theorem account_after (bytes : List UInt8) :
    (after bytes).account =
      (Machine.yields feedByte FeedOutcome.chunk? init bytes).foldl
        (fun a c => a.count c.sequence) init.account :=
  Machine.observe_final feedByte FeedOutcome.chunk? account (fun a c => a.count c.sequence)
    account_feedByte _ _

end FrameDecoder

/-- The firmware's account is the host's, with counters that wrap. -/
structure SameAccount (a : SequenceAccount) (b : HostAccount) : Prop where
  lastSequence : b.lastSequence = if a.haveSequence then some a.lastSequence.toNat else none
  frames : a.framesOk = UInt32.ofNat b.frames
  lost : a.sequenceLost = UInt32.ofNat b.lost
  duplicates : a.sequenceDuplicates = UInt32.ofNat b.duplicates
  outOfOrder : a.sequenceOutOfOrder = UInt32.ofNat b.outOfOrder

/-- Sequence numbers are compared alike in 16 bits and in the integers. -/
theorem toNat_delta (s last : UInt16) :
    (s - last).toNat = (((s.toNat : ℤ) - last.toNat) % 0x10000).toNat := by
  have hs := s.toNat_lt
  have hl := last.toNat_lt
  rw [UInt16.toNat_sub]
  omega

theorem SameAccount.count {a : SequenceAccount} {b : HostAccount} (h : SameAccount a b)
    (s : UInt16) : SameAccount (a.count s) (b.count s.toNat) := by
  have hbump : ∀ {x : UInt32} {n : ℕ}, x = UInt32.ofNat n → x + 1 = UInt32.ofNat (n + 1) :=
    fun hx => hx ▸ (UInt32.ofNat_add _ 1).symm
  simp only [SequenceAccount.count, HostAccount.count]
  by_cases hhave : a.haveSequence = true
  · have hlast : b.lastSequence = some a.lastSequence.toNat := by simpa [hhave] using h.lastSequence
    have hdelta := toNat_delta s a.lastSequence
    simp only [hhave, hlast, Bool.true_eq_false, if_false, ← hdelta]
    by_cases h0 : s - a.lastSequence = 0
    · have h0' : (s - a.lastSequence).toNat = 0 := by rw [h0]; rfl
      rw [if_pos h0, if_pos h0']
      exact ⟨rfl, hbump h.frames, h.lost, hbump h.duplicates,
        h.outOfOrder⟩
    have h0' : (s - a.lastSequence).toNat ≠ 0 := fun hz => h0 (UInt16.toNat_inj.mp hz)
    rw [if_neg h0, if_neg h0']
    by_cases hhalf : s - a.lastSequence < 0x8000
    · have hhalf' : (s - a.lastSequence).toNat < 0x8000 := hhalf
      have hsub : (s - a.lastSequence - 1).toUInt32 =
          UInt32.ofNat ((s - a.lastSequence).toNat - 1) := by
        apply UInt32.toNat_inj.mp
        rw [UInt16.toNat_toUInt32, UInt16.toNat_sub_of_le _ _ (by
          rw [UInt16.le_iff_toNat_le]
          exact Nat.one_le_iff_ne_zero.mpr h0'), UInt32.toNat_ofNat']
        exact (Nat.mod_eq_of_lt (by omega)).symm
      rw [if_pos hhalf, if_pos hhalf']
      exact ⟨rfl, hbump h.frames,
        by rw [UInt32.ofNat_add, ← hsub, h.lost], h.duplicates, h.outOfOrder⟩
    · have hhalf' : ¬ (s - a.lastSequence).toNat < 0x8000 := hhalf
      rw [if_neg hhalf, if_neg hhalf']
      exact ⟨rfl, hbump h.frames, h.lost, h.duplicates,
        hbump h.outOfOrder⟩
  · have hhave : a.haveSequence = false := by simpa using hhave
    have hlast : b.lastSequence = none := by simpa [hhave] using h.lastSequence
    simp only [hlast, hhave, if_true]
    exact ⟨rfl, hbump h.frames, h.lost, h.duplicates, h.outOfOrder⟩

theorem SameAccount.foldl {a : SequenceAccount} {b : HostAccount} (h : SameAccount a b)
    (chunks : List SpectrumAnalyzer.SpectrumChunk) :
    SameAccount (chunks.foldl (fun a c => a.count c.sequence) a)
      ((chunks.map ofFirmware).foldl (fun b c => b.count c.sequence) b) := by
  induction chunks generalizing a b with
  | nil => exact h
  | cons c cs ih => exact ih (h.count c.sequence)

/-- Host and firmware deliver the same chunks. -/
theorem yields_host_eq (bytes : List UInt8) :
    Machine.yields FrameDecoder.feedByte FeedOutcome.chunk? FrameDecoder.init bytes =
      (Machine.yields telemetryDecoderFeed TelemetryDecodeResult.chunk? telemetryDecoderInit
        bytes).map ofFirmware := by
  rw [FrameDecoder.yields_feed FrameDecoder.idle_init, yields_feed idle_init,
    List.map_filterMap]
  congr 1
  funext piece
  exact accept_map telemetryCode checkBody ofFirmware piece

theorem sameAccount_after (bytes : List UInt8) :
    SameAccount (decoderAfter bytes).account (FrameDecoder.after bytes).account := by
  have hinit : SameAccount telemetryDecoderInit.account FrameDecoder.init.account :=
    ⟨rfl, rfl, rfl, rfl, rfl⟩
  rw [account_decoderAfter, FrameDecoder.account_after, yields_host_eq]
  exact hinit.foldl _

/-- **The decoders agree on what they deliver.**  After any stream the host has yielded
the chunks the firmware has returned, and their frame accounts agree. -/
theorem decoders_agree (bytes : List UInt8) :
    Machine.yields FrameDecoder.feedByte FeedOutcome.chunk? FrameDecoder.init bytes =
        (Machine.yields telemetryDecoderFeed TelemetryDecodeResult.chunk? telemetryDecoderInit
          bytes).map ofFirmware ∧
      (FrameDecoder.after bytes).lastSequence =
        (if (decoderAfter bytes).haveSequence then some (decoderAfter bytes).lastSequence.toNat
          else none) ∧
      (decoderAfter bytes).stats.framesOk = UInt32.ofNat (FrameDecoder.after bytes).frames ∧
      (decoderAfter bytes).stats.sequenceLost = UInt32.ofNat (FrameDecoder.after bytes).lost ∧
      (decoderAfter bytes).stats.sequenceDuplicates =
        UInt32.ofNat (FrameDecoder.after bytes).duplicates ∧
      (decoderAfter bytes).stats.sequenceOutOfOrder =
        UInt32.ofNat (FrameDecoder.after bytes).outOfOrder := by
  have h := sameAccount_after bytes
  exact ⟨yields_host_eq bytes, h.lastSequence, h.frames, h.lost, h.duplicates, h.outOfOrder⟩

/-! ## Faults and resynchronisations -/

/-- The firmware decoder between two bytes: where it stands, and what its faults come to. -/
structure FirmwareAnswered (d : TelemetryDecoder) : Prop where
  length_le : d.length ≤ 236
  exclusive : ¬ (d.escaped = true ∧ d.dropping = true)
  length_of_dropping : d.dropping = true → d.length = 0
  balance : d.stats.crcErrors + d.stats.formatErrors + d.stats.overflowErrors +
      d.stats.escapeErrors =
    d.stats.resyncEvents + if d.dropping then 1 else 0

/-- The same of the host decoder, whose buffer has its own bound. -/
structure HostAnswered (d : FrameDecoder) : Prop where
  exclusive : ¬ (d.escaped = true ∧ d.dropping = true)
  balance : d.crcErrors + d.formatErrors + d.overflowErrors + d.escapeErrors =
    d.resyncEvents + if d.dropping then 1 else 0
  errors : d.errors = d.crcErrors + d.formatErrors + d.overflowErrors + d.escapeErrors

/-- **Every fault is answered once.**  After any stream, in either decoder, escaped and
dropping exclude each other, and the faults counted by kind are the resynchronisations
and the one still to come.  The firmware's buffer is never exceeded, and it is empty while
bytes are dropped; the host's `errors` is the sum of its counters. -/
theorem every_fault_answered (bytes : List UInt8) :
    FirmwareAnswered (decoderAfter bytes) ∧ HostAnswered (FrameDecoder.after bytes) := by
  have hd := wellFormed_decoderAfter bytes
  have hhost := (FrameDecoder.fault_after bytes).1
  constructor
  · exact ⟨hd.length_le, hd.exclusive, dropsAll_decoderAfter bytes, balance_decoderAfter bytes⟩
  · exact ⟨hhost.exclusive, FrameDecoder.balance_after bytes, FrameDecoder.summed_after bytes⟩

end SpectrumAnalyzer.Host
