import SpectrumAnalyzer.Host.Delivery
import SpectrumAnalyzer.Lib.Arrivals

/-!
# Sequence numbers against the true numbering

The sender numbers its packets one after the other; a packet carries its number modulo
`2 ^ 16`.  As long as an accepted frame stays within half that range of the highest number
before it, both decoders classify it as if they saw the number itself, however often the
residue has wrapped: their accounts track the library's tally.

The tally counts a skipped number as lost at once.  A frame that arrives late after all is
counted as out of order, and the loss is not taken back: `lost_counts_missing_iff` says
when the loss counter is what its name promises.

## Main definitions

* `Accepts` — the true numbers of the frames accepted from a stream.
* `Tracks` — an account of residues that follows a tally of numbers.
* `sequence_classification` — the firmware's counters, in terms of the true numbers.
* `lost_counts_missing_iff` — when the loss counters count the frames that never arrived.
-/

namespace SpectrumAnalyzer.Host

open Arrivals

/-- The frames accepted from a stream bear these numbers, modulo `2 ^ 16`. -/
def Accepts (bytes : List UInt8) (numbers : List ℕ) : Prop :=
  (Machine.yields telemetryDecoderFeed TelemetryDecodeResult.chunk? telemetryDecoderInit bytes).map
    SpectrumAnalyzer.SpectrumChunk.sequence = numbers.map UInt16.ofNat

/-- An account that follows a tally, with the highest number modulo `2 ^ 16`. -/
structure Tracks (a : HostAccount) (t : Tally) : Prop where
  lastSequence : a.lastSequence = some (t.highest % 0x10000)
  lost : a.lost = t.lost
  duplicates : a.duplicates = t.duplicates
  outOfOrder : a.outOfOrder = t.late

/-- The residues of a number and the highest number tell which is ahead, and how far. -/
theorem residue_delta {number high : ℕ} (hlow : high ≤ number + 0x8000)
    (hhigh : number ≤ high + 0x7FFF) :
    ((((number % 0x10000 : ℕ) : ℤ) - (high % 0x10000 : ℕ)) % 0x10000).toNat =
      if high ≤ number then number - high else number + 0x10000 - high := by
  have hdelta : _ = if high ≤ number then (number : ℤ) - high else _ :=
    serial_delta hlow (show number < high + 0x8000 by omega)
  simp only [Nat.reduceMul, Nat.cast_ofNat, Int.reduceMul] at hdelta
  rw [hdelta]
  split
  · omega
  · omega

/-- One frame within half the range. -/
theorem Tracks.count {a : HostAccount} {t : Tally} (h : Tracks a t) {number : ℕ}
    (hlow : t.highest ≤ number + 0x8000) (hhigh : number ≤ t.highest + 0x7FFF) :
    Tracks (a.count (number % 0x10000)) (t.count number) := by
  have hlost := h.lost
  have hduplicates := h.duplicates
  have hlate := h.outOfOrder
  simp only [HostAccount.count, Tally.count]
  simp only [h.lastSequence, residue_delta hlow hhigh]
  rcases lt_trichotomy number t.highest with hlt | rfl | hgt
  · rw [if_neg hlt.not_ge, if_neg (by omega), if_neg (by omega), if_neg hlt.ne,
      if_neg hlt.not_gt]
    exact ⟨rfl, hlost, hduplicates, congrArg (· + 1) hlate⟩
  · rw [if_pos le_rfl, if_pos (Nat.sub_self _), if_pos rfl]
    exact ⟨rfl, hlost, congrArg (· + 1) hduplicates, hlate⟩
  · rw [if_pos hgt.le, if_neg (by omega), if_pos (by omega), if_neg hgt.ne', if_pos hgt]
    exact ⟨rfl, congrArg (· + (number - t.highest - 1)) hlost, hduplicates, hlate⟩

theorem Tracks.foldl {a : HostAccount} {t : Tally} (h : Tracks a t) {numbers : List ℕ}
    (hnear : ∀ r ∈ ranked t.highest numbers,
      r.highest ≤ r.number + 0x8000 ∧ r.number ≤ r.highest + 0x7FFF) :
    Tracks ((numbers.map (· % 0x10000)).foldl HostAccount.count a)
      (numbers.foldl Tally.count t) := by
  induction numbers generalizing a t with
  | nil => exact h
  | cons number numbers ih =>
      rw [ranked_cons, List.forall_mem_cons] at hnear
      obtain ⟨⟨hlow, hhigh⟩, hrest⟩ := hnear
      rw [List.map_cons, List.foldl_cons, List.foldl_cons]
      apply ih (h.count hlow hhigh)
      rwa [t.highest_count number]

/-- The first frame starts the tally. -/
theorem tracks_first (first : ℕ) :
    Tracks (FrameDecoder.init.account.count (first % 0x10000)) ⟨first, 0, 0, 0⟩ :=
  ⟨rfl, rfl, rfl, rfl⟩

section Runs
variable {bytes : List UInt8} {first : ℕ} {later : List ℕ}

/-- **The host tracks the true numbering.** -/
theorem tracks_after (hrun : Accepts bytes (first :: later))
    (hnear : ∀ r ∈ ranked first later,
      r.highest ≤ r.number + 0x8000 ∧ r.number ≤ r.highest + 0x7FFF) :
    Tracks (FrameDecoder.after bytes).account (tally first later) := by
  have hsequences : (Machine.yields FrameDecoder.feedByte FeedOutcome.chunk? FrameDecoder.init
      bytes).map SpectrumChunk.sequence = (first :: later).map (· % 0x10000) := by
    have h := congrArg (List.map UInt16.toNat) hrun
    rw [List.map_map, List.map_map] at h
    rw [yields_host_eq, List.map_map]
    exact h
  have haccount : (FrameDecoder.after bytes).account =
      ((first :: later).map (· % 0x10000)).foldl HostAccount.count FrameDecoder.init.account := by
    rw [FrameDecoder.account_after, ← hsequences, List.foldl_map]
  rw [haccount, List.map_cons, List.foldl_cons]
  exact (tracks_first first).foldl hnear

/-- **Sequence numbers are classified as the true numbers are.**  When every accepted
frame lies between 32768 below and 32767 above the highest number before it, the firmware
ends at the highest number and counts repeated, late and skipped frames as they are, across
any number of wraps. -/
theorem sequence_classification (hrun : Accepts bytes (first :: later))
    (hnear : ∀ r ∈ ranked first later,
      r.highest ≤ r.number + 32768 ∧ r.number ≤ r.highest + 32767) :
    (decoderAfter bytes).lastSequence = UInt16.ofNat (highest first later) ∧
      (decoderAfter bytes).stats.sequenceDuplicates =
        UInt32.ofNat ((ranked first later).countP fun r => r.number = r.highest) ∧
      (decoderAfter bytes).stats.sequenceOutOfOrder =
        UInt32.ofNat ((ranked first later).countP fun r => r.number < r.highest) ∧
      (decoderAfter bytes).stats.sequenceLost =
        UInt32.ofNat (highest first later - first -
          (ranked first later).countP fun r => r.highest < r.number) := by
  have htracks := tracks_after hrun hnear
  have hsame := sameAccount_after bytes
  obtain ⟨hduplicates, hlate, hlost⟩ := tally_spec first later
  have hlast : some (highest first later % 0x10000) = if (decoderAfter bytes).haveSequence then
      some (decoderAfter bytes).lastSequence.toNat else none := by
    rw [← highest_tally, ← htracks.lastSequence]
    exact hsame.lastSequence
  refine ⟨?_, ?_, ?_, ?_⟩
  · split at hlast
    · apply UInt16.toNat_inj.mp
      rw [UInt16.toNat_ofNat']
      exact (Option.some.inj hlast).symm
    · cases hlast
  · rw [← hduplicates, ← htracks.duplicates]
    exact hsame.duplicates
  · rw [← hlate, ← htracks.outOfOrder]
    exact hsame.outOfOrder
  · have hcount : highest first later - first -
        (ranked first later).countP (fun r => r.highest < r.number) =
          (tally first later).lost := by omega
    rw [hcount, ← htracks.lost]
    exact hsame.lost

end Runs

/-- Packets of an empty result that bear the given numbers. -/
def packetsNumbered (numbers : List ℕ) : List Packet :=
  numbers.map fun number => { zeroPacket with sequence := UInt16.ofNat number }

theorem accepts_packetsNumbered (numbers : List ℕ) :
    Accepts ((packetsNumbered numbers).flatMap Packet.wire) numbers := by
  rw [Accepts, yields_feed_wires, packetsNumbered, List.map_map, List.map_map]
  rfl

/-- Across the wrap: one frame skipped, then late, and one repeated. -/
theorem sequence_classification_wrap :
    let d := decoderAfter ((packetsNumbered [65535, 65537, 65536, 65537]).flatMap Packet.wire)
    d.lastSequence = 1 ∧ d.stats.sequenceDuplicates = 1 ∧ d.stats.sequenceOutOfOrder = 1 ∧
      d.stats.sequenceLost = 1 :=
  sequence_classification (accepts_packetsNumbered [65535, 65537, 65536, 65537]) (by decide)

/-! ## What the loss counters count -/

section Runs
variable {bytes : List UInt8} {first : ℕ} {later : List ℕ}

/-- What is lost on the host is what never arrived and what arrived late after all. -/
theorem lost_after (hrun : Accepts bytes (first :: later))
    (hnear : ∀ r ∈ ranked first later,
      r.highest ≤ r.number + 0x8000 ∧ r.number ≤ r.highest + 0x7FFF) :
    (FrameDecoder.after bytes).lost = missing first later + fills first [] later :=
  (tracks_after hrun hnear).lost.trans (lost_eq first later)

/-- **When the loss counters count what never arrived.**  Exactly when no late frame fills
a gap that has been counted, and the firmware's counter has not wrapped. -/
theorem lost_counts_missing_iff (hrun : Accepts bytes (first :: later))
    (hnear : ∀ r ∈ ranked first later,
      r.highest ≤ r.number + 32767 ∧ r.number ≤ r.highest + 32767) :
    ((FrameDecoder.after bytes).lost = missing first later ∧
        (decoderAfter bytes).stats.sequenceLost.toNat = missing first later) ↔
      ¬ Refilled first later ∧ missing first later < 2 ^ 32 := by
  have hhost := lost_after hrun fun r hr => ⟨(hnear r hr).1.trans (by omega), (hnear r hr).2⟩
  have hfirmware : (decoderAfter bytes).stats.sequenceLost =
      UInt32.ofNat (FrameDecoder.after bytes).lost := (sameAccount_after bytes).lost
  rw [hfirmware, UInt32.toNat_ofNat', hhost, ← fills_eq_zero_iff]
  constructor
  · rintro ⟨hlost, hwrapped⟩
    have hfills : fills first [] later = 0 := by omega
    rw [hfills, Nat.add_zero] at hwrapped
    exact ⟨hfills, hwrapped ▸ Nat.mod_lt _ (by decide)⟩
  · rintro ⟨hfills, hbound⟩
    rw [hfills, Nat.add_zero, Nat.mod_eq_of_lt hbound]
    exact ⟨rfl, rfl⟩

end Runs

/-- A gap that stays open is counted as it is. -/
theorem lost_counts_missing_gap :
    let bytes := (packetsNumbered [10, 10, 9, 12]).flatMap Packet.wire
    ((FrameDecoder.after bytes).lost = missing 10 [10, 9, 12] ∧
        (decoderAfter bytes).stats.sequenceLost.toNat = missing 10 [10, 9, 12]) ↔
      ¬ Refilled 10 [10, 9, 12] ∧ missing 10 [10, 9, 12] < 2 ^ 32 :=
  lost_counts_missing_iff (accepts_packetsNumbered [10, 10, 9, 12]) (by decide)

/-- Frames 0, 2 and 1 arrive, none is missing, and one is counted as lost. -/
theorem lost_counts_late_frame :
    ¬ ∀ bytes first later, Accepts bytes (first :: later) →
      (∀ r ∈ ranked first later, r.highest ≤ r.number + 32767 ∧ r.number ≤ r.highest + 32767) →
      (FrameDecoder.after bytes).lost = missing first later ∧
        (decoderAfter bytes).stats.sequenceLost.toNat = missing first later := by
  intro h
  have hrun := accepts_packetsNumbered [0, 2, 1]
  have hmissing : missing 0 [2, 1] = 0 := by decide
  have hlost := lost_after hrun (by decide)
  rw [(h _ 0 [2, 1] hrun (by decide)).1, hmissing] at hlost
  exact absurd hlost (by decide)

end SpectrumAnalyzer.Host
