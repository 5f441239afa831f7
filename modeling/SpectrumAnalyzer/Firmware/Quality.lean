import Mathlib.Data.Fintype.Lattice
import SpectrumAnalyzer.Firmware.Unpack

/-!
# The quality of a result

Which flags `spectrum_health_check` raises, flag by flag, and what its check for a frozen
input can see.  A channel passes when none of its four checks fails; every flag comes from
the deadline, from a failed check of some channel, or from the absence of failures.

The check for a frozen input reads the preview, which holds every eighth sample of the
block.  `frozen_exact_iff` says for which blocks it decides as if it had read all samples.

## Main definitions

* `Raises` — a channel raises one of the flags of a mask.
* `ChannelSpectrum.Passes` — none of the checks fails.
* `any_spectrumHealthCheck` — where the flags of a result come from.
* `blockSpan` — greatest minus least sample of a channel block.
* `FlagsFrozen` — a channel block is reported as frozen.
-/

namespace SpectrumAnalyzer

/-! ## One channel -/

section Fail
variable {fault : Prop} [Decidable fault] {mask flag : UInt32} {s : UInt32 × Bool}

theorem any_failIf :
    Flags.Any mask (failIf fault flag s).1 ↔ Flags.Any mask s.1 ∨ fault ∧ Flags.Any mask flag := by
  by_cases h : fault
  · rw [failIf, if_pos h, Flags.any_or]
    simp [h]
  · simp [failIf, h]

theorem valid_failIf : (failIf fault flag s).2 = true ↔ s.2 = true ∧ ¬ fault := by
  by_cases h : fault
  · simp [failIf, h]
  · simp [failIf, h]

end Fail

/-- The check of a channel raises one of the flags of the mask. -/
def Raises (mask sampleRateHz : UInt32) (c : ChannelSpectrum) : Prop :=
  Flags.Any mask (checkChannel sampleRateHz (0, true) c).1

instance (mask sampleRateHz : UInt32) (c : ChannelSpectrum) :
    Decidable (Raises mask sampleRateHz c) := inferInstanceAs (Decidable (Flags.Any _ _))

/-- None of the checks of a channel fails. -/
structure ChannelSpectrum.Passes (sampleRateHz : UInt32) (c : ChannelSpectrum) : Prop where
  dominant : c.dominantMillihz ≤ sampleRateHz / 2 * 1000
  rms : signalMinRmsQ15 ≤ c.rmsQ15
  clipped : c.clippedSamples = 0
  peak : c.peakQ15 < signalClipQ15
  span : signalMinSpanQ15 ≤ c.maximum.toInt32 - c.minimum.toInt32

section Channel
variable {mask sampleRateHz : UInt32} {c : ChannelSpectrum}

theorem not_any_zero : ¬ Flags.Any mask 0 := by
  rw [Flags.Any, UInt32.zero_and]
  exact not_not.mpr rfl

/-- The flags of a channel, one for each check. -/
theorem raises_iff : Raises mask sampleRateHz c ↔
    sampleRateHz / 2 * 1000 < c.dominantMillihz ∧ Flags.Any mask statusNumericFault ∨
    c.rmsQ15 < signalMinRmsQ15 ∧ Flags.Any mask statusSignalWeak ∨
    (c.clippedSamples ≠ 0 ∨ signalClipQ15 ≤ c.peakQ15) ∧ Flags.Any mask statusAdcClipping ∨
    c.maximum.toInt32 - c.minimum.toInt32 < signalMinSpanQ15 ∧
      Flags.Any mask statusSignalFrozen := by
  simp only [Raises, checkChannel, any_failIf, not_any_zero, false_or, gt_iff_lt, ge_iff_le,
    or_assoc]

/-- A turn of the loop adds the flags of its channel. -/
theorem any_checkChannel {s : UInt32 × Bool} :
    Flags.Any mask (checkChannel sampleRateHz s c).1 ↔
      Flags.Any mask s.1 ∨ Raises mask sampleRateHz c := by
  simp only [Raises, checkChannel, any_failIf, not_any_zero, false_or, or_assoc]

theorem valid_checkChannel {s : UInt32 × Bool} :
    (checkChannel sampleRateHz s c).2 = true ↔ s.2 = true ∧ c.Passes sampleRateHz := by
  simp only [checkChannel, valid_failIf, and_assoc]
  refine and_congr_right fun _ => ?_
  constructor
  · rintro ⟨hdominant, hrms, hclip, hspan⟩
    rw [not_or, not_not] at hclip
    exact ⟨UInt32.not_lt.mp hdominant, UInt16.not_lt.mp hrms, hclip.1, UInt16.not_le.mp hclip.2,
      Int32.not_lt.mp hspan⟩
  · intro h
    exact ⟨UInt32.not_lt.mpr h.dominant, UInt16.not_lt.mpr h.rms,
      not_or.mpr ⟨not_not.mpr h.clipped, UInt16.not_le.mpr h.peak⟩, Int32.not_lt.mpr h.span⟩

/-! ## The whole result -/

theorem any_foldl_checkChannel {s : UInt32 × Bool} {l : List ChannelSpectrum} :
    Flags.Any mask (l.foldl (checkChannel sampleRateHz) s).1 ↔
      Flags.Any mask s.1 ∨ ∃ c ∈ l, Raises mask sampleRateHz c := by
  induction l generalizing s with
  | nil => simp
  | cons c l ih =>
      rw [List.foldl_cons, ih, any_checkChannel, or_assoc]
      simp

theorem valid_foldl_checkChannel {s : UInt32 × Bool} {l : List ChannelSpectrum} :
    (l.foldl (checkChannel sampleRateHz) s).2 = true ↔
      s.2 = true ∧ ∀ c ∈ l, c.Passes sampleRateHz := by
  induction l generalizing s with
  | nil => simp
  | cons c l ih =>
      rw [List.foldl_cons, ih, valid_checkChannel, and_assoc]
      simp

end Channel

/-- **Where the flags of a result come from.** -/
theorem any_spectrumHealthCheck {mask deadlineUs : UInt32} {result : SpectrumResult}
    (hrate : result.sampleRateHz ≠ 0) :
    Flags.Any mask (spectrumHealthCheck result deadlineUs) ↔
      deadlineUs < result.processingUs ∧ Flags.Any mask statusDspDeadline ∨
      (∃ c ∈ result.channel.toList, Raises mask result.sampleRateHz c) ∨
      (∀ c ∈ result.channel.toList, c.Passes result.sampleRateHz) ∧
        Flags.Any mask statusSignalValid := by
  have hlate : Flags.Any mask (if result.processingUs > deadlineUs then statusDspDeadline else 0) ↔
      deadlineUs < result.processingUs ∧ Flags.Any mask statusDspDeadline := by
    split
    · next h => simp [h]
    · next h => simp [h, not_any_zero]
  rw [spectrumHealthCheck, if_neg hrate]
  dsimp only
  generalize (if result.processingUs > deadlineUs then statusDspDeadline else 0) = late at hlate ⊢
  split
  · next h =>
      rw [Flags.any_or, any_foldl_checkChannel, hlate, or_assoc,
        and_iff_right (valid_foldl_checkChannel.mp h).2]
  · next h =>
      have hfail : ¬ ∀ c ∈ result.channel.toList, c.Passes result.sampleRateHz := by
        intro hall
        exact h (valid_foldl_checkChannel.mpr ⟨rfl, hall⟩)
      rw [any_foldl_checkChannel, hlate]
      simp only [hfail, false_and, or_false]

/-! ## The span of the preview -/

/-- A fold that keeps the better of two finds the best. -/
theorem foldl_best {α : Type*} (key : α → ℤ) (better : α → α → Prop) [DecidableRel better]
    (hkey : ∀ a b, better a b ↔ key a < key b) (x : α) (xs : List α) :
    xs.foldl (fun best a => if better a best then a else best) x ∈ x :: xs ∧
      ∀ y ∈ x :: xs,
        key (xs.foldl (fun best a => if better a best then a else best) x) ≤ key y := by
  induction xs generalizing x with
  | nil => simp
  | cons a xs ih =>
      rw [List.foldl_cons]
      by_cases h : better a x
      · rw [if_pos h]
        obtain ⟨hmem, hle⟩ := ih a
        refine ⟨List.mem_cons_of_mem _ hmem, ?_⟩
        intro y hy
        rcases List.mem_cons.mp hy with rfl | hy
        · exact (hle a List.mem_cons_self).trans ((hkey a y).mp h).le
        · exact hle y hy
      · rw [if_neg h]
        obtain ⟨hmem, hle⟩ := ih x
        refine ⟨?_, ?_⟩
        · rcases List.mem_cons.mp hmem with heq | hmem
          · rw [heq]
            exact List.mem_cons_self
          · exact List.mem_cons_of_mem _ (List.mem_cons_of_mem _ hmem)
        · intro y hy
          rcases List.mem_cons.mp hy with rfl | hy
          · exact hle y List.mem_cons_self
          · rcases List.mem_cons.mp hy with rfl | hy
            · exact (hle x List.mem_cons_self).trans (not_lt.mp (mt (hkey y x).mpr h))
            · exact hle y (List.mem_cons_of_mem _ hy)

namespace ChannelSpectrum
variable (c : ChannelSpectrum)

theorem preview_cons : c.previewQ15.toList = c.previewQ15.get 0 :: c.previewQ15.toList.drop 1 := by
  have hlength : 0 < c.previewQ15.toList.length := by simp
  have hfirst : c.previewQ15.get 0 = c.previewQ15.toList[0] := (Vector.getElem_toList hlength).symm
  rw [hfirst]
  exact (List.cons_getElem_drop_succ (h := hlength)).symm

theorem minimum_spec :
    c.minimum ∈ c.previewQ15.toList ∧ ∀ y ∈ c.previewQ15.toList, c.minimum.toInt ≤ y.toInt := by
  rw [preview_cons]
  exact foldl_best Int16.toInt (· < ·) (fun _ _ => Int16.lt_iff_toInt_lt) _ _

theorem maximum_spec :
    c.maximum ∈ c.previewQ15.toList ∧ ∀ y ∈ c.previewQ15.toList, y.toInt ≤ c.maximum.toInt := by
  rw [preview_cons]
  obtain ⟨hmem, hle⟩ := foldl_best (fun x : Int16 => -x.toInt) (· > ·)
    (fun _ _ => by rw [gt_iff_lt, Int16.lt_iff_toInt_lt, neg_lt_neg_iff]) (c.previewQ15.get 0)
    (c.previewQ15.toList.drop 1)
  exact ⟨hmem, fun y hy => neg_le_neg_iff.mp (hle y hy)⟩

/-- The span is below its minimum when no two samples are as far apart as that. -/
theorem span_lt_iff : c.maximum.toInt32 - c.minimum.toInt32 < signalMinSpanQ15 ↔
    ∀ i j : Fin 128, (c.previewQ15.get i).toInt - (c.previewQ15.get j).toInt < 32 := by
  obtain ⟨hmin, hleast⟩ := c.minimum_spec
  obtain ⟨hmax, hgreatest⟩ := c.maximum_spec
  have hsub : (c.maximum.toInt32 - c.minimum.toInt32).toInt =
      c.maximum.toInt - c.minimum.toInt := by
    have hlow := Int16.le_toInt c.maximum
    have hhigh := Int16.toInt_lt c.maximum
    have hlow' := Int16.le_toInt c.minimum
    have hhigh' := Int16.toInt_lt c.minimum
    rw [Int32.toInt_sub, Int16.toInt_toInt32, Int16.toInt_toInt32]
    exact Int.bmod_eq_of_le (by omega) (by omega)
  have hspan : signalMinSpanQ15.toInt = 32 := by decide
  rw [Int32.lt_iff_toInt_lt, hsub, hspan]
  constructor
  · intro h i j
    have hi := hgreatest (c.previewQ15.get i) (by simp [get_eq_getElem])
    have hj := hleast (c.previewQ15.get j) (by simp [get_eq_getElem])
    omega
  · intro h
    obtain ⟨i, hi, hmax⟩ := List.mem_iff_getElem.mp hmax
    obtain ⟨j, hj, hmin⟩ := List.mem_iff_getElem.mp hmin
    rw [Vector.length_toList] at hi hj
    rw [← hmax, ← hmin]
    simpa [get_eq_getElem] using h ⟨i, hi⟩ ⟨j, hj⟩

end ChannelSpectrum

theorem raises_frozen_iff {sampleRateHz : UInt32} {c : ChannelSpectrum} :
    Raises statusSignalFrozen sampleRateHz c ↔
      ∀ i j : Fin 128, (c.previewQ15.get i).toInt - (c.previewQ15.get j).toInt < 32 := by
  have hnumeric : ¬ Flags.Any statusSignalFrozen statusNumericFault := by decide
  have hweak : ¬ Flags.Any statusSignalFrozen statusSignalWeak := by decide
  have hclipping : ¬ Flags.Any statusSignalFrozen statusAdcClipping := by decide
  have hfrozen : Flags.Any statusSignalFrozen statusSignalFrozen := by decide
  rw [raises_iff, ← ChannelSpectrum.span_lt_iff]
  simp only [hnumeric, hweak, hclipping, hfrozen, and_false, and_true, false_or]

/-! ## The span of the block -/

/-- The greatest sample of a channel block minus the least. -/
def blockSpan (samples : Vector Int16 1024) : ℤ :=
  (Finset.univ.sup' Finset.univ_nonempty fun i : Fin 1024 => (samples.get i).toInt) -
    Finset.univ.inf' Finset.univ_nonempty fun i : Fin 1024 => (samples.get i).toInt

theorem blockSpan_lt_iff {samples : Vector Int16 1024} {span : ℤ} :
    blockSpan samples < span ↔
      ∀ i j : Fin 1024, (samples.get i).toInt - (samples.get j).toInt < span := by
  constructor
  · intro h i j
    have hi := Finset.le_sup' (fun i : Fin 1024 => (samples.get i).toInt) (Finset.mem_univ i)
    have hj := Finset.inf'_le (fun i : Fin 1024 => (samples.get i).toInt) (Finset.mem_univ j)
    rw [blockSpan] at h
    omega
  · intro h
    obtain ⟨i, -, hi⟩ := Finset.exists_mem_eq_sup' Finset.univ_nonempty
      fun i : Fin 1024 => (samples.get i).toInt
    obtain ⟨j, -, hj⟩ := Finset.exists_mem_eq_inf' Finset.univ_nonempty
      fun i : Fin 1024 => (samples.get i).toInt
    rw [blockSpan, hi, hj]
    exact h i j

section Frozen
variable (spectrumAnalyzeQ15 : Vector Int16 1024 → UInt32 → Bool × ChannelSpectrum)

/-- The check of a result reports the input of a channel block as frozen. -/
def FlagsFrozen (unpacked : Unpacked) : Prop :=
  Raises statusSignalFrozen adcSampleRateHz (analyzeChannel spectrumAnalyzeQ15 unpacked).2

/-- The check sees every eighth sample. -/
theorem flagsFrozen_iff (unpacked : Unpacked) : FlagsFrozen spectrumAnalyzeQ15 unpacked ↔
    ∀ i j : Fin 128, unpacked.channelSamples[8 * i.val].toInt -
      unpacked.channelSamples[8 * j.val].toInt < 32 := by
  have hpreview : ∀ i : Fin 128,
      (analyzeChannel spectrumAnalyzeQ15 unpacked).2.previewQ15.get i =
      unpacked.channelSamples[8 * i.val] := by
    intro i
    simp [analyzeChannel, get_eq_getElem, Nat.mul_comm]
  simp only [FlagsFrozen, raises_frozen_iff, hpreview]

/-- A block without span has a preview without span. -/
theorem flagsFrozen_of_span {unpacked : Unpacked} (h : blockSpan unpacked.channelSamples < 32) :
    FlagsFrozen spectrumAnalyzeQ15 unpacked := by
  rw [flagsFrozen_iff]
  intro i j
  exact blockSpan_lt_iff.mp h ⟨8 * i.val, by omega⟩ ⟨8 * j.val, by omega⟩

/-- **What the check for a frozen input decides.**  It reports a channel block exactly when
all of its samples are closer than 32, unless two of its samples are 32 or more apart but
no two of those that the preview keeps. -/
theorem frozen_exact_iff (unpacked : Unpacked) :
    (FlagsFrozen spectrumAnalyzeQ15 unpacked ↔ blockSpan unpacked.channelSamples < 32) ↔
      (∀ i j : Fin 1024,
        (unpacked.channelSamples.get i).toInt - (unpacked.channelSamples.get j).toInt < 32) ∨
      ∃ i j : Fin 128, 32 ≤ unpacked.channelSamples[8 * i.val].toInt -
        unpacked.channelSamples[8 * j.val].toInt := by
  have hkept : (∃ i j : Fin 128, 32 ≤ unpacked.channelSamples[8 * i.val].toInt -
      unpacked.channelSamples[8 * j.val].toInt) ↔ ¬ FlagsFrozen spectrumAnalyzeQ15 unpacked := by
    rw [flagsFrozen_iff]
    simp only [not_forall, not_lt]
  rw [hkept, ← blockSpan_lt_iff]
  constructor
  · intro h
    by_cases hflag : FlagsFrozen spectrumAnalyzeQ15 unpacked
    · exact .inl (h.mp hflag)
    · exact .inr hflag
  · rintro (hspan | hflag)
    · exact iff_of_true (flagsFrozen_of_span _ hspan) hspan
    · exact iff_of_false hflag (mt (flagsFrozen_of_span _) hflag)

end Frozen

/-- A square wave of an eighth of the sample rate, between the rails. -/
def squareWave : Vector UInt32 1024 := periodic fun i => if i < 4 then 4000 else 100

/-- A live signal of nearly full swing is reported as frozen. -/
theorem live_signal_frozen :
    ¬ ∀ spectrumAnalyzeQ15 unpacked,
      FlagsFrozen spectrumAnalyzeQ15 unpacked ↔ blockSpan unpacked.channelSamples < 32 := by
  intro h
  have hmean : blockMean 0 squareWave = 2050 := (blockMean_periodic 0 _).trans (by decide)
  have hsample : ∀ i : Fin 1024,
      ((unpackDualAdc squareWave squareWave 0).channelSamples[i]).toInt =
        if i.val % 8 < 4 then 31200 else -31200 := by
    intro i
    have hbits : adcBits 0 squareWave[i] = if i.val % 8 < 4 then 4000 else 100 := by
      simp only [squareWave, periodic, Fin.getElem_fin, Vector.getElem_ofFn]
      split <;> decide
    rw [toInt_channelSamples, deviation, hmean, hbits]
    split <;> decide
  have hfrozen :
      FlagsFrozen (fun _ _ => (true, .zero)) (unpackDualAdc squareWave squareWave 0) := by
    rw [flagsFrozen_iff]
    intro i j
    have hi := hsample ⟨8 * i.val, by omega⟩
    have hj := hsample ⟨8 * j.val, by omega⟩
    simp only [Fin.getElem_fin, Nat.mul_mod_right, Nat.zero_lt_succ, if_true] at hi hj
    rw [hi, hj]
    decide
  have hspan := blockSpan_lt_iff.mp ((h _ _).mp hfrozen) ⟨0, by decide⟩ ⟨4, by decide⟩
  rw [get_eq_getElem, get_eq_getElem] at hspan
  have hlow := hsample ⟨0, by decide⟩
  have hhigh := hsample ⟨4, by decide⟩
  rw [Fin.getElem_fin] at hlow hhigh
  rw [hlow, hhigh] at hspan
  exact absurd hspan (by decide)

end SpectrumAnalyzer
