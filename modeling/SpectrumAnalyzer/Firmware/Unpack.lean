import Mathlib.Algebra.Order.Ring.Int
import SpectrumAnalyzer.Firmware.Dsp

/-!
# What unpacking stores

The samples of `unpack_dual_adc` in terms of the integers that the packed words stand for.
The sums and the mean never leave 32 bits, but the last conversion keeps only 16: a sample
that is 2048 or more above the mean of its block, or 2049 or more below it, changes its
sign instead of being saturated.

## Main definitions

* `adcBits`, `blockMean`, `deviation` — a sample, the mean, and their difference.
* `NeverWraps` — every deviation is stored saturated.
* `neverWraps_iff` — the blocks of which this is true.
-/

namespace SpectrumAnalyzer

/-- The conversion of a channel: bits 0 to 11 of the word, or bits 16 to 27. -/
def adcBits (channel : Fin 2) (packed : UInt32) : ℕ :=
  packed.toNat / 2 ^ (16 * channel.val) % 2 ^ 12

theorem adcBits_le (channel : Fin 2) (packed : UInt32) : adcBits channel packed ≤ 4095 :=
  Nat.le_of_lt_succ (Nat.mod_lt _ (by decide))

theorem toNat_adcSample (channel : Fin 2) (packed : UInt32) :
    (adcSample channel packed).toNat = adcBits channel packed := by
  have hmask : ∀ v : UInt32, (v &&& 0x0FFF).toUInt16.toNat = v.toNat % 2 ^ 12 := by
    intro v
    have hlow : (0x0FFF : UInt32).toNat = 2 ^ 12 - 1 := by decide
    rw [UInt32.toNat_toUInt16, UInt32.toNat_and, hlow, Nat.and_two_pow_sub_one_eq_mod]
    omega
  rw [adcSample, adcBits]
  split
  · next h => rw [hmask, h, Nat.mul_zero, Nat.pow_zero, Nat.div_one]
  · next h =>
      have hone : channel.val = 1 := by omega
      rw [hmask, hone, UInt32.toNat_shiftRight, Nat.shiftRight_eq_div_pow]
      rfl

/-! ## The mean -/

theorem sum_adcBits_le (channel : Fin 2) (words : List UInt32) :
    (words.map (adcBits channel)).sum ≤ 4095 * words.length := by
  induction words with
  | nil => exact Nat.zero_le _
  | cons packed words ih =>
      have hle := adcBits_le channel packed
      rw [List.map_cons, List.sum_cons, List.length_cons]
      omega

/-- The partial sums stay below `2 ^ 32`. -/
theorem toNat_foldl_adcSum (channel : Fin 2) (words : List UInt32) (sum : UInt32)
    (h : sum.toNat + 4095 * words.length < 2 ^ 32) :
    (words.foldl (fun sum packed => sum + (adcSample channel packed).toUInt32) sum).toNat =
      sum.toNat + (words.map (adcBits channel)).sum := by
  induction words generalizing sum with
  | nil => rfl
  | cons packed words ih =>
      have hle := adcBits_le channel packed
      rw [List.length_cons] at h
      have hadd : (sum + (adcSample channel packed).toUInt32).toNat =
          sum.toNat + adcBits channel packed := by
        rw [UInt32.toNat_add, UInt16.toNat_toUInt32, toNat_adcSample, Nat.mod_eq_of_lt (by omega)]
      rw [List.foldl_cons, ih _ (by omega), hadd, List.map_cons, List.sum_cons, Nat.add_assoc]

/-- The mean of a channel of a block, rounded. -/
def blockMean (channel : Fin 2) (words : Vector UInt32 1024) : ℕ :=
  ((words.toList.map (adcBits channel)).sum + 512) / 1024

theorem blockMean_le (channel : Fin 2) (words : Vector UInt32 1024) :
    blockMean channel words ≤ 4095 := by
  have h := sum_adcBits_le channel words.toList
  rw [Vector.length_toList] at h
  rw [blockMean]
  omega

theorem toInt_toInt32 {v : UInt32} (h : v.toNat < 2 ^ 31) : v.toInt32.toInt = v.toNat := by
  have hbits : 2 * v.toBitVec.toNat < 2 ^ 32 := by
    rw [UInt32.toNat_toBitVec]
    omega
  rw [Int32.toInt, UInt32.toBitVec_toInt32, BitVec.toInt_eq_toNat_of_lt hbits,
    UInt32.toNat_toBitVec]

theorem toInt_adcMean (channel : Fin 2) (words : Vector UInt32 1024) :
    (adcMean channel words).toInt = blockMean channel words := by
  have hle := sum_adcBits_le channel words.toList
  rw [Vector.length_toList] at hle
  have hsum : (adcSum channel words).toNat = (words.toList.map (adcBits channel)).sum := by
    rw [adcSum, toNat_foldl_adcSum channel words.toList 0 (by simp)]
    exact Nat.zero_add _
  have hmean : ((adcSum channel words + 1024 / 2) / 1024).toNat = blockMean channel words := by
    have hhalf : (1024 / 2 : UInt32).toNat = 512 := by decide
    have hsize : (1024 : UInt32).toNat = 1024 := by decide
    rw [UInt32.toNat_div, UInt32.toNat_add, hsum, hhalf, hsize, Nat.mod_eq_of_lt (by omega),
      blockMean]
  have hmean_le := blockMean_le channel words
  rw [adcMean, toInt_toInt32 (by omega), hmean]

/-! ## The stored samples -/

/-- Shifting by four and keeping 16 bits. -/
theorem toInt_toInt16_shiftLeft (x : Int32) :
    ((x <<< 4).toInt16).toInt = (16 * x.toInt).bmod (2 ^ 16) := by
  have hshift : x <<< 4 = 16 * x := by
    have hfour : (4 : Int32).toBitVec.smod 32 = 4#32 := by decide
    have hsixteen : (16 : Int32).toBitVec = BitVec.twoPow 32 4 := by decide
    apply Int32.toBitVec_inj.mp
    rw [Int32.toBitVec_shiftLeft, Int32.toBitVec_mul, hfour, hsixteen, BitVec.mul_comm,
      BitVec.mul_twoPow_eq_shiftLeft]
    rfl
  rw [hshift, Int32.toInt_toInt16, Int32.toInt_mul]
  exact Int.bmod_bmod_of_dvd (by decide)

/-- How far a sample lies above the mean of its block. -/
def deviation (channel : Fin 2) (words : Vector UInt32 1024) (i : Fin 1024) : ℤ :=
  adcBits channel words[i] - blockMean channel words

theorem deviation_bounds (channel : Fin 2) (words : Vector UInt32 1024) (i : Fin 1024) :
    -4095 ≤ deviation channel words i ∧ deviation channel words i ≤ 4095 := by
  have hsample := adcBits_le channel words[i]
  have hmean := blockMean_le channel words
  rw [deviation]
  omega

/-- A stored sample is its deviation in 16 bits, scaled by 16. -/
theorem toInt_channelSamples (channel : Fin 2) (words : Vector UInt32 1024) (i : Fin 1024) :
    ((unpackDualAdc words words channel).channelSamples[i]).toInt =
      (16 * deviation channel words i).bmod (2 ^ 16) := by
  have hsample := adcBits_le channel words[i]
  have hbounds := deviation_bounds channel words i
  have hwide :
      ((adcSample channel words[i]).toUInt32.toInt32).toInt = adcBits channel words[i] := by
    rw [toInt_toInt32, UInt16.toNat_toUInt32, toNat_adcSample]
    rw [UInt16.toNat_toUInt32, toNat_adcSample]
    omega
  have hsub : ((adcSample channel words[i]).toUInt32.toInt32 - adcMean channel words).toInt =
      deviation channel words i := by
    rw [Int32.toInt_sub, hwide, toInt_adcMean]
    change (deviation channel words i).bmod _ = _
    exact Int.bmod_eq_of_le (by omega) (by omega)
  rw [← hsub, ← toInt_toInt16_shiftLeft]
  simp [unpackDualAdc]

/-- The reference model's clip. -/
def saturateQ15 (value : ℤ) : ℤ := max (-32768) (min 32767 value)

/-- Every sample is stored as its saturated deviation, and on the same side of zero. -/
def NeverWraps (words : Vector UInt32 1024) : Prop :=
  ∀ (channel : Fin 2) (i : Fin 1024),
    let stored := ((unpackDualAdc words words channel).channelSamples[i]).toInt
    stored = saturateQ15 (16 * deviation channel words i) ∧
      (0 < deviation channel words i → 0 ≤ stored) ∧
      (deviation channel words i < 0 → stored ≤ 0)

/-- **When unpacking does not wrap.**  It stores every sample saturated exactly when all
samples of the block lie between 2048 below and 2047 above the mean of their channel. -/
theorem neverWraps_iff (words : Vector UInt32 1024) :
    NeverWraps words ↔ ∀ (channel : Fin 2) (i : Fin 1024),
      -2048 ≤ deviation channel words i ∧ deviation channel words i ≤ 2047 := by
  refine forall_congr' fun channel => forall_congr' fun i => ?_
  have hbounds := deviation_bounds channel words i
  rw [toInt_channelSamples]
  generalize deviation channel words i = d at hbounds
  simp only [saturateQ15, Int.bmod_def]
  omega

/-! ## Periodic blocks -/

/-- A block that repeats eight words. -/
def periodic (wave : ℕ → UInt32) : Vector UInt32 1024 := .ofFn fun i => wave (i.val % 8)

theorem sum_periods (f : ℕ → ℕ) (n : ℕ) :
    ((List.range (8 * n)).map fun i => f (i % 8)).sum = n * ((List.range 8).map f).sum := by
  induction n with
  | zero => simp
  | succ n ih =>
      have hperiod : ((List.range 8).map fun i => f ((8 * n + i) % 8)) = (List.range 8).map f := by
        refine List.map_congr_left ?_
        intro i hi
        rw [Nat.mul_add_mod, Nat.mod_eq_of_lt (List.mem_range.mp hi)]
      rw [Nat.mul_succ, List.range_add, List.map_append, List.sum_append, ih, List.map_map]
      rw [show ((fun i => f (i % 8)) ∘ fun i => 8 * n + i) = fun i => f ((8 * n + i) % 8) from rfl,
        hperiod, Nat.succ_mul]

theorem blockMean_periodic (channel : Fin 2) (wave : ℕ → UInt32) :
    blockMean channel (periodic wave) =
      (128 * ((List.range 8).map fun i => adcBits channel (wave i)).sum + 512) / 1024 := by
  have hlist : (periodic wave).toList.map (adcBits channel) =
      (List.range (8 * 128)).map fun i => adcBits channel (wave (i % 8)) := by
    refine List.ext_getElem (by simp) ?_
    intro i hi hi'
    simp [periodic]
  rw [blockMean, hlist, sum_periods (fun i => adcBits channel (wave i))]

/-- A train of pulses on the first channel, away from both rails. -/
def pulses : Vector UInt32 1024 := periodic fun i => if i % 4 = 0 then 3500 else 500

/-- A pulse lies above the mean and is stored as a negative sample. -/
theorem pulse_wraps : ¬ NeverWraps pulses := by
  intro h
  have hdeviation : deviation 0 pulses 0 = 2250 := by
    have hmean : blockMean 0 pulses = 1250 := (blockMean_periodic 0 _).trans (by decide)
    have hsample : adcBits 0 pulses[0] = 3500 := by simp [pulses, periodic, adcBits]
    change (adcBits 0 pulses[0] : ℤ) - blockMean 0 pulses = 2250
    rw [hmean, hsample]
    rfl
  have hstored := (h 0 0).1
  rw [toInt_channelSamples, hdeviation] at hstored
  exact absurd hstored (by decide)

end SpectrumAnalyzer
