import SpectrumAnalyzer.Host.Packet
import SpectrumAnalyzer.Lib.RegisterPolynomial
import SpectrumAnalyzer.Telemetry.EditSafety

/-!
# The CRC as a remainder

Both CRCs, the firmware's 16-bit register and the host's masked integer, hold the
remainder of the message polynomial, moved up by 16 places, plus sixteen ones in front of
the message, modulo `X ^ 16 + X ^ 12 + X ^ 5 + 1` over the field of two elements.

## Main definitions

* `messageBits` — the bits of a message in the order in which they are sent.
* `generator_crc16Polynomial` — the generator that the constant `0x1021` stands for.
* `crc_polynomial` — both CRCs as coefficients of the remainder.
-/

namespace SpectrumAnalyzer.Host

open Polynomial ParityCheck ShiftRegister

/-- The bits of a message: first byte first, most significant bit first. -/
def messageBits (data : List UInt8) : List Bool :=
  data.flatMap fun byte => (List.range 8).map fun i => byte.toNat.testBit (7 - i)

theorem messageBits_eq (data : List UInt8) :
    messageBits data = (data.map UInt8.toBitVec).flatMap msbFirst := by
  rw [List.flatMap_map, messageBits]
  refine List.flatMap_congr ?_
  intro byte _
  refine List.map_congr_left ?_
  intro i hi
  rw [BitVec.getMsbD, decide_eq_true (List.mem_range.mp hi), Bool.true_and]
  rfl

theorem generator_crc16Polynomial :
    generator crc16Polynomial = (X ^ 16 + X ^ 12 + X ^ 5 + 1 : (ZMod 2)[X]) := by
  have hlow : toPolynomial ⟨crc16Polynomial⟩ = (X ^ 12 + X ^ 5 + 1 : (ZMod 2)[X]) := by
    change toPolynomial (⟨0x1021#16⟩ : Word 16) = _
    rw [toPolynomial_apply]
    simp only [Finset.sum_range_succ, Finset.sum_range_zero, Word.bit_apply]
    simp [monomial_one_right_eq_X_pow]
    ring
  rw [generator, hlow, ← add_assoc, ← add_assoc]

/-- Sixteen ones. -/
theorem toPolynomial_ones :
    toPolynomial (⟨0xFFFF#16⟩ : Word 16) = ∑ i ∈ Finset.range 16, (X : (ZMod 2)[X]) ^ i := by
  rw [toPolynomial_apply]
  refine Finset.sum_congr rfl ?_
  intro i hi
  have hbit : Word.bit i (⟨0xFFFF#16⟩ : Word 16) = 1 := by
    rw [Word.bit_eq_one_iff]
    exact (by decide : ∀ i < 16, (0xFFFF#16).getLsbD i = true) i (Finset.mem_range.mp hi)
  rw [hbit, monomial_one_right_eq_X_pow]

/-- **The CRC is its polynomial definition.**  Bit `k` of the firmware's CRC is the
coefficient of `X ^ k` in the remainder, and the host's CRC is the same number. -/
theorem crc_polynomial (data : List UInt8) :
    (∀ k, ((ofBits (messageBits data) * X ^ 16 +
        (∑ i ∈ Finset.range 16, X ^ i) * X ^ (8 * data.length)) %ₘ
          (X ^ 16 + X ^ 12 + X ^ 5 + 1 : (ZMod 2)[X])).coeff k =
        if (crc16CcittFalse data).toNat.testBit k then 1 else 0) ∧
      crc16 data = (crc16CcittFalse data).toNat := by
  have hremainder : (ofBits (messageBits data) * X ^ 16 +
      (∑ i ∈ Finset.range 16, X ^ i) * X ^ (8 * data.length)) %ₘ
        (X ^ 16 + X ^ 12 + X ^ 5 + 1 : (ZMod 2)[X]) =
      toPolynomial ⟨(crc16CcittFalse data).toBitVec⟩ := by
    rw [toBitVec_crc16CcittFalse, toPolynomial_run _ (by decide), generator_crc16Polynomial,
      ← messageBits_eq, toPolynomial_ones, List.length_map]
  refine ⟨?_, crc16_eq data⟩
  intro k
  rw [hremainder, coeff_toPolynomial]
  rfl

end SpectrumAnalyzer.Host
